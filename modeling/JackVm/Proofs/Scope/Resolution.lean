import JackVm.Proofs.Scope.History

/-!
# Resolution by history

What a name resolves to can be read off the history of a table. It is the variable that the name
was last accepted for in the subroutine, if the scope of the subroutine has not been emptied since,
and else the same for the class. A scope accepts a name at most once until it is emptied, so there
is one such declaration for each scope at most.
-/

namespace JackVm

def ScopeCall.isClassLevel : ScopeCall → Bool
  | startClass => true
  | startSubroutine => false
  | declare d => d.kind.isClassLevel

namespace ScopeTable

/-- A declaration of a history that was accepted as a variable, with the calls before it. Its scope
has not been emptied since. -/
structure InForce (history : ScopeHistory) (d : Declaration) (v : Variable)
    (earlier : ScopeHistory) : Prop where
  made : ∃ later, history = later ++ .declare d :: earlier ∧
    ∀ call ∈ later, call.empties d.kind.isClassLevel = false
  accepted : (after earlier).answer d = .ok v

/-- What the history of a table says of the names that are looked up in it. -/
structure ResolvesByHistory (history : ScopeHistory) : Prop where
  inner (d : Declaration) (v : Variable) (earlier : ScopeHistory) : InForce history d v earlier →
    d.kind.isClassLevel = false → (after history).find? d.name = some v
  outer (d : Declaration) (v : Variable) (earlier : ScopeHistory) : InForce history d v earlier →
    d.kind.isClassLevel = true →
    (∀ d' v' earlier', InForce history d' v' earlier' → d'.kind.isClassLevel = false →
      d'.name ≠ d.name) →
    (after history).find? d.name = some v
  unknown (name : String) : (∀ d v earlier, InForce history d v earlier → d.name ≠ name) →
    (after history).find? name = none
  /-- At most one declaration of a name is in force for each of the scopes. -/
  unique (d d' : Declaration) (v v' : Variable) (earlier earlier' : ScopeHistory) :
    InForce history d v earlier → InForce history d' v' earlier' → d.name = d'.name →
    d.kind.isClassLevel = d'.kind.isClassLevel → d = d' ∧ v = v' ∧ earlier = earlier'
  frame (d : Declaration) (name : String) : d.kind.isClassLevel = false → d.name ≠ name →
    (after (.declare d :: history)).find? name = (after history).find? name
  /-- With a new subroutine the table is what the calls for the class alone have made of it. -/
  restored : after (.startSubroutine :: history) = after (history.filter ScopeCall.isClassLevel)

variable {history earlier : ScopeHistory} {call : ScopeCall} {d : Declaration} {v : Variable}
  {name : String}

theorem inForce_cons : InForce (call :: history) d v earlier ↔
    (call = .declare d ∧ history = earlier ∧ (after earlier).answer d = .ok v) ∨
      (call.empties d.kind.isClassLevel = false ∧ InForce history d v earlier) := by
  constructor
  · rintro ⟨⟨later, split, kept⟩, accepted⟩
    cases later with
    | nil =>
      rw [List.nil_append, List.cons.injEq] at split
      exact .inl ⟨split.1, split.2, accepted⟩
    | cons last later =>
      rw [List.cons_append, List.cons.injEq] at split
      rw [split.1]
      exact .inr ⟨kept last List.mem_cons_self,
        ⟨later, split.2, fun c mem => kept c (List.mem_cons_of_mem _ mem)⟩, accepted⟩
  · rintro (⟨last, same, accepted⟩ | ⟨keeps, ⟨later, split, kept⟩, accepted⟩)
    · rw [last, same]
      exact ⟨⟨[], rfl, by simp⟩, accepted⟩
    · rw [split]
      exact ⟨⟨call :: later, rfl, List.forall_mem_cons.mpr ⟨keeps, kept⟩⟩, accepted⟩

theorem InForce.name_eq (h : InForce history d v earlier) : v.name = d.name := by
  rw [eq_of_answer h.accepted]

/-- The variables that a scope has taken are those of the declarations in force. -/
theorem mem_taken_iff {classLevel : Bool} : v ∈ taken classLevel history ↔
    ∃ d earlier, InForce history d v earlier ∧ d.kind.isClassLevel = classLevel := by
  induction history with
  | nil =>
    constructor
    · intro mem
      cases mem
    · rintro ⟨d, earlier, ⟨⟨later, split, -⟩, -⟩, -⟩
      simp at split
  | cons call history ih =>
    rw [mem_taken_cons]
    constructor
    · rintro (⟨d, last, own, accepted⟩ | ⟨keeps, mem⟩)
      · exact ⟨d, history, inForce_cons.mpr (.inl ⟨last, rfl, accepted⟩), own⟩
      · obtain ⟨d, earlier, force, own⟩ := ih.mp mem
        rw [← own] at keeps
        exact ⟨d, earlier, inForce_cons.mpr (.inr ⟨keeps, force⟩), own⟩
    · rintro ⟨d, earlier, force, own⟩
      rcases inForce_cons.mp force with ⟨last, rfl, accepted⟩ | ⟨keeps, force⟩
      · exact .inl ⟨d, last, own, accepted⟩
      · rw [own] at keeps
        exact .inr ⟨keeps, ih.mpr ⟨d, earlier, force, own⟩⟩

theorem InForce.mem_names (h : InForce history d v earlier) :
    d.name ∈ (taken d.kind.isClassLevel history).map Variable.name := by
  rw [← h.name_eq]
  exact List.mem_map_of_mem (mem_taken_iff.mpr ⟨d, earlier, h, rfl⟩)

theorem InForce.not_accepted {d' : Declaration} {v' : Variable} (h : InForce history d v earlier)
    (name : d.name = d'.name) (level : d.kind.isClassLevel = d'.kind.isClassLevel) :
    (after history).answer d' ≠ .ok v' := by
  have names := h.mem_names
  rw [name, level] at names
  rw [answer_alreadyDefined_iff.mpr names]
  exact nofun

theorem InForce.unique {d' : Declaration} {v' : Variable} {earlier' : ScopeHistory}
    (h : InForce history d v earlier) (h' : InForce history d' v' earlier')
    (name : d.name = d'.name) (level : d.kind.isClassLevel = d'.kind.isClassLevel) :
    d = d' ∧ v = v' ∧ earlier = earlier' := by
  induction history with
  | nil =>
    obtain ⟨later, split, -⟩ := h.made
    simp at split
  | cons call history ih =>
    rcases inForce_cons.mp h with ⟨last, rfl, accepted⟩ | ⟨-, h⟩
    · rcases inForce_cons.mp h' with ⟨last', rfl, accepted'⟩ | ⟨-, h'⟩
      · rw [last] at last'
        cases last'
        rw [accepted] at accepted'
        exact ⟨rfl, Except.ok.inj accepted', rfl⟩
      · exact absurd accepted (h'.not_accepted name.symm level.symm)
    · rcases inForce_cons.mp h' with ⟨last', rfl, accepted'⟩ | ⟨-, h'⟩
      · exact absurd accepted' (h.not_accepted name level)
      · exact ih h h'

/-! ## One scope apart from the other -/

theorem startSubroutine_step (t : ScopeTable) (call : ScopeCall) :
    (t.step call).startSubroutine =
      if call.isClassLevel then t.startSubroutine.step call else t.startSubroutine := by
  cases call with
  | startClass => rfl
  | startSubroutine => rfl
  | declare d =>
    rw [step, step, declare, declare]
    cases own : d.kind.isClassLevel with
    | true =>
      have before : t.scope d.kind = t.classScope := if_pos own
      have behind : t.startSubroutine.scope d.kind = t.classScope := if_pos own
      rw [before, behind]
      cases t.classScope.declare d.name d.type d.kind <;>
        simp [ScopeCall.isClassLevel, own, withScope, startSubroutine]
    | false =>
      cases (t.scope d.kind).declare d.name d.type d.kind <;>
        simp [ScopeCall.isClassLevel, own, withScope, startSubroutine]

theorem after_filter (history : ScopeHistory) :
    after (history.filter ScopeCall.isClassLevel) = (after history).startSubroutine := by
  induction history with
  | nil => rfl
  | cons call history ih =>
    rw [after, startSubroutine_step, List.filter_cons, ← ih]
    split <;> rfl

theorem find?_step_of_ne (t : ScopeTable) (inner : d.kind.isClassLevel = false)
    (other : d.name ≠ name) : (t.step (.declare d)).find? name = t.find? name := by
  cases answered : t.answer d with
  | error e => rw [step_of_error answered]
  | ok v =>
    obtain ⟨s, run, levels⟩ := step_of_ok answered
    rw [inner] at run levels
    have subroutineScope : (t.step (.declare d)).subroutineScope = s := levels false
    have classScope : (t.step (.declare d)).classScope = t.classScope := levels true
    have kept : s.find? name = t.subroutineScope.find? name := by
      rw [Scope.find?_of_declare run, if_neg other]
      rfl
    rw [find?, find?, subroutineScope, classScope, kept]

/-- A name stands for what it was accepted as in the subroutine, else for what it was accepted as in
the class, as far as the scopes have not been emptied since. -/
theorem resolution_follows_history (history : ScopeHistory) : ResolvesByHistory history where
  inner d v earlier force level := by
    refine find?_after_iff.mpr (.inl ⟨?_, force.name_eq⟩)
    exact mem_taken_iff.mpr ⟨d, earlier, force, level⟩
  outer d v earlier force level visible := by
    refine find?_after_iff.mpr (.inr ⟨?_, mem_taken_iff.mpr ⟨d, earlier, force, level⟩,
      force.name_eq⟩)
    intro mem
    obtain ⟨w, mem, named⟩ := List.mem_map.mp mem
    obtain ⟨d', earlier', force', level'⟩ := mem_taken_iff.mp mem
    exact visible d' w earlier' force' level' (force'.name_eq.symm.trans named)
  unknown name absent := by
    cases found : (after history).find? name with
    | none => rfl
    | some v =>
      obtain ⟨mem, named⟩ := mem_taken_of_find? found
      obtain ⟨d, earlier, force, -⟩ := mem_taken_iff.mp mem
      exact absurd (force.name_eq.symm.trans named) (absent d v earlier force)
  unique _ _ _ _ _ _ := InForce.unique
  frame _ _ := find?_step_of_ne (after history)
  restored := (after_filter history).symm

/-- In the subroutine a local variable hides the field of its name. After it the field is back. -/
theorem resolution_follows_history_hiding :
    ∃ history earlier earlier' : ScopeHistory,
      InForce history ⟨"x", "boolean", .local⟩ ⟨"x", "boolean", .local, 0⟩ earlier ∧
      InForce (.startSubroutine :: history) ⟨"x", "int", .field⟩ ⟨"x", "int", .field, 0⟩ earlier' ∧
      (after history).find? "x" = some ⟨"x", "boolean", .local, 0⟩ ∧
      (after (.startSubroutine :: history)).find? "x" = some ⟨"x", "int", .field, 0⟩ := by
  let outer : Declaration := ⟨"x", "int", .field⟩
  let inner : Declaration := ⟨"x", "boolean", .local⟩
  let history : ScopeHistory := [.declare inner, .declare outer]
  have hides : InForce history inner ⟨"x", "boolean", .local, 0⟩ [.declare outer] :=
    ⟨⟨[], rfl, by simp⟩, by decide +kernel⟩
  have hidden : InForce (.startSubroutine :: history) outer ⟨"x", "int", .field, 0⟩ [] :=
    ⟨⟨[.startSubroutine, .declare inner], rfl, by decide⟩, by decide +kernel⟩
  refine ⟨history, _, _, hides, hidden, ?_, ?_⟩
  · exact (resolution_follows_history history).inner inner _ _ hides rfl
  · apply (resolution_follows_history (.startSubroutine :: history)).outer outer _ _ hidden rfl
    intro d v earlier force level
    have kept : ScopeCall.empties d.kind.isClassLevel .startSubroutine = false := by
      rcases inForce_cons.mp force with ⟨last, -⟩ | ⟨kept, -⟩
      · cases last
      · exact kept
    rw [level] at kept
    cases kept

end ScopeTable

end JackVm

import Mathlib.Data.List.Nodup
import JackVm.Proofs.Translation.ScopeTable

/-!
# Histories of scope tables

A table of scopes starts empty and changes with the calls that are made of it. Whatever calls they
were, each scope holds the variables that it took since it was last emptied. Their names are all
different, and those of one kind are numbered from zero in the order of their declarations.
-/

namespace JackVm

/-- What may be asked of a table to change it. -/
inductive ScopeCall where
  | startClass
  | startSubroutine
  | declare (d : Declaration)
  deriving DecidableEq, Repr

def ScopeCall.empties (classLevel : Bool) : ScopeCall → Bool
  | startClass => true
  | startSubroutine => !classLevel
  | declare _ => false

/-- The calls that a table has seen since it was made, the latest first. -/
abbrev ScopeHistory : Type :=
  List ScopeCall

/-- The variables of a scope, in the order of their names. -/
def Scope.contents (s : Scope) : List Variable :=
  s.declared.toList.map Prod.snd

namespace ScopeTable

/-- What a table answers to a declaration. -/
def answer (t : ScopeTable) (d : Declaration) : Except DeclarationError Variable :=
  match t.declare d.name d.type d.kind with
  | .ok v _ => .ok v
  | .error e _ => .error e

/-- The table that a call leaves, whether it is refused or not. -/
def step (t : ScopeTable) : ScopeCall → ScopeTable
  | .startClass => t.startClass
  | .startSubroutine => t.startSubroutine
  | .declare d =>
    match t.declare d.name d.type d.kind with
    | .ok _ changed => changed
    | .error _ left => left

def after : ScopeHistory → ScopeTable
  | [] => {}
  | call :: earlier => (after earlier).step call

/-- The variables that a scope has taken since it was last emptied, as they were answered. -/
def taken (classLevel : Bool) : ScopeHistory → List Variable
  | [] => []
  | .declare d :: earlier =>
    if d.kind.isClassLevel = classLevel then
      taken classLevel earlier ++ ((after earlier).answer d).toOption.toList
    else taken classLevel earlier
  | call :: earlier => if call.empties classLevel then [] else taken classLevel earlier

/-- Two tables that give the same answers. -/
structure AnswersLike (t u : ScopeTable) : Prop where
  find? (name : String) : t.find? name = u.find? name
  count (kind : VariableKind) : t.count kind = u.count kind
  answer (d : Declaration) : t.answer d = u.answer d

/-- What holds of a table that has seen some calls. -/
structure Consistent (history : ScopeHistory) : Prop where
  contents (classLevel : Bool) :
    ((after history).level classLevel).contents.Perm (taken classLevel history)
  names (classLevel : Bool) : ((taken classLevel history).map Variable.name).Nodup
  /-- The numbers of one kind are dense, and in the order of the declarations. -/
  indices (kind : VariableKind) :
    ((taken kind.isClassLevel history).filter (·.kind = kind)).map Variable.index =
      List.range ((after history).count kind)
  count_le (kind : VariableKind) : (after history).count kind ≤ 65535
  /-- No two names share a slot of the machine. -/
  apart (name name' : String) (v v' : Variable) : (after history).find? name = some v →
    (after history).find? name' = some v' → v.kind = v'.kind → v.index = v'.index → name = name'
  alreadyDefined (d : Declaration) :
    (after history).answer d = .error (.alreadyDefined d.name) ↔
      d.name ∈ (taken d.kind.isClassLevel history).map Variable.name
  tooMany (d : Declaration) :
    (after history).answer d = .error .tooManyVariables ↔
      d.name ∉ (taken d.kind.isClassLevel history).map Variable.name ∧
        (after history).count d.kind = 65535
  accepted (d : Declaration) : d.name ∉ (taken d.kind.isClassLevel history).map Variable.name →
    (after history).count d.kind ≠ 65535 →
    (after history).answer d = .ok ⟨d.name, d.type, d.kind, (after history).count d.kind⟩
  /-- A refusal leaves no mark on what comes later. -/
  refused (d : Declaration) (e : DeclarationError) (later : ScopeHistory) :
    (after history).answer d = .error e →
    AnswersLike (after (later ++ .declare d :: history)) (after (later ++ history))

end ScopeTable

/-! ## One scope and the variables it took -/

theorem numbered_indices (earlier declarations : List Declaration) (kind : VariableKind) :
    ((numbered earlier declarations).filter (·.kind = kind)).map Variable.index =
      List.range' (earlier.countP (·.kind = kind)) (declarations.countP (·.kind = kind)) := by
  induction declarations generalizing earlier with
  | nil => rfl
  | cons d declarations ih =>
    have rest := ih (earlier ++ [d])
    rw [List.countP_append, List.countP_singleton] at rest
    by_cases same : d.kind = kind
    · simp [numbered, same, rest, List.range'_succ]
    · simp [numbered, same, rest]

theorem Scope.mem_contents_iff (s : Scope) (v : Variable) :
    v ∈ s.contents ↔ ∃ name, s.find? name = some v := by
  constructor
  · intro mem
    obtain ⟨entry, stored, rfl⟩ := List.mem_map.mp mem
    exact ⟨entry.1, Std.TreeMap.mem_toList_iff_getElem?_eq_some.mp stored⟩
  · rintro ⟨name, found⟩
    have entry : (name, v) ∈ s.declared.toList :=
      Std.TreeMap.mem_toList_iff_getElem?_eq_some.mpr found
    exact List.mem_map_of_mem entry

/-- A scope that holds some variables, numbered in this order. -/
def Scope.Holds (s : Scope) (held : List Variable) : Prop :=
  ∃ declarations, s.Represents declarations ∧ Admissible declarations ∧
    held = numbered [] declarations

namespace Scope.Holds

variable {s t : Scope} {held : List Variable} {name type : String} {kind : VariableKind}
  {v : Variable}

theorem empty : ({} : Scope).Holds [] :=
  ⟨[], represents_empty, admissible_nil, rfl⟩

theorem find?_eq (h : s.Holds held) (name : String) :
    s.find? name = held.find? (·.name == name) := by
  obtain ⟨declarations, represents, -, rfl⟩ := h
  exact represents.find? name

theorem nodup (h : s.Holds held) : (held.map Variable.name).Nodup := by
  obtain ⟨declarations, -, admissible, rfl⟩ := h
  rw [numbered_map_name]
  exact admissible.nodup

theorem count_le (h : s.Holds held) (kind : VariableKind) : s.tally.count kind ≤ maxVariables := by
  obtain ⟨declarations, represents, admissible, -⟩ := h
  rw [represents.count]
  exact admissible.count_le kind

theorem indices (h : s.Holds held) (kind : VariableKind) :
    (held.filter (·.kind = kind)).map Variable.index = List.range (s.tally.count kind) := by
  obtain ⟨declarations, represents, -, rfl⟩ := h
  rw [numbered_indices, represents.count, List.range_eq_range', List.countP_nil]

theorem contains_iff (h : s.Holds held) (name : String) :
    s.declared.contains name ↔ name ∈ held.map Variable.name := by
  obtain ⟨declarations, represents, -, rfl⟩ := h
  rw [represents.contains_iff, numbered_map_name]

theorem declare (h : s.Holds held) (run : s.declare name type kind = .ok v t) :
    t.Holds (held ++ [v]) := by
  obtain ⟨declarations, represents, admissible, rfl⟩ := h
  have room := represents.of_declare (d := ⟨name, type, kind⟩) run
  have new : v = ⟨name, type, kind, declarations.countP (·.kind = kind)⟩ := by
    have found := Scope.find?_of_declare run name
    rw [if_pos rfl, room.2.2.find?, variableNamed?_append_singleton _ _ _ room.1, if_pos rfl]
      at found
    exact (Option.some.inj found).symm
  refine ⟨declarations ++ [⟨name, type, kind⟩], room.2.2, ?_, ?_⟩
  · exact (admissible_append_singleton ..).mpr ⟨admissible, room.1, room.2.1⟩
  · rw [numbered_append, new]
    rfl

theorem find?_eq_some_iff (h : s.Holds held) :
    s.find? name = some v ↔ v ∈ held ∧ v.name = name := by
  have named {w : Variable} (found : held.find? (fun u => u.name == name) = some w) :
      w.name = name := by
    have := List.find?_some found
    exact beq_iff_eq.mp this
  rw [h.find?_eq]
  constructor
  · intro found
    exact ⟨List.mem_of_find?_eq_some found, named found⟩
  · intro mem
    cases found : held.find? (fun u => u.name == name) with
    | none => exact absurd (beq_iff_eq.mpr mem.2) (List.find?_eq_none.mp found v mem.1)
    | some w =>
      have same : w.name = v.name := (named found).trans mem.2.symm
      rw [List.inj_on_of_nodup_map h.nodup (List.mem_of_find?_eq_some found) mem.1 same]

theorem contents_perm (h : s.Holds held) : s.contents.Perm held := by
  have keys : s.contents.map Variable.name = s.declared.keys := by
    rw [Scope.contents, List.map_map, ← Std.TreeMap.map_fst_toList_eq_keys]
    apply List.map_congr_left
    intro entry mem
    have found : s.find? entry.1 = some entry.2 :=
      Std.TreeMap.mem_toList_iff_getElem?_eq_some.mp mem
    exact (h.find?_eq_some_iff.mp found).2
  have nodup : s.contents.Nodup := by
    apply List.Nodup.of_map Variable.name
    rw [keys]
    exact Std.TreeMap.nodup_keys
  rw [List.perm_ext_iff_of_nodup nodup (List.Nodup.of_map _ h.nodup)]
  intro w
  rw [mem_contents_iff]
  constructor
  · rintro ⟨name, found⟩
    exact (h.find?_eq_some_iff.mp found).1
  · intro mem
    exact ⟨w.name, h.find?_eq_some_iff.mpr ⟨mem, rfl⟩⟩

end Scope.Holds

namespace ScopeTable

variable {t : ScopeTable} {d : Declaration} {v : Variable} {e : DeclarationError}
  {history : ScopeHistory} {name : String}

/-! ## What a call does to a table -/

theorem answer_eq (t : ScopeTable) (d : Declaration) :
    t.answer d =
      if (t.level d.kind.isClassLevel).declared.contains d.name then
        .error (.alreadyDefined d.name)
      else if maxVariables ≤ t.count d.kind then .error .tooManyVariables
      else .ok ⟨d.name, d.type, d.kind, t.count d.kind⟩ := by
  have level : t.level d.kind.isClassLevel = t.scope d.kind := rfl
  rw [level, answer, declare, count, Scope.declare]
  dsimp only
  split_ifs <;> rfl

theorem eq_of_answer (accepted : t.answer d = .ok v) :
    v = ⟨d.name, d.type, d.kind, t.count d.kind⟩ := by
  rw [answer_eq] at accepted
  split_ifs at accepted
  cases accepted
  rfl

theorem step_of_error (refused : t.answer d = .error e) : t.step (.declare d) = t := by
  rw [answer] at refused
  rw [step]
  cases run : t.declare d.name d.type d.kind with
  | ok v u =>
    rw [run] at refused
    cases refused
  | error e u => exact eq_of_declare_eq_error run

theorem step_of_ok (accepted : t.answer d = .ok v) :
    ∃ s, (t.level d.kind.isClassLevel).declare d.name d.type d.kind = .ok v s ∧
      ∀ classLevel, (t.step (.declare d)).level classLevel =
        if d.kind.isClassLevel = classLevel then s else t.level classLevel := by
  rw [answer, declare] at accepted
  rw [step, declare]
  show ∃ s, (t.scope d.kind).declare d.name d.type d.kind = .ok v s ∧ _
  cases run : (t.scope d.kind).declare d.name d.type d.kind with
  | error e s =>
    rw [run] at accepted
    cases accepted
  | ok w s =>
    rw [run] at accepted
    cases accepted
    refine ⟨s, rfl, fun classLevel => ?_⟩
    show (t.withScope d.kind s).level classLevel = _
    unfold withScope level
    cases d.kind.isClassLevel <;> cases classLevel <;> rfl

/-! ## What a table holds -/

theorem holds (classLevel : Bool) (history : ScopeHistory) :
    ((after history).level classLevel).Holds (taken classLevel history) := by
  induction history with
  | nil => cases classLevel <;> exact .empty
  | cons call earlier ih =>
    cases call with
    | startClass => cases classLevel <;> exact .empty
    | startSubroutine =>
      cases classLevel with
      | false => exact .empty
      | true => exact ih
    | declare d =>
      rw [after, taken]
      cases accepted : (after earlier).answer d with
      | error e =>
        rw [step_of_error accepted]
        simpa [Except.toOption] using ih
      | ok v =>
        obtain ⟨s, run, levels⟩ := step_of_ok accepted
        rw [levels]
        by_cases own : d.kind.isClassLevel = classLevel
        · rw [own] at run
          rw [if_pos own, if_pos own]
          exact ih.declare run
        · rw [if_neg own, if_neg own]
          exact ih

theorem mem_taken_cons {classLevel : Bool} {call : ScopeCall} :
    v ∈ taken classLevel (call :: history) ↔
      (∃ d, call = .declare d ∧ d.kind.isClassLevel = classLevel ∧
        (after history).answer d = .ok v) ∨
      (call.empties classLevel = false ∧ v ∈ taken classLevel history) := by
  cases call with
  | startClass => simp [taken, ScopeCall.empties]
  | startSubroutine => cases classLevel <;> simp [taken, ScopeCall.empties]
  | declare d =>
    have kept : ScopeCall.empties classLevel (.declare d) = false := rfl
    rw [taken]
    by_cases own : d.kind.isClassLevel = classLevel
    · have answered : v ∈ ((after history).answer d).toOption.toList ↔
          (after history).answer d = .ok v := by
        cases (after history).answer d with
        | error e => simp [Except.toOption]
        | ok w => simp [Except.toOption, eq_comm (a := v)]
      rw [if_pos own, List.mem_append, answered]
      simp [own, kept, or_comm]
    · simp [own, kept]

theorem isClassLevel_of_mem_taken {classLevel : Bool} (mem : v ∈ taken classLevel history) :
    v.kind.isClassLevel = classLevel := by
  induction history with
  | nil => cases mem
  | cons call earlier ih =>
    rcases mem_taken_cons.mp mem with ⟨d, -, own, accepted⟩ | ⟨-, mem⟩
    · rw [eq_of_answer accepted]
      exact own
    · exact ih mem

theorem find?_after_iff : (after history).find? name = some v ↔
    (v ∈ taken false history ∧ v.name = name) ∨
      (name ∉ (taken false history).map Variable.name ∧
        v ∈ taken true history ∧ v.name = name) := by
  have inner := holds false history
  have outer := holds true history
  have hidden : ((after history).subroutineScope.find? name).isSome ↔
      name ∈ (taken false history).map Variable.name := by
    rw [← inner.contains_iff, Scope.contains_eq_isSome_find?]
    rfl
  rw [← inner.find?_eq_some_iff, ← outer.find?_eq_some_iff, ← hidden, find?]
  show _ ↔ (after history).subroutineScope.find? name = some v ∨
    _ ∧ (after history).classScope.find? name = some v
  cases (after history).subroutineScope.find? name <;> simp

theorem mem_taken_of_find? (found : (after history).find? name = some v) :
    v ∈ taken v.kind.isClassLevel history ∧ v.name = name := by
  rcases find?_after_iff.mp found with ⟨mem, named⟩ | ⟨-, mem, named⟩
  · rw [isClassLevel_of_mem_taken mem]
    exact ⟨mem, named⟩
  · rw [isClassLevel_of_mem_taken mem]
    exact ⟨mem, named⟩

theorem contains_after_iff (classLevel : Bool) :
    ((after history).level classLevel).declared.contains name ↔
      name ∈ (taken classLevel history).map Variable.name :=
  (holds classLevel history).contains_iff name

theorem answer_alreadyDefined_iff : (after history).answer d = .error (.alreadyDefined d.name) ↔
    d.name ∈ (taken d.kind.isClassLevel history).map Variable.name := by
  rw [answer_eq, ← contains_after_iff]
  split_ifs with taken full <;> simp [taken]

theorem count_le_after (history : ScopeHistory) (kind : VariableKind) :
    (after history).count kind ≤ maxVariables :=
  (holds kind.isClassLevel history).count_le kind

theorem taken_indices (history : ScopeHistory) (kind : VariableKind) :
    ((taken kind.isClassLevel history).filter (·.kind = kind)).map Variable.index =
      List.range ((after history).count kind) :=
  (holds kind.isClassLevel history).indices kind

theorem name_eq_of_slot_eq {name' : String} {v' : Variable}
    (found : (after history).find? name = some v) (found' : (after history).find? name' = some v')
    (kind : v.kind = v'.kind) (index : v.index = v'.index) : name = name' := by
  obtain ⟨mem, named⟩ := mem_taken_of_find? found
  obtain ⟨mem', named'⟩ := mem_taken_of_find? found'
  rw [← kind] at mem'
  have nodup : (((taken v.kind.isClassLevel history).filter (·.kind = v.kind)).map
      Variable.index).Nodup := by
    rw [taken_indices]
    exact List.nodup_range
  have same := List.inj_on_of_nodup_map nodup (List.mem_filter.mpr ⟨mem, by simp⟩)
    (List.mem_filter.mpr ⟨mem', by simp [kind]⟩) index
  rw [← named, ← named', same]

theorem after_refused (refused : (after history).answer d = .error e) (later : ScopeHistory) :
    after (later ++ .declare d :: history) = after (later ++ history) := by
  induction later with
  | nil => exact step_of_error refused
  | cons call later ih => exact congrArg (step · call) ih

/-- Whatever calls a table has seen, its scopes hold what they took, each variable in a slot of its
own, and what was refused might as well not have been asked. -/
theorem tables_stay_consistent (history : ScopeHistory) : Consistent history where
  contents classLevel := (holds classLevel history).contents_perm
  names classLevel := (holds classLevel history).nodup
  indices := taken_indices history
  count_le := count_le_after history
  apart _ _ _ _ := name_eq_of_slot_eq
  alreadyDefined _ := answer_alreadyDefined_iff
  tooMany d := by
    have room := count_le_after history d.kind
    rw [answer_eq, ← contains_after_iff]
    split_ifs with taken full
    · simp [taken]
    · have all : (after history).count d.kind = 65535 := Nat.le_antisymm room full
      simp [taken, all]
    · have notAll : (after history).count d.kind ≠ 65535 :=
        fun same => full (Nat.le_of_eq same.symm)
      simp [taken, notAll]
  accepted d fresh notFull := by
    have room := count_le_after history d.kind
    rw [← contains_after_iff] at fresh
    rw [answer_eq, if_neg fresh, if_neg (Nat.not_le_of_lt (Nat.lt_of_le_of_ne room notFull))]
  refused d e later refused := by
    rw [after_refused refused]
    exact ⟨fun _ => rfl, fun _ => rfl, fun _ => rfl⟩

/-- The name of a class variable can be given to another one of the class only in vain, even if it
names a local variable by now. -/
theorem tables_stay_consistent_refusing :
    ∃ history : ScopeHistory,
      taken true history = [⟨"x", "int", .static, 0⟩, ⟨"y", "int", .field, 0⟩] ∧
      (after history).find? "x" = some ⟨"x", "char", .local, 0⟩ ∧
      (after history).answer ⟨"x", "int", .field⟩ = .error (.alreadyDefined "x") ∧
      ∀ later : ScopeHistory, AnswersLike
        (after (later ++ .declare ⟨"x", "int", .field⟩ :: history)) (after (later ++ history)) := by
  let history : ScopeHistory := [.declare ⟨"x", "char", .local⟩, .startSubroutine,
    .declare ⟨"y", "int", .field⟩, .declare ⟨"x", "int", .static⟩]
  have refused : (after history).answer ⟨"x", "int", .field⟩ = .error (.alreadyDefined "x") := by
    decide +kernel
  refine ⟨history, by decide +kernel, by decide +kernel, refused, fun later => ?_⟩
  exact (tables_stay_consistent history).refused _ _ later refused

end ScopeTable

end JackVm

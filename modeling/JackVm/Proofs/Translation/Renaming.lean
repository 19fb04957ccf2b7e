import JackVm.CompileError
import JackVm.Proofs.Syntax.Identifier

/-!
# Renaming instructions, errors and scopes

A renaming changes the parts of the names of functions and of called functions. Segments, indices,
labels and counts stay. In a scope it changes names and types, so that a name and its image find
variables that differ in nothing else.
-/

namespace JackVm

namespace Renaming

variable (r : Renaming)

/-- Renames each part of a dotted name that is an identifier. -/
def dotted (name : String) : String :=
  ".".intercalate ((name.toList.splitOn '.').map fun part => r (String.ofList part))

private theorem splitOn_qualified {qualifier name : String} (first : '.' ∉ qualifier.toList)
    (second : '.' ∉ name.toList) :
    (qualifier ++ "." ++ name).toList.splitOn '.' = [qualifier.toList, name.toList] := by
  have joined : (qualifier ++ "." ++ name).toList =
      ['.'].intercalate [qualifier.toList, name.toList] := by
    simp [List.intercalate]
  have apart : ∀ part ∈ [qualifier.toList, name.toList], '.' ∉ part := by
    simp [first, second]
  rw [joined, List.splitOn_intercalate '.' apart (List.cons_ne_nil _ _)]

theorem dotted_qualified {qualifier name : String} (first : IsWord qualifier)
    (second : IsWord name) :
    r.dotted (qualifier ++ "." ++ name) = r qualifier ++ "." ++ r name := by
  rw [dotted, splitOn_qualified first.dot_not_mem second.dot_not_mem]
  simp only [List.map_cons, List.map_nil, String.ofList_toList]
  rfl

private theorem isWord_library {name : String} (h : name ∈ libraryNames) : IsWord name := by
  have parts : ∀ name ∈ libraryNames, name.toList.all isWordPart := by decide
  exact List.all_eq_true.mp (parts name h)

theorem dotted_library (qualifier name : String) (first : qualifier ∈ libraryNames)
    (second : name ∈ libraryNames) :
    r.dotted (qualifier ++ "." ++ name) = qualifier ++ "." ++ name := by
  rw [r.dotted_qualified (isWord_library first) (isWord_library second), r.apply_library first,
    r.apply_library second]

@[simp] theorem dotted_identity (name : String) : identity.dotted name = name := by
  have joined : (identity.dotted name).toList = name.toList := by
    rw [dotted, String.toList_intercalate, List.map_map]
    simp only [Function.comp_def, identity_apply, String.toList_ofList, List.map_id_fun']
    exact List.intercalate_splitOn '.'
  exact String.toList_inj.mp joined

/-- A word next to its image. -/
structure Words (x x' : String) : Prop where
  renamed : x' = r x
  word : IsWord x

theorem Words.qualified {r : Renaming} {x x' y y' : String} (first : r.Words x x')
    (second : r.Words y y') : x' ++ "." ++ y' = r.dotted (x ++ "." ++ y) := by
  rw [r.dotted_qualified first.word second.word, first.renamed, second.renamed]

end Renaming

def Instruction.rename (r : Renaming) : Instruction → Instruction
  | .function name locals => .function (r.dotted name) locals
  | .call name arguments => .call (r.dotted name) arguments
  | other => other

@[simp] theorem Instruction.rename_identity (i : Instruction) : i.rename .identity = i := by
  cases i <;> simp [rename]

def DeclarationError.rename (r : Renaming) : DeclarationError → DeclarationError
  | .alreadyDefined name => .alreadyDefined (r name)
  | .tooManyVariables => .tooManyVariables

def Problem.rename (r : Renaming) : Problem → Problem
  | .declaration error => .declaration (error.rename r)
  | .undefinedVariable name => .undefinedVariable (r name)
  | other => other

@[simp] theorem Problem.rename_identity (p : Problem) : p.rename .identity = p := by
  cases p with
  | declaration error => cases error <;> simp [rename, DeclarationError.rename]
  | undefinedVariable name => simp [rename]
  | _ => rfl

def Variable.rename (r : Renaming) (v : Variable) : Variable :=
  { v with name := r v.name, type := r v.type }

/-! ## Scopes -/

/-- Two scopes that differ by a renaming. -/
structure Scope.Renamed (r : Renaming) (a b : Scope) : Prop where
  find? : ∀ name, b.find? (r name) = (a.find? name).map (Variable.rename r)
  words : ∀ name v, a.find? name = some v → IsWord v.type
  tally : b.tally = a.tally

namespace Scope.Renamed

variable {r : Renaming} {a b : Scope} {name type : String} {kind : VariableKind}

theorem empty (r : Renaming) : Renamed r {} {} where
  find? name := by simp
  words name v h := by simp at h
  tally := rfl

theorem contains (h : Renamed r a b) (name : String) :
    b.declared.contains (r name) = a.declared.contains name := by
  rw [contains_eq_isSome_find?, contains_eq_isSome_find?, h.find?, Option.isSome_map]

theorem declare_error {e : DeclarationError} {a' : Scope} (h : Renamed r a b)
    (failed : a.declare name type kind = .error e a') :
    b.declare (r name) (r type) kind = .error (e.rename r) b := by
  unfold declare at failed ⊢
  dsimp only at failed ⊢
  rw [h.contains, h.tally]
  split at failed
  · next taken =>
    cases failed
    rw [if_pos taken]
    rfl
  · next new =>
    rw [if_neg new]
    split at failed
    · next full =>
      cases failed
      rw [if_pos full]
      rfl
    · cases failed

theorem declare_ok {v : Variable} {a' : Scope} (h : Renamed r a b) (word : IsWord type)
    (declared : a.declare name type kind = .ok v a') :
    ∃ b', b.declare (r name) (r type) kind = .ok (v.rename r) b' ∧ Renamed r a' b' := by
  have found := find?_of_declare declared
  unfold declare at declared
  dsimp only at declared
  split at declared
  · cases declared
  · next new =>
    split at declared
    · cases declared
    · next room =>
      cases declared
      have declared' : b.declare (r name) (r type) kind =
          .ok ⟨r name, r type, kind, a.tally.count kind⟩
            ⟨b.declared.insert (r name) ⟨r name, r type, kind, a.tally.count kind⟩,
              a.tally.increment kind⟩ := by
        unfold declare
        dsimp only
        rw [h.contains, h.tally, if_neg new, if_neg room]
      refine ⟨_, declared', ?_, ?_, rfl⟩
      · intro other
        rw [find?_of_declare declared', found other, h.find?]
        by_cases same : name = other
        · rw [if_pos same, if_pos (congrArg r same)]
          rfl
        · rw [if_neg same, if_neg fun image => same (r.apply_injective image)]
      · intro other v known
        rw [found other] at known
        by_cases same : name = other
        · rw [if_pos same] at known
          cases known
          exact word
        · rw [if_neg same] at known
          exact h.words other v known

end Scope.Renamed

structure ScopeTable.Renamed (r : Renaming) (a b : ScopeTable) : Prop where
  classScope : Scope.Renamed r a.classScope b.classScope
  subroutineScope : Scope.Renamed r a.subroutineScope b.subroutineScope

namespace ScopeTable.Renamed

variable {r : Renaming} {a b : ScopeTable} {name type : String} {kind : VariableKind}

theorem startClass (a b : ScopeTable) : Renamed r a.startClass b.startClass :=
  ⟨.empty r, .empty r⟩

theorem startSubroutine (h : Renamed r a b) : Renamed r a.startSubroutine b.startSubroutine :=
  ⟨h.classScope, .empty r⟩

theorem scope (h : Renamed r a b) (kind : VariableKind) :
    Scope.Renamed r (a.scope kind) (b.scope kind) := by
  unfold ScopeTable.scope
  split
  · exact h.classScope
  · exact h.subroutineScope

theorem withScope (h : Renamed r a b) (kind : VariableKind) {s t : Scope}
    (renamed : Scope.Renamed r s t) : Renamed r (a.withScope kind s) (b.withScope kind t) := by
  unfold ScopeTable.withScope
  split
  · exact ⟨renamed, h.subroutineScope⟩
  · exact ⟨h.classScope, renamed⟩

theorem count (h : Renamed r a b) (kind : VariableKind) : b.count kind = a.count kind := by
  rw [ScopeTable.count, ScopeTable.count, (h.scope kind).tally]

theorem find? (h : Renamed r a b) (name : String) :
    b.find? (r name) = (a.find? name).map (Variable.rename r) := by
  rw [ScopeTable.find?, ScopeTable.find?, h.subroutineScope.find?, h.classScope.find?,
    Option.map_or]

theorem words (h : Renamed r a b) {v : Variable} (known : a.find? name = some v) :
    IsWord v.type := by
  rw [ScopeTable.find?, Option.or_eq_some_iff] at known
  cases known with
  | inl inner => exact h.subroutineScope.words name v inner
  | inr outer => exact h.classScope.words name v outer.2

theorem declare_error {e : DeclarationError} {a' : ScopeTable} (h : Renamed r a b)
    (failed : a.declare name type kind = .error e a') :
    b.declare (r name) (r type) kind = .error (e.rename r) b := by
  unfold ScopeTable.declare at failed ⊢
  split at failed
  · cases failed
  · next refused =>
    cases failed
    rw [(h.scope kind).declare_error refused]
    dsimp only
    rw [ScopeTable.withScope_scope]

theorem declare_ok {v : Variable} {a' : ScopeTable} (h : Renamed r a b) (word : IsWord type)
    (declared : a.declare name type kind = .ok v a') :
    ∃ b', b.declare (r name) (r type) kind = .ok (v.rename r) b' ∧ Renamed r a' b' := by
  unfold ScopeTable.declare at declared
  split at declared
  · next v s entered =>
    cases declared
    obtain ⟨t, entered', renamed⟩ := (h.scope kind).declare_ok word entered
    refine ⟨b.withScope kind t, ?_, h.withScope kind renamed⟩
    unfold ScopeTable.declare
    rw [entered']
  · cases declared

end ScopeTable.Renamed

end JackVm

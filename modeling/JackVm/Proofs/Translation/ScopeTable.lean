import JackVm.Proofs.Translation.Environment

/-!
# Scopes and their declarations

A scope represents a list of declarations if it finds and counts what they declare. It takes a
further declaration exactly if the longer list is admissible, and then represents that list.
-/

namespace JackVm

structure Scope.Represents (s : Scope) (declarations : List Declaration) : Prop where
  find? (name : String) : s.find? name = variableNamed? declarations name
  count (kind : VariableKind) : s.tally.count kind = declarations.countP (·.kind = kind)

theorem Scope.represents_empty : ({} : Scope).Represents [] where
  find? name := Scope.find?_empty name
  count kind := by cases kind <;> rfl

namespace Scope.Represents

variable {s t : Scope} {declarations : List Declaration} {d : Declaration} {v : Variable}

theorem contains_iff (h : s.Represents declarations) (name : String) :
    s.declared.contains name ↔ name ∈ declarations.map Declaration.name := by
  rw [Scope.contains_eq_isSome_find?, h.find?, isSome_variableNamed?]

theorem of_declare (h : s.Represents declarations)
    (run : s.declare d.name d.type d.kind = .ok v t) :
    d.name ∉ declarations.map Declaration.name ∧
      declarations.countP (·.kind = d.kind) < maxVariables ∧
      t.Represents (declarations ++ [d]) := by
  have found := Scope.find?_of_declare run
  unfold Scope.declare at run
  split at run
  · cases run
  · next fresh =>
    rw [h.contains_iff] at fresh
    dsimp only at run
    split at run
    · cases run
    · next room =>
      cases run
      rw [h.count] at room
      refine ⟨fresh, Nat.lt_of_not_le room, fun name => ?_, fun kind => ?_⟩
      · rw [found, variableNamed?_append_singleton _ _ _ fresh, h.find?, h.count]
      · rw [Tally.count_increment, h.count, List.countP_append, List.countP_singleton]
        simp only [decide_eq_true_eq]

theorem declare_ok (h : s.Represents declarations) (fits : Admissible (declarations ++ [d])) :
    ∃ v t, s.declare d.name d.type d.kind = .ok v t := by
  obtain ⟨-, fresh, room⟩ := (admissible_append_singleton ..).mp fits
  rw [← h.contains_iff] at fresh
  rw [← h.count] at room
  unfold Scope.declare
  rw [if_neg fresh]
  dsimp only
  rw [if_neg (Nat.not_le_of_lt room)]
  exact ⟨_, _, rfl⟩

end Scope.Represents

def ScopeTable.level (t : ScopeTable) (classLevel : Bool) : Scope :=
  if classLevel then t.classScope else t.subroutineScope

theorem Environment.of_represents {t : ScopeTable} {outer inner : List Declaration}
    (className : String) (houter : t.classScope.Represents outer)
    (hinner : t.subroutineScope.Represents inner) :
    (⟨className, t.find?⟩ : Environment) = .of className outer inner := by
  rw [Environment.of, Environment.mk.injEq]
  refine ⟨rfl, funext fun name => ?_⟩
  rw [ScopeTable.find?, houter.find?, hinner.find?]

end JackVm

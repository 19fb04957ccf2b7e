import JackVm.Proofs.Syntax.Class

/-!
# Environments

What the names of a subroutine stand for. A declared name is a variable whose index counts the
variables of its kind that are declared before it in the same scope, and the names of a subroutine
hide those of its class.
-/

namespace JackVm

/-- The variables of a scope, given what the scope declares in front of them. -/
def numbered (earlier : List Declaration) : List Declaration → List Variable
  | [] => []
  | d :: rest =>
    ⟨d.name, d.type, d.kind, earlier.countP (·.kind = d.kind)⟩ :: numbered (earlier ++ [d]) rest

/-- The variable that a scope has under a name. -/
def variableNamed? (declarations : List Declaration) (name : String) : Option Variable :=
  (numbered [] declarations).find? (·.name == name)

structure Environment where
  className : String
  find? : String → Option Variable

/-- The environment of a subroutine, from the declarations of its class and its own. -/
def Environment.of (className : String) (outer inner : List Declaration) : Environment :=
  { className, find? := fun name => (variableNamed? inner name).or (variableNamed? outer name) }

def SubroutineDec.environment (d : SubroutineDec) (c : ClassDec) : Environment :=
  .of c.name c.declarations (d.declarations c.name)

/-- Whether each name is declared once and no kind has more names than can be numbered. -/
structure Admissible (declarations : List Declaration) : Prop where
  nodup : (declarations.map Declaration.name).Nodup
  count_le (kind : VariableKind) : declarations.countP (·.kind = kind) ≤ maxVariables

namespace Environment

/-- The number of arguments that a callee adds to those that are written. -/
def receivers (env : Environment) : Callee → Nat
  | .own _ => 1
  | .qualified qualifier _ => if (env.find? qualifier).isSome then 1 else 0

/-- A variable in front of a call stands for its type, any other qualifier for itself. -/
def target (env : Environment) : Callee → String
  | .own name => env.className ++ "." ++ name
  | .qualified qualifier name =>
    match env.find? qualifier with
    | some v => v.type ++ "." ++ name
    | none => qualifier ++ "." ++ name

end Environment

/-- Whether the surroundings of a place permit it. -/
def Use.Permitted (env : Environment) : Use → Prop
  | .integer digits => numeralValue digits ≤ maxInteger
  | .string content =>
    content.length ≤ maxStringLength ∧ ∀ c ∈ content.toList, c.toNat ≤ maxCharacter
  | .variable name => (env.find? name).isSome
  | .call callee arguments => arguments + env.receivers callee ≤ maxArguments

/-- Whether a subroutine declares each name once and uses only what its surroundings permit. -/
structure SubroutineDec.Valid (d : SubroutineDec) (c : ClassDec) : Prop where
  admissible : Admissible (d.declarations c.name)
  permitted : ∀ u ∈ statementUses d.body, u.Permitted (d.environment c)

structure ClassDec.Valid (c : ClassDec) : Prop where
  admissible : Admissible c.declarations
  subroutines : ∀ d ∈ c.subroutines, d.Valid c

theorem numbered_append (earlier l m : List Declaration) :
    numbered earlier (l ++ m) = numbered earlier l ++ numbered (earlier ++ l) m := by
  induction l generalizing earlier with
  | nil => simp [numbered]
  | cons d l ih => simp [numbered, ih]

theorem numbered_map_name (earlier l : List Declaration) :
    (numbered earlier l).map Variable.name = l.map Declaration.name := by
  induction l generalizing earlier with
  | nil => rfl
  | cons d l ih => simp [numbered, ih]

@[simp] theorem variableNamed?_nil (name : String) : variableNamed? [] name = none := rfl

theorem isSome_variableNamed? (declarations : List Declaration) (name : String) :
    (variableNamed? declarations name).isSome ↔ name ∈ declarations.map Declaration.name := by
  rw [← numbered_map_name [] declarations]
  simp [variableNamed?]

theorem variableNamed?_append_singleton (declarations : List Declaration) (d : Declaration)
    (name : String) (fresh : d.name ∉ declarations.map Declaration.name) :
    variableNamed? (declarations ++ [d]) name =
      if d.name = name then
        some ⟨d.name, d.type, d.kind, declarations.countP (·.kind = d.kind)⟩
      else variableNamed? declarations name := by
  have missing := mt (isSome_variableNamed? declarations d.name).mp fresh
  rw [Option.not_isSome_iff_eq_none] at missing
  unfold variableNamed? at missing ⊢
  rw [numbered_append, List.find?_append]
  by_cases same : d.name = name
  · subst same
    simp [missing, numbered]
  · simp [same, numbered]

theorem admissible_nil : Admissible [] :=
  ⟨List.nodup_nil, fun _ => Nat.zero_le _⟩

theorem Admissible.of_append {l m : List Declaration} (h : Admissible (l ++ m)) :
    Admissible l where
  nodup := by
    have nodup := h.nodup
    rw [List.map_append, List.nodup_append] at nodup
    exact nodup.1
  count_le kind := by
    have all := h.count_le kind
    rw [List.countP_append] at all
    omega

theorem admissible_append_singleton (declarations : List Declaration) (d : Declaration) :
    Admissible (declarations ++ [d]) ↔
      Admissible declarations ∧ d.name ∉ declarations.map Declaration.name ∧
        declarations.countP (·.kind = d.kind) < maxVariables := by
  constructor
  · intro h
    have nodup := h.nodup
    rw [List.map_append, List.nodup_append] at nodup
    refine ⟨h.of_append, ?_, ?_⟩
    · intro same
      exact nodup.2.2 _ same _ (by simp) rfl
    · have all := h.count_le d.kind
      simp only [List.countP_append, List.countP_singleton, decide_true, if_true] at all
      omega
  · rintro ⟨⟨nodup, count_le⟩, fresh, room⟩
    constructor
    · rw [List.map_append, List.nodup_append]
      refine ⟨nodup, by simp, ?_⟩
      intro a ha b hb same
      simp only [List.map_cons, List.map_nil, List.mem_singleton] at hb
      exact fresh (hb ▸ same ▸ ha)
    · intro kind
      have before := count_le kind
      rw [List.countP_append, List.countP_singleton]
      by_cases h : d.kind = kind
      · subst h
        simp only [decide_true, if_true]
        omega
      · simpa [h] using before

end JackVm

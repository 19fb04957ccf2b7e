import JackVm.Vm.Instruction
import Std.Data.TreeMap

/-!
# Scopes of variables

Names live in two scopes at a time, that of the class and that of the subroutine inside it. Each
kind of variable numbers its names from zero in the order of their declarations.
-/

namespace JackVm

inductive VariableKind where
  | static | field | argument | local
  deriving DecidableEq, Repr

namespace VariableKind

/-- Whether variables of this kind belong to the class and not to one subroutine. -/
def isClassLevel : VariableKind → Bool
  | static => true
  | field => true
  | argument => false
  | .local => false

/-- Where the machine keeps variables of this kind. -/
def segment : VariableKind → Segment
  | static => .static
  | field => .this
  | argument => .argument
  | .local => .local

end VariableKind

structure Variable where
  name : String
  type : String
  kind : VariableKind
  index : Nat
  deriving DecidableEq, Repr

inductive DeclarationError where
  | alreadyDefined (name : String)
  | tooManyVariables
  deriving DecidableEq, Repr

def DeclarationError.message : DeclarationError → String
  | .alreadyDefined name => "'" ++ name ++ "' is already defined in this scope"
  | .tooManyVariables => "Too many variables"

structure Tally where
  statics : Nat := 0
  fields : Nat := 0
  arguments : Nat := 0
  locals : Nat := 0
  deriving DecidableEq, Repr

namespace Tally

def count (t : Tally) : VariableKind → Nat
  | .static => t.statics
  | .field => t.fields
  | .argument => t.arguments
  | .local => t.locals

def increment (t : Tally) : VariableKind → Tally
  | .static => { t with statics := t.statics + 1 }
  | .field => { t with fields := t.fields + 1 }
  | .argument => { t with arguments := t.arguments + 1 }
  | .local => { t with locals := t.locals + 1 }

theorem count_increment (t : Tally) (k l : VariableKind) :
    (t.increment k).count l = t.count l + if k = l then 1 else 0 := by
  cases k <;> cases l <;> rfl

end Tally

/-- Variables of one kind are numbered in sixteen bits, and so is their count. -/
def maxVariables : Nat := 65535

structure Scope where
  declared : Std.TreeMap String Variable := {}
  tally : Tally := {}

namespace Scope

def find? (s : Scope) (name : String) : Option Variable :=
  s.declared[name]?

/-- Declares a name, which takes the next number of its kind. A name that is taken is refused before
a kind that is full. Either way there is the scope to go on with. -/
def declare (s : Scope) (name type : String) (kind : VariableKind) :
    EStateM.Result DeclarationError Scope Variable :=
  if s.declared.contains name then
    .error (.alreadyDefined name) s
  else
    let index := s.tally.count kind
    if maxVariables ≤ index then
      .error .tooManyVariables s
    else
      let s := { s with tally := s.tally.increment kind }
      let v := { name, type, kind, index }
      .ok v { s with declared := s.declared.insert name v }

@[simp] theorem find?_empty (name : String) : ({} : Scope).find? name = none := by
  simp [find?]

theorem contains_eq_isSome_find? (s : Scope) (name : String) :
    s.declared.contains name = (s.find? name).isSome := by
  rw [find?, Std.TreeMap.isSome_getElem?_eq_contains]

theorem eq_of_declare_eq_error {s t : Scope} {name type : String} {kind : VariableKind}
    {e : DeclarationError} (h : s.declare name type kind = .error e t) : t = s := by
  unfold declare at h
  split at h
  · cases h
    rfl
  · dsimp only at h
    split at h <;> cases h
    rfl

theorem find?_of_declare {s t : Scope} {name type : String} {kind : VariableKind} {v : Variable}
    (h : s.declare name type kind = .ok v t) (other : String) :
    t.find? other = if name = other then some v else s.find? other := by
  unfold declare at h
  split at h
  · cases h
  · dsimp only at h
    split at h
    · cases h
    · cases h
      simp [find?, Std.TreeMap.getElem?_insert]

end Scope

/-- The scopes that are open at one point of a class. -/
structure ScopeTable where
  classScope : Scope := {}
  subroutineScope : Scope := {}

namespace ScopeTable

def startClass (_ : ScopeTable) : ScopeTable :=
  {}

def startSubroutine (t : ScopeTable) : ScopeTable :=
  { t with subroutineScope := {} }

def scope (t : ScopeTable) (kind : VariableKind) : Scope :=
  if kind.isClassLevel then t.classScope else t.subroutineScope

def withScope (t : ScopeTable) (kind : VariableKind) (s : Scope) : ScopeTable :=
  if kind.isClassLevel then { t with classScope := s } else { t with subroutineScope := s }

/-- Declares a name in the scope that its kind belongs to. -/
def declare (t : ScopeTable) (name type : String) (kind : VariableKind) :
    EStateM.Result DeclarationError ScopeTable Variable :=
  match (t.scope kind).declare name type kind with
  | .ok v s => .ok v (t.withScope kind s)
  | .error e s => .error e (t.withScope kind s)

/-- A name of the subroutine hides the same name of the class. -/
def find? (t : ScopeTable) (name : String) : Option Variable :=
  (t.subroutineScope.find? name).or (t.classScope.find? name)

def count (t : ScopeTable) (kind : VariableKind) : Nat :=
  (t.scope kind).tally.count kind

@[simp] theorem withScope_scope (t : ScopeTable) (kind : VariableKind) :
    t.withScope kind (t.scope kind) = t := by
  cases kind <;> rfl

/-- A refused name changes nothing. -/
theorem eq_of_declare_eq_error {t u : ScopeTable} {name type : String} {kind : VariableKind}
    {e : DeclarationError} (h : t.declare name type kind = .error e u) : u = t := by
  unfold declare at h
  split at h
  · cases h
  · next e s refused =>
    cases h
    rw [Scope.eq_of_declare_eq_error refused, withScope_scope]

end ScopeTable

end JackVm

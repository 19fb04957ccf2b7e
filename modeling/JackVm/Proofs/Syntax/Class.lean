import JackVm.Compilation.Class
import JackVm.Proofs.Syntax.Statement

/-!
# Syntax trees of classes

A class declares variables and then subroutines. What a scope is told of them is a list of
declarations in the order of the source, where the object of a method comes first.
-/

namespace JackVm

inductive TypeName where
  | int | char | boolean
  | named (name : String)
  deriving DecidableEq, Repr

def TypeName.lexeme : TypeName → Lexeme
  | .int => .keyword .int
  | .char => .keyword .char
  | .boolean => .keyword .boolean
  | .named name => .identifier name

def TypeName.text (type : TypeName) : String :=
  type.lexeme.text

/-- The variables that share one type in a declaration. -/
structure VariableGroup where
  type : TypeName
  first : String
  rest : List String
  deriving DecidableEq, Repr

/-- Whether a class variable belongs to the class or to each of its objects. -/
inductive Storage where
  | static | field
  deriving DecidableEq, Repr

def Storage.keyword : Storage → Keyword
  | .static => .static
  | .field => .field

def Storage.kind : Storage → VariableKind
  | .static => .static
  | .field => .field

structure ClassVarDec where
  storage : Storage
  group : VariableGroup
  deriving DecidableEq, Repr

structure Parameter where
  type : TypeName
  name : String
  deriving DecidableEq, Repr

def SubroutineForm.keyword : SubroutineForm → Keyword
  | .constructor => .constructor
  | .function => .function
  | .method => .method

structure SubroutineDec where
  form : SubroutineForm
  /-- No type stands for `void`. -/
  result : Option TypeName
  name : String
  parameters : List Parameter
  varDecs : List VariableGroup
  body : List Statement

structure ClassDec where
  name : String
  varDecs : List ClassVarDec
  subroutines : List SubroutineDec

def furtherNames (names : List String) : List Lexeme :=
  names.flatMap fun name => [.mark .comma, .identifier name]

def VariableGroup.lexemes (g : VariableGroup) : List Lexeme :=
  g.type.lexeme :: .identifier g.first :: (furtherNames g.rest ++ [.mark .semicolon])

def ClassVarDec.lexemes (d : ClassVarDec) : List Lexeme :=
  .keyword d.storage.keyword :: d.group.lexemes

def Parameter.lexemes (p : Parameter) : List Lexeme :=
  [p.type.lexeme, .identifier p.name]

def parameterLexemes : List Parameter → List Lexeme
  | [] => []
  | p :: rest => p.lexemes ++ rest.flatMap fun q => .mark .comma :: q.lexemes

def VariableGroup.varDec (g : VariableGroup) : List Lexeme :=
  .keyword .var :: g.lexemes

def resultLexeme : Option TypeName → Lexeme
  | none => .keyword .void
  | some type => type.lexeme

def SubroutineDec.bodyLexemes (d : SubroutineDec) : List Lexeme :=
  inBraces (d.varDecs.flatMap VariableGroup.varDec ++ statementLexemes d.body)

def SubroutineDec.lexemes (d : SubroutineDec) : List Lexeme :=
  .keyword d.form.keyword :: resultLexeme d.result :: .identifier d.name ::
    (inParens (parameterLexemes d.parameters) ++ d.bodyLexemes)

def ClassDec.lexemes (c : ClassDec) : List Lexeme :=
  .keyword .class :: .identifier c.name ::
    inBraces (c.varDecs.flatMap ClassVarDec.lexemes ++ c.subroutines.flatMap SubroutineDec.lexemes)

structure Declaration where
  name : String
  type : String
  kind : VariableKind
  deriving DecidableEq, Repr

def VariableGroup.names (g : VariableGroup) : List String :=
  g.first :: g.rest

def VariableGroup.declarations (g : VariableGroup) (kind : VariableKind) : List Declaration :=
  g.names.map fun name => ⟨name, g.type.text, kind⟩

def ClassVarDec.declarations (d : ClassVarDec) : List Declaration :=
  d.group.declarations d.storage.kind

def Parameter.declaration (p : Parameter) : Declaration :=
  ⟨p.name, p.type.text, .argument⟩

/-- The object that a method is called on is its first argument. -/
def SubroutineForm.receiver (className : String) : SubroutineForm → List Declaration
  | .method => [⟨"this", className, .argument⟩]
  | .constructor | .function => []

/-- What a subroutine declares by name: its parameters and then its local variables. -/
def SubroutineDec.named (d : SubroutineDec) : List Declaration :=
  d.parameters.map Parameter.declaration ++
    d.varDecs.flatMap fun g => g.declarations .local

def SubroutineDec.declarations (d : SubroutineDec) (className : String) : List Declaration :=
  d.form.receiver className ++ d.named

def ClassDec.declarations (c : ClassDec) : List Declaration :=
  c.varDecs.flatMap ClassVarDec.declarations

end JackVm

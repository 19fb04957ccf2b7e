import JackVm.Proofs.Compilation.TreeOutput

/-!
# The output of a class

The outputs of declarations, subroutines and classes, and what they amount to.
-/

namespace JackVm

open Output

def Output.join : List Output → Output
  | [] => {}
  | o :: rest => o ++ join rest

@[simp] theorem Output.lexemes_join (os : List Output) :
    (join os).lexemes = os.flatMap Output.lexemes := by
  induction os with
  | nil => rfl
  | cons o os ih => simp [join, ih]

@[simp] theorem Output.code_join (os : List Output) : (join os).code = os.flatMap Output.code := by
  induction os with
  | nil => rfl
  | cons o os ih => simp [join, ih]

def furtherNameOutput (name : String) : Output :=
  took (.mark .comma) ++ took (.identifier name)

def VariableGroup.output (g : VariableGroup) : Output :=
  took g.type.lexeme ++ took (.identifier g.first) ++ join (g.rest.map furtherNameOutput) ++
    took (.mark .semicolon)

def ClassVarDec.output (d : ClassVarDec) : Output :=
  within .classVarDec (took (.keyword d.storage.keyword) ++ d.group.output)

def VariableGroup.localOutput (g : VariableGroup) : Output :=
  within .varDec (took (.keyword .var) ++ g.output)

def Parameter.output (p : Parameter) : Output :=
  took p.type.lexeme ++ took (.identifier p.name)

def furtherParameterOutput (p : Parameter) : Output :=
  took (.mark .comma) ++ p.output

def parameterOutput : List Parameter → Output
  | [] => {}
  | p :: rest => p.output ++ join (rest.map furtherParameterOutput)

def SubroutineDec.bodyOutput (d : SubroutineDec) (c : ClassDec) : Output :=
  within .subroutineBody (took (.mark .leftBrace) ++
    join (d.varDecs.map VariableGroup.localOutput) ++
    wrote [.function (c.name ++ "." ++ d.name) d.localCount] ++
    wrote (Compilation.SubroutineForm.prologue c.fieldCount d.form) ++
    within .statements (statementOutput (d.environment c) 0 0 d.body) ++
    took (.mark .rightBrace))

def SubroutineDec.output (d : SubroutineDec) (c : ClassDec) : Output :=
  within .subroutineDec (took (.keyword d.form.keyword) ++ took (resultLexeme d.result) ++
    took (.identifier d.name) ++ took (.mark .leftParen) ++
    within .parameterList (parameterOutput d.parameters) ++ took (.mark .rightParen) ++
    d.bodyOutput c)

def ClassDec.output (c : ClassDec) : Output :=
  within .class (took (.keyword .class) ++ took (.identifier c.name) ++ took (.mark .leftBrace) ++
    join (c.varDecs.map ClassVarDec.output) ++
    join (c.subroutines.map fun d => d.output c) ++ took (.mark .rightBrace))

@[simp] theorem VariableGroup.lexemes_output (g : VariableGroup) :
    g.output.lexemes = g.lexemes := by
  simp [output, lexemes, furtherNames, furtherNameOutput, List.flatMap_map]

@[simp] theorem VariableGroup.code_output (g : VariableGroup) : g.output.code = [] := by
  simp [output, furtherNameOutput, List.flatMap_map]

@[simp] theorem VariableGroup.lexemes_localOutput (g : VariableGroup) :
    g.localOutput.lexemes = g.varDec := by
  simp [localOutput, varDec]

@[simp] theorem ClassVarDec.lexemes_output (d : ClassVarDec) : d.output.lexemes = d.lexemes := by
  simp [output, lexemes]

@[simp] theorem parameterOutput_lexemes (ps : List Parameter) :
    (parameterOutput ps).lexemes = parameterLexemes ps := by
  cases ps <;>
    simp [parameterOutput, parameterLexemes, Parameter.output, Parameter.lexemes,
      furtherParameterOutput, List.flatMap_map]

@[simp] theorem parameterOutput_code (ps : List Parameter) : (parameterOutput ps).code = [] := by
  cases ps <;>
    simp [parameterOutput, Parameter.output, furtherParameterOutput, List.flatMap_map]

@[simp] theorem SubroutineDec.lexemes_output (d : SubroutineDec) (c : ClassDec) :
    (d.output c).lexemes = d.lexemes := by
  simp [output, lexemes, bodyOutput, bodyLexemes, inParens, inBraces, List.flatMap_map]

@[simp] theorem SubroutineDec.code_output (d : SubroutineDec) (c : ClassDec) :
    (d.output c).code = d.code c := by
  simp [output, code, bodyOutput, List.flatMap_map, VariableGroup.localOutput,
    (statementOutput_amounts ..).code_eq]

theorem ClassDec.lexemes_output (c : ClassDec) : c.output.lexemes = c.lexemes := by
  simp [output, lexemes, inBraces, List.flatMap_map]

theorem ClassDec.code_output (c : ClassDec) : c.output.code = c.code := by
  simp [output, code, ClassVarDec.output, List.flatMap_map]

end JackVm

import JackVm.Proofs.Compilation.Beginnings

/-!
# Constructs in their places

All the subroutines, statements, expressions and calls of a class, however deep, each with the
output of what is compiled in front of it. The output of a construct follows that in the output of
the class, although what encloses the construct may write more instructions behind it.
-/

namespace JackVm

open Output

/-- Something that is compiled as a whole, in its surroundings. -/
inductive Construct where
  | subroutine (c : ClassDec) (d : SubroutineDec)
  | statement (env : Environment) (ifs whiles : Nat) (st : Statement)
  | expression (env : Environment) (e : Expression)
  | call (env : Environment) (callee : Callee) (arguments : List Expression)

namespace Construct

def lexemes : Construct → List Lexeme
  | subroutine _ d => d.lexemes
  | statement _ _ _ st => st.lexemes
  | expression _ e => e.lexemes
  | call _ callee arguments => callee.lexemes ++ inParens (argumentLexemes arguments)

def code : Construct → List Instruction
  | subroutine c d => d.code c
  | statement env ifs whiles st => st.code env ifs whiles
  | expression env e => e.code env
  | call env callee arguments => env.callCode callee arguments.length (argumentCode env arguments)

def output : Construct → Output
  | subroutine c d => d.output c
  | statement env ifs whiles st => st.output env ifs whiles
  | expression env e => e.output env
  | call env callee arguments =>
    took (.identifier callee.head) ++
      callOutput env callee arguments.length (argumentOutput env arguments)

@[simp] theorem lexemes_output (x : Construct) : x.output.lexemes = x.lexemes := by
  cases x with
  | subroutine c d => exact d.lexemes_output c
  | statement env ifs whiles st => exact st.lexemes_output env ifs whiles
  | expression env e => exact e.lexemes_output env
  | call env callee arguments =>
    have inner := callOutput_amounts env callee arguments.length
      (argumentOutput_amounts env arguments)
    simp [output, lexemes, inner.lexemes_eq, Callee.lexemes]

@[simp] theorem code_output (x : Construct) : x.output.code = x.code := by
  cases x with
  | subroutine c d => exact d.code_output c
  | statement env ifs whiles st => exact (st.output_amounts env ifs whiles).code_eq
  | expression env e => exact (e.output_amounts env).code_eq
  | call env callee arguments =>
    have inner := callOutput_amounts env callee arguments.length
      (argumentOutput_amounts env arguments)
    simp [output, code, inner.code_eq]

theorem output_aligned (x : Construct) : x.output.Aligned := by
  cases x with
  | subroutine c d => exact d.output_aligned c
  | statement env ifs whiles st => exact st.output_aligned env ifs whiles
  | expression env e => exact e.output_aligned env
  | call env callee arguments =>
    have inner := callOutput_aligned env callee arguments.length
      (argument_output_aligned env arguments)
    exact (aligned_took _).append inner

theorem output_anchored (x : Construct) : x.output.Anchored 0 0 := by
  cases x with
  | subroutine c d => exact d.output_anchored c
  | statement env ifs whiles st => exact st.output_anchored env ifs whiles
  | expression env e => exact e.output_anchored env
  | call env callee arguments => exact (Term.call callee arguments).output_anchored env

theorem lexemes_ne_nil (x : Construct) : x.lexemes ≠ [] := by
  cases x with
  | subroutine c d => exact List.cons_ne_nil _ _
  | statement env ifs whiles st =>
    cases st with
    | «return» value => cases value <;> exact List.cons_ne_nil _ _
    | _ => exact List.cons_ne_nil _ _
  | expression env e => exact e.lexemes_ne_nil
  | call env callee arguments => exact List.cons_ne_nil _ _

end Construct

/-- A construct with the output of what is compiled in front of it. -/
structure Site where
  front : Output
  construct : Construct

def callOpening (env : Environment) (callee : Callee) : Output :=
  match callee with
  | .own name =>
    took (.identifier name) ++ (took (.mark .leftParen)).thenWrote [.push .pointer 0]
  | .qualified qualifier name =>
    took (.identifier qualifier) ++
      ((took (.mark .dot) ++ took (.identifier name)).thenWrote (env.load qualifier) ++
        took (.mark .leftParen))

mutual

/-- The expressions and calls in an expression, itself first, given the output in front of it. -/
def Expression.sites (env : Environment) (front : Output) : Expression → List Site
  | .mk first rest =>
    ⟨front, .expression env (.mk first rest)⟩ ::
      (first.sites env front ++ operationSites env (front ++ first.output env) rest)

def operationSites (env : Environment) (front : Output) :
    List (BinaryOperator × Term) → List Site
  | [] => []
  | (op, operand) :: rest =>
    operand.sites env (front ++ took (.mark op.mark)) ++
      operationSites env
        (front ++ (took (.mark op.mark) ++ (operand.output env).thenWrote [op.instruction])) rest

def Term.sites (env : Environment) (front : Output) : Term → List Site
  | .integer _ | .string _ | .constant _ | .variable _ => []
  | .element name index =>
    index.sites env (front ++ (took (.identifier name) ++ took (.mark .leftBracket)))
  | .call callee arguments =>
    ⟨front, .call env callee arguments⟩ ::
      argumentSites env (front ++ callOpening env callee) arguments
  | .group inner => inner.sites env (front ++ took (.mark .leftParen))
  | .unary op operand => operand.sites env (front ++ took (.mark op.mark))

def argumentSites (env : Environment) (front : Output) : List Expression → List Site
  | [] => []
  | e :: rest => e.sites env front ++ furtherSites env (front ++ e.output env) rest

def furtherSites (env : Environment) (front : Output) : List Expression → List Site
  | [] => []
  | e :: rest =>
    e.sites env (front ++ took (.mark .comma)) ++
      furtherSites env (front ++ (took (.mark .comma) ++ e.output env)) rest

end

def ifOpening (number : Nat) (condition : Output) : Output :=
  oneIf ++ took (.keyword .if) ++ took (.mark .leftParen) ++ condition ++
    took (.mark .rightParen) ++
    wrote [.ifGoto (Compilation.ifTrueLabel number), .goto (Compilation.ifFalseLabel number),
      .label (Compilation.ifTrueLabel number)] ++ took (.mark .leftBrace)

def elseOpening (number : Nat) (condition body : Output) : Output :=
  ifOutput number condition body ++
    wrote [.goto (Compilation.ifEndLabel number), .label (Compilation.ifFalseLabel number)] ++
    took (.keyword .else) ++ took (.mark .leftBrace)

def whileOpening (number : Nat) : Output :=
  oneWhile ++ wrote [.label (Compilation.whileStartLabel number)] 1 ++ took (.keyword .while) ++
    took (.mark .leftParen)

def loopOpening (number : Nat) (condition : Output) : Output :=
  whileOpening number ++ condition ++
    wrote [.arithmetic .not, .ifGoto (Compilation.whileEndLabel number)] ++
    took (.mark .rightParen) ++ took (.mark .leftBrace)

mutual

/-- The constructs inside a statement, given the output in front of the statement. -/
def Statement.sites (env : Environment) (front : Output) (ifs whiles : Nat) :
    Statement → List Site
  | .let name value =>
    value.sites env
      (front ++ (took (.keyword .let) ++ took (.identifier name) ++ took (.mark .equal)))
  | .letElement name index value =>
    index.sites env
        (front ++ (took (.keyword .let) ++ took (.identifier name) ++ took (.mark .leftBracket))) ++
      value.sites env (front ++ (took (.keyword .let) ++ took (.identifier name) ++
        indexOutput env name (index.output env) ++ took (.mark .equal)))
  | .if condition body =>
    condition.sites env (front ++ (oneIf ++ took (.keyword .if) ++ took (.mark .leftParen))) ++
      statementSites env (front ++ ifOpening ifs (condition.output env)) (ifs + 1) whiles body
  | .ifElse condition body otherwise =>
    condition.sites env (front ++ (oneIf ++ took (.keyword .if) ++ took (.mark .leftParen))) ++
      (statementSites env (front ++ ifOpening ifs (condition.output env)) (ifs + 1) whiles body ++
        statementSites env (front ++ elseOpening ifs (condition.output env)
          (within .statements (statementOutput env (ifs + 1) whiles body)))
          (ifs + 1 + ifCount body) (whiles + whileCount body) otherwise)
  | .while condition body =>
    condition.sites env (front ++ whileOpening whiles) ++
      statementSites env (front ++ loopOpening whiles (condition.output env)) ifs (whiles + 1) body
  | .do callee arguments =>
    ⟨front ++ took (.keyword .do), .call env callee arguments⟩ ::
      argumentSites env (front ++ took (.keyword .do) ++ callOpening env callee) arguments
  | .return none => []
  | .return (some value) => value.sites env (front ++ took (.keyword .return))

def statementSites (env : Environment) (front : Output) (ifs whiles : Nat) :
    List Statement → List Site
  | [] => []
  | first :: rest =>
    ⟨front, .statement env ifs whiles first⟩ :: first.sites env front ifs whiles ++
      statementSites env (front ++ first.output env ifs whiles) (ifs + first.ifCount)
        (whiles + first.whileCount) rest

end

/-- What a subroutine takes and writes in front of its statements. -/
def SubroutineDec.opening (d : SubroutineDec) (c : ClassDec) : Output :=
  took (.keyword d.form.keyword) ++ took (resultLexeme d.result) ++ took (.identifier d.name) ++
    took (.mark .leftParen) ++ within .parameterList (parameterOutput d.parameters) ++
    took (.mark .rightParen) ++ (took (.mark .leftBrace) ++
      join (d.varDecs.map VariableGroup.localOutput) ++
      wrote [.function (c.name ++ "." ++ d.name) d.localCount] ++
      wrote (Compilation.SubroutineForm.prologue c.fieldCount d.form))

/-- What a class takes in front of its subroutines. -/
def ClassDec.opening (c : ClassDec) : Output :=
  took (.keyword .class) ++ took (.identifier c.name) ++ took (.mark .leftBrace) ++
    join (c.varDecs.map ClassVarDec.output)

def subroutineSites (c : ClassDec) (front : Output) : List SubroutineDec → List Site
  | [] => []
  | d :: rest =>
    ⟨front, .subroutine c d⟩ ::
      statementSites (d.environment c) (front ++ d.opening c) 0 0 d.body ++
      subroutineSites c (front ++ d.output c) rest

/-- All subroutines, statements, expressions and calls of a class. -/
def ClassDec.sites (c : ClassDec) : List Site :=
  subroutineSites c c.opening c.subroutines

/-! ## Constructs stand where their sites say -/

/-- Whether the output of a construct follows what is in front of it in a whole. -/
structure Site.In (s : Site) (whole : Output) : Prop where
  aligned : s.front.Aligned
  begins : (s.front ++ s.construct.output).Begins whole

/-- Whether constructs stand in a whole where their sites say. -/
def Placed (whole : Output) (sites : List Site) : Prop :=
  ∀ s ∈ sites, s.In whole

section
variable {whole more front a b o : Output} {xs ys : List Site} {s : Site}

theorem Placed.mono (h : Placed whole xs) (sub : whole.Begins more) : Placed more xs :=
  fun s hs => ⟨(h s hs).aligned, (h s hs).begins.trans sub⟩

@[simp] theorem placed_nil : Placed whole [] := by simp [Placed]

@[simp] theorem placed_cons : Placed whole (s :: xs) ↔ s.In whole ∧ Placed whole xs :=
  List.forall_mem_cons

@[simp] theorem placed_append : Placed whole (xs ++ ys) ↔ Placed whole xs ∧ Placed whole ys :=
  List.forall_mem_append

theorem Placed.first (h : Placed (front ++ b) xs) (sub : b.Begins o) : Placed (front ++ o) xs :=
  h.mono (sub.behind front)

theorem Placed.later (h : Placed (front ++ a ++ b) xs) (sub : (a ++ b).Begins o) :
    Placed (front ++ o) xs :=
  h.mono (append_assoc front a b ▸ sub.behind front)

end

theorem callOpening_aligned (env : Environment) (callee : Callee) :
    (callOpening env callee).Aligned := by
  cases callee <;> simp [callOpening]

theorem callOpening_begins (env : Environment) (callee : Callee) (count : Nat)
    (arguments : Output) : (callOpening env callee ++ arguments).Begins
      (took (.identifier callee.head) ++ callOutput env callee count arguments) := by
  have list : arguments.Begins (listOutput arguments) := ((Begins.refl _).within _).append _
  cases callee with
  | own | qualified =>
    rw [callOpening, append_assoc]
    exact ((list.behind _).thenWrote _ _).behind _

theorem call_placed {env : Environment} {front : Output} {callee : Callee}
    {arguments : List Expression} (aligned : front.Aligned)
    (inner : Placed (front ++ callOpening env callee ++ argumentOutput env arguments)
      (argumentSites env (front ++ callOpening env callee) arguments)) :
    Placed (front ++ (Construct.call env callee arguments).output)
      (⟨front, .call env callee arguments⟩ ::
        argumentSites env (front ++ callOpening env callee) arguments) :=
  placed_cons.mpr ⟨⟨aligned, .refl _⟩, inner.later (callOpening_begins env callee _ _)⟩

mutual

theorem Expression.sites_placed (env : Environment) (front : Output) (aligned : front.Aligned) :
    (e : Expression) → Placed (front ++ e.output env) (e.sites env front)
  | .mk first rest => by
    have head := first.sites_placed env front aligned
    have tail := operation_sites_placed env (front ++ first.output env)
      (by simp [aligned, first.output_aligned]) rest
    rw [Expression.sites, placed_cons, placed_append]
    exact ⟨⟨aligned, .refl _⟩, head.first (((Begins.refl _).append _).within _),
      tail.later ((Begins.refl _).within _)⟩

theorem operation_sites_placed (env : Environment) (front : Output) (aligned : front.Aligned) :
    (rest : List (BinaryOperator × Term)) →
      Placed (front ++ operationOutput env rest) (operationSites env front rest)
  | [] => placed_nil
  | (op, operand) :: rest => by
    have head := operand.sites_placed env (front ++ took (.mark op.mark)) (by simp [aligned])
    have tail := operation_sites_placed env
      (front ++ (took (.mark op.mark) ++ (operand.output env).thenWrote [op.instruction]))
      (by simp [aligned, operand.output_aligned]) rest
    rw [operationSites, placed_append]
    refine ⟨head.later ?_, tail.later (.refl _)⟩
    exact (((Begins.refl _).thenWrote _ _).behind _).append _

theorem Term.sites_placed (env : Environment) (front : Output) (aligned : front.Aligned) :
    (t : Term) → Placed (front ++ t.output env) (t.sites env front)
  | .integer _ | .string _ | .constant _ | .variable _ => placed_nil
  | .element name index => by
    have inner := index.sites_placed env
      (front ++ (took (.identifier name) ++ took (.mark .leftBracket))) (by simp [aligned])
    refine inner.later ?_
    rw [append_assoc]
    have whole : (took (.mark .leftBracket) ++ index.output env).Begins
        (indexOutput env name (index.output env)) := ((Begins.refl _).append _).append _
    exact ((whole.thenWrote _ _).behind _).within _
  | .call callee arguments => by
    have inner := argument_sites_placed env (front ++ callOpening env callee)
      (by simp [aligned, callOpening_aligned]) arguments
    exact (call_placed aligned inner).first ((Begins.refl _).within _)
  | .group inner => by
    have h := inner.sites_placed env (front ++ took (.mark .leftParen)) (by simp [aligned])
    exact h.later (((Begins.refl _).append _).within _)
  | .unary op operand => by
    have h := operand.sites_placed env (front ++ took (.mark op.mark)) (by simp [aligned])
    exact h.later ((((Begins.refl _).thenWrote _ _).behind _).within _)

theorem argument_sites_placed (env : Environment) (front : Output) (aligned : front.Aligned) :
    (arguments : List Expression) →
      Placed (front ++ argumentOutput env arguments) (argumentSites env front arguments)
  | [] => placed_nil
  | e :: rest => by
    have head := e.sites_placed env front aligned
    have tail := further_sites_placed env (front ++ e.output env)
      (by simp [aligned, e.output_aligned]) rest
    rw [argumentSites, placed_append]
    exact ⟨head.first ((Begins.refl _).append _), tail.later (.refl _)⟩

theorem further_sites_placed (env : Environment) (front : Output) (aligned : front.Aligned) :
    (arguments : List Expression) →
      Placed (front ++ furtherOutput env arguments) (furtherSites env front arguments)
  | [] => placed_nil
  | e :: rest => by
    have head := e.sites_placed env (front ++ took (.mark .comma)) (by simp [aligned])
    have tail := further_sites_placed env (front ++ (took (.mark .comma) ++ e.output env))
      (by simp [aligned, e.output_aligned]) rest
    rw [furtherSites, placed_append]
    exact ⟨head.later ((Begins.refl _).append _), tail.later (.refl _)⟩

end

theorem blockOutput_begins (a body : Output) :
    (a ++ took (.mark .leftBrace) ++ body).Begins (a ++ blockOutput (within .statements body)) := by
  rw [append_assoc]
  exact (((Begins.refl body).within _).behind _ |>.append _).behind _

theorem condition_begins (number : Nat) (condition body : Output) :
    (oneIf ++ took (.keyword .if) ++ took (.mark .leftParen) ++ condition).Begins
      (ifOutput number condition body) :=
  (((Begins.refl _).append _).append _).append _

theorem ifOpening_begins (number : Nat) (condition body : Output) :
    (ifOpening number condition ++ body).Begins
      (ifOutput number condition (within .statements body)) :=
  blockOutput_begins _ body

mutual

theorem Statement.sites_placed (env : Environment) (front : Output) (ifs whiles : Nat)
    (aligned : front.Aligned) :
    (st : Statement) → Placed (front ++ st.output env ifs whiles) (st.sites env front ifs whiles)
  | .let name value => by
    have inner := value.sites_placed env
      (front ++ (took (.keyword .let) ++ took (.identifier name) ++ took (.mark .equal)))
      (by simp [aligned])
    exact inner.later ((((Begins.refl _).append _).append _).within _)
  | .letElement name index value => by
    have place := index.sites_placed env
      (front ++ (took (.keyword .let) ++ took (.identifier name) ++ took (.mark .leftBracket)))
      (by simp [aligned])
    have base := indexOutput_aligned env name (index.output_aligned env)
    have inner := value.sites_placed env
      (front ++ (took (.keyword .let) ++ took (.identifier name) ++
        indexOutput env name (index.output env) ++ took (.mark .equal)))
      (by simp [aligned, base])
    rw [Statement.sites, placed_append]
    refine ⟨place.later ?_, inner.later ((((Begins.refl _).append _).append _).within _)⟩
    have bracket : (took (.mark .leftBracket) ++ index.output env).Begins
        (indexOutput env name (index.output env)) := ((Begins.refl _).append _).append _
    rw [append_assoc]
    exact (((((bracket.behind _).append _).append _).append _).append _).within _
  | .if condition body => by
    have test := condition.sites_placed env
      (front ++ (oneIf ++ took (.keyword .if) ++ took (.mark .leftParen))) (by simp [aligned])
    have block := statement_sites_placed env (front ++ ifOpening ifs (condition.output env))
      (ifs + 1) whiles (by simp [aligned, ifOpening, condition.output_aligned]) body
    rw [Statement.sites, placed_append]
    refine ⟨test.later ?_, block.later ?_⟩
    · exact ((condition_begins ifs _ _).append _).within _
    · exact ((ifOpening_begins ifs _ _).append _).within _
  | .ifElse condition body otherwise => by
    have test := condition.sites_placed env
      (front ++ (oneIf ++ took (.keyword .if) ++ took (.mark .leftParen))) (by simp [aligned])
    have block := statement_sites_placed env (front ++ ifOpening ifs (condition.output env))
      (ifs + 1) whiles (by simp [aligned, ifOpening, condition.output_aligned]) body
    have before : (ifOutput ifs (condition.output env)
        (within .statements (statementOutput env (ifs + 1) whiles body))).Aligned :=
      ifOutput_aligned ifs (condition.output_aligned env)
        (statement_output_aligned env (ifs + 1) whiles body)
    have other := statement_sites_placed env
      (front ++ elseOpening ifs (condition.output env)
        (within .statements (statementOutput env (ifs + 1) whiles body)))
      (ifs + 1 + ifCount body) (whiles + whileCount body)
      (by simp [aligned, elseOpening, before]) otherwise
    rw [Statement.sites, placed_append, placed_append]
    refine ⟨test.later ?_, block.later ?_, other.later ?_⟩
    · exact (((((condition_begins ifs _ _).append _).append _).append _).append _).within _
    · exact (((((ifOpening_begins ifs _ _).append _).append _).append _).append _).within _
    · exact ((blockOutput_begins _ _).append _).within _
  | .while condition body => by
    have test := condition.sites_placed env (front ++ whileOpening whiles)
      (by simp [aligned, whileOpening])
    have block := statement_sites_placed env (front ++ loopOpening whiles (condition.output env))
      ifs (whiles + 1)
      (by simp [aligned, loopOpening, whileOpening, condition.output_aligned]) body
    rw [Statement.sites, placed_append]
    have opened : (whileOpening whiles ++ condition.output env).Begins
        (loopOpening whiles (condition.output env)) :=
      (((Begins.refl _).append _).append _).append _
    refine ⟨test.later ?_, block.later ?_⟩
    · exact (((opened.append _).append _).append _).within _
    · exact (((((Begins.refl _).within _).behind _).append _).append _).within _
  | .do callee arguments => by
    have inner := argument_sites_placed env
      (front ++ took (.keyword .do) ++ callOpening env callee)
      (by simp [aligned, callOpening_aligned]) arguments
    refine (call_placed (aligned.append (aligned_took _)) inner).later ?_
    rw [Construct.output, ← append_assoc]
    exact (((Begins.refl _).append _).append _).within _
  | .return none => placed_nil
  | .return (some value) => by
    have inner := value.sites_placed env (front ++ took (.keyword .return)) (by simp [aligned])
    exact inner.later ((((Begins.refl _).append _).append _).within _)

theorem statement_sites_placed (env : Environment) (front : Output) (ifs whiles : Nat)
    (aligned : front.Aligned) :
    (body : List Statement) → Placed (front ++ statementOutput env ifs whiles body)
      (statementSites env front ifs whiles body)
  | [] => placed_nil
  | first :: rest => by
    have head := first.sites_placed env front ifs whiles aligned
    have tail := statement_sites_placed env (front ++ first.output env ifs whiles)
      (ifs + first.ifCount) (whiles + first.whileCount)
      (by simp [aligned, first.output_aligned]) rest
    rw [statementSites, placed_append, placed_cons]
    have start := (Begins.refl (first.output env ifs whiles)).append
      (statementOutput env (ifs + first.ifCount) (whiles + first.whileCount) rest)
    exact ⟨⟨⟨aligned, start.behind front⟩, head.first start⟩, tail.later (.refl _)⟩

end

theorem SubroutineDec.opening_aligned (d : SubroutineDec) (c : ClassDec) :
    (d.opening c).Aligned := by
  simp [opening, locals_aligned, parameterOutput_aligned]

theorem SubroutineDec.opening_begins (d : SubroutineDec) (c : ClassDec) :
    (d.opening c ++ statementOutput (d.environment c) 0 0 d.body).Begins (d.output c) := by
  rw [opening, append_assoc]
  exact ((((((Begins.refl _).within _).behind _).append _).within _).behind _).within _

theorem subroutineSites_placed (c : ClassDec) (front : Output)
    (aligned : front.Aligned) (ds : List SubroutineDec) :
    Placed (front ++ join (ds.map fun d => d.output c)) (subroutineSites c front ds) := by
  induction ds generalizing front with
  | nil => exact placed_nil
  | cons d rest ih =>
    have body := statement_sites_placed (d.environment c) (front ++ d.opening c) 0 0
      (by simp [aligned, d.opening_aligned]) d.body
    have tail := ih (front ++ d.output c) (by simp [aligned, d.output_aligned])
    have start : (d.output c).Begins (join ((d :: rest).map fun d => d.output c)) :=
      (Begins.refl _).append _
    rw [subroutineSites, placed_append, placed_cons]
    refine ⟨⟨⟨aligned, start.behind front⟩, ?_⟩, tail.later (.refl _)⟩
    exact (body.later (d.opening_begins c)).mono (start.behind front)

theorem ClassDec.opening_aligned (c : ClassDec) : c.opening.Aligned := by
  have declarations : (join (c.varDecs.map ClassVarDec.output)).Aligned :=
    aligned_join (List.forall_mem_map.mpr fun d _ => d.output_aligned)
  simp [opening, declarations]

/-- All constructs of a class stand in its output where their sites say. -/
theorem ClassDec.sites_placed (c : ClassDec) : Placed c.output c.sites := by
  have subroutines := subroutineSites_placed c c.opening c.opening_aligned c.subroutines
  exact subroutines.mono (((Begins.refl _).append _).within _)

end JackVm

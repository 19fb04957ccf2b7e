import JackVm.Proofs.Derivation.OfTree
import JackVm.Proofs.Syntax.Unambiguity

/-!
# Derivations are unique

Every derivation is that of a syntax tree: a right-hand side is taken apart along the rule it is
from, and what the productions in it derive is known by induction. So two derivations of one text
are derivations of one class.
-/

namespace JackVm

open JackVm.Derivation Grammar
open scoped Computability

/-- Whether a derivation of a production is that of a syntax tree. -/
def Production.Builds (d : Derivation) : Production → Prop
  | .class => ∃ c : ClassDec, d = c.derivation
  | .classVarDec => ∃ v : ClassVarDec, d = v.derivation
  | .subroutineDec => ∃ s : SubroutineDec, d = s.derivation
  | .parameterList => ∃ ps : List Parameter, d = node .parameterList (parameterRow ps)
  | .subroutineBody => ∃ groups body, d = bodyDerivation groups body
  | .varDec => ∃ g : VariableGroup, d = g.derivation
  | .statements => ∃ body : List Statement, d = node .statements (statementRow body)
  | .letStatement | .ifStatement | .whileStatement | .doStatement | .returnStatement =>
    ∃ st : Statement, d = st.derivation
  | .expressionList => ∃ es : List Expression, d = node .expressionList (argumentRow es)
  | .expression => ∃ e : Expression, d = e.derivation
  | .term => ∃ t : Term, d = t.derivation

def Derivation.Built : Derivation → Prop
  | terminal _ => True
  | node p children => p.Builds (node p children)

/-- A row of derivations of syntax trees whose roots are in a language. -/
structure Derivation.Row (L : Language Symbol) (ds : List Derivation) : Prop where
  derived : ds.map symbol ∈ L
  built : ∀ d ∈ ds, d.Built

namespace Derivation.Row

variable {L M : Language Symbol} {ds : List Derivation} {kinds : List TokenKind}

theorem mul (h : Row (L * M) ds) : ∃ as bs, ds = as ++ bs ∧ Row L as ∧ Row M bs := by
  obtain ⟨x, inL, y, inM, whole⟩ := Language.mem_mul.mp h.derived
  obtain ⟨as, bs, split, rfl, rfl⟩ := List.map_eq_append_iff.mp whole.symm
  have built := List.forall_mem_append.mp (split ▸ h.built)
  exact ⟨as, bs, split, ⟨inL, built.1⟩, ⟨inM, built.2⟩⟩

theorem add (h : Row (L + M) ds) : Row L ds ∨ Row M ds := by
  cases h.derived with
  | inl inL => exact .inl ⟨inL, h.built⟩
  | inr inM => exact .inr ⟨inM, h.built⟩

theorem one (h : Row 1 ds) : ds = [] :=
  List.map_eq_nil_iff.mp h.derived

theorem star {P : List Derivation → Prop} (nil : P [])
    (cons : ∀ as bs, Row L as → P bs → P (as ++ bs)) (h : Row L∗ ds) : P ds := by
  obtain ⟨derived, built⟩ := h
  obtain ⟨rows, whole, inside⟩ := Language.mem_kstar.mp derived
  induction rows generalizing ds with
  | nil =>
    rw [List.map_eq_nil_iff.mp whole]
    exact nil
  | cons row rows ih =>
    obtain ⟨as, bs, split, first, others⟩ := List.map_eq_append_iff.mp whole
    rw [List.forall_mem_cons] at inside
    rw [split, List.forall_mem_append] at built
    rw [split]
    refine cons as bs ⟨first ▸ inside.1, built.1⟩ (ih ?_ built.2 others inside.2)
    exact Language.mem_kstar.mpr ⟨rows, others, inside.2⟩

theorem anyOf (h : Row (anyOf kinds) ds) : ∃ l : Lexeme, l.kind ∈ kinds ∧ ds = [terminal l] := by
  obtain ⟨kind, mem, alone⟩ := h.derived
  obtain ⟨d, single, symbol⟩ := List.map_eq_singleton_iff.mp alone
  cases d with
  | node p children => cases symbol
  | terminal l => exact ⟨l, Symbol.terminal.inj symbol ▸ mem, single⟩

theorem part {p : Production} (h : Row (part p) ds) : ∃ d, ds = [d] ∧ p.Builds d := by
  obtain ⟨d, single, symbol⟩ := List.map_eq_singleton_iff.mp h.derived
  have built := h.built d (by simp [single])
  cases d with
  | terminal l => cases symbol
  | node q children =>
    cases symbol
    exact ⟨_, single, built⟩

theorem word {k : Keyword} (h : Row (word k) ds) : ds = [keyword k] := by
  obtain ⟨l, mem, single⟩ := h.anyOf
  rw [single, Lexeme.kind_eq_keyword.mp (List.mem_singleton.mp mem), keyword]

theorem mark {m : Mark} (h : Row (Grammar.mark m) ds) : ds = [Derivation.mark m] := by
  obtain ⟨l, mem, single⟩ := h.anyOf
  rw [single, Lexeme.kind_eq_mark.mp (List.mem_singleton.mp mem), Derivation.mark]

theorem identifier (h : Row Grammar.identifier ds) : ∃ name, ds = [Derivation.identifier name] := by
  obtain ⟨l, mem, single⟩ := h.anyOf
  obtain ⟨name, rfl⟩ := Lexeme.kind_eq_identifier.mp (List.mem_singleton.mp mem)
  exact ⟨name, single⟩

theorem opened {m : Mark} (h : Row (Grammar.mark m * L) ds) :
    ∃ bs, ds = Derivation.mark m :: bs ∧ Row L bs := by
  obtain ⟨_, bs, rfl, first, others⟩ := h.mul
  rw [first.mark]
  exact ⟨bs, rfl, others⟩

theorem closed {m : Mark} (h : Row (L * Grammar.mark m) ds) :
    ∃ as, ds = as ++ [Derivation.mark m] ∧ Row L as := by
  obtain ⟨as, _, rfl, others, last⟩ := h.mul
  rw [last.mark]
  exact ⟨as, rfl, others⟩

theorem expression (h : Row (Grammar.part .expression) ds) :
    ∃ e : Expression, ds = [e.derivation] := by
  obtain ⟨d, single, e, rfl⟩ := h.part
  exact ⟨e, single⟩

theorem term (h : Row (Grammar.part .term) ds) : ∃ t : Term, ds = [t.derivation] := by
  obtain ⟨d, single, t, rfl⟩ := h.part
  exact ⟨t, single⟩

/-! ## Parts of rules -/

theorem typeName (h : Row typeName ds) : ∃ type : TypeName, ds = [terminal type.lexeme] := by
  obtain ⟨l, mem, rfl⟩ := h.anyOf
  simp only [List.mem_cons, List.not_mem_nil, or_false, Lexeme.kind_eq_keyword,
    Lexeme.kind_eq_identifier] at mem
  rcases mem with rfl | rfl | rfl | ⟨name, rfl⟩
  · exact ⟨.int, rfl⟩
  · exact ⟨.char, rfl⟩
  · exact ⟨.boolean, rfl⟩
  · exact ⟨.named name, rfl⟩

theorem nameList (h : Row nameList ds) :
    ∃ first rest, ds = Derivation.identifier first :: furtherNameRow rest := by
  obtain ⟨_, bs, rfl, head, others⟩ := h.mul
  obtain ⟨first, rfl⟩ := head.identifier
  have rest : ∃ names, bs = furtherNameRow names := by
    apply others.star ⟨[], rfl⟩
    intro as bs row more
    obtain ⟨_, rfl, named⟩ := row.opened
    obtain ⟨name, rfl⟩ := named.identifier
    obtain ⟨names, rfl⟩ := more
    exact ⟨name :: names, rfl⟩
  obtain ⟨rest, rfl⟩ := rest
  exact ⟨first, rest, rfl⟩

theorem group (h : Row (Grammar.typeName * Grammar.nameList * Grammar.mark .semicolon) ds) :
    ∃ g : VariableGroup, ds = g.row := by
  obtain ⟨_, rfl, front⟩ := h.closed
  obtain ⟨_, _, rfl, typed, names⟩ := front.mul
  obtain ⟨type, rfl⟩ := typed.typeName
  obtain ⟨first, rest, rfl⟩ := names.nameList
  exact ⟨⟨type, first, rest⟩, rfl⟩

theorem parameter (h : Row parameter ds) : ∃ p : Parameter, ds = p.row := by
  obtain ⟨_, _, rfl, typed, named⟩ := h.mul
  obtain ⟨type, rfl⟩ := typed.typeName
  obtain ⟨name, rfl⟩ := named.identifier
  exact ⟨⟨type, name⟩, rfl⟩

theorem index (h : Row index ds) : ∃ e : Expression,
    ds = [Derivation.mark .leftBracket, e.derivation, Derivation.mark .rightBracket] := by
  obtain ⟨_, rfl, front⟩ := h.closed
  obtain ⟨_, rfl, inner⟩ := front.opened
  obtain ⟨e, rfl⟩ := inner.expression
  exact ⟨e, rfl⟩

theorem block (h : Row block ds) : ∃ body, ds = blockRow (statementRow body) := by
  obtain ⟨_, rfl, front⟩ := h.closed
  obtain ⟨_, rfl, inner⟩ := front.opened
  obtain ⟨_, rfl, body, rfl⟩ := inner.part
  exact ⟨body, rfl⟩

theorem arguments (h : Row arguments ds) : ∃ es, ds =
    [Derivation.mark .leftParen, node .expressionList (argumentRow es),
      Derivation.mark .rightParen] := by
  obtain ⟨_, rfl, front⟩ := h.closed
  obtain ⟨_, rfl, inner⟩ := front.opened
  obtain ⟨_, rfl, es, rfl⟩ := inner.part
  exact ⟨es, rfl⟩

theorem call (h : Row (Grammar.identifier * callTail) ds) :
    ∃ callee es, ds = callRow callee (argumentRow es) := by
  obtain ⟨_, _, rfl, named, tail⟩ := h.mul
  obtain ⟨name, rfl⟩ := named.identifier
  cases tail.add with
  | inl own =>
    obtain ⟨es, rfl⟩ := own.arguments
    exact ⟨.own name, es, rfl⟩
  | inr qualified =>
    obtain ⟨_, _, rfl, front, list⟩ := qualified.mul
    obtain ⟨_, rfl, named⟩ := front.opened
    obtain ⟨other, rfl⟩ := named.identifier
    obtain ⟨es, rfl⟩ := list.arguments
    exact ⟨.qualified name other, es, rfl⟩

theorem binaryOperator (h : Row binaryOperator ds) :
    ∃ op : BinaryOperator, ds = [Derivation.mark op.mark] := by
  obtain ⟨l, mem, rfl⟩ := h.anyOf
  simp only [List.mem_cons, List.not_mem_nil, or_false, Lexeme.kind_eq_mark] at mem
  rcases mem with rfl | rfl | rfl | rfl | rfl | rfl | rfl | rfl | rfl
  · exact ⟨.add, rfl⟩
  · exact ⟨.subtract, rfl⟩
  · exact ⟨.multiply, rfl⟩
  · exact ⟨.divide, rfl⟩
  · exact ⟨.less, rfl⟩
  · exact ⟨.greater, rfl⟩
  · exact ⟨.equal, rfl⟩
  · exact ⟨.and, rfl⟩
  · exact ⟨.or, rfl⟩

theorem unaryOperator (h : Row unaryOperator ds) :
    ∃ op : UnaryOperator, ds = [Derivation.mark op.mark] := by
  obtain ⟨l, mem, rfl⟩ := h.anyOf
  simp only [List.mem_cons, List.not_mem_nil, or_false, Lexeme.kind_eq_mark] at mem
  rcases mem with rfl | rfl
  · exact ⟨.negate, rfl⟩
  · exact ⟨.complement, rfl⟩

theorem constant (h : Row constant ds) : ∃ t : Term, node .term ds = t.derivation := by
  obtain ⟨l, mem, rfl⟩ := h.anyOf
  cases l with
  | integer digits => exact ⟨.integer digits, by rw [Term.derivation]⟩
  | string content => exact ⟨.string content, by rw [Term.derivation]⟩
  | keyword k =>
    simp only [Lexeme.kind, List.mem_cons, List.not_mem_nil, or_false, reduceCtorEq, false_or,
      TokenKind.keyword.injEq] at mem
    rcases mem with rfl | rfl | rfl | rfl
    · exact ⟨.constant .true, by rw [Term.derivation]; rfl⟩
    · exact ⟨.constant .false, by rw [Term.derivation]; rfl⟩
    · exact ⟨.constant .null, by rw [Term.derivation]; rfl⟩
    · exact ⟨.constant .this, by rw [Term.derivation]; rfl⟩
  | _ => simp [Lexeme.kind] at mem

/-! ## Rules -/

theorem expressionRule (h : Row Production.expression.rule ds) :
    ∃ e : Expression, node .expression ds = e.derivation := by
  obtain ⟨_, bs, rfl, head, others⟩ := h.mul
  obtain ⟨first, rfl⟩ := head.term
  have rest : ∃ operations, bs = operationRow operations := by
    apply others.star ⟨[], by rw [operationRow]⟩
    intro as bs row more
    obtain ⟨_, _, rfl, sign, operand⟩ := row.mul
    obtain ⟨op, rfl⟩ := sign.binaryOperator
    obtain ⟨t, rfl⟩ := operand.term
    obtain ⟨operations, rfl⟩ := more
    exact ⟨(op, t) :: operations, by rw [operationRow]; rfl⟩
  obtain ⟨rest, rfl⟩ := rest
  exact ⟨.mk first rest, by rw [Expression.derivation]; rfl⟩

theorem termRule (h : Row Production.term.rule ds) :
    ∃ t : Term, node .term ds = t.derivation := by
  have alternative {L : Language Symbol} (derived : ds.map symbol ∈ L) : Row L ds :=
    ⟨derived, h.built⟩
  rcases h.derived with (((single | named) | applied) | grouped) | signed
  · exact (alternative single).constant
  · obtain ⟨_, _, rfl, named, indexed⟩ := (alternative named).mul
    obtain ⟨name, rfl⟩ := named.identifier
    cases indexed.add with
    | inl absent =>
      rw [absent.one]
      exact ⟨.variable name, by rw [Term.derivation]; rfl⟩
    | inr present =>
      obtain ⟨e, rfl⟩ := present.index
      exact ⟨.element name e, by rw [Term.derivation]; rfl⟩
  · obtain ⟨callee, es, rfl⟩ := (alternative applied).call
    exact ⟨.call callee es, by rw [Term.derivation]⟩
  · obtain ⟨_, rfl, front⟩ := (alternative grouped).closed
    obtain ⟨_, rfl, inner⟩ := front.opened
    obtain ⟨e, rfl⟩ := inner.expression
    exact ⟨.group e, by rw [Term.derivation]; rfl⟩
  · obtain ⟨_, _, rfl, sign, operand⟩ := (alternative signed).mul
    obtain ⟨op, rfl⟩ := sign.unaryOperator
    obtain ⟨t, rfl⟩ := operand.term
    exact ⟨.unary op t, by rw [Term.derivation]; rfl⟩

theorem expressionListRule (h : Row Production.expressionList.rule ds) :
    ∃ es, ds = argumentRow es := by
  cases h.add with
  | inl absent => exact ⟨[], by rw [absent.one, argumentRow]⟩
  | inr present =>
    obtain ⟨_, bs, rfl, head, others⟩ := present.mul
    obtain ⟨first, rfl⟩ := head.expression
    have rest : ∃ es, bs = furtherRow es := by
      apply others.star ⟨[], by rw [furtherRow]⟩
      intro as bs row more
      obtain ⟨_, rfl, argument⟩ := row.opened
      obtain ⟨e, rfl⟩ := argument.expression
      obtain ⟨es, rfl⟩ := more
      exact ⟨e :: es, by rw [furtherRow]; rfl⟩
    obtain ⟨rest, rfl⟩ := rest
    exact ⟨first :: rest, by rw [argumentRow]; rfl⟩

theorem statement (h : Row statement ds) : ∃ st : Statement, ds = [st.derivation] := by
  have alternative {p : Production} (kept : ∀ d, p.Builds d → ∃ st : Statement, d = st.derivation)
      (derived : ds.map symbol ∈ Grammar.part p) : ∃ st : Statement, ds = [st.derivation] := by
    obtain ⟨d, single, build⟩ := Row.part ⟨derived, h.built⟩
    obtain ⟨st, rfl⟩ := kept d build
    exact ⟨st, single⟩
  rcases h.derived with (((assigns | branches) | loops) | calls) | returns
  · exact alternative (fun _ => id) assigns
  · exact alternative (fun _ => id) branches
  · exact alternative (fun _ => id) loops
  · exact alternative (fun _ => id) calls
  · exact alternative (fun _ => id) returns

theorem statementsRule (h : Row Production.statements.rule ds) :
    ∃ body, ds = statementRow body := by
  apply h.star ⟨[], by rw [statementRow]⟩
  intro as bs row more
  obtain ⟨st, rfl⟩ := row.statement
  obtain ⟨body, rfl⟩ := more
  exact ⟨st :: body, by rw [statementRow]; rfl⟩

theorem letRule (h : Row Production.letStatement.rule ds) :
    ∃ st : Statement, node .letStatement ds = st.derivation := by
  obtain ⟨_, rfl, statement⟩ := h.closed
  obtain ⟨_, _, rfl, target, assigned⟩ := statement.mul
  obtain ⟨_, rfl, front⟩ := target.closed
  obtain ⟨_, _, rfl, front, indexed⟩ := front.mul
  obtain ⟨_, _, rfl, first, named⟩ := front.mul
  obtain ⟨name, rfl⟩ := named.identifier
  obtain ⟨value, rfl⟩ := assigned.expression
  rw [first.word]
  cases indexed.add with
  | inl absent =>
    rw [absent.one]
    exact ⟨.let name value, by rw [Statement.derivation]; rfl⟩
  | inr present =>
    obtain ⟨e, rfl⟩ := present.index
    exact ⟨.letElement name e value, by rw [Statement.derivation]; rfl⟩

theorem condition {k : Keyword} (h : Row (Grammar.word k * Grammar.mark .leftParen *
    Grammar.part .expression * Grammar.mark .rightParen) ds) : ∃ e : Expression,
    ds = [keyword k, Derivation.mark .leftParen, e.derivation, Derivation.mark .rightParen] := by
  obtain ⟨_, rfl, front⟩ := h.closed
  obtain ⟨_, _, rfl, front, inner⟩ := front.mul
  obtain ⟨_, rfl, first⟩ := front.closed
  obtain ⟨e, rfl⟩ := inner.expression
  rw [first.word]
  exact ⟨e, rfl⟩

theorem ifRule (h : Row Production.ifStatement.rule ds) :
    ∃ st : Statement, node .ifStatement ds = st.derivation := by
  obtain ⟨_, _, rfl, h, otherwise⟩ := h.mul
  obtain ⟨_, _, rfl, condition, block⟩ := h.mul
  obtain ⟨e, rfl⟩ := condition.condition
  obtain ⟨body, rfl⟩ := block.block
  cases otherwise.add with
  | inl absent =>
    rw [absent.one]
    exact ⟨.if e body, by rw [Statement.derivation, List.append_nil]; rfl⟩
  | inr present =>
    obtain ⟨_, _, rfl, first, block⟩ := present.mul
    obtain ⟨other, rfl⟩ := block.block
    rw [first.word]
    exact ⟨.ifElse e body other, by rw [Statement.derivation, List.append_assoc]; rfl⟩

theorem whileRule (h : Row Production.whileStatement.rule ds) :
    ∃ st : Statement, node .whileStatement ds = st.derivation := by
  obtain ⟨_, _, rfl, condition, block⟩ := h.mul
  obtain ⟨e, rfl⟩ := condition.condition
  obtain ⟨body, rfl⟩ := block.block
  exact ⟨.while e body, by rw [Statement.derivation]; rfl⟩

theorem doRule (h : Row Production.doStatement.rule ds) :
    ∃ st : Statement, node .doStatement ds = st.derivation := by
  obtain ⟨_, rfl, front⟩ := h.closed
  rw [mul_assoc] at front
  obtain ⟨_, _, rfl, first, call⟩ := front.mul
  obtain ⟨callee, es, rfl⟩ := call.call
  rw [first.word]
  exact ⟨.do callee es, by rw [Statement.derivation]; rfl⟩

theorem returnRule (h : Row Production.returnStatement.rule ds) :
    ∃ st : Statement, node .returnStatement ds = st.derivation := by
  obtain ⟨_, rfl, front⟩ := h.closed
  obtain ⟨_, _, rfl, first, value⟩ := front.mul
  rw [first.word]
  cases value.add with
  | inl absent =>
    rw [absent.one]
    exact ⟨.return none, by rw [Statement.derivation]; rfl⟩
  | inr present =>
    obtain ⟨e, rfl⟩ := present.expression
    exact ⟨.return (some e), by rw [Statement.derivation]; rfl⟩

theorem varDecRule (h : Row Production.varDec.rule ds) :
    ∃ g : VariableGroup, node .varDec ds = g.derivation := by
  obtain ⟨_, _, rfl, first, group⟩ := h.mul
  obtain ⟨g, rfl⟩ := group.group
  rw [first.word]
  exact ⟨g, rfl⟩

theorem classVarDecRule (h : Row Production.classVarDec.rule ds) :
    ∃ d : ClassVarDec, node .classVarDec ds = d.derivation := by
  obtain ⟨_, _, rfl, first, group⟩ := h.mul
  obtain ⟨g, rfl⟩ := group.group
  obtain ⟨l, mem, rfl⟩ := first.anyOf
  simp only [List.mem_cons, List.not_mem_nil, or_false, Lexeme.kind_eq_keyword] at mem
  rcases mem with rfl | rfl
  · exact ⟨⟨.static, g⟩, rfl⟩
  · exact ⟨⟨.field, g⟩, rfl⟩

theorem parameterListRule (h : Row Production.parameterList.rule ds) :
    ∃ ps, ds = parameterRow ps := by
  cases h.add with
  | inl absent => exact ⟨[], absent.one⟩
  | inr present =>
    obtain ⟨_, bs, rfl, head, others⟩ := present.mul
    obtain ⟨first, rfl⟩ := head.parameter
    have rest : ∃ ps : List Parameter,
        bs = ps.flatMap fun p => Derivation.mark .comma :: p.row := by
      apply others.star ⟨[], rfl⟩
      intro as bs row more
      obtain ⟨_, rfl, parameter⟩ := row.opened
      obtain ⟨p, rfl⟩ := parameter.parameter
      obtain ⟨ps, rfl⟩ := more
      exact ⟨p :: ps, rfl⟩
    obtain ⟨rest, rfl⟩ := rest
    exact ⟨first :: rest, rfl⟩

theorem parts {α : Type} {p : Production} {f : α → Derivation}
    (each : ∀ d, p.Builds d → ∃ x, d = f x) (h : Row (Grammar.part p)∗ ds) :
    ∃ xs : List α, ds = xs.map f := by
  apply h.star ⟨[], rfl⟩
  intro as bs row more
  obtain ⟨d, rfl, build⟩ := row.part
  obtain ⟨x, rfl⟩ := each d build
  obtain ⟨xs, rfl⟩ := more
  exact ⟨x :: xs, rfl⟩

theorem subroutineBodyRule (h : Row Production.subroutineBody.rule ds) :
    ∃ groups body, node .subroutineBody ds = bodyDerivation groups body := by
  obtain ⟨_, rfl, front⟩ := h.closed
  obtain ⟨_, _, rfl, front, inner⟩ := front.mul
  obtain ⟨_, rfl, declared⟩ := front.opened
  obtain ⟨groups, rfl⟩ := declared.parts (f := VariableGroup.derivation) fun _ => id
  obtain ⟨_, rfl, body, rfl⟩ := inner.part
  exact ⟨groups, body, by rw [bodyDerivation]; simp⟩

theorem form (h : Row (Grammar.anyOf [.keyword .constructor, .keyword .function,
    .keyword .method]) ds) : ∃ form : SubroutineForm, ds = [keyword form.keyword] := by
  obtain ⟨l, mem, rfl⟩ := h.anyOf
  simp only [List.mem_cons, List.not_mem_nil, or_false, Lexeme.kind_eq_keyword] at mem
  rcases mem with rfl | rfl | rfl
  · exact ⟨.constructor, rfl⟩
  · exact ⟨.function, rfl⟩
  · exact ⟨.method, rfl⟩

theorem result (h : Row (Grammar.word .void + Grammar.typeName) ds) :
    ∃ result, ds = [terminal (resultLexeme result)] := by
  cases h.add with
  | inl void => exact ⟨none, void.word⟩
  | inr typed =>
    obtain ⟨type, single⟩ := typed.typeName
    exact ⟨some type, single⟩

theorem subroutineDecRule (h : Row Production.subroutineDec.rule ds) :
    ∃ d : SubroutineDec, node .subroutineDec ds = d.derivation := by
  obtain ⟨_, _, rfl, head, inner⟩ := h.mul
  obtain ⟨_, rfl, front⟩ := head.closed
  obtain ⟨_, _, rfl, signature, list⟩ := front.mul
  obtain ⟨_, rfl, called⟩ := signature.closed
  obtain ⟨_, _, rfl, typed, named⟩ := called.mul
  obtain ⟨_, _, rfl, first, returned⟩ := typed.mul
  obtain ⟨_, rfl, groups, body, rfl⟩ := inner.part
  obtain ⟨_, rfl, parameters, rfl⟩ := list.part
  obtain ⟨name, rfl⟩ := named.identifier
  obtain ⟨form, rfl⟩ := first.form
  obtain ⟨result, rfl⟩ := returned.result
  exact ⟨⟨form, result, name, parameters, groups, body⟩, rfl⟩

theorem classRule (h : Row Production.class.rule ds) :
    ∃ c : ClassDec, node .class ds = c.derivation := by
  obtain ⟨_, rfl, members⟩ := h.closed
  obtain ⟨_, _, rfl, members, subroutines⟩ := members.mul
  obtain ⟨_, _, rfl, head, declared⟩ := members.mul
  obtain ⟨_, rfl, front⟩ := head.closed
  obtain ⟨_, _, rfl, first, named⟩ := front.mul
  obtain ⟨name, rfl⟩ := named.identifier
  obtain ⟨decs, rfl⟩ := declared.parts (f := ClassVarDec.derivation) fun _ => id
  obtain ⟨ds, rfl⟩ := subroutines.parts (f := SubroutineDec.derivation) fun _ => id
  rw [first.word]
  exact ⟨⟨name, decs, ds⟩, by rw [ClassDec.derivation]; simp⟩

theorem builds {p : Production} (h : Row p.rule ds) : p.Builds (node p ds) := by
  cases p with
  | «class» => exact h.classRule
  | classVarDec => exact h.classVarDecRule
  | subroutineDec => exact h.subroutineDecRule
  | parameterList =>
    obtain ⟨ps, same⟩ := h.parameterListRule
    exact ⟨ps, by rw [same]⟩
  | subroutineBody => exact h.subroutineBodyRule
  | varDec => exact h.varDecRule
  | statements =>
    obtain ⟨body, same⟩ := h.statementsRule
    exact ⟨body, by rw [same]⟩
  | letStatement => exact h.letRule
  | ifStatement => exact h.ifRule
  | whileStatement => exact h.whileRule
  | doStatement => exact h.doRule
  | returnStatement => exact h.returnRule
  | expressionList =>
    obtain ⟨es, same⟩ := h.expressionListRule
    exact ⟨es, by rw [same]⟩
  | expression => exact h.expressionRule
  | term => exact h.termRule

end Derivation.Row

theorem Derivation.Grammatical.built {d : Derivation} (h : d.Grammatical) : d.Built := by
  induction h with
  | terminal l => trivial
  | node derived _ ih => exact Row.builds ⟨derived, ih⟩

/-- A text has at most one derivation. -/
theorem Derivation.Grammatical.unique {d d' : Derivation} (h : d.Grammatical) (h' : d'.Grammatical)
    (root : ∃ children, d = .node .class children)
    (root' : ∃ children, d' = .node .class children) (same : d.lexemes = d'.lexemes) : d = d' := by
  obtain ⟨children, rfl⟩ := root
  obtain ⟨children', rfl⟩ := root'
  obtain ⟨c, isTree⟩ := h.built
  obtain ⟨c', isTree'⟩ := h'.built
  rw [isTree, isTree'] at same ⊢
  rw [c.lexemes_derivation, c'.lexemes_derivation] at same
  rw [ClassDec.lexemes_injective same]

end JackVm

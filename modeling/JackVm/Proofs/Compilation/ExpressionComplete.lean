import JackVm.Proofs.Compilation.ExpressionSound
import JackVm.Proofs.Syntax.Unambiguity

/-!
# Trees of expressions compile

If the text of an expression lies ahead, something that does not go on with it comes behind, and
the surroundings permit what the expression uses, then its compilation succeeds, and its output is
that of the tree. The bound on the depth has to be twice the length of the text.
-/

namespace JackVm

theorem Takes.stops {s : CompilerState} {p : Lexeme → Bool} {rest : List Lexeme}
    (h : Takes s.window rest) (stops : Stops p rest) : p s.peek.lexeme = false := by
  obtain ⟨l, first, holds⟩ := stops
  cases rest with
  | nil => simp at first
  | cons m rest =>
    obtain rfl : m = l := by simpa using first
    rw [← s.window_get_one, h.1]
    exact holds

theorem Takes.peek_ne_mark {s : CompilerState} {rest : List Lexeme} (e : Expression)
    (h : Takes s.window (e.lexemes ++ rest)) {m : Mark} (ends : m = .rightParen ∨ m = .semicolon) :
    s.peek.kind ≠ .mark m := by
  intro same
  cases text : e.lexemes ++ rest with
  | nil => exact e.lexemes_ne_nil (List.append_eq_nil_iff.mp text).1
  | cons l more =>
    rw [text] at h
    rw [h.kind_eq, Lexeme.kind_eq_mark] at same
    exact e.lexemes_ne_mark ends rest more (same ▸ text)

/-- A name that is not selected from is followed by none of the marks that do that. -/
theorem Takes.peek_not_selects {s : CompilerState} {rest : List Lexeme}
    (h : Takes s.window rest) (stops : Stops Lexeme.selects rest) :
    s.peek.kind ≠ .mark .leftParen ∧ s.peek.kind ≠ .mark .dot ∧
      s.peek.kind ≠ .mark .leftBracket := by
  have none := h.stops stops
  refine ⟨?_, ?_, ?_⟩ <;>
  · intro same
    rw [Lexeme.kind_eq_mark.mp same] at none
    cases none

theorem length_le_operationLexemes (operations : List (BinaryOperator × Term)) :
    operations.length ≤ (operationLexemes operations).length := by
  induction operations with
  | nil => exact Nat.le_refl _
  | cons operation operations ih =>
    simp only [operationLexemes, List.length_cons, List.length_append]
    omega

theorem length_le_furtherLexemes (arguments : List Expression) :
    arguments.length ≤ (furtherLexemes arguments).length := by
  induction arguments with
  | nil => exact Nat.le_refl _
  | cons e arguments ih =>
    simp only [furtherLexemes, List.length_cons, List.length_append]
    omega

theorem furtherLexemes_length_le (arguments : List Expression) :
    (furtherLexemes arguments).length ≤ (argumentLexemes arguments).length + 1 := by
  cases arguments <;> simp [furtherLexemes, argumentLexemes]

namespace Compilation

open Output

/-- Whether a compilation succeeds wherever the text of a tree lies ahead and the tree may be
used. -/
def Completes {τ : Type} (c : Compilation Unit) (lexemes : τ → List Lexeme) (uses : τ → List Use)
    (output : Environment → τ → Output) (p : Lexeme → Bool) (x : τ) : Prop :=
  ∀ (s : CompilerState) (rest : List Lexeme), Takes s.window (lexemes x ++ rest) → Stops p rest →
    (∀ u ∈ uses x, u.Permitted s.environment) →
    ∃ t, c s = .ok () t ∧ Compiles s (output s.environment x) t

abbrev CompletesExpression (c : Compilation Unit) (e : Expression) : Prop :=
  Completes c Expression.lexemes Expression.uses Expression.output Lexeme.operates e

abbrev CompletesTerm (c : Compilation Unit) (x : Term) : Prop :=
  Completes c Term.lexemes Term.uses Term.output Lexeme.selects x

section
variable {α : Type} {s r t : CompilerState} {rest : List Lexeme} {bound : Nat}

theorem iterate_stop {p : TokenKind → Bool} {body : α → Compilation α} (a : α)
    (stop : p s.peek.kind = false) : iterate p body bound a s = .ok a s := by
  cases bound <;>
  · rw [iterate, peekKind_bind, stop]
    rfl

theorem iterate_step {p : TokenKind → Bool} {body : α → Compilation α} {a b : α}
    (again : p s.peek.kind) (run : body a s = .ok b r) :
    iterate p body (bound + 1) a s = iterate p body bound b r := by
  rw [iterate, peekKind_bind, if_pos again, bind_ok run]

variable (bound)

/-! ## Indices, arguments and calls -/

theorem elementAddress_ok {index : Compilation Unit} {name : String} {e : Expression}
    {v : Variable} (complete : CompletesExpression index e)
    (found : s.environment.find? name = some v)
    (takes : Takes s.window
      (.mark .leftBracket :: (e.lexemes ++ .mark .rightBracket :: rest)))
    (permitted : ∀ u ∈ e.uses, u.Permitted s.environment) :
    ∃ t, elementAddress index v s =
        .ok (s.lineAt (1 + (e.output s.environment).lexemes.length)) t ∧
      Compiles s (indexOutput s.environment name (e.output s.environment)) t := by
  rw [indexOutput, Environment.load_of_find? found]
  have p₁ := takes.compiles
  rw [← p₁.environment] at permitted
  obtain ⟨r, run, p₂⟩ := complete _ _ takes.taken (stops_cons.mpr rfl) permitted
  rw [p₁.environment] at p₂
  have p := p₁.trans p₂
  have closing : Takes r.window (.mark .rightBracket :: rest) := by
    apply p.takes_rest
    simpa using takes
  have closing := closing.emitted [v.push, .arithmetic .add] (r.lineAt 0)
  have line : r.lineAt 0 = s.lineAt (1 + (e.output s.environment).lexemes.length) := by
    rw [p.lineAt 0]
    simp [Nat.add_comm]
  refine ⟨_, ?_, (p.trans (.wrote r [v.push, .arithmetic .add] 0)).trans closing.compiles⟩
  · rw [elementAddress, bind_ok (expect_ok (.mark .leftBracket) takes rfl), bind_ok run,
      currentLine_bind, emitAll_bind, bind_ok (expect_ok (.mark .rightBracket) closing rfl), line]
    rfl

theorem furtherArguments_ok {argument : Compilation Unit} {arguments : List Expression}
    (count : Nat) (complete : ∀ e ∈ arguments, CompletesExpression argument e)
    (room : arguments.length ≤ bound) (fits : count + arguments.length ≤ maxArguments)
    (takes : Takes s.window (furtherLexemes arguments ++ .mark .rightParen :: rest))
    (permitted : ∀ u ∈ argumentUses arguments, u.Permitted s.environment) :
    ∃ t, iterate (· = .mark .comma)
        (fun count => do consume; argument; countArguments count 1) bound count s =
        .ok (count + arguments.length) t ∧
      Compiles s (furtherOutput s.environment arguments) t := by
  induction arguments generalizing s bound count with
  | nil =>
    refine ⟨s, iterate_stop count ?_, .refl s⟩
    rw [Takes.kind_eq takes]
    rfl
  | cons e arguments ih =>
    cases bound with
    | zero => simp at room
    | succ bound =>
      rw [List.length_cons] at room fits
      simp only [furtherLexemes, List.cons_append, List.append_assoc] at takes
      simp only [argumentUses, List.forall_mem_append] at permitted
      have p₁ := takes.compiles
      obtain ⟨r, run, p₂⟩ := complete e (List.mem_cons_self ..) _ _ takes.taken
        (furtherLexemes_stop ..) (p₁.environment ▸ permitted.1)
      rw [p₁.environment] at p₂
      have p := p₁.trans p₂
      have behind : Takes r.window (furtherLexemes arguments ++ .mark .rightParen :: rest) := by
        apply p.takes_rest
        simpa using takes
      obtain ⟨t, more, p₃⟩ := ih bound (count + 1)
        (fun e' he' => complete e' (List.mem_cons_of_mem _ he')) (by omega) (by omega) behind
        (p.environment ▸ permitted.2)
      rw [p.environment] at p₃
      refine ⟨t, ?_, p.trans p₃⟩
      rw [iterate_step (b := count + 1) (r := r) (decide_eq_true takes.kind_eq), more,
        List.length_cons, Nat.add_assoc, Nat.add_comm 1]
      rw [bind_ok (consume_ok takes), bind_ok run, countArguments_eq_ok]
      exact ⟨by omega, rfl, rfl⟩

theorem expressionList_ok {argument : Compilation Unit} {arguments : List Expression}
    (complete : ∀ e ∈ arguments, CompletesExpression argument e)
    (room : arguments.length ≤ bound) (fits : arguments.length ≤ maxArguments)
    (takes : Takes s.window (argumentLexemes arguments ++ .mark .rightParen :: rest))
    (permitted : ∀ u ∈ argumentUses arguments, u.Permitted s.environment) :
    ∃ t, expressionList argument bound s = .ok arguments.length t ∧
      Compiles s (within .expressionList (argumentOutput s.environment arguments)) t := by
  apply production_ok
  have takes := takes.entered .expressionList
  rw [peekKind_bind]
  cases arguments with
  | nil =>
    have closes : (s.entered .expressionList).peek.kind = .mark .rightParen := Takes.kind_eq takes
    rw [if_pos closes]
    exact ⟨_, rfl, .refl _⟩
  | cons e arguments =>
    simp only [argumentLexemes, List.append_assoc] at takes
    simp only [argumentUses, List.forall_mem_append] at permitted
    rw [if_neg (takes.peek_ne_mark e (.inl rfl))]
    obtain ⟨r, run, p₁⟩ := complete e (List.mem_cons_self ..) (s.entered .expressionList) _ takes
      (furtherLexemes_stop ..) permitted.1
    have behind : Takes r.window (furtherLexemes arguments ++ .mark .rightParen :: rest) := by
      apply p₁.takes_rest
      simpa using takes
    rw [List.length_cons] at room fits
    obtain ⟨t, more, p₂⟩ := furtherArguments_ok bound 1
      (fun e' he' => complete e' (List.mem_cons_of_mem _ he')) (by omega) (by omega) behind
      (p₁.environment ▸ permitted.2)
    rw [p₁.environment] at p₂
    refine ⟨t, ?_, p₁.trans p₂⟩
    rw [bind_ok run, more, List.length_cons, Nat.add_comm]

theorem callArguments_ok {argument : Compilation Unit} {arguments : List Expression}
    (receivers : Nat) (complete : ∀ e ∈ arguments, CompletesExpression argument e)
    (room : arguments.length ≤ bound) (fits : arguments.length + receivers ≤ maxArguments)
    (takes : Takes s.window (argumentLexemes arguments ++ .mark .rightParen :: rest))
    (permitted : ∀ u ∈ argumentUses arguments, u.Permitted s.environment) :
    ∃ t, callArguments argument bound receivers s = .ok (arguments.length + receivers) t ∧
      Compiles s (listOutput (argumentOutput s.environment arguments)) t := by
  obtain ⟨r, run, p⟩ := expressionList_ok bound complete room (by omega) takes permitted
  have closing : Takes r.window (.mark .rightParen :: rest) := by
    apply p.takes_rest
    simpa using takes
  refine ⟨r.taken, ?_, p.trans closing.compiles⟩
  have counted : countArguments arguments.length receivers r =
      .ok (arguments.length + receivers) r := countArguments_eq_ok.mpr ⟨fits, rfl, rfl⟩
  rw [callArguments, bind_ok run, bind_ok counted,
    bind_ok (expect_ok (.mark .rightParen) closing rfl)]
  rfl

theorem call_ok {argument : Compilation Unit} {callee : Callee} {arguments : List Expression}
    (complete : ∀ e ∈ arguments, CompletesExpression argument e)
    (room : arguments.length ≤ bound)
    (takes : Takes s.window (callee.tail ++ (inParens (argumentLexemes arguments) ++ rest)))
    (permitted : ∀ u ∈ Use.call callee arguments.length :: argumentUses arguments,
      u.Permitted s.environment) :
    ∃ t, call argument bound callee.head s = .ok () t ∧
      Compiles s (callOutput s.environment callee arguments.length
        (argumentOutput s.environment arguments)) t := by
  obtain ⟨fits, allowed⟩ := List.forall_mem_cons.mp permitted
  cases callee with
  | own name =>
    simp only [Callee.tail, inParens, List.nil_append, List.cons_append, List.append_assoc] at takes
    have p₁ := takes.compiles.emitted [.push .pointer 0] 0
    rw [← p₁.environment] at allowed
    obtain ⟨r, run, p₂⟩ := callArguments_ok bound 1 complete room fits
      (takes.taken.emitted [.push .pointer 0] (s.lineAt 0)) allowed
    rw [p₁.environment] at p₂
    refine ⟨_, ?_, (p₁.trans p₂).emitted _ 0⟩
    rw [call, currentLine_bind, peekKind_bind, if_pos takes.kind_eq_mark,
      bind_ok (consume_ok takes), emit_bind, bind_ok run, className_bind, emit_run,
      (p₁.trans p₂).className]
    rfl
  | qualified qualifier name =>
    simp only [Callee.tail, inParens, List.nil_append, List.cons_append, List.append_assoc] at takes
    have p₁ := takes.compiles.trans takes.taken.compiles
    have p₂ := p₁.emitted (s.environment.load qualifier) 0
    have opened := takes.taken.taken.emitted (s.environment.load qualifier) (s.lineAt 0)
    have p₃ := p₂.trans opened.compiles
    rw [← p₃.environment] at allowed
    obtain ⟨r, run, p₄⟩ := callArguments_ok bound (s.environment.receivers
      (.qualified qualifier name)) complete room fits opened.taken allowed
    rw [p₃.environment] at p₄
    refine ⟨_, ?_, (p₃.trans p₄).emitted _ 0⟩
    have other : ¬ s.peek.kind = .mark .leftParen := by
      rw [takes.kind_eq_mark]
      decide
    rw [call, currentLine_bind, peekKind_bind, if_neg other,
      bind_ok (expect_ok (.mark .dot) takes rfl),
      bind_ok (expect_ok .identifier takes.taken rfl), currentText_bind, takes.taken.text_taken,
      lookup_bind, p₁.scopes]
    cases found : s.environment.find? qualifier with
    | some v =>
      have found' : s.scopes.find? (Callee.qualified qualifier name).head = some v := found
      simp only [Environment.load_of_find? found, Environment.receivers, Environment.target, found,
        Option.isSome_some, if_true] at opened run ⊢
      simp only [found', emit_bind]
      rw [bind_ok (expect_ok (.mark .leftParen) opened rfl), bind_ok run]
      rfl
    | none =>
      have found' : s.scopes.find? (Callee.qualified qualifier name).head = none := found
      simp only [Environment.load, Environment.receivers, Environment.target, found,
        Option.isSome_none, Bool.false_eq_true, if_false] at opened run ⊢
      simp only [found']
      rw [bind_ok (expect_ok (.mark .leftParen) takes.taken.taken rfl)]
      have run : callArguments argument bound 0 s.taken.taken.taken =
        .ok (arguments.length + 0) r := run
      rw [bind_ok run]
      rfl

/-! ## Terms and expressions -/

theorem applied_ok {operand : Compilation Unit} {op : UnaryOperator} {x : Term}
    (complete : CompletesTerm operand x)
    (takes : Takes s.window (.mark op.mark :: (x.lexemes ++ rest)))
    (stops : Stops Lexeme.selects rest) (permitted : ∀ u ∈ x.uses, u.Permitted s.environment) :
    ∃ t, applied op operand s = .ok () t ∧
      Compiles s (took (.mark op.mark) ++
        (x.output s.environment).thenWrote [op.instruction]) t := by
  have p₁ := takes.compiles
  obtain ⟨r, run, p₂⟩ := complete _ _ takes.taken stops (p₁.environment ▸ permitted)
  rw [p₁.environment] at p₂
  refine ⟨_, ?_, p₁.trans (p₂.emitted [op.instruction] 0)⟩
  rw [applied, bind_ok (consume_ok takes), currentLine_bind, bind_ok run]
  rfl

theorem operations_ok {operand : Compilation Unit} {operations : List (BinaryOperator × Term)}
    (complete : ∀ o ∈ operations, CompletesTerm operand o.2) (room : operations.length ≤ bound)
    (takes : Takes s.window (operationLexemes operations ++ rest))
    (stops : Stops Lexeme.operates rest)
    (permitted : ∀ u ∈ operationUses operations, u.Permitted s.environment) :
    ∃ t, iterate (fun kind => (BinaryOperator.ofKind? kind).isSome) (fun _ => do
        match BinaryOperator.ofKind? (← peekKind) with
        | some op =>
          consume
          let line ← currentLine
          operand
          emit op.instruction line
        | none => pure ()) bound () s = .ok () t ∧
      Compiles s (operationOutput s.environment operations) t := by
  induction operations generalizing s bound with
  | nil =>
    refine ⟨s, iterate_stop () ?_, .refl s⟩
    have none := takes.stops stops
    rw [Lexeme.operates, Bool.or_eq_false_iff] at none
    exact none.2
  | cons operation operations ih =>
    obtain ⟨op, x⟩ := operation
    cases bound with
    | zero => simp at room
    | succ bound =>
      simp only [operationLexemes, List.cons_append, List.append_assoc] at takes
      simp only [operationUses, List.forall_mem_append] at permitted
      have p₁ := takes.compiles
      obtain ⟨r, run, p₂⟩ := complete (op, x) (List.mem_cons_self ..) _ _ takes.taken
        (operationLexemes_stop operations stops) (p₁.environment ▸ permitted.1)
      rw [p₁.environment] at p₂
      have p := p₁.trans (p₂.emitted [op.instruction] 0)
      have behind := p.takes_rest (operationLexemes operations ++ rest)
        (by simpa using takes)
      obtain ⟨t, more, p₃⟩ := ih bound
        (fun o ho => complete o (List.mem_cons_of_mem _ ho)) (by simpa using room) behind
        (p.environment ▸ permitted.2)
      rw [p.environment] at p₃
      have kind : BinaryOperator.ofKind? s.peek.kind = some op :=
        BinaryOperator.ofKind?_eq_some_iff.mpr takes.kind_eq_mark
      refine ⟨t, ?_, p.trans p₃⟩
      rw [iterate_step (b := ()) (by simp [kind]) ?_, more]
      rw [peekKind_bind, kind]
      simp only
      rw [bind_ok (consume_ok takes), currentLine_bind, bind_ok run]
      rfl

theorem lone_ok {l : Lexeme} {code : List Instruction} (takes : Takes s.window (l :: rest)) :
    Compiles s (took l ++ wrote code) (s.taken.emitted code (s.taken.lineAt 0)) :=
  takes.compiles.trans (.wrote s.taken code 0)

theorem resolveCurrent_ok {name : String} {v : Variable}
    (takes : Takes s.window (.identifier name :: rest))
    (found : s.environment.find? name = some v) : resolveCurrent s.taken = .ok v s.taken := by
  refine resolveCurrent_eq_ok.mpr ⟨?_, rfl⟩
  rw [takes.text_taken, takes.compiles.environment]
  exact found

/-! ## Terms, one production each -/

theorem integer_completes (digits : String) :
    CompletesTerm (term (bound + 1)) (.integer digits) := by
  intro s rest takes stops permitted
  have takes := takes.entered .term
  have ahead : (s.entered .term).peek.lexeme = .integer digits := takes.1
  rw [term]
  apply production_ok
  simp only [peekLexeme_bind, ahead]
  rw [bind_ok (consume_ok takes)]
  have fits : numeralValue digits ≤ maxInteger := permitted _ (List.mem_singleton_self _)
  exact ⟨_, integerConstant_eq_ok.mpr ⟨fits, rfl⟩, lone_ok takes⟩

theorem string_completes (content : String) :
    CompletesTerm (term (bound + 1)) (.string content) := by
  intro s rest takes stops permitted
  have takes := takes.entered .term
  have ahead : (s.entered .term).peek.lexeme = .string content := takes.1
  rw [term]
  apply production_ok
  simp only [peekLexeme_bind, ahead]
  rw [bind_ok (consume_ok takes)]
  have fits : (Use.string content).Permitted s.environment :=
    permitted _ (List.mem_singleton_self _)
  exact ⟨_, stringConstant_eq_ok.mpr ⟨fits, rfl⟩, lone_ok takes⟩

theorem constant_completes (k : Constant) :
    CompletesTerm (term (bound + 1)) (.constant k) := by
  intro s rest takes stops permitted
  have takes := takes.entered .term
  have ahead : (s.entered .term).peek.lexeme = .keyword k.keyword := takes.1
  rw [term]
  refine production_ok ⟨_, ?_, lone_ok takes⟩
  simp only [peekLexeme_bind, ahead]
  cases k <;>
    simp only [Constant.keyword] <;>
    rw [bind_ok (consume_ok takes), currentLine_bind] <;>
    simp [Constant.code]

theorem variable_completes (name : String) :
    CompletesTerm (term (bound + 1)) (.variable name) := by
  intro s rest takes stops permitted
  have takes := takes.entered .term
  have ahead : (s.entered .term).peek.lexeme = .identifier name := takes.1
  have declared : (s.environment.find? name).isSome := permitted _ (List.mem_singleton_self _)
  obtain ⟨v, found⟩ := Option.isSome_iff_exists.mp declared
  obtain ⟨call, select, element⟩ := takes.taken.peek_not_selects stops
  rw [term, Term.output, Environment.load_of_find? found]
  refine production_ok ⟨_, ?_, lone_ok takes⟩
  simp only [peekLexeme_bind, ahead]
  rw [bind_ok (consume_ok takes), peekKind_bind, if_neg (not_or.mpr ⟨call, select⟩),
    bind_ok (resolveCurrent_ok takes found), if_neg element]
  rfl

theorem element_completes (name : String) {index : Expression}
    (complete : CompletesExpression (expression bound) index) :
    CompletesTerm (term (bound + 1)) (.element name index) := by
  intro s rest takes stops permitted
  obtain ⟨declared, permitted⟩ := List.forall_mem_cons.mp permitted
  have takes := takes.entered .term
  simp only [Term.lexemes, List.cons_append, List.append_assoc] at takes
  have ahead : (s.entered .term).peek.lexeme = .identifier name := takes.1
  obtain ⟨v, found⟩ := Option.isSome_iff_exists.mp declared
  have p₁ := takes.compiles
  obtain ⟨t, run, p₂⟩ := elementAddress_ok complete
    (p₁.environment ▸ found) takes.taken (p₁.environment ▸ permitted)
  rw [p₁.environment] at run p₂
  rw [term]
  refine production_ok ⟨_, ?_, p₁.trans (p₂.emitted _ _)⟩
  simp only [peekLexeme_bind, ahead]
  rw [bind_ok (consume_ok takes), peekKind_bind, takes.taken.kind_eq_mark, if_neg (by decide),
    bind_ok (resolveCurrent_ok takes found), if_pos rfl, bind_ok run, emitAll_run]
  rfl

theorem callTerm_completes (callee : Callee) {arguments : List Expression}
    (complete : ∀ e ∈ arguments, CompletesExpression (expression bound) e)
    (room : arguments.length ≤ bound) :
    CompletesTerm (term (bound + 1)) (.call callee arguments) := by
  intro s rest takes stops permitted
  have takes := takes.entered .term
  simp only [Term.lexemes, Callee.lexemes, List.cons_append, List.append_assoc] at takes
  have ahead : (s.entered .term).peek.lexeme = .identifier callee.head := takes.1
  have p₁ := takes.compiles
  obtain ⟨t, run, p₂⟩ := call_ok bound complete room takes.taken (p₁.environment ▸ permitted)
  rw [p₁.environment] at p₂
  rw [term]
  refine production_ok ⟨t, ?_, p₁.trans p₂⟩
  have next : (s.entered .term).taken.peek.kind = .mark .leftParen ∨
      (s.entered .term).taken.peek.kind = .mark .dot := by
    cases callee with
    | own name => exact .inl takes.taken.kind_eq
    | qualified qualifier name => exact .inr takes.taken.kind_eq
  simp only [peekLexeme_bind, ahead]
  rw [bind_ok (consume_ok takes), peekKind_bind, if_pos next]
  exact run

theorem group_completes {inner : Expression}
    (complete : CompletesExpression (expression bound) inner) :
    CompletesTerm (term (bound + 1)) (.group inner) := by
  intro s rest takes stops permitted
  have takes := takes.entered .term
  simp only [Term.lexemes, inParens, List.cons_append, List.append_assoc] at takes
  have ahead : (s.entered .term).peek.lexeme = .mark .leftParen := takes.1
  have p₁ := takes.compiles
  obtain ⟨r, run, p₂⟩ := complete _ _ takes.taken
    (stops_cons.mpr rfl) (p₁.environment ▸ permitted)
  rw [p₁.environment] at p₂
  have p := p₁.trans p₂
  have closing := p.takes_rest (.mark .rightParen :: rest) (by simpa using takes)
  rw [term]
  refine production_ok ⟨_, ?_, p.trans closing.compiles⟩
  simp only [peekLexeme_bind, ahead]
  rw [bind_ok (consume_ok takes), bind_ok run]
  exact expect_ok (.mark .rightParen) closing rfl

theorem unary_completes (op : UnaryOperator) {operand : Term}
    (complete : CompletesTerm (term bound) operand) :
    CompletesTerm (term (bound + 1)) (.unary op operand) := by
  intro s rest takes stops permitted
  have takes := takes.entered .term
  have ahead : (s.entered .term).peek.lexeme = .mark op.mark := takes.1
  obtain ⟨t, run, p⟩ := applied_ok complete takes stops permitted
  rw [term]
  refine production_ok ⟨t, ?_, p⟩
  simp only [peekLexeme_bind, ahead]
  cases op <;> exact run

/-! ## All trees -/

mutual

theorem expression_completes : (e : Expression) → (bound : Nat) →
    2 * e.lexemes.length + 1 ≤ bound → CompletesExpression (expression bound) e
  | _, 0, small => absurd small (Nat.not_succ_le_zero _)
  | .mk first operations, bound + 1, small => by
    intro s rest takes stops permitted
    simp only [Expression.lexemes, List.append_assoc, List.length_append] at takes small
    simp only [Expression.uses, List.forall_mem_append] at permitted
    rw [expression]
    apply production_ok
    obtain ⟨r, run, p₁⟩ := term_completes first bound (by omega) _ _ (takes.entered .expression)
      (operationLexemes_stop operations stops) permitted.1
    have behind := p₁.takes_rest (operationLexemes operations ++ rest)
      (by simpa using takes.entered .expression)
    have enough := operations_completes operations bound (by omega)
    have room := length_le_operationLexemes operations
    obtain ⟨t, more, p₂⟩ := operations_ok bound enough (by omega) behind stops
      (p₁.environment ▸ permitted.2)
    rw [p₁.environment] at p₂
    refine ⟨t, ?_, p₁.trans p₂⟩
    rw [bind_ok run]
    exact more

theorem operations_completes : (operations : List (BinaryOperator × Term)) → (bound : Nat) →
    2 * (operationLexemes operations).length ≤ bound →
    ∀ o ∈ operations, CompletesTerm (term bound) o.2
  | [], _, _ => by simp
  | (op, x) :: operations, bound, small => by
    simp only [operationLexemes, List.length_cons, List.length_append] at small
    refine List.forall_mem_cons.mpr ⟨term_completes x bound (by omega), ?_⟩
    exact operations_completes operations bound (by omega)

theorem term_completes : (x : Term) → (bound : Nat) →
    2 * x.lexemes.length ≤ bound → CompletesTerm (term bound) x
  | x, 0, small => absurd x.lexemes_length_pos (by omega)
  | .integer digits, bound + 1, _ => integer_completes bound digits
  | .string content, bound + 1, _ => string_completes bound content
  | .constant k, bound + 1, _ => constant_completes bound k
  | .variable name, bound + 1, _ => variable_completes bound name
  | .element name index, bound + 1, small => by
    simp only [Term.lexemes, List.length_cons, List.length_append] at small
    exact element_completes bound name (expression_completes index bound (by omega))
  | .call callee arguments, bound + 1, small => by
    simp only [Term.lexemes, Callee.lexemes, inParens, List.length_cons, List.length_append]
      at small
    have shorter := furtherLexemes_length_le arguments
    have room := length_le_furtherLexemes arguments
    exact callTerm_completes bound callee (arguments_completes arguments bound (by omega))
      (by omega)
  | .group inner, bound + 1, small => by
    simp only [Term.lexemes, inParens, List.length_cons, List.length_append] at small
    exact group_completes bound (expression_completes inner bound (by omega))
  | .unary op operand, bound + 1, small => by
    simp only [Term.lexemes, List.length_cons] at small
    exact unary_completes bound op (term_completes operand bound (by omega))

theorem arguments_completes : (arguments : List Expression) → (bound : Nat) →
    2 * (furtherLexemes arguments).length + 1 ≤ bound →
    ∀ e ∈ arguments, CompletesExpression (expression bound) e
  | [], _, _ => by simp
  | e :: arguments, bound, small => by
    simp only [furtherLexemes, List.length_cons, List.length_append] at small
    refine List.forall_mem_cons.mpr ⟨expression_completes e bound (by omega), ?_⟩
    exact arguments_completes arguments bound (by omega)

end

end

end Compilation

end JackVm

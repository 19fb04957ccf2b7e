import JackVm.Proofs.Compilation.Steps
import JackVm.Proofs.Compilation.TreeOutput

/-!
# Compiled expressions have a tree

Whenever the compilation of an expression succeeds, the tokens that it took are those of a syntax
tree, its surroundings permit all that the tree uses, and the output is that of the tree. The
compilations of nested expressions are parameters here, as they are in what is compiled.
-/

namespace JackVm

/-- What the names of a state stand for. -/
def CompilerState.environment (s : CompilerState) : Environment :=
  ⟨s.className, s.scopes.find?⟩

theorem Compiles.environment {s t : CompilerState} {o : Output} (h : Compiles s o t) :
    t.environment = s.environment := by
  rw [CompilerState.environment, h.className, h.scopes]
  rfl

namespace Compilation

open Output

/-- Whether each success of a compilation is that of a tree. -/
def Yields {τ : Type} (c : Compilation Unit) (uses : τ → List Use)
    (output : Environment → τ → Output) : Prop :=
  ∀ s t, c s = .ok () t → ∃ x, (∀ u ∈ uses x, u.Permitted s.environment) ∧
    Compiles s (output s.environment x) t

/-- The rounds that a loop makes, without a bound on their number. -/
inductive Loops {α : Type} (p : TokenKind → Bool) (body : α → Compilation α) :
    α → CompilerState → α → CompilerState → Prop
  | stop (a : α) (s : CompilerState) : Loops p body a s a s
  | step {a b c : α} {s r t : CompilerState} (again : p s.peek.kind) (run : body a s = .ok b r)
    (rest : Loops p body b r c t) : Loops p body a s c t

section
variable {α : Type} {s t : CompilerState}

theorem loops_of_iterate {p : TokenKind → Bool} {body : α → Compilation α} {bound : Nat} {a b : α}
    (h : iterate p body bound a s = .ok b t) : Loops p body a s b t := by
  induction bound generalizing a s with
  | zero =>
    rw [iterate, peekKind_bind] at h
    split at h
    · cases h
    · obtain ⟨rfl, rfl⟩ := pure_eq_ok.mp h
      exact .stop a s
  | succ bound ih =>
    rw [iterate, peekKind_bind] at h
    split at h
    · next again =>
      obtain ⟨c, r, run, rest⟩ := bind_eq_ok.mp h
      exact .step again run (ih rest)
    · obtain ⟨rfl, rfl⟩ := pure_eq_ok.mp h
      exact .stop a s

/-! ## Constants and variables -/

theorem integerConstant_eq_ok {digits : String} {u : Unit} :
    integerConstant digits s = .ok u t ↔ numeralValue digits ≤ maxInteger ∧
      t = s.emitted [.push .constant (numeralValue digits)] (s.lineAt 0) := by
  rw [integerConstant, decimalValue_eq_numeralValue]
  split
  · next h => simp [h, eq_comm]
  · next h => simp [h, failAtCurrent]

theorem emitted_emitted (a b : List Instruction) (line : UInt32) :
    (s.emitted a line).emitted b line = s.emitted (a ++ b) line := by
  simp [CompilerState.emitted, Code.appendRows_append]

theorem stringConstant_eq_ok {content : String} {u : Unit} :
    stringConstant content s = .ok u t ↔ (Use.string content).Permitted s.environment ∧
      t = s.emitted (stringCode content) (s.lineAt 0) := by
  rw [stringConstant, currentLine_bind]
  generalize s.lineAt 0 = line
  have appended : ∀ (cs : List Char) (s : CompilerState),
      cs.forM (fun c => if c.toNat ≤ maxCharacter then
          emitAll [.push .constant c.toNat, .call "String.appendChar" 2] line
        else failAtCurrent .characterOutOfRange : Char → Compilation Unit) s = .ok u t ↔
      (∀ c ∈ cs, c.toNat ≤ maxCharacter) ∧ t = s.emitted (cs.flatMap characterCode) line := by
    intro cs
    induction cs with
    | nil =>
      intro s
      show (pure () : Compilation Unit) s = _ ↔ _
      simp [CompilerState.emitted, eq_comm]
    | cons c cs ih =>
      intro s
      rw [List.forM]
      by_cases fits : c.toNat ≤ maxCharacter
      · rw [if_pos fits, emitAll_bind, ih, emitted_emitted]
        simp [fits, characterCode]
      · rw [if_neg fits, bind_eq_ok]
        simp [fits, failAtCurrent]
  split
  · next fits =>
    rw [emitAll_bind, appended, emitted_emitted]
    simp [Use.Permitted, stringCode, fits]
  · next long => simp [failAtCurrent, Use.Permitted, long]

theorem resolveCurrent_eq_ok {v : Variable} :
    resolveCurrent s = .ok v t ↔ s.environment.find? s.current.text = some v ∧ s = t := by
  rw [resolveCurrent, currentText_bind, lookup_bind]
  show _ ↔ s.scopes.find? s.current.text = some v ∧ s = t
  cases s.scopes.find? s.current.text with
  | none => simp [failAtCurrent]
  | some w => simp

theorem countArguments_eq_ok {count more n : Nat} :
    countArguments count more s = .ok n t ↔
      count + more ≤ maxArguments ∧ count + more = n ∧ s = t := by
  rw [countArguments]
  split
  · next h => simp [h]
  · next h => simp [failAtCurrent, h]

/-! ## Indices, arguments and calls -/

theorem elementAddress_yields {index : Compilation Unit}
    (sound : Yields index Expression.uses Expression.output) {name : String} {v : Variable}
    {line : UInt32} (found : s.environment.find? name = some v)
    (h : elementAddress index v s = .ok line t) :
    ∃ e : Expression, (∀ u ∈ e.uses, u.Permitted s.environment) ∧
      Compiles s (indexOutput s.environment name (e.output s.environment)) t ∧
      line = s.lineAt (1 + (e.output s.environment).lexemes.length) := by
  simp only [elementAddress, bind_eq_ok, currentLine_bind, emitAll_bind, pure_eq_ok] at h
  obtain ⟨_, r₁, opened, _, r₂, ran, _, r₃, closed, rfl, rfl⟩ := h
  have p₁ := compiles_of_mark opened
  obtain ⟨e, permitted, p₂⟩ := sound _ _ ran
  rw [p₁.environment] at permitted p₂
  have p₃ := Compiles.wrote r₂ [v.push, .arithmetic .add] 0
  have p₄ := compiles_of_mark closed
  refine ⟨e, permitted, ?_, ?_⟩
  · rw [indexOutput, Environment.load_of_find? found]
    exact ((p₁.trans p₂).trans p₃).trans p₄
  · rw [(p₁.trans p₂).lineAt 0]
    simp [Nat.add_comm]

theorem furtherArguments_yields {argument : Compilation Unit}
    (sound : Yields argument Expression.uses Expression.output) {count n : Nat}
    (h : Loops (· = .mark .comma)
      (fun count => do consume; argument; countArguments count 1) count s n t) :
    ∃ rest : List Expression, n = count + rest.length ∧
      (∀ u ∈ argumentUses rest, u.Permitted s.environment) ∧
      Compiles s (furtherOutput s.environment rest) t := by
  induction h with
  | stop count s => exact ⟨[], rfl, by simp [argumentUses], .refl s⟩
  | @step count _ _ s _ _ again run _ ih =>
    simp only [bind_eq_ok, countArguments_eq_ok] at run
    obtain ⟨_, r₁, comma, _, r₂, ran, -, rfl, rfl⟩ := run
    obtain ⟨p₁, -⟩ := compiles_of_consume comma
    rw [Lexeme.kind_eq_mark.mp (of_decide_eq_true again)] at p₁
    obtain ⟨e, permitted, p₂⟩ := sound _ _ ran
    obtain ⟨rest, counted, permitted', p₃⟩ := ih
    rw [p₁.environment] at permitted p₂
    rw [p₂.environment, p₁.environment] at permitted' p₃
    refine ⟨e :: rest, ?_, ?_, (p₁.trans p₂).trans p₃⟩
    · rw [counted, List.length_cons]
      omega
    · intro u hu
      rcases List.mem_append.mp hu with hu | hu
      · exact permitted u hu
      · exact permitted' u hu

theorem expressionList_yields {argument : Compilation Unit}
    (sound : Yields argument Expression.uses Expression.output) {bound n : Nat}
    (h : expressionList argument bound s = .ok n t) :
    ∃ arguments : List Expression, n = arguments.length ∧
      (∀ u ∈ argumentUses arguments, u.Permitted s.environment) ∧
      Compiles s (within .expressionList (argumentOutput s.environment arguments)) t := by
  rw [expressionList, production_eq_ok] at h
  obtain ⟨r, run, rfl⟩ := h
  rw [peekKind_bind] at run
  split at run
  · obtain ⟨rfl, rfl⟩ := pure_eq_ok.mp run
    exact ⟨[], rfl, by simp [argumentUses], (Compiles.refl _).within⟩
  · obtain ⟨_, r₁, ran, more⟩ := bind_eq_ok.mp run
    obtain ⟨e, permitted, p₁⟩ := sound _ _ ran
    obtain ⟨rest, counted, permitted', p₂⟩ := furtherArguments_yields sound (loops_of_iterate more)
    rw [p₁.environment] at permitted' p₂
    refine ⟨e :: rest, ?_, ?_, (p₁.trans p₂).within⟩
    · rw [counted, List.length_cons, Nat.add_comm]
    · intro u hu
      rcases List.mem_append.mp hu with hu | hu
      · exact permitted u hu
      · exact permitted' u hu

theorem callArguments_yields {argument : Compilation Unit}
    (sound : Yields argument Expression.uses Expression.output) {bound receivers n : Nat}
    (h : callArguments argument bound receivers s = .ok n t) :
    ∃ arguments : List Expression, n = arguments.length + receivers ∧ n ≤ maxArguments ∧
      (∀ u ∈ argumentUses arguments, u.Permitted s.environment) ∧
      Compiles s (listOutput (argumentOutput s.environment arguments)) t := by
  simp only [callArguments, bind_eq_ok, countArguments_eq_ok, pure_eq_ok] at h
  obtain ⟨_, r₁, ran, _, _, ⟨fits, rfl, rfl⟩, _, _, closed, rfl, rfl⟩ := h
  obtain ⟨arguments, rfl, permitted, p₁⟩ := expressionList_yields sound ran
  exact ⟨arguments, rfl, fits, permitted, p₁.trans (compiles_of_mark closed)⟩

theorem call_yields {argument : Compilation Unit}
    (sound : Yields argument Expression.uses Expression.output) {bound : Nat} {name : String}
    (h : call argument bound name s = .ok () t) :
    ∃ (callee : Callee) (arguments : List Expression), callee.head = name ∧
      (∀ u ∈ Use.call callee arguments.length :: argumentUses arguments,
        u.Permitted s.environment) ∧
      Compiles s (callOutput s.environment callee arguments.length
        (argumentOutput s.environment arguments)) t := by
  rw [call, currentLine_bind, peekKind_bind] at h
  split at h
  · next opened =>
    simp only [bind_eq_ok, emit_bind, className_bind, emit_run] at h
    obtain ⟨_, r₁, taken, _, r₂, ran, done⟩ := h
    cases done
    obtain ⟨p₁, -⟩ := compiles_of_consume taken
    rw [Lexeme.kind_eq_mark.mp opened] at p₁
    have p₂ := p₁.emitted [.push .pointer 0] 0
    obtain ⟨arguments, rfl, fits, permitted, p₃⟩ := callArguments_yields sound ran
    rw [p₂.environment] at permitted p₃
    refine ⟨.own name, arguments, rfl, ?_, ?_⟩
    · exact List.forall_mem_cons.mpr ⟨fits, permitted⟩
    · rw [(p₂.trans p₃).className]
      exact (p₂.trans p₃).emitted _ 0
  · simp only [bind_eq_ok, currentText_bind, lookup_bind] at h
    obtain ⟨_, r₁, dotted, _, r₂, named, run⟩ := h
    have p₁ := compiles_of_mark dotted
    obtain ⟨subroutine, p₂, text⟩ := compiles_of_identifier named
    have p₃ := p₁.trans p₂
    rw [text, p₃.scopes] at run
    cases found : s.scopes.find? name with
    | some v =>
      simp only [found, bind_eq_ok, emit_bind, emit_run] at run
      obtain ⟨_, r₃, opened, _, r₄, ran, done⟩ := run
      cases done
      have p₄ := (p₃.emitted [v.push] 0).trans (compiles_of_mark opened)
      obtain ⟨arguments, rfl, fits, permitted, p₅⟩ := callArguments_yields sound ran
      rw [p₄.environment] at permitted p₅
      have found : s.environment.find? name = some v := found
      refine ⟨.qualified name subroutine, arguments, rfl, ?_, ?_⟩
      · refine List.forall_mem_cons.mpr ⟨?_, permitted⟩
        simpa [Use.Permitted, Environment.receivers, found] using fits
      · have p₆ := (p₄.trans p₅).emitted
          [.call (v.type ++ "." ++ subroutine) (arguments.length + 1)] 0
        simpa [callOutput, preparedOutput, Environment.target, Environment.receivers, found,
          Environment.load_of_find? found] using p₆
    | none =>
      simp only [found, bind_eq_ok, emit_run] at run
      obtain ⟨_, r₃, opened, _, r₄, ran, done⟩ := run
      cases done
      have p₄ := (p₃.emitted [] 0).trans (compiles_of_mark opened)
      obtain ⟨arguments, rfl, fits, permitted, p₅⟩ := callArguments_yields sound ran
      rw [p₄.environment] at permitted p₅
      have found : s.environment.find? name = none := found
      refine ⟨.qualified name subroutine, arguments, rfl, ?_, ?_⟩
      · refine List.forall_mem_cons.mpr ⟨?_, permitted⟩
        simpa [Use.Permitted, Environment.receivers, found] using fits
      · have p₆ := (p₄.trans p₅).emitted
          [.call (name ++ "." ++ subroutine) (arguments.length + 0)] 0
        simpa [callOutput, preparedOutput, Environment.target, Environment.receivers, found,
          Environment.load] using p₆

/-! ## Terms and expressions -/

theorem applied_yields {operand : Compilation Unit} (op : UnaryOperator)
    (sound : Yields operand Term.uses Term.output) (ahead : s.peek.lexeme = .mark op.mark)
    (h : applied op operand s = .ok () t) :
    ∃ x : Term, (∀ u ∈ x.uses, u.Permitted s.environment) ∧
      Compiles s (took (.mark op.mark) ++
        (x.output s.environment).thenWrote [op.instruction]) t := by
  simp only [applied, bind_eq_ok, currentLine_bind, emit_run] at h
  obtain ⟨_, r₁, taken, _, r₂, ran, done⟩ := h
  cases done
  obtain ⟨p₁, -⟩ := compiles_of_consume taken
  rw [ahead] at p₁
  obtain ⟨x, permitted, p₂⟩ := sound _ _ ran
  rw [p₁.environment] at permitted p₂
  exact ⟨x, permitted, p₁.trans (p₂.emitted [op.instruction] 0)⟩

theorem operations_yields {operand : Compilation Unit}
    (sound : Yields operand Term.uses Term.output) {u v : Unit}
    (h : Loops (fun kind => (BinaryOperator.ofKind? kind).isSome) (fun _ => do
      match BinaryOperator.ofKind? (← peekKind) with
      | some op =>
        consume
        let line ← currentLine
        operand
        emit op.instruction line
      | none => pure ()) u s v t) :
    ∃ rest : List (BinaryOperator × Term),
      (∀ u ∈ operationUses rest, u.Permitted s.environment) ∧
      Compiles s (operationOutput s.environment rest) t := by
  induction h with
  | stop _ s => exact ⟨[], by simp [operationUses], .refl s⟩
  | @step _ _ _ s _ _ again run _ ih =>
    obtain ⟨op, kind⟩ := Option.isSome_iff_exists.mp again
    simp only [peekKind_bind, kind, bind_eq_ok, currentLine_bind, emit_run] at run
    obtain ⟨_, r₁, taken, _, r₂, ran, done⟩ := run
    cases done
    obtain ⟨p₁, -⟩ := compiles_of_consume taken
    rw [Lexeme.kind_eq_mark.mp (BinaryOperator.ofKind?_eq_some_iff.mp kind)] at p₁
    obtain ⟨x, permitted, p₂⟩ := sound _ _ ran
    rw [p₁.environment] at permitted p₂
    have p₃ := p₁.trans (p₂.emitted [op.instruction] 0)
    obtain ⟨rest, permitted', p₄⟩ := ih
    rw [p₃.environment] at permitted' p₄
    exact ⟨(op, x) :: rest, List.forall_mem_append.mpr ⟨permitted, permitted'⟩, p₃.trans p₄⟩

theorem lone_yields {l : Lexeme} {code : List Instruction} (ahead : s.peek.lexeme = l)
    {u : Unit} (taken : consume s = .ok u t) :
    Compiles s (took l ++ wrote code) (t.emitted code (t.lineAt 0)) := by
  obtain ⟨p, -⟩ := compiles_of_consume taken
  exact (ahead ▸ p).trans (.wrote t code 0)

theorem constant_yields {c : Constant} {r : CompilerState}
    (ahead : (s.entered .term).peek.lexeme = .keyword c.keyword)
    (h : ∃ u r₁, consume (s.entered .term) = .ok u r₁ ∧ r₁.emitted c.code (r₁.lineAt 0) = r) :
    ∃ x : Term, (∀ u ∈ x.uses, u.Permitted s.environment) ∧
      Compiles s (x.output s.environment) r.left := by
  obtain ⟨_, r₁, taken, rfl⟩ := h
  exact ⟨.constant c, by simp [Term.uses], (lone_yields ahead taken).within⟩

theorem name_yields {bound : Nat}
    (sound : Yields (expression bound) Expression.uses Expression.output) {name : String}
    (ahead : s.peek.lexeme = .identifier name)
    (h : (do
      consume
      let next ← peekKind
      if next = .mark .leftParen ∨ next = .mark .dot then
        call (expression bound) bound name
      else
        let v ← resolveCurrent
        if next = .mark .leftBracket then
          let line ← elementAddress (expression bound) v
          emitAll [.pop .pointer 1, .push .that 0] line
        else
          emit v.push (← currentLine) : Compilation Unit) s = .ok () t) :
    ∃ x : Term, (∀ u ∈ x.uses, u.Permitted s.environment) ∧
      ∃ o, x.output s.environment = within .term o ∧ Compiles s o t := by
  obtain ⟨_, r₁, taken, run⟩ := bind_eq_ok.mp h
  obtain ⟨p₁, current⟩ := compiles_of_consume taken
  rw [ahead] at p₁
  have text : r₁.current.text = name := by rw [current, Token.text, ahead]; rfl
  rw [peekKind_bind] at run
  split at run
  · obtain ⟨callee, arguments, rfl, permitted, p₂⟩ := call_yields sound run
    rw [p₁.environment] at permitted p₂
    exact ⟨.call callee arguments, permitted, _, rfl, p₁.trans p₂⟩
  · obtain ⟨v, _, resolved, run⟩ := bind_eq_ok.mp run
    obtain ⟨found, rfl⟩ := resolveCurrent_eq_ok.mp resolved
    rw [text] at found
    have declared : (Use.variable name).Permitted s.environment := by
      rw [Use.Permitted, ← p₁.environment, found]
      rfl
    split at run
    · simp only [bind_eq_ok, emitAll_run] at run
      obtain ⟨line, r₂, ran, done⟩ := run
      cases done
      obtain ⟨index, permitted, p₂, rfl⟩ := elementAddress_yields sound found ran
      have p₃ := p₂.emitted [.pop .pointer 1, .push .that 0]
        (1 + (index.output r₁.environment).lexemes.length)
      rw [p₁.environment] at permitted p₃ ⊢
      exact ⟨.element name index, List.forall_mem_cons.mpr ⟨declared, permitted⟩, _, rfl,
        p₁.trans p₃⟩
    · rw [currentLine_bind, emit_run] at run
      cases run
      have loads : s.environment.load name = [v.push] :=
        Environment.load_of_find? (p₁.environment ▸ found)
      refine ⟨.variable name, List.forall_mem_singleton.mpr declared, _, rfl, ?_⟩
      rw [loads]
      exact p₁.trans (.wrote r₁ [v.push] 0)

mutual

theorem expression_yields : (bound : Nat) →
    Yields (expression bound) Expression.uses Expression.output
  | 0 => by
    intro s t h
    cases h
  | bound + 1 => by
    intro s t h
    rw [expression, production_eq_ok] at h
    obtain ⟨r, run, rfl⟩ := h
    obtain ⟨_, r₁, ran, more⟩ := bind_eq_ok.mp run
    obtain ⟨first, permitted, p₁⟩ := term_yields bound _ _ ran
    obtain ⟨rest, permitted', p₂⟩ := operations_yields (term_yields bound) (loops_of_iterate more)
    rw [p₁.environment] at permitted' p₂
    exact ⟨.mk first rest, List.forall_mem_append.mpr ⟨permitted, permitted'⟩,
      (p₁.trans p₂).within⟩

theorem term_yields : (bound : Nat) → Yields (term bound) Term.uses Term.output
  | 0 => by
    intro s t h
    cases h
  | bound + 1 => by
    intro s t h
    rw [term, production_eq_ok] at h
    obtain ⟨r, run, rfl⟩ := h
    rw [peekLexeme_bind] at run
    cases ahead : (s.entered .term).peek.lexeme with
    | integer digits =>
      simp only [ahead, bind_eq_ok, integerConstant_eq_ok] at run
      obtain ⟨_, r₁, taken, fits, rfl⟩ := run
      exact ⟨.integer digits, List.forall_mem_singleton.mpr fits, (lone_yields ahead taken).within⟩
    | string content =>
      simp only [ahead, bind_eq_ok, stringConstant_eq_ok] at run
      obtain ⟨_, r₁, taken, fits, rfl⟩ := run
      exact ⟨.string content, List.forall_mem_singleton.mpr fits, (lone_yields ahead taken).within⟩
    | keyword k =>
      rw [ahead] at run
      cases k with
      | true =>
        exact constant_yields (c := .true) ahead (by simpa [bind_eq_ok, Constant.code] using run)
      | false =>
        exact constant_yields (c := .false) ahead (by simpa [bind_eq_ok, Constant.code] using run)
      | null =>
        exact constant_yields (c := .null) ahead (by simpa [bind_eq_ok, Constant.code] using run)
      | this =>
        exact constant_yields (c := .this) ahead (by simpa [bind_eq_ok, Constant.code] using run)
      | _ => cases run
    | identifier name =>
      rw [ahead] at run
      obtain ⟨x, permitted, o, output, p⟩ := name_yields (expression_yields bound) ahead run
      refine ⟨x, permitted, ?_⟩
      show Compiles s (x.output s.environment) r.left
      exact output ▸ p.within
    | mark m =>
      rw [ahead] at run
      cases m with
      | leftParen =>
        simp only [bind_eq_ok] at run
        obtain ⟨_, r₁, opened, _, r₂, ran, closed⟩ := run
        obtain ⟨p₁, -⟩ := compiles_of_consume opened
        rw [ahead] at p₁
        obtain ⟨inner, permitted, p₂⟩ := expression_yields bound _ _ ran
        rw [p₁.environment] at permitted p₂
        exact ⟨.group inner, permitted, ((p₁.trans p₂).trans (compiles_of_mark closed)).within⟩
      | minus =>
        obtain ⟨x, permitted, p⟩ := applied_yields .negate (term_yields bound) ahead run
        exact ⟨.unary .negate x, permitted, p.within⟩
      | tilde =>
        obtain ⟨x, permitted, p⟩ := applied_yields .complement (term_yields bound) ahead run
        exact ⟨.unary .complement x, permitted, p.within⟩
      | _ => cases run
    | _ =>
      rw [ahead] at run
      cases run

end

end

end Compilation

end JackVm

import JackVm.Proofs.Compilation.Session

/-!
# Nesting

No compilation closes a production in its trace that is not open. A compilation that succeeds leaves
as many open as it found, and one that fails may leave more. There is one rule for each way in which
compilations are put together and one lemma for each procedure, so the calls of a session keep the
trace nested whether they fail or not.
-/

namespace JackVm

/-- How many productions are open after an event, unless it closes one where none is open. -/
def TraceEvent.openAfter? : Nat → TraceEvent → Option Nat
  | n, .opened _ => some (n + 1)
  | n, .terminal _ => some n
  | n + 1, .closed => some n
  | 0, .closed => none

def Trace.open? (t : Trace) : Option Nat :=
  t.events.toList.foldlM TraceEvent.openAfter? 0

def TraceEvent.isOpened : TraceEvent → Bool
  | .opened _ => true
  | _ => false

theorem count_closed_lt {before after : List TraceEvent} {n m : Nat}
    (nested : (before ++ .closed :: after).foldlM TraceEvent.openAfter? n = some m) :
    before.count .closed < n + before.countP TraceEvent.isOpened := by
  induction before generalizing n with
  | nil =>
    cases n with
    | zero => cases nested
    | succ n => exact Nat.succ_pos _
  | cons event before ih =>
    rw [List.cons_append, List.foldlM_cons] at nested
    cases event with
    | opened p =>
      have inner := ih (n := n + 1) nested
      rw [List.countP_cons_of_pos rfl, List.count_cons_of_ne (by simp)]
      omega
    | terminal l =>
      rw [List.countP_cons_of_neg Bool.false_ne_true, List.count_cons_of_ne (by simp)]
      exact ih (n := n) nested
    | closed =>
      cases n with
      | zero => cases nested
      | succ n =>
        have inner := ih (n := n) nested
        rw [List.countP_cons_of_neg Bool.false_ne_true, List.count_cons_self]
        omega

/-- Whether the trace of a state, if it has one, is nested and has some number of productions
open. -/
def CompilerState.Open (s : CompilerState) (n : Nat) : Prop :=
  ∀ t ∈ s.trace, t.open? = some n

theorem CompilerState.open_map {s : CompilerState} {n m : Nat} {f : Trace → Trace} (h : s.Open n)
    (event : TraceEvent) (adds : ∀ t, (f t).events = t.events.push event)
    (after : event.openAfter? n = some m) :
    CompilerState.Open { s with trace := s.trace.map f } m := by
  intro t mem
  obtain ⟨t', mem', same⟩ := Option.mem_map.mp mem
  have before := h t' mem'
  rw [Trace.open?] at before
  rw [← same, Trace.open?, adds, Array.toList_push, List.foldlM_append, before]
  exact (bind_pure (event.openAfter? n)).trans after

/-- Whether a compilation leaves as many productions open as it finds, and closes none that is not
open even if it fails. -/
def Nests {α : Type} (x : Compilation α) : Prop :=
  ∀ s n, s.Open n →
    match x s with
    | .ok _ t => t.Open n
    | .error _ t => ∃ m, t.Open m

namespace Nests

open Compilation

variable {α β : Type} {x : Compilation α} {f : α → Compilation β}

theorem bind (hx : Nests x) (hf : ∀ a, Nests (f a)) : Nests (x >>= f) := by
  intro s n h
  have first := hx s n h
  cases run : x s with
  | ok a t =>
    rw [run] at first
    rw [bind_ok run]
    exact hf a t n first
  | error e t =>
    rw [run] at first
    rw [bind_error run]
    exact first

theorem ite {p : Prop} [Decidable p] {y : Compilation α} (hx : p → Nests x) (hy : ¬ p → Nests y) :
    Nests (if p then x else y) := by
  by_cases h : p
  · rw [if_pos h]
    exact hx h
  · rw [if_neg h]
    exact hy h

theorem answer (g : CompilerState → α) : Nests (fun s => .ok (g s) s : Compilation α) :=
  fun _ _ h => h

theorem pure (a : α) : Nests (Pure.pure a : Compilation α) :=
  answer fun _ => a

theorem fail (g : CompilerState → CompileError) :
    Nests (fun s => .error (g s) s : Compilation α) :=
  fun _ n h => ⟨n, h⟩

theorem change (g : CompilerState → α) (next : CompilerState → CompilerState)
    (same : ∀ s, (next s).trace = s.trace) :
    Nests (fun s => .ok (g s) (next s) : Compilation α) := by
  intro s n h t mem
  exact h t (same s ▸ mem)

theorem production {p : Production} (h : Nests x) : Nests (production p x) := by
  intro s n before
  have entered : (s.entered p).Open (n + 1) :=
    CompilerState.open_map before (.opened p.name) (fun _ => rfl) rfl
  have inner := h _ _ entered
  have run : Compilation.production p x s = (x >>= fun a => record .leave >>= fun _ =>
      Pure.pure a) (s.entered p) := rfl
  rw [run]
  cases ran : x (s.entered p) with
  | ok a t =>
    rw [ran] at inner
    rw [bind_ok ran]
    exact CompilerState.open_map inner .closed (fun _ => rfl) rfl
  | error e t =>
    rw [ran] at inner
    rw [bind_error ran]
    exact inner

theorem iterate {p : TokenKind → Bool} {body : α → Compilation α} (h : ∀ a, Nests (body a))
    (bound : Nat) (a : α) : Nests (iterate p body bound a) := by
  induction bound generalizing a with
  | zero => exact (answer _).bind fun kind => ite (fun _ => fail _) fun _ => pure a
  | succ bound ih =>
    exact (answer _).bind fun kind => ite (fun _ => (h a).bind ih) fun _ => pure a

theorem repeatWhile {p : TokenKind → Bool} {body : Compilation Unit} (h : Nests body)
    (bound : Nat) : Nests (repeatWhile p body bound) :=
  iterate (fun _ => h) bound ()

theorem forM {τ : Type} {g : τ → Compilation Unit} (xs : List τ) (h : ∀ x, Nests (g x)) :
    Nests (xs.forM g) := by
  induction xs with
  | nil => exact pure ()
  | cons x xs ih => exact (h x).bind fun _ => ih

/-! ## Single steps -/

theorem peekKind : Nests peekKind := answer _

theorem peekLine : Nests peekLine := answer _

theorem currentLine : Nests currentLine := answer _

theorem currentText : Nests currentText := answer _

theorem failAtPeek {problem : Problem} : Nests (failAtPeek problem : Compilation α) := fail _

theorem failAtCurrent {problem : Problem} : Nests (failAtCurrent problem : Compilation α) := fail _

theorem advance : Nests advance := by
  intro s n h
  unfold Compilation.advance
  cases s.input.next with
  | mk token input =>
    obtain ⟨lexeme, line⟩ := token
    cases lexeme with
    | fault => exact ⟨n, h⟩
    | _ => exact h

theorem consume : Nests consume := by
  apply advance.bind
  intro _
  apply (answer _).bind
  intro lexeme s n h
  exact CompilerState.open_map h (.terminal lexeme) (fun _ => rfl) rfl

theorem expect (kind : TokenKind) : Nests (expect kind) :=
  peekKind.bind fun _ => ite (fun _ => consume) fun _ => failAtPeek

theorem expectAny (kinds : List TokenKind) : Nests (expectAny kinds) :=
  peekKind.bind fun _ => ite (fun _ => consume) fun _ => failAtPeek

theorem emit (i : Instruction) (line : UInt32) : Nests (emit i line) :=
  change _ _ fun _ => rfl

theorem emitAll (code : List Instruction) (line : UInt32) : Nests (emitAll code line) :=
  forM code fun i => emit i line

theorem declare (name type : String) (kind : VariableKind) : Nests (declare name type kind) := by
  intro s n h
  unfold Compilation.declare
  cases s.scopes.declare name type kind with
  | ok v scopes => exact h
  | error e scopes => exact ⟨n, h⟩

theorem lookup (name : String) : Nests (lookup name) := answer _

theorem nextIfLabel : Nests nextIfLabel := change _ _ fun _ => rfl

theorem nextWhileLabel : Nests nextWhileLabel := change _ _ fun _ => rfl

theorem startSubroutine : Nests startSubroutine := change _ _ fun _ => rfl

theorem startClass (name : String) : Nests (startClass name) := change _ _ fun _ => rfl

theorem resolveCurrent : Nests resolveCurrent := by
  apply currentText.bind
  intro name
  apply (lookup name).bind
  intro found
  cases found with
  | some v => exact pure v
  | none => exact failAtCurrent

/-! ## Expressions -/

theorem integerConstant (digits : String) : Nests (integerConstant digits) :=
  ite (fun _ => currentLine.bind fun _ => emit _ _) fun _ => failAtCurrent

theorem stringConstant (content : String) : Nests (stringConstant content) := by
  apply currentLine.bind
  intro line
  apply ite
  · intro _
    apply (emitAll _ _).bind
    intro _
    exact forM _ fun c => ite (fun _ => emitAll _ _) fun _ => failAtCurrent
  · exact fun _ => failAtCurrent

theorem countArguments (count more : Nat) : Nests (countArguments count more) :=
  ite (fun _ => pure _) fun _ => failAtCurrent

section
variable {inner : Compilation Unit} (h : Nests inner)
include h

theorem elementAddress (base : Variable) : Nests (elementAddress inner base) := by
  apply (expect _).bind
  intro _
  apply h.bind
  intro _
  apply currentLine.bind
  intro line
  apply (emitAll _ _).bind
  intro _
  exact (expect _).bind fun _ => pure line

theorem expressionList (bound : Nat) : Nests (expressionList inner bound) := by
  apply production
  apply peekKind.bind
  intro kind
  apply ite
  · exact fun _ => pure 0
  · intro _
    apply h.bind
    intro _
    apply iterate
    intro count
    exact consume.bind fun _ => h.bind fun _ => countArguments _ _

theorem callArguments (bound receivers : Nat) : Nests (callArguments inner bound receivers) := by
  apply (expressionList h bound).bind
  intro count
  apply (countArguments _ _).bind
  intro count
  exact (expect _).bind fun _ => pure count

theorem call (bound : Nat) (name : String) : Nests (call inner bound name) := by
  apply currentLine.bind
  intro line
  apply peekKind.bind
  intro kind
  apply ite
  · intro _
    apply consume.bind
    intro _
    apply (emit _ _).bind
    intro _
    apply (callArguments h bound 1).bind
    intro count
    exact (answer _).bind fun _ => emit _ _
  · intro _
    apply (expect _).bind
    intro _
    apply (expect _).bind
    intro _
    apply currentText.bind
    intro subroutine
    apply (lookup name).bind
    intro found
    cases found with
    | some v =>
      apply (emit _ _).bind
      intro _
      apply (expect _).bind
      intro _
      exact (callArguments h bound 1).bind fun _ => emit _ _
    | none =>
      apply (expect _).bind
      intro _
      exact (callArguments h bound 0).bind fun _ => emit _ _

theorem applied (operator : UnaryOperator) : Nests (applied operator inner) := by
  apply consume.bind
  intro _
  apply currentLine.bind
  intro line
  exact h.bind fun _ => emit _ _

end

mutual

theorem expression : (bound : Nat) → Nests (expression bound)
  | 0 => failAtPeek
  | bound + 1 => by
    apply production
    apply (term bound).bind
    intro _
    apply repeatWhile
    apply peekKind.bind
    intro kind
    cases BinaryOperator.ofKind? kind with
    | none => exact pure ()
    | some operator =>
      apply consume.bind
      intro _
      apply currentLine.bind
      intro line
      exact (term bound).bind fun _ => emit _ _

theorem term : (bound : Nat) → Nests (term bound)
  | 0 => failAtPeek
  | bound + 1 => by
    apply production
    apply (answer _).bind
    intro lexeme
    split
    · exact consume.bind fun _ => integerConstant _
    · exact consume.bind fun _ => stringConstant _
    · exact consume.bind fun _ => currentLine.bind fun _ => emitAll _ _
    · exact consume.bind fun _ => currentLine.bind fun _ => emit _ _
    · exact consume.bind fun _ => currentLine.bind fun _ => emit _ _
    · exact consume.bind fun _ => currentLine.bind fun _ => emit _ _
    · next name =>
      apply consume.bind
      intro _
      apply peekKind.bind
      intro next
      apply ite
      · exact fun _ => call (expression bound) bound name
      · intro _
        apply resolveCurrent.bind
        intro v
        apply ite
        · exact fun _ => (elementAddress (expression bound) v).bind fun _ => emitAll _ _
        · exact fun _ => currentLine.bind fun _ => emit _ _
    · exact consume.bind fun _ => (expression bound).bind fun _ => expect _
    · exact applied (term bound) _
    · exact applied (term bound) _
    · exact failAtPeek

end

/-! ## Statements -/

section
variable {inner : Compilation Unit} (h : Nests inner)
include h

theorem block : Nests (block inner) := by
  apply (expect _).bind
  intro _
  exact h.bind fun _ => expect _

theorem ifStatement (bound : Nat) : Nests (ifStatement inner bound) := by
  apply production
  apply nextIfLabel.bind
  intro number
  apply (expect _).bind
  intro _
  apply (expect _).bind
  intro _
  apply (expression bound).bind
  intro _
  apply (expect _).bind
  intro _
  apply currentLine.bind
  intro line
  apply (emitAll _ _).bind
  intro _
  apply (block h).bind
  intro _
  apply currentLine.bind
  intro line
  apply peekKind.bind
  intro kind
  apply ite
  · intro _
    apply (emitAll _ _).bind
    intro _
    apply consume.bind
    intro _
    apply (block h).bind
    intro _
    exact currentLine.bind fun _ => emit _ _
  · exact fun _ => emit _ _

theorem whileStatement (bound : Nat) : Nests (whileStatement inner bound) := by
  apply production
  apply nextWhileLabel.bind
  intro number
  apply peekLine.bind
  intro line
  apply (emit _ _).bind
  intro _
  apply (expect _).bind
  intro _
  apply (expect _).bind
  intro _
  apply (expression bound).bind
  intro _
  apply currentLine.bind
  intro line
  apply (emitAll _ _).bind
  intro _
  apply (expect _).bind
  intro _
  apply (expect _).bind
  intro _
  apply h.bind
  intro _
  apply peekLine.bind
  intro line
  exact (emitAll _ _).bind fun _ => expect _

end

theorem letStatement (bound : Nat) : Nests (letStatement bound) := by
  apply production
  apply (expect _).bind
  intro _
  apply (expect _).bind
  intro _
  apply resolveCurrent.bind
  intro v
  have last : Nests (Compilation.expect (.mark .semicolon)) := expect _
  apply peekKind.bind
  intro kind
  split
  · apply (elementAddress (expression bound) v).bind
    intro _
    apply (expect _).bind
    intro _
    apply (expression bound).bind
    intro _
    apply currentLine.bind
    intro line
    exact (emitAll _ _).bind fun _ => last
  · apply (expect _).bind
    intro _
    apply (expression bound).bind
    intro _
    apply currentLine.bind
    intro line
    exact (emit _ _).bind fun _ => last

theorem doStatement (bound : Nat) : Nests (doStatement bound) := by
  apply production
  apply (expect _).bind
  intro _
  apply (expect _).bind
  intro _
  apply currentText.bind
  intro name
  apply (call (expression bound) bound name).bind
  intro _
  apply (expect _).bind
  intro _
  exact currentLine.bind fun _ => emit _ _

theorem returnStatement (bound : Nat) : Nests (returnStatement bound) := by
  have last : Nests (Compilation.expect (.mark .semicolon) >>= fun _ =>
      Compilation.currentLine >>= fun line => Compilation.emit .return line) :=
    (expect _).bind fun _ => currentLine.bind fun _ => emit _ _
  apply production
  apply (expect _).bind
  intro _
  apply peekKind.bind
  intro kind
  split
  · apply currentLine.bind
    intro line
    exact (emit _ _).bind fun _ => last
  · exact (expression bound).bind fun _ => last

theorem statements : (bound : Nat) → Nests (statements bound)
  | 0 => failAtPeek
  | bound + 1 => by
    apply production
    apply repeatWhile
    apply peekKind.bind
    intro kind
    split
    · exact letStatement bound
    · exact ifStatement (statements bound) bound
    · exact whileStatement (statements bound) bound
    · exact doStatement bound
    · exact returnStatement bound
    · exact failAtPeek

/-! ## Classes -/

theorem typeName (allowed : List TokenKind) : Nests (typeName allowed) :=
  (expectAny _).bind fun _ => currentText

theorem declareName (type : String) (kind : VariableKind) : Nests (declareName type kind) :=
  (expect _).bind fun _ => currentText.bind fun _ => declare _ _ _

theorem variableNames (kind : VariableKind) (bound : Nat) : Nests (variableNames kind bound) := by
  apply (typeName _).bind
  intro type
  apply (declareName type kind).bind
  intro _
  apply (repeatWhile _ bound).bind
  · exact fun _ => expect _
  · exact consume.bind fun _ => declareName type kind

theorem classVarDec (bound : Nat) : Nests (classVarDec bound) := by
  apply production
  apply peekKind.bind
  intro kind
  split
  · exact consume.bind fun _ => variableNames _ bound
  · exact failAtPeek

theorem varDec (bound : Nat) : Nests (varDec bound) :=
  production ((expect _).bind fun _ => variableNames _ bound)

theorem parameter : Nests parameter :=
  (typeName _).bind fun _ => declareName _ _

theorem parameterList (bound : Nat) : Nests (parameterList bound) := by
  apply production
  apply peekKind.bind
  intro kind
  apply ite
  · exact fun _ => pure ()
  · intro _
    exact parameter.bind fun _ => repeatWhile (consume.bind fun _ => parameter) bound

theorem subroutineBody (name : String) (form : SubroutineForm) (bound : Nat) :
    Nests (subroutineBody name form bound) := by
  apply production
  apply (expect _).bind
  intro _
  apply (repeatWhile (varDec bound) bound).bind
  intro _
  apply currentLine.bind
  intro line
  apply (answer _).bind
  intro locals
  apply (emit _ _).bind
  intro _
  apply (answer _).bind
  intro fields
  apply (emitAll _ _).bind
  intro _
  exact (statements bound).bind fun _ => expect _

theorem declareReceiver (form : SubroutineForm) : Nests (declareReceiver form) := by
  cases form with
  | method => exact (answer _).bind fun _ => declare _ _ _
  | constructor | function => exact pure ()

theorem subroutineDec (bound : Nat) : Nests (subroutineDec bound) := by
  apply production
  apply startSubroutine.bind
  intro _
  apply peekKind.bind
  intro kind
  split
  · next form _ =>
    apply consume.bind
    intro _
    apply (declareReceiver form).bind
    intro _
    apply (expectAny _).bind
    intro _
    apply (expect _).bind
    intro _
    apply (answer _).bind
    intro className
    apply currentText.bind
    intro name
    apply (expect _).bind
    intro _
    apply (parameterList bound).bind
    intro _
    exact (expect _).bind fun _ => subroutineBody _ _ bound
  · exact failAtPeek

theorem classBody (bound : Nat) : Nests (classBody bound) := by
  apply (expect _).bind
  intro _
  apply (repeatWhile (classVarDec bound) bound).bind
  intro _
  exact (repeatWhile (subroutineDec bound) bound).bind fun _ => expect _

theorem wholeClass : Nests wholeClass := by
  apply (answer _).bind
  intro bound
  apply Nests.bind
  · apply production
    apply (expect _).bind
    intro _
    apply (expect _).bind
    intro _
    apply currentText.bind
    intro name
    exact (startClass name).bind fun _ => classBody bound
  · intro _
    exact peekKind.bind fun _ => ite (fun _ => pure ()) fun _ => failAtPeek

end Nests

/-! ## Sessions -/

theorem Call.nests (call : Call) : Nests call.compilation := by
  cases call with
  | advance => exact .advance
  | wholeClass => exact .wholeClass

/-- Whether the calls fail or not, the trace stays nested. -/
theorem open_session (calls : List Call) {s : CompilerState} {n : Nat} (h : s.Open n) :
    ∃ m, (session calls s).2.Open m := by
  induction calls generalizing s n with
  | nil => exact ⟨n, h⟩
  | cons call calls ih =>
    have one := call.nests s n h
    have first : ∃ m, (call.answer s).2.Open m := by
      rw [Call.answer]
      cases ran : call.compilation s with
      | ok u t =>
        rw [ran] at one
        exact ⟨n, one⟩
      | error e t =>
        rw [ran] at one
        exact one
    obtain ⟨m, first⟩ := first
    exact ih first

theorem CompilerState.open_ofString (text : String) (traced : Bool) :
    (CompilerState.ofString text traced).Open 0 := by
  intro t mem
  cases traced with
  | false => cases mem
  | true =>
    rw [← Option.some.inj mem]
    rfl

end JackVm

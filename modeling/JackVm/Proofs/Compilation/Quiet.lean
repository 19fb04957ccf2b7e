import JackVm.Compilation.Class
import JackVm.Proofs.Compilation.Steps

/-!
# Quiet compilations

Most of what a compilation does looks at no token but the current one: it writes code, asks for
names and declares them. However that ends, the window stays where it is.
-/

namespace JackVm

open Compilation

def Problem.isExpectation : Problem → Bool
  | .expected _ | .expectedTerm | .expectedStatement => true
  | _ => false

/-- Whether an error blames neither the next token nor a bound. -/
def CompileError.IsOrdinary (e : CompileError) : Prop :=
  ∀ t problem, e = .atToken t problem → ¬ problem.isExpectation ∧ problem ≠ .boundReached

structure CompilerState.SameWindow (s t : CompilerState) : Prop where
  current : t.current = s.current
  peek : t.peek = s.peek
  input : t.input = s.input

def Compilation.final {α : Type} : EStateM.Result CompileError CompilerState α → CompilerState
  | .ok _ t => t
  | .error _ t => t

/-- Whether a compilation looks at no token but the current one. -/
structure Quiet {α : Type} (x : Compilation α) : Prop where
  window (s : CompilerState) : s.SameWindow (final (x s))
  ordinary (s t : CompilerState) (e : CompileError) : x s = .error e t → e.IsOrdinary

theorem CompilerState.SameWindow.trans {s t u : CompilerState} (h : s.SameWindow t)
    (h' : t.SameWindow u) : s.SameWindow u where
  current := h'.current.trans h.current
  peek := h'.peek.trans h.peek
  input := h'.input.trans h.input

theorem CompilerState.SameWindow.window_eq {s t : CompilerState} (h : s.SameWindow t) :
    t.window = s.window := by
  rw [window, window, h.current, h.peek, h.input]

namespace Quiet

variable {α β : Type} {x : Compilation α} {f : α → Compilation β}

theorem bind (hx : Quiet x) (hf : ∀ a, Quiet (f a)) : Quiet (x >>= f) where
  window s := by
    have first := hx.window s
    cases run : x s with
    | ok a t =>
      rw [run] at first
      rw [bind_ok run]
      exact first.trans ((hf a).window t)
    | error e t =>
      rw [run] at first
      rw [bind_error run]
      exact first
  ordinary s t e failed := by
    cases run : x s with
    | ok a r =>
      rw [bind_ok run] at failed
      exact (hf a).ordinary r t e failed
    | error e' r =>
      rw [bind_error run] at failed
      cases failed
      exact hx.ordinary s t e run

theorem of_ok {g : CompilerState → α} {h : CompilerState → CompilerState}
    (run : ∀ s, x s = .ok (g s) (h s)) (same : ∀ s : CompilerState, s.SameWindow (h s)) :
    Quiet x where
  window s := by
    rw [run]
    exact same s
  ordinary s t e failed := by
    rw [run] at failed
    cases failed

theorem answer (g : CompilerState → α) : Quiet (fun s => .ok (g s) s : Compilation α) :=
  of_ok (fun _ => rfl) fun _ => ⟨rfl, rfl, rfl⟩

theorem pure (a : α) : Quiet (Pure.pure a : Compilation α) :=
  answer fun _ => a

theorem failAtCurrent {problem : Problem} (h : ¬ problem.isExpectation)
    (h' : problem ≠ .boundReached) :
    Quiet (Compilation.failAtCurrent problem : Compilation α) where
  window _ := ⟨rfl, rfl, rfl⟩
  ordinary s t e failed := by
    cases failed
    intro u p same
    cases same
    exact ⟨h, h'⟩

theorem record (g : Trace → Trace) : Quiet (Compilation.record g) :=
  of_ok (fun _ => rfl) fun _ => ⟨rfl, rfl, rfl⟩

theorem emit (i : Instruction) (line : UInt32) : Quiet (Compilation.emit i line) :=
  of_ok (fun _ => rfl) fun _ => ⟨rfl, rfl, rfl⟩

theorem peekLine : Quiet Compilation.peekLine := answer _
theorem currentLine : Quiet Compilation.currentLine := answer _
theorem currentText : Quiet Compilation.currentText := answer _
theorem className : Quiet Compilation.className := answer _
theorem lookup (name : String) : Quiet (Compilation.lookup name) := answer _
theorem countOf (kind : VariableKind) : Quiet (Compilation.countOf kind) := answer _

theorem nextIfLabel : Quiet Compilation.nextIfLabel :=
  of_ok (fun _ => rfl) fun _ => ⟨rfl, rfl, rfl⟩

theorem nextWhileLabel : Quiet Compilation.nextWhileLabel :=
  of_ok (fun _ => rfl) fun _ => ⟨rfl, rfl, rfl⟩

theorem startSubroutine : Quiet Compilation.startSubroutine :=
  of_ok (fun _ => rfl) fun _ => ⟨rfl, rfl, rfl⟩

theorem startClass (name : String) : Quiet (Compilation.startClass name) :=
  of_ok (fun _ => rfl) fun _ => ⟨rfl, rfl, rfl⟩

theorem forM {τ : Type} {g : τ → Compilation Unit} (xs : List τ) (h : ∀ x, Quiet (g x)) :
    Quiet (xs.forM g) := by
  induction xs with
  | nil => exact pure ()
  | cons x xs ih => exact (h x).bind fun _ => ih

theorem emitAll (code : List Instruction) (line : UInt32) : Quiet (Compilation.emitAll code line) :=
  forM code fun i => emit i line

theorem declare (name type : String) (kind : VariableKind) :
    Quiet (Compilation.declare name type kind) where
  window s := by
    rw [Compilation.declare]
    cases s.scopes.declare name type kind <;> exact ⟨rfl, rfl, rfl⟩
  ordinary s t e failed := by
    rw [Compilation.declare] at failed
    cases declared : s.scopes.declare name type kind with
    | ok v scopes =>
      rw [declared] at failed
      cases failed
    | error d scopes =>
      rw [declared] at failed
      cases failed
      intro u p same
      cases same
      exact ⟨Bool.false_ne_true, nofun⟩

theorem declareReceiver (form : SubroutineForm) : Quiet (Compilation.declareReceiver form) := by
  cases form with
  | method => exact className.bind fun name => declare _ _ _
  | constructor | function => exact pure ()

theorem resolveCurrent : Quiet Compilation.resolveCurrent := by
  apply currentText.bind
  intro name
  apply (lookup name).bind
  intro found
  cases found with
  | some v => exact pure v
  | none => exact failAtCurrent Bool.false_ne_true nofun

theorem countArguments (count more : Nat) : Quiet (Compilation.countArguments count more) := by
  rw [Compilation.countArguments]
  split
  · exact pure _
  · exact failAtCurrent Bool.false_ne_true nofun

theorem integerConstant (digits : String) : Quiet (Compilation.integerConstant digits) := by
  rw [Compilation.integerConstant]
  split
  · exact currentLine.bind fun line => emit _ _
  · exact failAtCurrent Bool.false_ne_true nofun

theorem stringConstant (content : String) : Quiet (Compilation.stringConstant content) := by
  apply currentLine.bind
  intro line
  split
  · apply (emitAll _ _).bind
    intro _
    apply forM
    intro c
    split
    · exact emitAll _ _
    · exact failAtCurrent Bool.false_ne_true nofun
  · exact failAtCurrent Bool.false_ne_true nofun

end Quiet

end JackVm

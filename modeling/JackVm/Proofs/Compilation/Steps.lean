import JackVm.Proofs.Compilation.Progress

/-!
# The steps of a compilation

For each primitive action, when it succeeds and with which output. Actions that cannot fail are
run by rewriting. Those that can are described twice: from the lexemes that lie ahead, and from
the fact that they succeeded.
-/

namespace JackVm

namespace CompilerState

def emitted (s : CompilerState) (code : List Instruction) (line : UInt32) : CompilerState :=
  { s with code := s.code.appendRows (code.map fun i => ⟨i, line⟩) }

@[simps] def entered (s : CompilerState) (p : Production) : CompilerState :=
  { s with trace := s.trace.map (·.enter p.name) }

def left (s : CompilerState) : CompilerState :=
  { s with trace := s.trace.map Trace.leave }

def begunIf (s : CompilerState) : CompilerState :=
  { s with ifLabels := s.ifLabels + 1 }

def begunWhile (s : CompilerState) : CompilerState :=
  { s with whileLabels := s.whileLabels + 1 }

theorem instructions_emitted (s : CompilerState) (code : List Instruction) (line : UInt32) :
    (s.emitted code line).code.instructions = s.code.instructions ++ code := by
  simp [emitted, Function.comp_def]

theorem lines_emitted (s : CompilerState) (code : List Instruction) (line : UInt32) :
    (s.emitted code line).code.lines = s.code.lines ++ code.map fun _ => line := by
  simp [emitted, Function.comp_def]

end CompilerState

section
variable {s t : CompilerState} {o : Output} {l : Lexeme} {rest : List Lexeme}

theorem Takes.taken (h : Takes s.window (l :: rest)) : Takes s.taken.window rest := by
  simpa using h.2.2

theorem Takes.emitted (h : Takes s.window rest) (code : List Instruction) (line : UInt32) :
    Takes (s.emitted code line).window rest := h

theorem Takes.entered (h : Takes s.window rest) (p : Production) :
    Takes (s.entered p).window rest := h

theorem Takes.kind_eq (h : Takes s.window (l :: rest)) : s.peek.kind = l.kind :=
  congrArg Lexeme.kind h.1

theorem Takes.kind_eq_mark {m : Mark} (h : Takes s.window (.mark m :: rest)) :
    s.peek.kind = .mark m := h.kind_eq

theorem Takes.text_taken (h : Takes s.window (l :: rest)) : s.taken.current.text = l.text :=
  congrArg Lexeme.text h.1

theorem Compiles.taken (lexeme : s.peek.lexeme = l) (readable : s.input.next.1.Readable) :
    Compiles s (.took l) s.taken where
  takes := ⟨lexeme, s.window_get_two ▸ readable, trivial⟩
  window := s.window_taken
  instructions := by simp [CompilerState.taken, CompilerState.shifted]
  lines := by simp [CompilerState.taken, CompilerState.shifted]
  trace := by
    show Option.map _ s.trace = _
    rw [lexeme]
    cases s.trace <;> simp [Trace.terminal]
  className := rfl
  scopes := rfl
  ifLabels := rfl
  whileLabels := rfl

theorem Takes.compiles (h : Takes s.window (l :: rest)) : Compiles s (.took l) s.taken :=
  .taken h.1 (s.window_get_two ▸ h.2.1)

theorem Compiles.emitted (h : Compiles s o t) (code : List Instruction) (place : Nat) :
    Compiles s (o.thenWrote code place) (t.emitted code (s.lineAt place)) where
  takes := h.takes
  window := h.window
  instructions := by
    rw [CompilerState.instructions_emitted, h.instructions, List.append_assoc]
    rfl
  lines := by
    rw [CompilerState.lines_emitted, h.lines, List.append_assoc]
    simp
  trace := h.trace
  className := h.className
  scopes := h.scopes
  ifLabels := h.ifLabels
  whileLabels := h.whileLabels

theorem Compiles.wrote (s : CompilerState) (code : List Instruction) (place : Nat) :
    Compiles s (.wrote code place) (s.emitted code (s.lineAt place)) :=
  (Compiles.refl s).emitted code place

theorem Compiles.oneIf (s : CompilerState) :
    Compiles s .oneIf s.begunIf where
  takes := trivial
  window := rfl
  instructions := (Progress.refl s).instructions
  lines := (Progress.refl s).lines
  trace := (Progress.refl s).trace
  className := rfl
  scopes := rfl
  ifLabels := rfl
  whileLabels := rfl

theorem Compiles.oneWhile (s : CompilerState) :
    Compiles s .oneWhile s.begunWhile where
  takes := trivial
  window := rfl
  instructions := (Progress.refl s).instructions
  lines := (Progress.refl s).lines
  trace := (Progress.refl s).trace
  className := rfl
  scopes := rfl
  ifLabels := rfl
  whileLabels := rfl

theorem Progress.within {p : Production} (h : Progress (s.entered p) o t) :
    Progress s (.within p o) t.left where
  takes := h.takes
  window := h.window
  instructions := h.instructions
  lines := h.lines
  trace := by
    show Option.map _ t.trace = _
    rw [h.trace]
    show Option.map _ (Option.map _ (Option.map _ s.trace)) = _
    cases s.trace <;> simp [Trace.enter, Trace.leave]

theorem Compiles.within {p : Production} (h : Compiles (s.entered p) o t) :
    Compiles s (.within p o) t.left where
  toProgress := h.toProgress.within
  className := h.className
  scopes := h.scopes
  ifLabels := h.ifLabels
  whileLabels := h.whileLabels

end

namespace Compilation

section
variable {α β : Type} {s t : CompilerState} {a : α} {b : β}

theorem bind_eq_ok {x : Compilation α} {f : α → Compilation β} :
    (x >>= f) s = .ok b t ↔ ∃ a r, x s = .ok a r ∧ f a r = .ok b t := by
  show EStateM.bind x f s = _ ↔ _
  unfold EStateM.bind
  cases x s <;> simp

theorem bind_ok {x : Compilation α} {r : CompilerState} (h : x s = .ok a r)
    (f : α → Compilation β) : (x >>= f) s = f a r := by
  show EStateM.bind x f s = _
  rw [EStateM.bind, h]

theorem bind_error {x : Compilation α} {e : CompileError} (h : x s = .error e t)
    (f : α → Compilation β) : (x >>= f) s = .error e t := by
  show EStateM.bind x f s = _
  rw [EStateM.bind, h]

@[simp] theorem pure_eq_ok {c : α} : (pure c : Compilation α) s = .ok a t ↔ c = a ∧ s = t := by
  show EStateM.Result.ok c s = _ ↔ _
  simp

theorem production_eq_ok {p : Production} {body : Compilation α} :
    production p body s = .ok a t ↔ ∃ r, body (s.entered p) = .ok a r ∧ t = r.left := by
  show (body >>= fun a => record .leave >>= fun _ => pure a) (s.entered p) = _ ↔ _
  rw [bind_eq_ok]
  constructor
  · rintro ⟨c, r, run, done⟩
    cases done
    exact ⟨r, run, rfl⟩
  · rintro ⟨r, run, rfl⟩
    exact ⟨a, r, run, rfl⟩

theorem production_ok {p : Production} {body : Compilation α} {o : Output}
    (h : ∃ r, body (s.entered p) = .ok a r ∧ Compiles (s.entered p) o r) :
    ∃ t, production p body s = .ok a t ∧ Compiles s (.within p o) t := by
  obtain ⟨r, run, compiles⟩ := h
  exact ⟨r.left, production_eq_ok.mpr ⟨r, run, rfl⟩, compiles.within⟩

section
variable (f : TokenKind → Compilation α) (g : Lexeme → Compilation α) (h : Nat → Compilation α)
  (l : UInt32 → Compilation α) (k : String → Compilation α) (u : Unit → Compilation α)
  (name : String) (kind : VariableKind) (i : Instruction) (code : List Instruction) (line : UInt32)

@[simp] theorem peekKind_bind : (peekKind >>= f) s = f s.peek.kind s := rfl
@[simp] theorem peekLexeme_bind : (peekLexeme >>= g) s = g s.peek.lexeme s := rfl
@[simp] theorem peekLine_bind : (peekLine >>= l) s = l (s.lineAt 1) s := rfl
@[simp] theorem currentLine_bind : (currentLine >>= l) s = l (s.lineAt 0) s := rfl
@[simp] theorem currentText_bind : (currentText >>= k) s = k s.current.text s := rfl
@[simp] theorem className_bind : (className >>= k) s = k s.className s := rfl
@[simp] theorem countOf_bind : (countOf kind >>= h) s = h (s.scopes.count kind) s := rfl
@[simp] theorem lookup_bind (v : Option Variable → Compilation α) :
    (lookup name >>= v) s = v (s.scopes.find? name) s := rfl
@[simp] theorem nextIfLabel_bind :
    (nextIfLabel >>= h) s = h s.ifLabels s.begunIf := rfl
@[simp] theorem nextWhileLabel_bind :
    (nextWhileLabel >>= h) s = h s.whileLabels s.begunWhile := rfl
@[simp] theorem emit_run : emit i line s = .ok () (s.emitted [i] line) := rfl

@[simp] theorem emit_bind : (emit i line >>= u) s = u () (s.emitted [i] line) := rfl

@[simp] theorem emitAll_run : emitAll code line s = .ok () (s.emitted code line) := by
  unfold emitAll
  induction code generalizing s with
  | nil => rfl
  | cons i code ih =>
    show (emit i line >>= fun _ => code.forM fun i => emit i line) s = _
    rw [emit_bind]
    exact ih

@[simp] theorem emitAll_bind : (emitAll code line >>= u) s = u () (s.emitted code line) :=
  bind_ok (emitAll_run code line) u

end

/-! ## Taking tokens -/

theorem advance_eq_ok {u : Unit} :
    advance s = .ok u t ↔ s.input.next.1.Readable ∧ t = s.shifted := by
  rw [advance]
  cases kind : s.input.next.1.lexeme <;>
    simp [Token.Readable, Token.kind, kind, Lexeme.kind, CompilerState.shifted, eq_comm]

/-- The window stops moving only at a fault, which it has moved to. -/
theorem eq_unreadable_of_advance {e : CompileError} (h : advance s = .error e t) :
    t = s.shifted ∧ ∃ line fault, e = .unreadable line fault := by
  unfold advance at h
  dsimp only at h
  split at h <;> cases h
  exact ⟨rfl, _, _, rfl⟩

theorem consume_eq_ok {u : Unit} :
    consume s = .ok u t ↔ s.input.next.1.Readable ∧ t = s.taken := by
  show (advance >>= _) s = _ ↔ _
  rw [bind_eq_ok]
  constructor
  · rintro ⟨_, r, ran, done⟩
    obtain ⟨readable, rfl⟩ := advance_eq_ok.mp ran
    cases done
    exact ⟨readable, rfl⟩
  · rintro ⟨readable, rfl⟩
    exact ⟨(), s.shifted, advance_eq_ok.mpr ⟨readable, rfl⟩, rfl⟩

theorem eq_unreadable_of_consume {e : CompileError} (h : consume s = .error e t) :
    t = s.shifted ∧ ∃ line fault, e = .unreadable line fault := by
  change (advance >>= _) s = _ at h
  cases run : advance s with
  | ok u r =>
    rw [bind_ok run] at h
    cases h
  | error e' r =>
    rw [bind_error run] at h
    cases h
    exact eq_unreadable_of_advance run

theorem expect_eq_ok {kind : TokenKind} {u : Unit} :
    expect kind s = .ok u t ↔ s.peek.kind = kind ∧ s.input.next.1.Readable ∧ t = s.taken := by
  show (if s.peek.kind = kind then consume else failAtPeek (.expected [kind])) s = _ ↔ _
  split
  · next h => rw [consume_eq_ok]; simp [h]
  · next h => simp [failAtPeek, h]

theorem expectAny_eq_ok {kinds : List TokenKind} {u : Unit} :
    expectAny kinds s = .ok u t ↔ s.peek.kind ∈ kinds ∧ s.input.next.1.Readable ∧ t = s.taken := by
  show (if s.peek.kind ∈ kinds then consume else failAtPeek (.expected kinds)) s = _ ↔ _
  split
  · next h => rw [consume_eq_ok]; simp [h]
  · next h => simp [failAtPeek, h]

section
variable {u : Unit}

theorem compiles_of_consume (h : consume s = .ok u t) :
    Compiles s (.took s.peek.lexeme) t ∧ t.current = s.peek := by
  obtain ⟨readable, rfl⟩ := consume_eq_ok.mp h
  exact ⟨.taken rfl readable, rfl⟩

theorem compiles_of_expect {kind : TokenKind} (h : expect kind s = .ok u t) :
    s.peek.kind = kind ∧ Compiles s (.took s.peek.lexeme) t ∧ t.current = s.peek := by
  obtain ⟨expected, readable, rfl⟩ := expect_eq_ok.mp h
  exact ⟨expected, .taken rfl readable, rfl⟩

theorem compiles_of_mark {m : Mark} (h : expect (.mark m) s = .ok u t) :
    Compiles s (.took (.mark m)) t := by
  obtain ⟨expected, compiles, -⟩ := compiles_of_expect h
  exact Lexeme.kind_eq_mark.mp expected ▸ compiles

theorem compiles_of_keyword {k : Keyword} (h : expect (.keyword k) s = .ok u t) :
    Compiles s (.took (.keyword k)) t := by
  obtain ⟨expected, compiles, -⟩ := compiles_of_expect h
  exact Lexeme.kind_eq_keyword.mp expected ▸ compiles

theorem compiles_of_identifier (h : expect .identifier s = .ok u t) :
    ∃ name, Compiles s (.took (.identifier name)) t ∧ t.current.text = name := by
  obtain ⟨expected, compiles, current⟩ := compiles_of_expect h
  obtain ⟨name, lexeme⟩ := Lexeme.kind_eq_identifier.mp expected
  refine ⟨name, lexeme ▸ compiles, ?_⟩
  rw [current, Token.text, lexeme]
  rfl

end

variable {l : Lexeme} {rest : List Lexeme}

theorem consume_ok (h : Takes s.window (l :: rest)) : consume s = .ok () s.taken :=
  consume_eq_ok.mpr ⟨s.window_get_two ▸ h.2.1, rfl⟩

theorem expect_ok (kind : TokenKind) (h : Takes s.window (l :: rest)) (hkind : l.kind = kind) :
    expect kind s = .ok () s.taken :=
  expect_eq_ok.mpr ⟨by rw [← hkind, ← h.1]; rfl, s.window_get_two ▸ h.2.1, rfl⟩

theorem expectAny_ok {kinds : List TokenKind} (h : Takes s.window (l :: rest))
    (hkind : l.kind ∈ kinds) : expectAny kinds s = .ok () s.taken :=
  expectAny_eq_ok.mpr ⟨by rw [← h.1] at hkind; exact hkind, s.window_get_two ▸ h.2.1, rfl⟩

end

end Compilation

end JackVm

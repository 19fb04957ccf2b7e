import JackVm.Proofs.Compilation.Steps
import JackVm.Proofs.Translation.Renaming
import Mathlib.Data.List.Forall2

/-!
# Two compilations in step

Two sources correspond if their tokens do, one by one, up to a renaming of identifiers. Compilations
of such sources stay abreast of each other: the states that they reach differ in names, in lines and
in what is traced, but not in what comes next. Two results agree if both are answers or both are
errors, and the states behind them are abreast as well.
-/

namespace JackVm

/-- Errors that differ by a renaming and by where their tokens stand. -/
inductive CompileError.Corresponds (r : Renaming) (Pairs : Token → Token → Prop) :
    CompileError → CompileError → Prop
  | atToken {t t' : Token} (problem : Problem) (pair : Pairs t t') :
    Corresponds r Pairs (.atToken t problem) (.atToken t' (problem.rename r))
  | unreadable {t t' : Token} {fault : Fault} (pair : Pairs t t')
    (found : t.lexeme = .fault fault) :
    Corresponds r Pairs (.unreadable t.line fault) (.unreadable t'.line fault)

/-- Which tokens of one source correspond to which of another. -/
structure Correspondence where
  names : Renaming
  Pairs : Token → Token → Prop
  lexeme_eq {t t' : Token} : Pairs t t' → t'.lexeme = t.lexeme.rename names
  isIdentifier {t t' : Token} {name : String} :
    Pairs t t' → t.lexeme = .identifier name → isIdentifier name

namespace Correspondence

variable (k : Correspondence)

section
variable {k} {t t' : Token}

theorem kind_eq (pair : k.Pairs t t') : t'.kind = t.kind := by
  rw [Token.kind, k.lexeme_eq pair, Lexeme.kind_rename]
  rfl

theorem words_of_identifier (pair : k.Pairs t t') (named : t.kind = .identifier) :
    k.names.Words t.text t'.text := by
  obtain ⟨name, lexeme⟩ := Lexeme.kind_eq_identifier.mp named
  have renamed := k.lexeme_eq pair
  rw [lexeme] at renamed
  rw [Token.text, Token.text, renamed, lexeme]
  exact ⟨rfl, isWord_of_isIdentifier (k.isIdentifier pair lexeme)⟩

theorem words_of_keyword {word : Keyword} (pair : k.Pairs t t')
    (reserved : t.kind = .keyword word) : k.names.Words t.text t'.text := by
  have lexeme : t.lexeme = .keyword word := Lexeme.kind_eq_keyword.mp reserved
  have renamed := k.lexeme_eq pair
  rw [lexeme] at renamed
  rw [Token.text, Token.text, renamed, lexeme]
  exact ⟨(k.names.apply_keyword word).symm, isWord_spelling word⟩

end

def Lines (m n : UInt32) : Prop :=
  ∃ t t', k.Pairs t t' ∧ m = t.line ∧ n = t'.line

structure Codes (code code' : Code) : Prop where
  instructions : code'.instructions = code.instructions.map (Instruction.rename k.names)
  lines : List.Forall₂ k.Lines code.lines code'.lines

theorem Codes.empty : k.Codes {} {} := ⟨rfl, .nil⟩

theorem Codes.append {k : Correspondence} {code code' : Code} {line line' : UInt32}
    (h : k.Codes code code') (lines : k.Lines line line') (i : Instruction) :
    k.Codes (code.append i line) (code'.append (i.rename k.names) line') where
  instructions := by simp [h.instructions]
  lines := by
    rw [Code.lines_append, Code.lines_append]
    exact List.rel_append h.lines (.cons lines .nil)

structure Streams (input input' : TokenStream) : Prop where
  upcoming : List.Forall₂ k.Pairs input.upcoming input'.upcoming
  atEnd : k.Pairs ⟨.endOfInput, input.endLine⟩ ⟨.endOfInput, input'.endLine⟩

theorem Streams.next {k : Correspondence} {input input' : TokenStream}
    (h : k.Streams input input') :
    k.Pairs input.next.1 input'.next.1 ∧ k.Streams input.next.2 input'.next.2 := by
  obtain ⟨tokens, endLine⟩ := input
  obtain ⟨tokens', endLine'⟩ := input'
  obtain ⟨upcoming, atEnd⟩ := h
  cases upcoming with
  | nil => exact ⟨atEnd, .nil, atEnd⟩
  | cons pair upcoming => exact ⟨pair, upcoming, atEnd⟩

/-- Two states from which compilations go on alike. A trace is never read, and the current token
only after another one has been taken. -/
structure Abreast (s s' : CompilerState) : Prop where
  peek : k.Pairs s.peek s'.peek
  input : k.Streams s.input s'.input
  className : k.names.Words s.className s'.className
  scopes : ScopeTable.Renamed k.names s.scopes s'.scopes
  code : k.Codes s.code s'.code
  ifLabels : s'.ifLabels = s.ifLabels
  whileLabels : s'.whileLabels = s.whileLabels

structure InStep (s s' : CompilerState) : Prop extends k.Abreast s s' where
  current : k.Pairs s.current s'.current

abbrev Errors : CompileError → CompileError → Prop :=
  CompileError.Corresponds k.names k.Pairs

/-- Two results of which both are answers, in relation `Q`, or both are errors. -/
inductive Agree {α : Type} (Q : α → α → Prop) :
    EStateM.Result CompileError CompilerState α →
      EStateM.Result CompileError CompilerState α → Prop
  | ok {a a' : α} {s s' : CompilerState} (answers : Q a a') (states : k.InStep s s') :
    Agree Q (.ok a s) (.ok a' s')
  | error {e e' : CompileError} {s s' : CompilerState} (errors : k.Errors e e')
    (states : k.Abreast s s') : Agree Q (.error e s) (.error e' s')

/-- A compilation that does the same to any two states that are in step. -/
def KeepsStep {α : Type} (x : Compilation α) : Prop :=
  ∀ ⦃s s'⦄, k.InStep s s' → k.Agree Eq (x s) (x s')

variable {k} {s s' : CompilerState}

/-! ## States -/

theorem Abreast.peekKind (h : k.Abreast s s') : s'.peek.kind = s.peek.kind :=
  kind_eq h.peek

theorem Abreast.entered (h : k.Abreast s s') (p : Production) :
    k.Abreast (s.entered p) (s'.entered p) :=
  ⟨h.peek, h.input, h.className, h.scopes, h.code, h.ifLabels, h.whileLabels⟩

theorem Abreast.shifted (h : k.Abreast s s') : k.InStep s.shifted s'.shifted :=
  ⟨⟨h.input.next.1, h.input.next.2, h.className, h.scopes, h.code, h.ifLabels, h.whileLabels⟩,
    h.peek⟩

namespace InStep

theorem traced (h : k.InStep s s') (trace trace' : Option Trace) :
    k.InStep { s with trace } { s' with trace := trace' } :=
  ⟨⟨h.peek, h.input, h.className, h.scopes, h.code, h.ifLabels, h.whileLabels⟩, h.current⟩

theorem entered (h : k.InStep s s') (p : Production) : k.InStep (s.entered p) (s'.entered p) :=
  h.traced _ _

theorem begunIf (h : k.InStep s s') : k.InStep s.begunIf s'.begunIf :=
  ⟨⟨h.peek, h.input, h.className, h.scopes, h.code, congrArg (· + 1) h.ifLabels, h.whileLabels⟩,
    h.current⟩

theorem begunWhile (h : k.InStep s s') : k.InStep s.begunWhile s'.begunWhile :=
  ⟨⟨h.peek, h.input, h.className, h.scopes, h.code, h.ifLabels, congrArg (· + 1) h.whileLabels⟩,
    h.current⟩

theorem rescoped (h : k.InStep s s') {scopes scopes' : ScopeTable}
    (renamed : ScopeTable.Renamed k.names scopes scopes') :
    k.InStep { s with scopes } { s' with scopes := scopes' } :=
  ⟨⟨h.peek, h.input, h.className, renamed, h.code, h.ifLabels, h.whileLabels⟩, h.current⟩

theorem currentLine (h : k.InStep s s') : k.Lines (s.lineAt 0) (s'.lineAt 0) :=
  ⟨s.current, s'.current, h.current, rfl, rfl⟩

theorem peekLine (h : k.InStep s s') : k.Lines (s.lineAt 1) (s'.lineAt 1) :=
  ⟨s.peek, s'.peek, h.peek, rfl, rfl⟩

theorem emitted (h : k.InStep s s') {line line' : UInt32} (lines : k.Lines line line')
    (code : List Instruction) :
    k.InStep (s.emitted code line)
      (s'.emitted (code.map (Instruction.rename k.names)) line') := by
  induction code generalizing s s' with
  | nil => exact h
  | cons i code ih =>
    have one : k.InStep { s with code := s.code.append i line }
        { s' with code := s'.code.append (i.rename k.names) line' } :=
      ⟨⟨h.peek, h.input, h.className, h.scopes, h.code.append lines i, h.ifLabels,
        h.whileLabels⟩, h.current⟩
    exact ih one

end InStep

/-! ## Sequences, productions and loops -/

section
variable {α β : Type} {Q : β → β → Prop} {R : α → α → Prop} {x x' : Compilation α}

theorem Agree.bind {f f' : α → Compilation β} (first : k.Agree R (x s) (x' s'))
    (second : ∀ {a t a' t'}, x s = .ok a t → R a a' → k.InStep t t' →
      k.Agree Q (f a t) (f' a' t')) :
    k.Agree Q ((x >>= f) s) ((x' >>= f') s') := by
  show k.Agree Q (EStateM.bind x f s) (EStateM.bind x' f' s')
  unfold EStateM.bind
  generalize x s = result at first second
  generalize x' s' = result' at first
  cases first with
  | ok answers states => exact second rfl answers states
  | error errors states => exact .error errors states

theorem Agree.andThen {f f' : α → Compilation β} (first : k.Agree Eq (x s) (x' s'))
    (second : ∀ {a t t'}, x s = .ok a t → k.InStep t t' → k.Agree Q (f a t) (f' a t')) :
    k.Agree Q ((x >>= f) s) ((x' >>= f') s') := by
  refine first.bind fun run same states => ?_
  subst same
  exact second run states

theorem agree_ite {p : Prop} [Decidable p] {y y' : Compilation α}
    (yes : p → k.Agree R (x s) (x' s')) (no : ¬p → k.Agree R (y s) (y' s')) :
    k.Agree R ((if p then x else y) s) ((if p then x' else y') s') := by
  by_cases h : p
  · rw [if_pos h, if_pos h]
    exact yes h
  · rw [if_neg h, if_neg h]
    exact no h

theorem agree_production {p : Production}
    (body : k.Agree R (x (s.entered p)) (x' (s'.entered p))) :
    k.Agree R (Compilation.production p x s) (Compilation.production p x' s') := by
  show k.Agree R
    ((x >>= fun a => Compilation.record .leave >>= fun _ => pure a) (s.entered p))
    ((x' >>= fun a => Compilation.record .leave >>= fun _ => pure a) (s'.entered p))
  exact body.bind fun _ answers states => .ok answers (states.traced _ _)

theorem agree_iterate {p : TokenKind → Bool} {body body' : α → Compilation α}
    (each : ∀ {a a' s s'}, R a a' → k.InStep s s' → k.Agree R (body a s) (body' a' s'))
    (bound : Nat) {a a' : α} (answers : R a a') (h : k.InStep s s') :
    k.Agree R (Compilation.iterate p body bound a s) (Compilation.iterate p body' bound a' s') := by
  induction bound generalizing a a' s s' with
  | zero =>
    unfold Compilation.iterate
    simp only [Compilation.peekKind_bind]
    rw [h.peekKind]
    exact agree_ite (fun _ => .error (.atToken .boundReached h.peek) h.toAbreast)
      fun _ => .ok answers h
  | succ bound ih =>
    unfold Compilation.iterate
    simp only [Compilation.peekKind_bind]
    rw [h.peekKind]
    refine agree_ite (fun _ => ?_) fun _ => .ok answers h
    exact (each answers h).bind fun _ answers h => ih answers h

end

theorem agree_forM {β : Type} (items : List β) {f f' : β → Compilation PUnit}
    (each : ∀ item {s s'}, k.InStep s s' → k.Agree Eq (f item s) (f' item s'))
    (h : k.InStep s s') : k.Agree Eq (items.forM f s) (items.forM f' s') := by
  induction items generalizing s s' with
  | nil => exact .ok rfl h
  | cons item items ih => exact (each item h).andThen fun _ h => ih h

theorem KeepsStep.repeatWhile {p : TokenKind → Bool} {body : Compilation Unit}
    (each : k.KeepsStep body) (bound : Nat) :
    k.KeepsStep (Compilation.repeatWhile p body bound) :=
  fun _ _ h => agree_iterate (fun _ h => each h) bound rfl h

/-! ## Taking tokens -/

namespace Abreast

variable {α : Type} {Q : α → α → Prop}

theorem failAtPeek (h : k.Abreast s s') {problem problem' : Problem}
    (same : problem' = problem.rename k.names) :
    k.Agree Q (Compilation.failAtPeek problem s) (Compilation.failAtPeek problem' s') := by
  rw [same]
  exact .error (.atToken problem h.peek) h

theorem advance (h : k.Abreast s s') :
    k.Agree Eq (Compilation.advance s) (Compilation.advance s') := by
  have pair : k.Pairs s.input.next.1 s'.input.next.1 := h.input.next.1
  have renamed := k.lexeme_eq pair
  unfold Compilation.advance
  cases next : s.input.next.1.lexeme with
  | fault f =>
    rw [next] at renamed
    simp only [next, renamed, Lexeme.rename]
    exact .error (.unreadable pair next) h.shifted.toAbreast
  | _ =>
    rw [next] at renamed
    simp only [next, renamed, Lexeme.rename]
    exact .ok rfl h.shifted

theorem consume (h : k.Abreast s s') :
    k.Agree Eq (Compilation.consume s) (Compilation.consume s') :=
  h.advance.andThen fun _ h => .ok rfl (h.traced _ _)

theorem expectAny (h : k.Abreast s s') (kinds : List TokenKind) :
    k.Agree Eq (Compilation.expectAny kinds s) (Compilation.expectAny kinds s') := by
  unfold Compilation.expectAny
  simp only [Compilation.peekKind_bind]
  rw [h.peekKind]
  exact agree_ite (fun _ => h.consume) fun _ => h.failAtPeek rfl

theorem expect (h : k.Abreast s s') (kind : TokenKind) :
    k.Agree Eq (Compilation.expect kind s) (Compilation.expect kind s') := by
  unfold Compilation.expect
  simp only [Compilation.peekKind_bind]
  rw [h.peekKind]
  exact agree_ite (fun _ => h.consume) fun _ => h.failAtPeek rfl

end Abreast

theorem kind_of_expect {kind : TokenKind} {t : CompilerState}
    (run : Compilation.expect kind s = .ok () t) : t.current.kind = kind := by
  obtain ⟨expected, -, current⟩ := Compilation.compiles_of_expect run
  rw [current, expected]

/-! ## Writing, declaring and looking up -/

namespace InStep

variable {α : Type} {Q : α → α → Prop}

theorem failAtCurrent (h : k.InStep s s') {problem problem' : Problem}
    (same : problem' = problem.rename k.names) :
    k.Agree Q (Compilation.failAtCurrent problem s) (Compilation.failAtCurrent problem' s') := by
  rw [same]
  exact .error (.atToken problem h.current) h.toAbreast

theorem emitAll (h : k.InStep s s') {line line' : UInt32} {code code' : List Instruction}
    (lines : k.Lines line line') (same : code' = code.map (Instruction.rename k.names)) :
    k.Agree Eq (Compilation.emitAll code line s) (Compilation.emitAll code' line' s') := by
  rw [Compilation.emitAll_run, Compilation.emitAll_run, same]
  exact .ok rfl (h.emitted lines code)

theorem emit (h : k.InStep s s') {line line' : UInt32} {i i' : Instruction}
    (lines : k.Lines line line') (same : i' = i.rename k.names) :
    k.Agree Eq (Compilation.emit i line s) (Compilation.emit i' line' s') := by
  rw [Compilation.emit_run, Compilation.emit_run, same]
  exact .ok rfl (h.emitted lines [i])

theorem declare (h : k.InStep s s') {name name' type type' : String} (kind : VariableKind)
    (renamed : name' = k.names name) (types : k.names.Words type type') :
    k.Agree Eq (Compilation.declare name type kind s)
      (Compilation.declare name' type' kind s') := by
  unfold Compilation.declare
  rw [renamed, types.renamed]
  cases declared : s.scopes.declare name type kind with
  | error e scopes =>
    rw [h.scopes.declare_error declared, ScopeTable.eq_of_declare_eq_error declared]
    exact .error (.atToken (.declaration e) h.current) h.toAbreast
  | ok v scopes =>
    obtain ⟨_, declared', renamed⟩ := h.scopes.declare_ok types.word declared
    rw [declared']
    exact .ok rfl (h.rescoped renamed)

theorem resolveCurrent (h : k.InStep s s') (named : s.current.kind = .identifier) :
    k.Agree (fun v v' => v' = v.rename k.names) (Compilation.resolveCurrent s)
      (Compilation.resolveCurrent s') := by
  have words := words_of_identifier h.current named
  unfold Compilation.resolveCurrent
  simp only [Compilation.currentText_bind, Compilation.lookup_bind]
  rw [words.renamed, h.scopes.find?]
  cases s.scopes.find? s.current.text with
  | none => exact h.failAtCurrent rfl
  | some v => exact .ok rfl h

end InStep

end Correspondence

end JackVm

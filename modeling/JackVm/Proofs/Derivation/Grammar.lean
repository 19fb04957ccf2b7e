import JackVm.Proofs.Compilation.Progress
import Mathlib.Computability.Language

/-!
# Derivations in the grammar

The grammar gives each production a language of right-hand sides: rows of terminals, which are told
apart by their kinds only, and of productions. A derivation is a tree whose nodes obey it. What
compilations record is put together from derivations, and for each way in which outputs join there
is one rule that says which right-hand sides they are derived from.
-/

namespace JackVm

open scoped Computability

inductive Symbol where
  | terminal (kind : TokenKind)
  | production (p : Production)
  deriving DecidableEq, Repr

namespace Grammar

def anyOf (kinds : List TokenKind) : Language Symbol :=
  {w | ∃ k ∈ kinds, w = [.terminal k]}

def word (k : Keyword) : Language Symbol :=
  anyOf [.keyword k]

def mark (m : Mark) : Language Symbol :=
  anyOf [.mark m]

def identifier : Language Symbol :=
  anyOf [.identifier]

def part (p : Production) : Language Symbol :=
  {[.production p]}

def typeName : Language Symbol :=
  anyOf [.keyword .int, .keyword .char, .keyword .boolean, .identifier]

def nameList : Language Symbol :=
  identifier * (mark .comma * identifier)∗

def parameter : Language Symbol :=
  typeName * identifier

def index : Language Symbol :=
  mark .leftBracket * part .expression * mark .rightBracket

def block : Language Symbol :=
  mark .leftBrace * part .statements * mark .rightBrace

def arguments : Language Symbol :=
  mark .leftParen * part .expressionList * mark .rightParen

def callTail : Language Symbol :=
  arguments + mark .dot * identifier * arguments

def binaryOperator : Language Symbol :=
  anyOf [.mark .plus, .mark .minus, .mark .star, .mark .slash, .mark .less, .mark .greater,
    .mark .equal, .mark .ampersand, .mark .bar]

def unaryOperator : Language Symbol :=
  anyOf [.mark .minus, .mark .tilde]

def constant : Language Symbol :=
  anyOf [.integer, .string, .keyword .true, .keyword .false, .keyword .null, .keyword .this]

def statement : Language Symbol :=
  part .letStatement + part .ifStatement + part .whileStatement + part .doStatement +
    part .returnStatement

end Grammar

open Grammar in
/-- The right-hand sides of a production. -/
def Production.rule : Production → Language Symbol
  | .class =>
    word .class * identifier * mark .leftBrace * (part .classVarDec)∗ * (part .subroutineDec)∗ *
      mark .rightBrace
  | .classVarDec =>
    anyOf [.keyword .static, .keyword .field] * (typeName * nameList * mark .semicolon)
  | .subroutineDec =>
    anyOf [.keyword .constructor, .keyword .function, .keyword .method] *
      (word .void + typeName) * identifier * mark .leftParen * part .parameterList *
      mark .rightParen * part .subroutineBody
  | .parameterList => 1 + parameter * (mark .comma * parameter)∗
  | .subroutineBody =>
    mark .leftBrace * (part .varDec)∗ * part .statements * mark .rightBrace
  | .varDec => word .var * (typeName * nameList * mark .semicolon)
  | .statements => statement∗
  | .letStatement =>
    word .let * identifier * (1 + index) * mark .equal * part .expression * mark .semicolon
  | .ifStatement =>
    word .if * mark .leftParen * part .expression * mark .rightParen * block *
      (1 + word .else * block)
  | .whileStatement =>
    word .while * mark .leftParen * part .expression * mark .rightParen * block
  | .doStatement => word .do * identifier * callTail * mark .semicolon
  | .returnStatement => word .return * (1 + part .expression) * mark .semicolon
  | .expressionList => 1 + part .expression * (mark .comma * part .expression)∗
  | .expression => part .term * (binaryOperator * part .term)∗
  | .term =>
    constant + identifier * (1 + index) + identifier * callTail +
      mark .leftParen * part .expression * mark .rightParen + unaryOperator * part .term

/-- A tree of productions with terminals at its leaves. -/
inductive Derivation where
  | terminal (lexeme : Lexeme)
  | node (p : Production) (children : List Derivation)

namespace Derivation

def symbol : Derivation → Symbol
  | terminal lexeme => .terminal lexeme.kind
  | node p _ => .production p

/-- Whether every node of a tree is derived by a rule of the grammar. -/
inductive Grammatical : Derivation → Prop
  | terminal (lexeme : Lexeme) : Grammatical (.terminal lexeme)
  | node {p : Production} {children : List Derivation} (derived : children.map symbol ∈ p.rule)
    (below : ∀ d ∈ children, Grammatical d) : Grammatical (.node p children)

mutual

/-- The terminals of a tree from left to right. -/
def lexemes : Derivation → List Lexeme
  | terminal lexeme => [lexeme]
  | node _ children => lexemesOf children

def lexemesOf : List Derivation → List Lexeme
  | [] => []
  | d :: ds => d.lexemes ++ lexemesOf ds

end

mutual

/-- The events of going round a tree. -/
def events : Derivation → List TraceEvent
  | terminal lexeme => [.terminal lexeme]
  | node p children => .opened p.name :: (eventsOf children ++ [.closed])

def eventsOf : List Derivation → List TraceEvent
  | [] => []
  | d :: ds => d.events ++ eventsOf ds

end

@[simp] theorem lexemesOf_append (ds ds' : List Derivation) :
    lexemesOf (ds ++ ds') = lexemesOf ds ++ lexemesOf ds' := by
  induction ds with
  | nil => rfl
  | cons d ds ih => simp [lexemesOf, ih]

@[simp] theorem eventsOf_append (ds ds' : List Derivation) :
    eventsOf (ds ++ ds') = eventsOf ds ++ eventsOf ds' := by
  induction ds with
  | nil => rfl
  | cons d ds ih => simp [eventsOf, ih]

end Derivation

/-! ## What an output is derived from -/

/-- Trees of the grammar that an output records, with a right-hand side for their roots. -/
structure Output.Records (o : Output) (L : Language Symbol) (ds : List Derivation) : Prop where
  events_eq : o.events = Derivation.eventsOf ds
  lexemes_eq : o.lexemes = Derivation.lexemesOf ds
  grammatical : ∀ d ∈ ds, d.Grammatical
  derived : ds.map Derivation.symbol ∈ L

def Output.Derives (o : Output) (L : Language Symbol) : Prop :=
  ∃ ds, o.Records L ds

namespace Output.Derives

open Grammar

variable {o o' : Output} {L M : Language Symbol}

theorem mono (h : o.Derives L) (inside : ∀ row ∈ L, row ∈ M) : o.Derives M := by
  obtain ⟨ds, records⟩ := h
  exact ⟨ds, { records with derived := inside _ records.derived }⟩

theorem of_eq (h : o.Derives L) (same : L = M) : o.Derives M :=
  same ▸ h

theorem silent (events : o.events = []) (lexemes : o.lexemes = []) : o.Derives 1 :=
  ⟨[], events, lexemes, by simp, rfl⟩

theorem append (h : o.Derives L) (h' : o'.Derives M) : (o ++ o').Derives (L * M) := by
  obtain ⟨ds, records⟩ := h
  obtain ⟨ds', records'⟩ := h'
  refine ⟨ds ++ ds', ?_, ?_, ?_, ?_⟩
  · show o.events ++ o'.events = _
    rw [records.events_eq, records'.events_eq, Derivation.eventsOf_append]
  · rw [lexemes_append, records.lexemes_eq, records'.lexemes_eq, Derivation.lexemesOf_append]
  · exact List.forall_mem_append.mpr ⟨records.grammatical, records'.grammatical⟩
  · rw [List.map_append]
    exact Language.append_mem_mul records.derived records'.derived

theorem took {l : Lexeme} {kinds : List TokenKind} (h : l.kind ∈ kinds) :
    (took l).Derives (anyOf kinds) :=
  ⟨[.terminal l], rfl, rfl, by simp [Derivation.Grammatical.terminal], l.kind, h, rfl⟩

theorem word (k : Keyword) : (Output.took (.keyword k)).Derives (word k) :=
  took (List.mem_singleton_self _)

theorem mark (m : Mark) : (Output.took (.mark m)).Derives (mark m) :=
  took (List.mem_singleton_self _)

theorem identifier (name : String) :
    (Output.took (.identifier name)).Derives Grammar.identifier :=
  took (List.mem_singleton_self _)

theorem within {p : Production} (h : o.Derives p.rule) : (within p o).Derives (part p) := by
  obtain ⟨ds, records⟩ := h
  refine ⟨[.node p ds], ?_, ?_, ?_, rfl⟩
  · simp [Derivation.eventsOf, Derivation.events, records.events_eq]
  · simp [Derivation.lexemesOf, Derivation.lexemes, records.lexemes_eq]
  · simpa using .node records.derived records.grammatical

theorem thenWrote (h : o.Derives L) (code : List Instruction) (place : Nat) :
    (o.thenWrote code place).Derives L := by
  obtain ⟨ds, records⟩ := h
  exact ⟨ds, records.events_eq, records.lexemes_eq, records.grammatical, records.derived⟩

theorem append_wrote (h : o.Derives L) (code : List Instruction) (place : Nat := 0) :
    (o ++ wrote code place).Derives L := by
  have joined := h.append (silent (o := wrote code place) rfl rfl)
  rwa [mul_one] at joined

theorem silent_append (events : o.events = []) (lexemes : o.lexemes = []) (h : o'.Derives L) :
    (o ++ o').Derives L := by
  have joined := (silent events lexemes).append h
  rwa [one_mul] at joined

theorem left (h : o.Derives L) : o.Derives (L + M) :=
  h.mono fun _ => .inl

theorem right (h : o.Derives M) : o.Derives (L + M) :=
  h.mono fun _ => .inr

theorem absent (h : o.Derives L) : o.Derives (L * (1 + M)) := by
  rw [mul_add, mul_one]
  exact h.left

theorem kstar_nil : ({} : Output).Derives L∗ :=
  (silent rfl rfl).mono fun _ mem => (one_le_kstar : 1 ≤ L∗) mem

theorem kstar_cons (h : o.Derives L) (h' : o'.Derives L∗) : (o ++ o').Derives L∗ :=
  (h.append h').mono fun _ mem => (mul_kstar_le_kstar : L * L∗ ≤ L∗) mem

end Output.Derives

end JackVm

/-!
# Tokens of the Jack language

A token is a lexeme together with the line it was read on. The kind of a lexeme forgets its
content, and is what the grammar looks at and what diagnostics name. Text that belongs to no
token becomes a fault, so that every source has a token sequence.
-/

namespace JackVm

inductive Keyword where
  | «class» | constructor | function | method | field | static | var
  | int | char | boolean | void
  | true | false | null | this
  | let | do | if | else | while | return
  deriving DecidableEq, Repr

def Keyword.spelling : Keyword → String
  | .class => "class"
  | .constructor => "constructor"
  | .function => "function"
  | .method => "method"
  | .field => "field"
  | .static => "static"
  | .var => "var"
  | .int => "int"
  | .char => "char"
  | .boolean => "boolean"
  | .void => "void"
  | .true => "true"
  | .false => "false"
  | .null => "null"
  | .this => "this"
  | .let => "let"
  | .do => "do"
  | .if => "if"
  | .else => "else"
  | .while => "while"
  | .return => "return"

def Keyword.all : List Keyword :=
  [.class, .constructor, .function, .method, .field, .static, .var, .int, .char, .boolean, .void,
    .true, .false, .null, .this, .let, .do, .if, .else, .while, .return]

/-- The keyword with a given spelling; other spellings belong to identifiers. -/
def Keyword.ofSpelling? (word : String) : Option Keyword :=
  Keyword.all.find? fun k => k.spelling == word

theorem Keyword.ofSpelling?_eq_some_iff {word : String} {k : Keyword} :
    Keyword.ofSpelling? word = some k ↔ word = k.spelling := by
  constructor
  · intro h
    have found := List.find?_some h
    exact (beq_iff_eq.mp found).symm
  · rintro rfl
    cases k <;> decide

/-- The one keyword that some words may be, which share the characters that lead to it. -/
structure Keyword.Leaf where
  /-- The number of characters that lead to it. -/
  depth : Nat
  /-- How the keyword goes on behind them. -/
  rest : String
  keyword : Keyword

/-- The first character of a word, or the first two, leave one keyword at most. -/
def Keyword.leaf? (first second : Char) : Option Leaf :=
  match first with
  | 'b' => some ⟨1, "oolean", .boolean⟩
  | 'c' =>
    match second with
    | 'h' => some ⟨2, "ar", .char⟩
    | 'l' => some ⟨2, "ass", .class⟩
    | 'o' => some ⟨2, "nstructor", .constructor⟩
    | _ => none
  | 'd' => some ⟨1, "o", .do⟩
  | 'e' => some ⟨1, "lse", .else⟩
  | 'f' =>
    match second with
    | 'a' => some ⟨2, "lse", .false⟩
    | 'i' => some ⟨2, "eld", .field⟩
    | 'u' => some ⟨2, "nction", .function⟩
    | _ => none
  | 'i' =>
    match second with
    | 'f' => some ⟨2, "", .if⟩
    | 'n' => some ⟨2, "t", .int⟩
    | _ => none
  | 'l' => some ⟨1, "et", .let⟩
  | 'm' => some ⟨1, "ethod", .method⟩
  | 'n' => some ⟨1, "ull", .null⟩
  | 'r' => some ⟨1, "eturn", .return⟩
  | 's' => some ⟨1, "tatic", .static⟩
  | 't' =>
    match second with
    | 'h' => some ⟨2, "is", .this⟩
    | 'r' => some ⟨2, "ue", .true⟩
    | _ => none
  | 'v' =>
    match second with
    | 'a' => some ⟨2, "r", .var⟩
    | 'o' => some ⟨2, "id", .void⟩
    | _ => none
  | 'w' => some ⟨1, "hile", .while⟩
  | _ => none

/-- Whether a word is of the keyword's length and ends as the keyword does. -/
def Keyword.Leaf.accepts (l : Leaf) (word : List Char) : Bool :=
  word.length == l.depth + l.rest.toList.length && word.drop l.depth == l.rest.toList

/-- The keyword that a word is. A word of one character has NUL for its second. -/
def Keyword.ofWord? (word : String) : Option Keyword :=
  match word.toList with
  | [] => none
  | first :: others =>
    match leaf? first (others.headD '\x00') with
    | some l => if l.accepts (first :: others) then some l.keyword else none
    | none => none

theorem Keyword.Leaf.spelling_eq {first second : Char} {l : Leaf}
    (h : leaf? first second = some l) :
    l.depth = 1 ∧ l.keyword.spelling.toList = first :: l.rest.toList ∨
      l.depth = 2 ∧ l.keyword.spelling.toList = first :: second :: l.rest.toList := by
  unfold leaf? at h
  -- The first character leads to a leaf, or the second one does, or none.
  split at h <;> first
    | cases h; exact .inl (by decide)
    | split at h <;> cases h <;> exact .inr (by decide)
    | cases h

theorem Keyword.Leaf.accepts_iff {l : Leaf} {word : List Char} :
    l.accepts word ↔ word.length = l.depth + l.rest.toList.length ∧
      word.drop l.depth = l.rest.toList := by
  rw [accepts, Bool.and_eq_true, beq_iff_eq, beq_iff_eq]

theorem Keyword.spelling_of_accepts {first : Char} {others : List Char} {l : Leaf}
    (found : leaf? first (others.headD '\x00') = some l) (h : l.accepts (first :: others)) :
    l.keyword.spelling.toList = first :: others := by
  rw [Leaf.accepts_iff] at h
  cases Leaf.spelling_eq found with
  | inl one =>
    rw [one.1, List.drop_one, List.tail_cons] at h
    rw [one.2, h.2]
  | inr two =>
    rw [two.1] at h
    cases others with
    | nil =>
      rw [List.length_singleton] at h
      omega
    | cons second others =>
      have rest : others = l.rest.toList := h.2
      rw [two.2, rest]
      rfl

/-- The words that are keywords are their spellings. -/
theorem Keyword.ofWord?_eq_some_iff {word : String} {k : Keyword} :
    Keyword.ofWord? word = some k ↔ word = k.spelling := by
  constructor
  · intro h
    rw [ofWord?] at h
    split at h
    · cases h
    · next first others letters =>
      split at h
      · next l found =>
        split at h
        · next accepted =>
          cases h
          rw [← String.toList_inj, letters, spelling_of_accepts found accepted]
        · cases h
      · cases h
  · intro same
    rw [same]
    cases k <;> decide

theorem Keyword.ofWord?_eq_ofSpelling? (word : String) :
    Keyword.ofWord? word = Keyword.ofSpelling? word := by
  apply Option.ext
  intro k
  rw [ofWord?_eq_some_iff, ofSpelling?_eq_some_iff]

inductive Mark where
  | leftParen | rightParen | leftBrace | rightBrace | leftBracket | rightBracket
  | comma | dot | semicolon
  | plus | minus | star | slash | ampersand | bar | tilde | less | greater | equal
  deriving DecidableEq, Repr

def Mark.char : Mark → Char
  | .leftParen => '('
  | .rightParen => ')'
  | .leftBrace => '\x7b'
  | .rightBrace => '\x7d'
  | .leftBracket => '['
  | .rightBracket => ']'
  | .comma => ','
  | .dot => '.'
  | .semicolon => ';'
  | .plus => '+'
  | .minus => '-'
  | .star => '*'
  | .slash => '/'
  | .ampersand => '&'
  | .bar => '|'
  | .tilde => '~'
  | .less => '<'
  | .greater => '>'
  | .equal => '='

def Mark.all : List Mark :=
  [.leftParen, .rightParen, .leftBrace, .rightBrace, .leftBracket, .rightBracket, .comma, .dot,
    .semicolon, .plus, .minus, .star, .slash, .ampersand, .bar, .tilde, .less, .greater, .equal]

def Mark.ofChar? (c : Char) : Option Mark :=
  Mark.all.find? fun m => m.char == c

theorem Mark.ofChar?_eq_some_iff {c : Char} {m : Mark} :
    Mark.ofChar? c = some m ↔ c = m.char := by
  constructor
  · intro h
    have found := List.find?_some h
    exact (beq_iff_eq.mp found).symm
  · rintro rfl
    cases m <;> decide

def Mark.spelling (m : Mark) : String :=
  String.singleton m.char

/-- Text that no token can be read from. -/
inductive Fault where
  | unexpectedCharacter
  | unterminatedString
  | unterminatedComment
  /-- Stands in the window of a compilation that has not read anything yet. -/
  | beforeStart
  deriving DecidableEq, Repr

def Fault.message : Fault → String
  | .unexpectedCharacter => "Unexpected character."
  | .unterminatedString => "Unterminated string."
  | .unterminatedComment => "Unterminated comment."
  | .beforeStart => "Before start"

inductive TokenKind where
  | keyword (k : Keyword)
  | mark (m : Mark)
  | identifier
  | integer
  | string
  | fault
  | endOfInput
  deriving DecidableEq, Repr

/-- The wording of a kind in diagnostics: fixed spellings are quoted. -/
def TokenKind.description : TokenKind → String
  | .keyword k => "'" ++ k.spelling ++ "'"
  | .mark m => "'" ++ m.spelling ++ "'"
  | .identifier => "identifier"
  | .integer => "integer constant"
  | .string => "string constant"
  | .fault => "error"
  | .endOfInput => "end of input"

/-- The terminal's name in a grammar trace. -/
def TokenKind.category : TokenKind → String
  | .keyword _ => "keyword"
  | .mark _ => "symbol"
  | .identifier => "identifier"
  | .integer => "integerConstant"
  | .string => "stringConstant"
  | .fault => "error"
  | .endOfInput => "eof"

def TokenKind.isKeyword : TokenKind → Bool
  | .keyword _ => true
  | _ => false

inductive Lexeme where
  | keyword (k : Keyword)
  | mark (m : Mark)
  | identifier (name : String)
  | integer (digits : String)
  /-- A string constant, without its quotes. -/
  | string (content : String)
  | fault (f : Fault)
  | endOfInput
  deriving DecidableEq, Repr

namespace Lexeme

def kind : Lexeme → TokenKind
  | keyword k => .keyword k
  | mark m => .mark m
  | identifier _ => .identifier
  | integer _ => .integer
  | string _ => .string
  | fault _ => .fault
  | endOfInput => .endOfInput

/-- The source text of a lexeme. A fault has its message, the end of input nothing. -/
def text : Lexeme → String
  | keyword k => k.spelling
  | mark m => m.spelling
  | identifier name => name
  | integer digits => digits
  | string content => "\"" ++ content ++ "\""
  | fault f => f.message
  | endOfInput => ""

/-- The text of a lexeme, a string constant without its quotes. -/
def value : Lexeme → String
  | string content => content
  | other => other.text

end Lexeme

structure Token where
  lexeme : Lexeme
  /-- Counted from one in thirty-two bits. -/
  line : UInt32
  deriving DecidableEq, Repr

namespace Token

def kind (t : Token) : TokenKind :=
  t.lexeme.kind

def text (t : Token) : String :=
  t.lexeme.text

def value (t : Token) : String :=
  t.lexeme.value

end Token

end JackVm

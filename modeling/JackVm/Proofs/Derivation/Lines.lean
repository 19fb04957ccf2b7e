import JackVm.Proofs.Derivation.Grammar
import JackVm.Proofs.Lines
import JackVm.Proofs.Syntax.Terminals

/-!
# Derivations in lines

The text of a derivation has one line for each event of going round it. Reading it back line by line
gives the same tree, whatever stands in the terminals: a line tells by its first character what it
is, a category has no blanks, and the last quote of a line is the one that ends its value.
-/

namespace JackVm

def Production.all : List Production :=
  [.class, .classVarDec, .subroutineDec, .parameterList, .subroutineBody, .varDec, .statements,
    .letStatement, .ifStatement, .whileStatement, .doStatement, .returnStatement,
    .expressionList, .expression, .term]

def Production.ofName? (name : String) : Option Production :=
  Production.all.find? fun p => p.name == name

theorem Production.ofName?_name (p : Production) : Production.ofName? p.name = some p := by
  cases p <;> decide

/-- Two blanks for each production that is open. -/
def indentation (depth : Nat) : List Char :=
  List.replicate (2 * depth) ' '

/-- The line of a terminal without its indentation. -/
def Lexeme.entry (l : Lexeme) : List Char :=
  l.kind.category.toList ++ ' ' :: '\'' :: (l.value.toList ++ ['\''])

namespace Derivation

mutual

/-- The lines of a tree with some productions open around it. -/
def lines (depth : Nat) : Derivation → List (List Char)
  | terminal lexeme => [indentation depth ++ lexeme.entry]
  | node p children =>
    (indentation depth ++ '(' :: p.name.toList) ::
      (linesOf (depth + 1) children ++ [indentation depth ++ [')']])

def linesOf (depth : Nat) : List Derivation → List (List Char)
  | [] => []
  | d :: ds => d.lines depth ++ linesOf depth ds

end

end Derivation

/-! ## Reading lines -/

def Lexeme.ofEntry? (category value : String) : Option Lexeme :=
  match category with
  | "keyword" => (Keyword.ofSpelling? value).map .keyword
  | "symbol" =>
    match value.toList with
    | [c] => (Mark.ofChar? c).map .mark
    | _ => none
  | "identifier" => some (.identifier value)
  | "integerConstant" => some (.integer value)
  | "stringConstant" => some (.string value)
  | _ => none

def TraceEvent.ofEntry? : List Char → Option TraceEvent
  | '(' :: name => some (.opened (String.ofList name))
  | [')'] => some .closed
  | entry =>
    match entry.dropWhile (· != ' ') with
    | ' ' :: '\'' :: rest =>
      (Lexeme.ofEntry? (String.ofList (entry.takeWhile (· != ' ')))
        (String.ofList rest.dropLast)).map .terminal
    | _ => none

def TraceEvent.ofLine? (line : List Char) : Option TraceEvent :=
  TraceEvent.ofEntry? (line.dropWhile (· == ' '))

/-- The terminal that a line shows, if it shows one. -/
def Lexeme.ofLine? (line : List Char) : Option Lexeme :=
  match TraceEvent.ofLine? line with
  | some (.terminal lexeme) => some lexeme
  | _ => none

/-- Reads a tree from its lines, given the trees that were read before in the innermost open
production, last one first, and the same for each production around it. -/
def Derivation.ofLines? :
    List Derivation → List (Production × List Derivation) → List (List Char) → Option Derivation
  | [d], [], [] => some d
  | _, _, [] => none
  | now, outer, line :: lines =>
    match TraceEvent.ofLine? line with
    | some (.opened name) =>
      match Production.ofName? name with
      | some p => ofLines? [] ((p, now) :: outer) lines
      | none => none
    | some .closed =>
      match outer with
      | (p, before) :: outer => ofLines? (.node p now.reverse :: before) outer lines
      | [] => none
    | some (.terminal lexeme) => ofLines? (.terminal lexeme :: now) outer lines
    | none => none

/-- Reads a tree from a text. The last line ends, so nothing stands behind it. -/
def Derivation.ofText? (text : String) : Option Derivation :=
  Derivation.ofLines? [] [] (text.toList.splitOn '\n').dropLast

theorem dropWhile_indentation (depth : Nat) {c : Char} (entry : List Char) (h : c ≠ ' ') :
    (indentation depth ++ c :: entry).dropWhile (· == ' ') = c :: entry := by
  rw [List.dropWhile_append_of_pos]
  · simp [h]
  · intro d hd
    rw [List.eq_of_mem_replicate hd]
    rfl

theorem Lexeme.ofEntry?_category {l : Lexeme} (h : l.isTerminal) :
    Lexeme.ofEntry? l.kind.category l.value = some l := by
  cases l with
  | keyword k =>
    show (Keyword.ofSpelling? k.spelling).map Lexeme.keyword = _
    rw [Keyword.ofSpelling?_eq_some_iff.mpr rfl]
    rfl
  | mark m =>
    show (match (String.singleton m.char).toList with
      | [c] => (Mark.ofChar? c).map Lexeme.mark
      | _ => none) = _
    rw [String.toList_singleton]
    show (Mark.ofChar? m.char).map Lexeme.mark = _
    rw [Mark.ofChar?_eq_some_iff.mpr rfl]
    rfl
  | identifier => rfl
  | integer => rfl
  | string => rfl
  | fault => cases h
  | endOfInput => cases h

theorem TokenKind.isAlpha_category (kind : TokenKind) : ∀ c ∈ kind.category.toList, c.isAlpha := by
  cases kind <;> simp [category]

theorem Lexeme.entry_eq_cons (l : Lexeme) : ∃ c cs, l.entry = c :: cs ∧ c.isAlpha := by
  have letters := l.kind.isAlpha_category
  rw [Lexeme.entry]
  cases category : l.kind.category.toList with
  | nil =>
    exfalso
    revert category
    cases l.kind <;> simp only [TokenKind.category] <;> decide
  | cons c cs => exact ⟨c, _, rfl, letters c (category ▸ List.mem_cons_self)⟩

theorem TraceEvent.ofEntry?_entry {l : Lexeme} (h : l.isTerminal) :
    TraceEvent.ofEntry? l.entry = some (.terminal l) := by
  obtain ⟨c, cs, begins, letter⟩ := l.entry_eq_cons
  have blank : ∀ c ∈ l.kind.category.toList, (c != ' ') = true := by
    intro d hd
    rw [bne_iff_ne]
    intro same
    exact absurd (same ▸ l.kind.isAlpha_category d hd) (by decide)
  have category : l.entry.takeWhile (· != ' ') = l.kind.category.toList := by
    rw [Lexeme.entry, List.takeWhile_append_of_pos blank]
    simp
  have value : l.entry.dropWhile (· != ' ') = ' ' :: '\'' :: (l.value.toList ++ ['\'']) := by
    rw [Lexeme.entry, List.dropWhile_append_of_pos blank]
    simp
  unfold TraceEvent.ofEntry?
  split
  · next opened =>
    rw [begins, List.cons.injEq] at opened
    rw [opened.1] at letter
    exact absurd letter (by decide)
  · next closed =>
    rw [begins, List.cons.injEq] at closed
    rw [closed.1] at letter
    exact absurd letter (by decide)
  · rw [category, value]
    simp [Lexeme.ofEntry?_category h]

theorem TraceEvent.ofLine?_entry (depth : Nat) {l : Lexeme} (h : l.isTerminal) :
    TraceEvent.ofLine? (indentation depth ++ l.entry) = some (.terminal l) := by
  obtain ⟨c, cs, begins, letter⟩ := l.entry_eq_cons
  have blank : c ≠ ' ' := by
    intro same
    rw [same] at letter
    exact absurd letter (by decide)
  rw [TraceEvent.ofLine?, begins, dropWhile_indentation depth cs blank, ← begins]
  exact TraceEvent.ofEntry?_entry h

theorem TraceEvent.ofLine?_opened (depth : Nat) (p : Production) :
    TraceEvent.ofLine? (indentation depth ++ '(' :: p.name.toList) = some (.opened p.name) := by
  rw [TraceEvent.ofLine?, dropWhile_indentation depth _ (by decide)]
  show some (TraceEvent.opened (String.ofList p.name.toList)) = _
  rw [String.ofList_toList]

theorem TraceEvent.ofLine?_closed (depth : Nat) :
    TraceEvent.ofLine? (indentation depth ++ [')']) = some .closed := by
  rw [TraceEvent.ofLine?, dropWhile_indentation depth _ (by decide)]
  rfl

namespace Derivation

section
variable (depth : Nat) (now : List Derivation) (outer : List (Production × List Derivation))
  (rest : List (List Char))

theorem ofLines?_opened (p : Production) :
    ofLines? now outer ((indentation depth ++ '(' :: p.name.toList) :: rest) =
      ofLines? [] ((p, now) :: outer) rest := by
  rw [ofLines?.eq_def]
  simp only [TraceEvent.ofLine?_opened, Production.ofName?_name]

theorem ofLines?_closed (p : Production) (before : List Derivation) :
    ofLines? now ((p, before) :: outer) ((indentation depth ++ [')']) :: rest) =
      ofLines? (.node p now.reverse :: before) outer rest := by
  simp only [ofLines?, TraceEvent.ofLine?_closed]

theorem ofLines?_terminal {l : Lexeme} (h : l.isTerminal) :
    ofLines? now outer ((indentation depth ++ l.entry) :: rest) =
      ofLines? (.terminal l :: now) outer rest := by
  rw [ofLines?.eq_def]
  simp only [TraceEvent.ofLine?_entry depth h]

end

mutual

/-- Reading the lines of a tree adds the tree to those read before. -/
theorem ofLines?_lines (depth : Nat) (now : List Derivation)
    (outer : List (Production × List Derivation)) (rest : List (List Char)) :
    (d : Derivation) → Terminals d.lexemes →
      ofLines? now outer (d.lines depth ++ rest) = ofLines? (d :: now) outer rest
  | .terminal lexeme => fun terminals => by
    have h : lexeme.isTerminal := (terminals_cons.mp terminals).1
    rw [lines, List.singleton_append, ofLines?_terminal depth now outer rest h]
  | .node p children => fun terminals => by
    have inner := ofLines?_linesOf (depth + 1) [] ((p, now) :: outer)
      ([indentation depth ++ [')']] ++ rest) children terminals
    rw [lines, List.cons_append, List.append_assoc, ofLines?_opened, inner, List.singleton_append,
      ofLines?_closed, List.append_nil, List.reverse_reverse]

theorem ofLines?_linesOf (depth : Nat) (now : List Derivation)
    (outer : List (Production × List Derivation)) (rest : List (List Char)) :
    (ds : List Derivation) → Terminals (lexemesOf ds) →
      ofLines? now outer (linesOf depth ds ++ rest) = ofLines? (ds.reverse ++ now) outer rest
  | [] => fun _ => rfl
  | d :: ds => fun terminals => by
    rw [lexemesOf, terminals_append] at terminals
    rw [linesOf, List.append_assoc, ofLines?_lines depth now outer _ d terminals.1,
      ofLines?_linesOf depth (d :: now) outer rest ds terminals.2, List.reverse_cons,
      List.append_assoc, List.singleton_append]

end

mutual

theorem filterMap_lines (depth : Nat) :
    (d : Derivation) → Terminals d.lexemes →
      (d.lines depth).filterMap Lexeme.ofLine? = d.lexemes
  | .terminal lexeme => fun terminals => by
    have h : lexeme.isTerminal := (terminals_cons.mp terminals).1
    simp [lines, lexemes, Lexeme.ofLine?, TraceEvent.ofLine?_entry depth h]
  | .node p children => fun terminals => by
    have inner := filterMap_linesOf (depth + 1) children terminals
    simp [lines, lexemes, Lexeme.ofLine?, TraceEvent.ofLine?_opened, TraceEvent.ofLine?_closed,
      inner]

theorem filterMap_linesOf (depth : Nat) :
    (ds : List Derivation) → Terminals (lexemesOf ds) →
      (linesOf depth ds).filterMap Lexeme.ofLine? = lexemesOf ds
  | [] => fun _ => rfl
  | d :: ds => fun terminals => by
    rw [lexemesOf, terminals_append] at terminals
    rw [linesOf, List.filterMap_append, filterMap_lines depth d terminals.1,
      filterMap_linesOf depth ds terminals.2, lexemesOf]

end

end Derivation

/-! ## The text of a trace -/

theorem Trace.toList_indent (depth : Nat) : (Trace.indent depth).toList = indentation depth := by
  rw [Trace.indent, indentation, String.pushn_eq_repeat_push]
  generalize 2 * depth = n
  induction n with
  | zero => rfl
  | succ n ih => rw [Nat.repeat, String.toList_push, ih, List.replicate_succ']

namespace Derivation

mutual

theorem toList_write (depth : Nat) (rest : List TraceEvent) :
    (d : Derivation) → (Trace.write depth "" (d.events ++ rest)).toList =
      unlines (d.lines depth) ++ (Trace.write depth "" rest).toList
  | .terminal lexeme => by
    rw [events, List.singleton_append, Trace.write, Trace.write_eq_append]
    simp [lines, unlines, Lexeme.entry, Trace.toList_indent]
  | .node p children => by
    rw [events, List.cons_append, List.append_assoc, Trace.write, Trace.write_eq_append,
      String.toList_append, toList_writeOf (depth + 1) _ children, List.singleton_append,
      Trace.write, Trace.write_eq_append]
    simp [lines, unlines, Trace.toList_indent]

theorem toList_writeOf (depth : Nat) (rest : List TraceEvent) :
    (ds : List Derivation) → (Trace.write depth "" (eventsOf ds ++ rest)).toList =
      unlines (linesOf depth ds) ++ (Trace.write depth "" rest).toList
  | [] => rfl
  | d :: ds => by
    rw [eventsOf, List.append_assoc, toList_write depth _ d, toList_writeOf depth rest ds, linesOf,
      unlines_append, List.append_assoc]

end

theorem newline_not_mem_indented {depth : Nat} {entry : List Char} (h : '\n' ∉ entry) :
    '\n' ∉ indentation depth ++ entry := by
  rw [List.mem_append, not_or]
  exact ⟨fun mem => absurd (List.eq_of_mem_replicate mem) (by decide), h⟩

theorem newline_not_mem_entry {l : Lexeme} (h : '\n' ∉ l.value.toList) : '\n' ∉ l.entry := by
  have category : '\n' ∉ l.kind.category.toList :=
    fun mem => absurd (l.kind.isAlpha_category _ mem) (by decide)
  simp [Lexeme.entry, category, h]

mutual

theorem newline_not_mem_lines (depth : Nat) :
    (d : Derivation) → (∀ l ∈ d.lexemes, '\n' ∉ l.value.toList) →
      ∀ line ∈ d.lines depth, '\n' ∉ line
  | .terminal lexeme => fun values line mem => by
    rw [lines, List.mem_singleton] at mem
    rw [mem]
    exact newline_not_mem_indented (newline_not_mem_entry (values lexeme List.mem_cons_self))
  | .node p children => fun values line mem => by
    have name : '\n' ∉ '(' :: p.name.toList := by cases p <;> decide
    rw [lines, List.mem_cons, List.mem_append, List.mem_singleton] at mem
    rcases mem with opened | inner | closed
    · rw [opened]
      exact newline_not_mem_indented name
    · exact newline_not_mem_linesOf (depth + 1) children values line inner
    · rw [closed]
      exact newline_not_mem_indented (by decide)

theorem newline_not_mem_linesOf (depth : Nat) :
    (ds : List Derivation) → (∀ l ∈ lexemesOf ds, '\n' ∉ l.value.toList) →
      ∀ line ∈ linesOf depth ds, '\n' ∉ line
  | [] => fun _ line mem => nomatch mem
  | d :: ds => fun values line mem => by
    rw [lexemesOf, List.forall_mem_append] at values
    rw [linesOf, List.mem_append] at mem
    cases mem with
    | inl here => exact newline_not_mem_lines depth d values.1 line here
    | inr later => exact newline_not_mem_linesOf depth ds values.2 line later

end

end Derivation

end JackVm

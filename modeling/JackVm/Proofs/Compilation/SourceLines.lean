import JackVm.Proofs.Compilation.Sites
import JackVm.Proofs.Compilation.Units
import JackVm.Proofs.Token.LineNumber

/-!
# Source lines

Each instruction has the line of a token of every construct that it belongs to. Since the lines of
tokens do not decrease, it lies between the first line of the construct and the last. So the lines
of a subroutine lie behind those of the subroutines in front, although the lines of an expression
need not be in order. This is about the lines themselves, of any size. What is recorded of a line
is its last thirty-two bits, which are all of it in any text with fewer lines than that.
-/

namespace JackVm

/-- A lexeme with the number of its line. -/
structure Numbered where
  lexeme : Lexeme
  line : Nat
  deriving DecidableEq, Repr

/-- The lexemes of a text with the numbers of their lines. -/
def numberedLexemes (text : String) : List Numbered :=
  (sourceLexemes text).mapIdx fun n lexeme => ⟨lexeme, lineNumber text n⟩

namespace Numbered

def token (l : Numbered) : Token :=
  ⟨l.lexeme, .ofNat l.line⟩

end Numbered

/-- The row that records what thirty-two bits hold of a line. -/
def Row.recorded (row : Row Nat) : Row UInt32 :=
  ⟨row.instruction, .ofNat row.line⟩

section
variable {text : String}

theorem lexeme_numberedLexemes :
    (numberedLexemes text).map Numbered.lexeme = sourceLexemes text := by
  apply List.ext_getElem
  · simp [numberedLexemes]
  · intro n _ _
    simp [numberedLexemes]

theorem upcoming_eq_numbered :
    (TokenStream.ofString text).upcoming = (numberedLexemes text).map Numbered.token := by
  apply List.ext_getElem
  · simp [numberedLexemes, sourceLexemes]
  · intro n inside _
    have read : (TokenStream.ofString text).upcoming[n]? = _ := Cursor.getElem?_upcoming inside
    rw [List.getElem?_eq_getElem inside, Option.some.injEq] at read
    have line := line_after text n
    rw [← read] at line
    simp [numberedLexemes, sourceLexemes, Numbered.token, ← line]

/-- The line of a place in the window in front of a text, whose first lexeme is at the first. -/
def lineAtPlace (text : String) (place : Nat) : Nat :=
  lineNumber text (place - 1)

theorem lineAtPlace_mono : Monotone (lineAtPlace text) :=
  fun _ _ le => lineNumber_mono (Nat.sub_le_sub_right le 1)

theorem getElem?_line_numbered {place : Nat} (first : 1 ≤ place)
    (last : place ≤ (numberedLexemes text).length) :
    ((numberedLexemes text).map Numbered.line)[place - 1]? = some (lineAtPlace text place) := by
  have inside : place - 1 < (sourceLexemes text).length := by
    rw [numberedLexemes, List.length_mapIdx] at last
    omega
  rw [List.getElem?_map, numberedLexemes, List.getElem?_mapIdx, List.getElem?_eq_getElem inside]
  rfl

theorem lines_numberedLexemes_sorted :
    (numberedLexemes text).Pairwise fun l m => l.line ≤ m.line := by
  rw [List.pairwise_iff_getElem]
  intro p q _ _ less
  simp only [numberedLexemes, List.getElem_mapIdx]
  exact lineNumber_mono (Nat.le_of_lt less)

/-- A compilation records what thirty-two bits hold of the line of a place. -/
theorem CompilerState.lineAt_start {place : Nat} (first : 1 ≤ place)
    (last : place ≤ (sourceLexemes text).length) :
    (start text false).lineAt place = .ofNat (lineAtPlace text place) := by
  obtain ⟨rest, here⟩ := remaining_start text false
  have line := line_of_remaining here first (by simpa [sourceLexemes] using last)
  have number := getElem?_line_numbered first (by simpa [numberedLexemes] using last)
  rw [List.getElem?_map, Option.map_eq_some_iff] at number
  obtain ⟨l, found, same⟩ := number
  rw [upcoming_eq_numbered, List.map_map, List.getElem?_map, found] at line
  rw [← Option.some.inj line, ← same]
  rfl

end

/-! ## Lines of a construct -/

/-- The lexemes that a construct is spelled with and the rows that it is compiled to. They follow
those of what is compiled in front of the construct. -/
structure Site.Covers (s : Site) (lexemes : List Numbered) (rows : List (Row Nat))
    (own : List Numbered) (block : List (Row Nat)) : Prop where
  lexemes_eq : ∃ before after, lexemes = before ++ own ++ after ∧
    before.map Numbered.lexeme = s.front.lexemes
  spelled : own.map Numbered.lexeme = s.construct.lexemes
  rows_eq : ∃ before after, rows = before ++ block ++ after ∧
    before.map Row.instruction = s.front.code
  written : block.map Row.instruction = s.construct.code

section
variable {s : Site} {whole : Output} {lexemes own : List Numbered} {lineAt : Nat → Nat}
  {rows block : List (Row Nat)}

theorem Site.In.exists_covers (h : s.In whole)
    (spelled : lexemes.map Numbered.lexeme = whole.lexemes) (lineAt : Nat → Nat) :
    ∃ own, s.Covers lexemes (whole.rows lineAt) own
      (s.construct.output.rows fun place => lineAt (s.front.lexemes.length + place)) := by
  obtain ⟨more, hl⟩ := h.begins.lexemes
  rw [← hl, Output.lexemes_append, s.construct.lexemes_output] at spelled
  obtain ⟨ahead, after, rfl, split, -⟩ := List.map_eq_append_iff.mp spelled
  obtain ⟨before, own, rfl, front, self⟩ := List.map_eq_append_iff.mp split
  have aligned : (s.front ++ s.construct.output).Aligned :=
    h.aligned.append s.construct.output_aligned
  obtain ⟨behind, hr⟩ := h.begins.rows lineAt aligned
  rw [Output.rows_append _ h.aligned] at hr
  refine ⟨own, ⟨before, after, rfl, front⟩, self, ⟨_, behind, hr.symm, ?_⟩, ?_⟩
  · exact Output.instruction_rows lineAt h.aligned
  · rw [Output.instruction_rows _ s.construct.output_aligned, s.construct.code_output]

theorem Site.Covers.exists_lexeme
    (h : s.Covers lexemes rows own
      (s.construct.output.rows fun place => lineAt (s.front.lexemes.length + place)))
    (lines : ∀ place, 1 ≤ place → place ≤ lexemes.length →
      (lexemes.map Numbered.line)[place - 1]? = some (lineAt place)) :
    ∀ row ∈ s.construct.output.rows fun place => lineAt (s.front.lexemes.length + place),
      ∃ l ∈ own, row.line = l.line := by
  intro row mem
  obtain ⟨place, anchor, line⟩ := Output.exists_anchor mem
  obtain ⟨before, after, rfl, front⟩ := h.lexemes_eq
  have inside := s.construct.output_anchored place anchor
  have size : before.length = s.front.lexemes.length := by
    rw [← front, List.length_map]
  have length : own.length = s.construct.output.lexemes.length := by
    rw [s.construct.lexemes_output, ← h.spelled, List.length_map]
  have small : place - 1 < own.length := by omega
  have here : (before ++ own ++ after)[before.length + (place - 1)]? = some own[place - 1] := by
    rw [List.append_assoc, List.getElem?_append_right (Nat.le_add_right _ _),
      Nat.add_sub_cancel_left, List.getElem?_append_left small, List.getElem?_eq_getElem small]
  have lexeme := lines (s.front.lexemes.length + place) (by omega)
    (by simp only [List.length_append]; omega)
  rw [← size, Nat.add_sub_assoc (by omega), List.getElem?_map, here, Option.map_some] at lexeme
  refine ⟨own[place - 1], List.getElem_mem small, ?_⟩
  rw [line, ← size, Option.some.inj lexeme]

theorem line_between {first last l : Numbered} (sorted : own.Pairwise fun l m => l.line ≤ m.line)
    (hf : own.head? = some first) (hl : own.getLast? = some last) (mem : l ∈ own) :
    first.line ≤ l.line ∧ l.line ≤ last.line := by
  obtain ⟨rest, rfl⟩ := List.head?_eq_some_iff.mp hf
  constructor
  · rcases List.mem_cons.mp mem with rfl | mem
    · exact Nat.le_refl _
    · exact List.rel_of_pairwise_cons sorted mem
  · obtain ⟨init, split⟩ := List.getLast?_eq_some_iff.mp hl
    rw [split] at sorted mem
    rcases List.mem_append.mp mem with mem | mem
    · exact (List.pairwise_append.mp sorted).2.2 l mem last (List.mem_singleton_self last)
    · rw [List.mem_singleton.mp mem]

/-- The rows of outputs one after the other. Where lines do not decrease, no output has a line above
those of a later one. -/
theorem exists_blocks (os : List Output) (lineAt : Nat → Nat) (mono : Monotone lineAt)
    (aligned : ∀ o ∈ os, o.Aligned) (anchored : ∀ o ∈ os, o.Anchored 0 0) :
    ∃ blocks : List (List (Row Nat)), blocks.flatten = (Output.join os).rows lineAt ∧
      blocks.map (List.map Row.instruction) = os.map Output.code ∧
      blocks.Pairwise fun earlier later =>
        ∀ row ∈ earlier, ∀ row' ∈ later, row.line ≤ row'.line := by
  induction os generalizing lineAt with
  | nil => exact ⟨[], rfl, rfl, .nil⟩
  | cons o os ih =>
    rw [List.forall_mem_cons] at aligned anchored
    obtain ⟨blocks, flat, code, ordered⟩ := ih (fun p => lineAt (o.lexemes.length + p))
      (fun _ _ le => mono (Nat.add_le_add_left le _)) aligned.2 anchored.2
    refine ⟨o.rows lineAt :: blocks, ?_, ?_, .cons ?_ ordered⟩
    · rw [List.flatten_cons, flat, Output.join, Output.rows_append _ aligned.1]
    · rw [List.map_cons, List.map_cons, Output.instruction_rows _ aligned.1, code]
    · intro later hlater row hrow row' hrow'
      have joined : row' ∈ (Output.join os).rows fun p => lineAt (o.lexemes.length + p) :=
        flat ▸ List.mem_flatten.mpr ⟨later, hlater, hrow'⟩
      obtain ⟨p, hp, line⟩ := Output.exists_anchor hrow
      obtain ⟨q, hq, line'⟩ := Output.exists_anchor joined
      have inside := anchored.1 p hp
      rw [line, line']
      exact mono (by omega)

end

/-! ## Compiled code -/

theorem ClassDec.rows_output (c : ClassDec) (lineAt : Nat → Nat) :
    c.output.rows lineAt = (Output.join (c.subroutines.map fun d => d.output c)).rows
      fun place => lineAt (c.opening.lexemes.length + place) := by
  have subroutines : (Output.join (c.subroutines.map fun d => d.output c)).Aligned :=
    Output.aligned_join (List.forall_mem_map.mpr fun d _ => d.output_aligned c)
  have silent : c.opening.code = [] := by
    simp [opening, ClassVarDec.output, List.flatMap_map]
  have none : c.opening.rows lineAt = [] := by
    rw [Output.rows, silent]
    rfl
  show (c.opening ++ Output.join (c.subroutines.map fun d => d.output c) ++
    Output.took (.mark .rightBrace)).rows lineAt = _
  rw [Output.rows_append _ (c.opening_aligned.append subroutines),
    Output.rows_append _ c.opening_aligned, none, List.nil_append]
  exact List.append_nil _

/-- Whether the rows of a class have lines inside their constructs. -/
structure ClassDec.LinesWithin (c : ClassDec) (lexemes : List Numbered) (rows : List (Row Nat)) :
    Prop where
  /-- A row has the line of one of the construct's own lexemes, so both are recorded alike. -/
  constructs : ∀ s ∈ c.sites, ∃ own block first last, s.Covers lexemes rows own block ∧
    own.head? = some first ∧ own.getLast? = some last ∧
    ∀ row ∈ block, (∃ l ∈ own, row.line = l.line) ∧
      first.line ≤ row.line ∧ row.line ≤ last.line
  subroutines : ∃ blocks : List (List (Row Nat)), blocks.flatten = rows ∧
    blocks.map (List.map Row.instruction) = c.subroutines.map (fun d => d.code c) ∧
    blocks.Pairwise fun earlier later => ∀ row ∈ earlier, ∀ row' ∈ later, row.line ≤ row'.line

section
variable {s : Site} {whole : Output} {text : String} {c : ClassDec}

theorem Site.In.exists_lines_within (h : s.In whole)
    (spelled : (numberedLexemes text).map Numbered.lexeme = whole.lexemes) :
    ∃ own block first last,
      s.Covers (numberedLexemes text) (whole.rows (lineAtPlace text)) own block ∧
      own.head? = some first ∧ own.getLast? = some last ∧
      ∀ row ∈ block, (∃ l ∈ own, row.line = l.line) ∧
        first.line ≤ row.line ∧ row.line ≤ last.line := by
  obtain ⟨own, covers⟩ := h.exists_covers spelled (lineAtPlace text)
  have nonempty : own ≠ [] := by
    rintro rfl
    exact s.construct.lexemes_ne_nil covers.spelled.symm
  have lines := covers.exists_lexeme fun place first last => getElem?_line_numbered first last
  obtain ⟨before, after, split, -⟩ := covers.lexemes_eq
  have sorted : own.Pairwise fun l m => l.line ≤ m.line :=
    lines_numberedLexemes_sorted.sublist (List.IsInfix.sublist ⟨before, after, split.symm⟩)
  have first := List.head?_eq_some_head nonempty
  have last := List.getLast?_eq_some_getLast nonempty
  refine ⟨own, _, _, _, covers, first, last, ?_⟩
  intro row hrow
  obtain ⟨l, mem, line⟩ := lines row hrow
  exact ⟨⟨l, mem, line⟩, line ▸ line_between sorted first last mem⟩

theorem ClassDec.exists_subroutine_blocks (c : ClassDec) (text : String) :
    ∃ blocks : List (List (Row Nat)), blocks.flatten = c.output.rows (lineAtPlace text) ∧
      blocks.map (List.map Row.instruction) = c.subroutines.map (fun d => d.code c) ∧
      blocks.Pairwise fun earlier later =>
        ∀ row ∈ earlier, ∀ row' ∈ later, row.line ≤ row'.line := by
  obtain ⟨blocks, flat, written, ordered⟩ := exists_blocks
    (c.subroutines.map fun d => d.output c)
    (fun place => lineAtPlace text (c.opening.lexemes.length + place))
    (fun _ _ le => lineAtPlace_mono (Nat.add_le_add_left le _))
    (List.forall_mem_map.mpr fun d _ => d.output_aligned c)
    (List.forall_mem_map.mpr fun d _ => d.output_anchored c)
  refine ⟨blocks, ?_, ?_, ordered⟩
  · rw [flat, c.rows_output]
  · rw [written, List.map_map]
    exact List.map_congr_left fun d _ => d.code_output c

theorem ClassDec.linesWithin (derives : c.lexemes = sourceLexemes text) :
    c.LinesWithin (numberedLexemes text) (c.output.rows (lineAtPlace text)) := by
  have spelled : (numberedLexemes text).map Numbered.lexeme = c.output.lexemes := by
    rw [c.lexemes_output, derives, lexeme_numberedLexemes]
  exact ⟨fun s hs => (c.sites_placed s hs).exists_lines_within spelled,
    c.exists_subroutine_blocks text⟩

theorem ClassDec.rows_recorded (derives : c.lexemes = sourceLexemes text) :
    c.output.rows (CompilerState.start text false).lineAt =
      (c.output.rows (lineAtPlace text)).map Row.recorded := by
  have recorded : c.output.rows (CompilerState.start text false).lineAt =
      c.output.rows fun place => .ofNat (lineAtPlace text place) := by
    apply Output.rows_congr
    intro place mem
    have inside := c.output_anchored place mem
    rw [c.lexemes_output, derives] at inside
    exact CompilerState.lineAt_start (by omega) (by omega)
  rw [recorded, Output.rows, Output.rows, List.map_zipWith, List.zipWith_map_right,
    List.zipWith_map_right]
  rfl

/-- Thirty-two bits hold the lines of a text with fewer lines than that. -/
theorem ClassDec.toNat_line_recorded (few : text.toUTF8.data.toList.count newline < UInt32.size - 1)
    {row : Row Nat} (h : row ∈ c.output.rows (lineAtPlace text)) :
    row.recorded.line.toNat = row.line := by
  obtain ⟨place, -, line⟩ := Output.exists_anchor h
  rw [Row.recorded, line]
  exact toNat_lineNumber few (place - 1)

end

/-- Whether some code records the lines of rows, and the tokens of a text those of its lexemes. -/
structure Recorded (text : String) (code : Code) (rows : List (Row Nat)) : Prop where
  code_eq : code = .ofRows (rows.map Row.recorded)
  upcoming_eq : (TokenStream.ofString text).upcoming = (numberedLexemes text).map Numbered.token
  /-- Nothing is lost as long as there are not too many lines. -/
  exact : text.toUTF8.data.toList.count newline < UInt32.size - 1 →
    code.lines.map UInt32.toNat = rows.map Row.line ∧
      (TokenStream.ofString text).upcoming.map (fun t => t.line.toNat) =
        (numberedLexemes text).map Numbered.line

theorem Recorded.of_derives {text : String} {code : Code} {c : ClassDec}
    (derives : c.lexemes = sourceLexemes text)
    (written : code = .ofRows (c.output.rows (CompilerState.start text false).lineAt)) :
    Recorded text code (c.output.rows (lineAtPlace text)) where
  code_eq := by rw [written, c.rows_recorded derives]
  upcoming_eq := upcoming_eq_numbered
  exact few := by
    constructor
    · rw [written, c.rows_recorded derives, Code.lines_ofRows, List.map_map, List.map_map]
      exact List.map_congr_left fun row mem => c.toNat_line_recorded few mem
    · rw [upcoming_eq_numbered, List.map_map]
      apply List.map_congr_left
      intro l mem
      obtain ⟨n, _, rfl⟩ := List.mem_mapIdx.mp mem
      exact toNat_lineNumber few n

/-- The operator of a sum stands on a line between those of its operands, and is written last. -/
theorem exists_lines_out_of_order :
    ∃ (source : ByteArray) (code : Code) (text : String) (c : ClassDec) (rows : List (Row Nat)),
      compile source = .ok code ∧ String.fromUTF8? source = some text ∧
      c.lexemes = sourceLexemes text ∧ Recorded text code rows ∧
      ∃ s ∈ c.sites, ∃ env e own block, s.construct = .expression env e ∧
        s.Covers (numberedLexemes text) rows own block ∧ block.map Row.line = [1, 3, 2] := by
  let text := "class A \x7b function int f() \x7b return 1\n+\n2; \x7d \x7d"
  let own : List Numbered := [⟨.integer "1", 1⟩, ⟨.mark .plus, 2⟩, ⟨.integer "2", 3⟩]
  let block : List (Row Nat) :=
    [⟨.push .constant 1, 1⟩, ⟨.push .constant 2, 3⟩, ⟨.arithmetic .add, 2⟩]
  let sum : Expression := .mk (.integer "1") [(.add, .integer "2")]
  let d : SubroutineDec := ⟨.function, some .int, "f", [], [], [.return (some sum)]⟩
  let c : ClassDec := ⟨"A", [], [d]⟩
  let env := d.environment c
  let s : Site :=
    ⟨c.opening ++ d.opening c ++ Output.took (.keyword .return), .expression env sum⟩
  have run : compile text.toUTF8 =
      .ok (.ofRows (c.output.rows (CompilerState.start text false).lineAt)) := by
    rw [compile_ofList]
    decide +kernel
  have lexemes : numberedLexemes text =
      [⟨.keyword .class, 1⟩, ⟨.identifier "A", 1⟩, ⟨.mark .leftBrace, 1⟩, ⟨.keyword .function, 1⟩,
        ⟨.keyword .int, 1⟩, ⟨.identifier "f", 1⟩, ⟨.mark .leftParen, 1⟩, ⟨.mark .rightParen, 1⟩,
        ⟨.mark .leftBrace, 1⟩, ⟨.keyword .return, 1⟩] ++ own ++
      [⟨.mark .semicolon, 3⟩, ⟨.mark .rightBrace, 3⟩, ⟨.mark .rightBrace, 3⟩] := by
    decide +kernel
  have derives : c.lexemes = sourceLexemes text := by
    rw [← lexeme_numberedLexemes, lexemes]
    rfl
  have rows : c.output.rows (lineAtPlace text) =
      [⟨.function "A.f" 0, 1⟩] ++ block ++ [⟨.return, 3⟩] := by
    decide +kernel
  have inside : s ∈ c.sites := .tail _ (.tail _ (.head _))
  refine ⟨_, _, text, c, _, run, fromUTF8?_toUTF8 text, derives, .of_derives derives rfl, s, inside,
    env, sum, own, block, rfl, ?_, rfl⟩
  exact ⟨⟨_, _, lexemes, rfl⟩, rfl, ⟨_, _, rows, rfl⟩, rfl⟩

end JackVm

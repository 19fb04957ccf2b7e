import JackVm.Proofs.Vm.Text

/-!
# Listings

A row of a listing has two columns in front of the instruction. Wide numbers push the rest of a row
to the right, so a column ends where its word ends and not at a fixed place. A bar stands for the
source line of the row above, and the rows are read from the top so that this line is known.
-/

namespace JackVm

/-- A row of a listing as it is written. A bar is no line. -/
structure ListedRow where
  offset : Nat
  line : Option Nat
  text : List Char

/-- Reads the word of a column, and what follows the column. -/
def column? (row : List Char) : Option (String × List Char) :=
  match firstWord (row.dropWhile (· == ' ')) with
  | (word, some rest) => some (word, rest)
  | (_, none) => none

/-- Reads the source line of a row, if it is not that of the row above. -/
def lineShown? (word : String) : Option (Option Nat) :=
  if word = "|" then some none else word.toNat?.map some

def ListedRow.ofLine? (row : List Char) : Option ListedRow := do
  let (offset, row) ← column? row
  let (line, text) ← column? row
  return ⟨← offset.toNat?, ← lineShown? line, text⟩

/-- The source lines of some rows, given that of the row above them. -/
def sourceLines? (above : Option Nat) : List ListedRow → Option (List Nat)
  | [] => some []
  | row :: rows => do
    let line ← row.line.or above
    return line :: (← sourceLines? (some line) rows)

/-! ## Rows -/

theorem column?_padded (width : Nat) (word : String) (nonempty : word ≠ "")
    (h : ' ' ∉ word.toList) (rest : List Char) :
    column? (List.replicate width ' ' ++ (word.toList ++ ' ' :: rest)) = some (word, rest) := by
  have padding : ∀ c ∈ List.replicate width ' ', (c == ' ') = true := by
    intro c hc
    rw [List.eq_of_mem_replicate hc]
    rfl
  have begins : (word.toList ++ ' ' :: rest).dropWhile (· == ' ') = word.toList ++ ' ' :: rest := by
    cases letters : word.toList with
    | nil => exact absurd (String.toList_eq_nil_iff.mp letters) nonempty
    | cons c cs =>
      rw [letters, List.mem_cons, not_or] at h
      rw [List.cons_append, List.dropWhile_cons_of_neg]
      simpa using Ne.symm h.1
  rw [column?, List.dropWhile_append_of_pos padding, begins, firstWord_followed h]

theorem toList_column (n : Nat) :
    (Code.column n).toList = List.replicate (4 - n.repr.toList.length) ' ' ++ n.repr.toList := by
  rw [Code.column, String.toList_ofList, List.leftpad]

theorem column?_column (n : Nat) (rest : List Char) :
    column? ((Code.column n).toList ++ ' ' :: rest) = some (n.repr, rest) := by
  rw [toList_column, List.append_assoc]
  exact column?_padded _ n.repr Nat.repr_ne_empty (not_mem_repr rfl n) rest

theorem not_mem_column {c : Char} (digit : c.isDigit = false) (blank : c ≠ ' ') (n : Nat) :
    c ∉ (Code.column n).toList := by
  rw [toList_column, List.mem_append, not_or]
  exact ⟨fun mem => blank (List.eq_of_mem_replicate mem), not_mem_repr digit n⟩

theorem lineShown?_repr (n : Nat) : lineShown? n.repr = some (some n) := by
  have number : n.repr ≠ "|" := by
    intro bar
    have absent : '|' ∉ n.repr.toList := not_mem_repr rfl n
    rw [bar] at absent
    exact absent (by decide)
  rw [lineShown?, if_neg number, Nat.toNat?_repr]
  rfl

section
variable (offset : Nat) (above : Option UInt32) (row : Row UInt32)

/-- The row of a listing for an instruction, given the source line of the instruction above. -/
def writtenRow : String :=
  Code.column offset ++ " " ++
    (if above = some row.line then "   |" else Code.column row.line.toNat) ++ " " ++
    row.instruction.text

def ListedRow.of : ListedRow where
  offset := offset
  line := if above = some row.line then none else some row.line.toNat
  text := row.instruction.text.toList

theorem toList_writtenRow : (writtenRow offset above row).toList =
    (Code.column offset).toList ++ ' ' :: ((if above = some row.line then "   |" else
      Code.column row.line.toNat).toList ++ ' ' :: row.instruction.text.toList) := by
  simp [writtenRow]

theorem ListedRow.ofLine?_writtenRow :
    ListedRow.ofLine? (writtenRow offset above row).toList = some (.of offset above row) := by
  rw [ListedRow.ofLine?, toList_writtenRow, column?_column]
  by_cases same : above = some row.line
  · have bar : column? ("   |".toList ++ ' ' :: row.instruction.text.toList) =
        some ("|", row.instruction.text.toList) :=
      column?_padded 3 "|" (by decide) (by decide) _
    simp only [same, if_true, bar, Option.bind_eq_bind, Option.bind_some, Nat.toNat?_repr]
    simp [lineShown?, ListedRow.of]
  · simp only [same, if_false, column?_column, Option.bind_eq_bind, Option.bind_some,
      Nat.toNat?_repr, lineShown?_repr]
    simp [ListedRow.of, same]

/-- Wide numbers leave their columns. -/
example : writtenRow 12345 (some 7) ⟨.goto "|", 67890⟩ = "12345 67890 goto |" := by
  decide +kernel

/-- A row has a bar in front of its instruction exactly if it repeats the line above. -/
theorem bar_mem_writtenRow : '|' ∈ (writtenRow offset above row).toList ↔
    above = some row.line ∨ '|' ∈ row.instruction.text.toList := by
  have column (n : Nat) : '|' ∉ (Code.column n).toList := not_mem_column rfl (by decide) n
  rw [toList_writtenRow]
  by_cases same : above = some row.line <;> simp [same, column]

variable {row} in
theorem newline_not_mem_writtenRow (h : row.instruction.OnOneLine) :
    '\n' ∉ (writtenRow offset above row).toList := by
  have column (n : Nat) : '\n' ∉ (Code.column n).toList := not_mem_column rfl (by decide) n
  rw [toList_writtenRow]
  by_cases same : above = some row.line <;> simp [same, column, h.newline_not_mem]

end

/-! ## Listings are read row by row -/

section
variable {α β : Type} (f : Nat → Option UInt32 → Row UInt32 → α)

/-- What is made of rows from some offset on, given the source line above each. -/
def fromTop (offset : Nat) (above : Option UInt32) : List (Row UInt32) → List α
  | [] => []
  | row :: rows => f offset above row :: fromTop (offset + 1) (some row.line) rows

@[simp] theorem length_fromTop (offset : Nat) (above : Option UInt32) (rows : List (Row UInt32)) :
    (fromTop f offset above rows).length = rows.length := by
  induction rows generalizing offset above with
  | nil => rfl
  | cons row rows ih => exact congrArg (· + 1) (ih ..)

theorem getElem?_fromTop (offset : Nat) (above : Option UInt32) (rows : List (Row UInt32))
    (i : Nat) : (fromTop f offset above rows)[i]? =
      rows[i]?.map (f (offset + i) ((above :: rows.map fun row => some row.line)[i]?.join)) := by
  induction rows generalizing offset above i with
  | nil => simp [fromTop]
  | cons row rows ih =>
    cases i with
    | zero => simp [fromTop]
    | succ i => simp [fromTop, ih, Nat.add_assoc, Nat.add_comm 1 i]

theorem mapM_fromTop {f} {g : α → Option β} {k : Nat → Option UInt32 → Row UInt32 → β}
    (h : ∀ offset above row, g (f offset above row) = some (k offset above row))
    (offset : Nat) (above : Option UInt32) (rows : List (Row UInt32)) :
    (fromTop f offset above rows).mapM g = some (fromTop k offset above rows) := by
  induction rows generalizing offset above with
  | nil => rfl
  | cons row rows ih => simp [fromTop, List.mapM_cons, h, ih]

end

theorem sourceLines?_fromTop (offset : Nat) (above : Option UInt32) (rows : List (Row UInt32)) :
    sourceLines? (above.map UInt32.toNat) (fromTop .of offset above rows) =
      some (rows.map fun row => row.line.toNat) := by
  induction rows generalizing offset above with
  | nil => rfl
  | cons row rows ih =>
    have line : (ListedRow.of offset above row).line.or (above.map UInt32.toNat) =
        some row.line.toNat := by
      by_cases same : above = some row.line <;> simp [ListedRow.of, same]
    have below := ih (offset + 1) (some row.line)
    rw [Option.map_some] at below
    simp [fromTop, sourceLines?, line, below]

namespace Code

section
variable (done rows : List (Row UInt32)) (row : Row UInt32)

theorem line?_ofRows (i : Nat) : (ofRows rows).line? i = rows[i]?.map Row.line := by
  rw [line?, ← Array.getElem?_toList, ← List.getElem?_map, ← lines_ofRows]
  rfl

theorem instruction?_ofRows (i : Nat) :
    (ofRows rows).instruction? i = rows[i]?.map Row.instruction := by
  rw [instruction?, ← Array.getElem?_toList, ← List.getElem?_map, ← instructions_ofRows]
  rfl

theorem lineColumn?_ofRows :
    (ofRows (done ++ row :: rows)).lineColumn? done.length =
      some (if done.getLast?.map Row.line = some row.line then "   |"
        else column row.line.toNat) := by
  rcases List.eq_nil_or_concat done with rfl | ⟨front, last, rfl⟩
  · have line : (ofRows (row :: rows)).line? 0 = some row.line := by simp [line?_ofRows]
    simp [lineColumn?, line]
  · have line : (ofRows (front ++ [last] ++ row :: rows)).line? (front.length + 1) =
        some row.line := by
      simp [line?_ofRows]
    have above : (ofRows (front ++ [last] ++ row :: rows)).line? front.length =
        some last.line := by
      simp [line?_ofRows]
    rw [List.concat_eq_append, List.length_append, List.length_singleton, lineColumn?, line,
      List.getLast?_concat]
    simp only [Option.bind_eq_bind, Option.bind_some, above, Option.map_some, Option.some.injEq]
    split <;> rfl

theorem mapM_listingRow? :
    ((rows.map Row.instruction).zipIdx done.length).mapM (fun p =>
      (ofRows (done ++ rows)).listingRow? p.2 p.1) =
      some (fromTop writtenRow done.length (done.getLast?.map Row.line) rows) := by
  induction rows generalizing done with
  | nil => rfl
  | cons row rows ih =>
    have below := ih (done ++ [row])
    rw [List.append_assoc, List.singleton_append, List.length_append, List.length_singleton,
      List.getLast?_concat, Option.map_some] at below
    have here : (ofRows (done ++ row :: rows)).listingRow? done.length row.instruction =
        some (writtenRow done.length (done.getLast?.map Row.line) row) := by
      rw [listingRow?, lineColumn?_ofRows]
      rfl
    rw [List.map_cons, List.zipIdx_cons, List.mapM_cons, here, below]
    rfl

/-- Code that is built by appending has a listing. -/
theorem listing?_ofRows (title : String) : (ofRows rows).listing? title =
    some (String.join ((("== " ++ title ++ " ==") :: fromTop writtenRow 0 none rows).map
      fun row => row ++ "\n")) := by
  have all : ((ofRows rows).instructions.zipIdx.mapM fun p =>
      (ofRows rows).listingRow? p.2 p.1) = some (fromTop writtenRow 0 none rows) := by
    rw [instructions_ofRows]
    exact mapM_listingRow? [] rows
  exact congrArg (Option.bind · fun rows => some (String.join
    ((("== " ++ title ++ " ==") :: rows).map fun row => row ++ "\n"))) all

theorem lineAbove_eq_iff {rows : List (Row UInt32)} {row : Row UInt32} {i : Nat}
    (here : rows[i]? = some row) :
    (none :: rows.map fun row => some row.line)[i]?.join = some row.line ↔
      0 < i ∧ (ofRows rows).line? i = (ofRows rows).line? (i - 1) := by
  cases i with
  | zero => simp
  | succ i =>
    have above : i < rows.length := Nat.lt_of_succ_lt (List.getElem?_eq_some_iff.mp here).1
    simp [line?_ofRows, here, above, eq_comm]

end

theorem newline_not_mem_fromTop {rows : List (Row UInt32)}
    (named : ∀ row ∈ rows, row.instruction.OnOneLine) (offset : Nat) (above : Option UInt32) :
    ∀ written ∈ fromTop writtenRow offset above rows, '\n' ∉ written.toList := by
  induction rows generalizing offset above with
  | nil => exact List.forall_mem_nil _
  | cons row rows ih =>
    rw [List.forall_mem_cons] at named
    intro written mem
    rcases List.mem_cons.mp mem with rfl | mem
    · exact newline_not_mem_writtenRow offset above named.1
    · exact ih named.2 _ _ written mem

/-- Nothing is lost in a listing of code that is built by appending, and no offset leads out of it.
A listing has a title and one row for each instruction, and the rows show the offsets, the texts
and, read from the top, the source lines of the instructions. A bar repeats the line above, unless
it is in the text of the instruction. -/
theorem listing_decodes (built : List (Row UInt32)) (title : String)
    (named : ∀ row ∈ built, row.instruction.OnOneLine) (titled : '\n' ∉ title.toList) :
    ∃ text rows listed,
      (ofRows built).listing? title = some text ∧
      text.toList.splitOn '\n' = ("== " ++ title ++ " ==").toList :: (rows ++ [[]]) ∧
      rows.length = (ofRows built).size ∧ (ofRows built).lines.length = (ofRows built).size ∧
      rows.mapM ListedRow.ofLine? = some listed ∧
      sourceLines? none listed = some ((ofRows built).lines.map UInt32.toNat) ∧
      ∀ i < (ofRows built).size, ∃ row written shown,
        built[i]? = some row ∧ rows[i]? = some written ∧ listed[i]? = some shown ∧
        (ofRows built).instruction? i = some row.instruction ∧
        (ofRows built).line? i = some row.line ∧
        shown.offset = i ∧ shown.text = row.instruction.text.toList ∧
        (shown.line = none ↔ 0 < i ∧ (ofRows built).line? i = (ofRows built).line? (i - 1)) ∧
        ('|' ∈ written ↔ (0 < i ∧ (ofRows built).line? i = (ofRows built).line? (i - 1)) ∨
          '|' ∈ row.instruction.text.toList) := by
  have size : (ofRows built).size = built.length := by
    rw [← length_instructions, instructions_ofRows, List.length_map]
  refine ⟨_, (fromTop writtenRow 0 none built).map String.toList, fromTop .of 0 none built,
    listing?_ofRows built title, ?_, by simp [size], by simp [size], ?_, ?_, ?_⟩
  · have heading : '\n' ∉ ("== " ++ title ++ " ==").toList := by simp [titled]
    have lines : ∀ line ∈ ("== " ++ title ++ " ==") :: fromTop writtenRow 0 none built,
        '\n' ∉ line.toList :=
      List.forall_mem_cons.mpr ⟨heading, newline_not_mem_fromTop named 0 none⟩
    rw [toList_join_lines, splitOn_unlines (List.forall_mem_map.mpr lines)]
    rfl
  · rw [List.mapM_map]
    exact mapM_fromTop (g := ListedRow.ofLine? ∘ String.toList) ListedRow.ofLine?_writtenRow 0 none
      built
  · rw [lines_ofRows, List.map_map]
    exact sourceLines?_fromTop 0 none built
  · intro i small
    obtain ⟨row, here⟩ : ∃ row, built[i]? = some row :=
      ⟨_, List.getElem?_eq_getElem (size ▸ small)⟩
    let above := (none :: built.map fun row => some row.line)[i]?.join
    refine ⟨row, (writtenRow i above row).toList, .of i above row, here, ?_, ?_, ?_, ?_, rfl, rfl,
      ?_, ?_⟩
    · rw [List.getElem?_map, getElem?_fromTop, here, Nat.zero_add]
      rfl
    · rw [getElem?_fromTop, here, Nat.zero_add]
      rfl
    · rw [instruction?_ofRows, here]
      rfl
    · rw [line?_ofRows, here]
      rfl
    · rw [← lineAbove_eq_iff here]
      simp [ListedRow.of, above]
    · rw [← lineAbove_eq_iff here]
      exact bar_mem_writtenRow ..

theorem listing_decodes_wide_lines :
    ∃ (built : List (Row UInt32)) (text : String) (rows : List (List Char))
      (listed : List ListedRow),
      (ofRows built).listing? "P" = some text ∧
      text = "== P ==\n   0 123456 label a|\n   1    | return\n   2    7 goto \n" ∧
      text.toList.splitOn '\n' = "== P ==".toList :: (rows ++ [[]]) ∧ rows.length = 3 ∧
      rows.mapM ListedRow.ofLine? = some listed ∧
      sourceLines? none listed = some [123456, 123456, 7] := by
  let built : List (Row UInt32) := [⟨.label "a|", 123456⟩, ⟨.return, 123456⟩, ⟨.goto "", 7⟩]
  have named : ∀ row ∈ built, row.instruction.OnOneLine := by
    simp [built, Instruction.OnOneLine, Instruction.name?]
  have titled : '\n' ∉ "P".toList := by decide
  obtain ⟨text, rows, listed, made, split, size, -, read, lines, -⟩ :=
    listing_decodes built "P" named titled
  have told : (ofRows built).listing? "P" =
      some "== P ==\n   0 123456 label a|\n   1    | return\n   2    7 goto \n" := by
    decide +kernel
  exact ⟨built, text, rows, listed, made, Option.some.inj (made.symm.trans told), split, size, read,
    lines⟩

/-- A row has a bar although no line is above it, if the bar is in the name of a label. -/
theorem bar_without_line_above :
    ¬ ∀ (built : List (Row UInt32)) (title text : String),
      (∀ row ∈ built, row.instruction.OnOneLine) → '\n' ∉ title.toList →
      (ofRows built).listing? title = some text →
      ∀ i < (ofRows built).size, ∃ written, (text.toList.splitOn '\n')[i + 1]? = some written ∧
        ('|' ∈ written ↔ 0 < i ∧ (ofRows built).line? i = (ofRows built).line? (i - 1)) := by
  intro all
  have told : (ofRows [⟨.label "a|", 1⟩]).listing? "P" = some "== P ==\n   0    1 label a|\n" := by
    decide +kernel
  have named : ∀ row ∈ [(⟨.label "a|", 1⟩ : Row UInt32)], row.instruction.OnOneLine := by
    simp [Instruction.OnOneLine, Instruction.name?]
  obtain ⟨written, row, bar⟩ := all [⟨.label "a|", 1⟩] "P" _ named (by decide) told 0 (by decide)
  have shown : ("== P ==\n   0    1 label a|\n".toList.splitOn '\n')[1]? =
      some "   0    1 label a|".toList := by
    decide +kernel
  rw [Nat.zero_add, shown] at row
  rw [← Option.some.inj row] at bar
  exact absurd (bar.mp (by decide)).1 (Nat.lt_irrefl 0)

end Code

end JackVm

import Mathlib.Data.List.TakeWhile

/-!
# Texts in lines

A text whose lines all end is split into them again. What stands in a line is read word by word.
-/

namespace JackVm

/-- Lines with the end of each. -/
def unlines (lines : List (List Char)) : List Char :=
  lines.flatMap fun line => line ++ ['\n']

@[simp] theorem unlines_append (lines more : List (List Char)) :
    unlines (lines ++ more) = unlines lines ++ unlines more :=
  List.flatMap_append

theorem splitOn_unlines {lines : List (List Char)} (h : ∀ line ∈ lines, '\n' ∉ line) :
    (unlines lines).splitOn '\n' = lines ++ [[]] := by
  induction lines with
  | nil => rfl
  | cons line lines ih =>
    rw [List.forall_mem_cons] at h
    have inside : ∀ c ∈ line, (c == '\n') = false := by
      intro c hc
      rw [beq_eq_false_iff_ne]
      intro same
      exact h.1 (same ▸ hc)
    have first : unlines (line :: lines) = line ++ '\n' :: unlines lines := by
      simp [unlines]
    rw [first, List.splitOn, List.splitOnP_append_cons_of_forall_mem inside '\n' rfl]
    exact congrArg (line :: ·) (ih h.2)

theorem toList_join_lines (lines : List String) :
    (String.join (lines.map fun line => line ++ "\n")).toList =
      unlines (lines.map String.toList) := by
  simp [unlines, List.flatMap_map]

/-- The lines of a text. The last one ends, so nothing stands behind it. -/
def linesIn (text : String) : List (List Char) :=
  (text.toList.splitOn '\n').dropLast

theorem linesIn_join (lines : List String) (h : ∀ line ∈ lines, '\n' ∉ line.toList) :
    linesIn (String.join (lines.map fun line => line ++ "\n")) = lines.map String.toList := by
  rw [linesIn, toList_join_lines, splitOn_unlines (List.forall_mem_map.mpr h),
    List.dropLast_concat]

/-- The first word of a line, and what follows the blank behind it if there is one. -/
def firstWord (line : List Char) : String × Option (List Char) :=
  (String.ofList (line.takeWhile (· != ' ')), (line.dropWhile (· != ' ')).tail?)

section
variable {word : String}

theorem firstWord_alone (h : ' ' ∉ word.toList) : firstWord word.toList = (word, none) := by
  have blank : ∀ c ∈ word.toList, (c != ' ') = true :=
    fun c hc => bne_iff_ne.mpr fun same => h (same ▸ hc)
  rw [firstWord, List.takeWhile_eq_self_iff.mpr blank, List.dropWhile_eq_nil_iff.mpr blank,
    String.ofList_toList]
  rfl

theorem firstWord_followed (h : ' ' ∉ word.toList) (rest : List Char) :
    firstWord (word.toList ++ ' ' :: rest) = (word, some rest) := by
  have blank : ∀ c ∈ word.toList, (c != ' ') = true :=
    fun c hc => bne_iff_ne.mpr fun same => h (same ▸ hc)
  rw [firstWord, List.takeWhile_append_of_pos blank, List.dropWhile_append_of_pos blank]
  simp

end

theorem isDigit_of_mem_repr {n : Nat} {c : Char} (h : c ∈ n.repr.toList) : c.isDigit := by
  rw [Nat.toList_repr] at h
  exact Nat.isDigit_of_mem_toDigits (by decide) (by decide) h

theorem not_mem_repr {c : Char} (h : c.isDigit = false) (n : Nat) : c ∉ n.repr.toList := by
  intro mem
  exact absurd (isDigit_of_mem_repr mem) (h ▸ Bool.false_ne_true)

end JackVm

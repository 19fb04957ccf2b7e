import JackVm.Token.Cursor
import Mathlib.Logic.Equiv.Basic

/-!
# Identifiers and their renaming

An identifier is a word that is not reserved. A renaming gives each identifier another one, keeps
different ones apart and leaves alone the names that the compiler itself calls. It extends to all
texts, of which it moves only the identifiers.
-/

namespace JackVm

/-- Identifiers and keywords are words. What a word lacks above all is a dot. -/
def IsWord (text : String) : Prop :=
  ∀ c ∈ text.toList, isWordPart c

theorem IsWord.dot_not_mem {text : String} (h : IsWord text) : '.' ∉ text.toList := by
  intro dot
  exact absurd (h '.' dot) (by decide)

theorem isWord_spelling (k : Keyword) : IsWord k.spelling := by
  have parts : k.spelling.toList.all isWordPart := by cases k <;> decide
  exact List.all_eq_true.mp parts

/-- Whether a text is a word that is no keyword. -/
def isIdentifier (text : String) : Bool :=
  match text.toList with
  | [] => false
  | c :: cs => isWordStart c && cs.all isWordPart && (Keyword.ofSpelling? text).isNone

def Identifier : Type :=
  { text : String // isIdentifier text }

instance : DecidableEq Identifier :=
  inferInstanceAs (DecidableEq { text : String // isIdentifier text })

theorem ofSpelling?_of_isIdentifier {text : String} (h : isIdentifier text) :
    Keyword.ofSpelling? text = none := by
  unfold isIdentifier at h
  split at h
  · cases h
  · simp only [Bool.and_eq_true, Option.isNone_iff_eq_none] at h
    exact h.2

theorem isIdentifier_spelling (k : Keyword) : isIdentifier k.spelling = false := by
  cases k <;> decide

theorem isWord_of_isIdentifier {text : String} (h : isIdentifier text) : IsWord text := by
  unfold isIdentifier at h
  split at h
  · cases h
  · next c cs letters =>
    simp only [Bool.and_eq_true, List.all_eq_true] at h
    have first : isWordPart c := by simp [isWordPart, h.1.1]
    rw [IsWord, letters]
    exact List.forall_mem_cons.mpr ⟨first, h.1.2⟩

theorem isIdentifier_ofList {c : Char} {cs : List Char} (start : isWordStart c)
    (parts : ∀ d ∈ cs, isWordPart d)
    (unreserved : Keyword.ofSpelling? (String.ofList (c :: cs)) = none) :
    isIdentifier (String.ofList (c :: cs)) := by
  unfold isIdentifier
  rw [unreserved, String.toList_ofList]
  simp only [start, List.all_eq_true.mpr parts, Option.isNone_none, Bool.and_true]

theorem isIdentifier_of_readLexeme {cs : List Char} {name : String}
    (h : (readLexeme cs).lexeme = .identifier name) : isIdentifier name := by
  cases cs with
  | nil => cases h
  | cons c cs =>
    rw [readLexeme] at h
    split at h
    · cases h
    · split at h
      · unfold readString at h
        split at h <;> cases h
      · split at h
        · cases h
        · split at h
          · next start =>
            simp only [Lexeme.ofWord, Keyword.ofWord?_eq_ofSpelling?] at h
            split at h
            · cases h
            · next unreserved =>
              cases h
              exact isIdentifier_ofList start (List.all_eq_true.mp List.all_takeWhile) unreserved
          · cases h

theorem isIdentifier_of_next {c : Cursor} {name : String}
    (h : c.next.1.lexeme = .identifier name) : isIdentifier name := by
  unfold Cursor.next at h
  split at h
  · cases h
  · simp only at h
    split at h
    · cases h
    · exact isIdentifier_of_readLexeme h

/-! ## Renamings -/

/-- The parts of the names of subroutines that the compiler calls unasked. -/
def libraryNames : List String :=
  ["Math", "multiply", "divide", "Memory", "alloc", "String", "new", "appendChar"]

structure Renaming where
  map : Identifier → Identifier
  injective : Function.Injective map
  fixed (x : Identifier) : x.val ∈ libraryNames → map x = x

namespace Renaming

variable (r : Renaming)

def apply (text : String) : String :=
  if h : isIdentifier text then (r.map ⟨text, h⟩).val else text

instance : CoeFun Renaming fun _ => String → String := ⟨apply⟩

def identity : Renaming where
  map := id
  injective := Function.injective_id
  fixed _ _ := rfl

def exchange (x y : Identifier) (hx : x.val ∉ libraryNames) (hy : y.val ∉ libraryNames) :
    Renaming where
  map := Equiv.swap x y
  injective := (Equiv.swap x y).injective
  fixed z hz := by
    apply Equiv.swap_apply_of_ne_of_ne
    · rintro rfl
      exact hx hz
    · rintro rfl
      exact hy hz

@[simp] theorem identity_apply (text : String) : identity text = text := by
  show apply identity text = text
  unfold apply
  split <;> rfl

theorem apply_of_not {text : String} (h : isIdentifier text = false) : r text = text := by
  show apply r text = text
  simp [apply, h]

theorem apply_identifier (x : Identifier) : r x.val = (r.map x).val := by
  show apply r x.val = _
  unfold apply
  rw [dif_pos x.property]
  rfl

theorem isIdentifier_apply (text : String) : isIdentifier (r text) = isIdentifier text := by
  cases h : isIdentifier text with
  | true =>
    rw [r.apply_identifier ⟨text, h⟩]
    exact (r.map ⟨text, h⟩).property
  | false => rw [r.apply_of_not h, h]

theorem apply_injective : Function.Injective r := by
  intro x y same
  have kept := congrArg isIdentifier same
  rw [r.isIdentifier_apply, r.isIdentifier_apply] at kept
  cases h : isIdentifier x with
  | true =>
    rw [r.apply_identifier ⟨x, h⟩, r.apply_identifier ⟨y, kept ▸ h⟩] at same
    exact congrArg Subtype.val (r.injective (Subtype.ext same))
  | false =>
    rw [r.apply_of_not h, r.apply_of_not (kept ▸ h)] at same
    exact same

@[simp] theorem apply_keyword (k : Keyword) : r k.spelling = k.spelling :=
  r.apply_of_not (isIdentifier_spelling k)

theorem apply_library {text : String} (h : text ∈ libraryNames) : r text = text := by
  cases known : isIdentifier text with
  | true =>
    rw [r.apply_identifier ⟨text, known⟩, r.fixed ⟨text, known⟩ h]
  | false => exact r.apply_of_not known

end Renaming

/-- A lexeme with its name changed, if it is an identifier. -/
def Lexeme.rename (r : Renaming) : Lexeme → Lexeme
  | .identifier name => .identifier (r name)
  | other => other

@[simp] theorem Lexeme.kind_rename (r : Renaming) (l : Lexeme) : (l.rename r).kind = l.kind := by
  cases l <;> rfl

@[simp] theorem Lexeme.rename_identity (l : Lexeme) : l.rename .identity = l := by
  cases l <;> simp [rename]

end JackVm

/-!
# Names of files

Paths are texts whose components are divided by slashes. The extension of a name is what follows
its last dot, unless that dot begins the name.
-/

namespace JackVm.CommandLine

/-- Cuts a text at the last occurrence of a character. -/
def cutLast? (c : Char) : List Char → Option (List Char × List Char)
  | [] => none
  | x :: xs =>
    match cutLast? c xs with
    | some (before, after) => some (x :: before, after)
    | none => if x = c then some ([], xs) else none

theorem cutLast?_eq_none_iff {c : Char} {cs : List Char} : cutLast? c cs = none ↔ c ∉ cs := by
  induction cs with
  | nil => simp [cutLast?]
  | cons x xs ih =>
    simp only [cutLast?]
    cases rest : cutLast? c xs with
    | some cut =>
      have : c ∈ xs := Decidable.of_not_not fun absent => by simp [ih.mpr absent] at rest
      simp [this]
    | none =>
      have := ih.mp rest
      by_cases hx : x = c
      · simp [hx]
      · simp [hx, this, Ne.symm hx]

theorem eq_append_of_cutLast? {c : Char} {cs before after : List Char}
    (h : cutLast? c cs = some (before, after)) : cs = before ++ c :: after ∧ c ∉ after := by
  induction cs generalizing before with
  | nil => cases h
  | cons x xs ih =>
    simp only [cutLast?] at h
    split at h
    · next p q hpq =>
      cases h
      obtain ⟨rfl, hc⟩ := ih hpq
      exact ⟨rfl, hc⟩
    · next hxs =>
      split at h
      · next hx =>
        cases h
        exact ⟨by simp [hx], cutLast?_eq_none_iff.mp hxs⟩
      · cases h

def cutExtension? (name : List Char) : Option (List Char × List Char) :=
  match cutLast? '.' name with
  | some ([], _) => none
  | cut => cut

/-- The components of a path, empty ones included. -/
def pathComponents : List Char → List (List Char)
  | [] => [[]]
  | c :: cs =>
    if c = '/' then
      [] :: pathComponents cs
    else
      match pathComponents cs with
      | [] => [[c]]
      | first :: others => (c :: first) :: others

/-- A file name with its extension replaced. A stem of one dot would leave the name of the
directory above, which takes no extension. -/
def replaceExtension (name extension : List Char) : List Char :=
  match cutExtension? name with
  | some (['.'], _) => ['.', '.']
  | some (stem, _) => stem ++ '.' :: extension
  | none => name ++ '.' :: extension

/-- A path with the extension of its last component replaced. -/
def withExtension (path extension : String) : String :=
  match cutLast? '/' path.toList with
  | some (directory, name) =>
    String.ofList (directory ++ '/' :: replaceExtension name extension.toList)
  | none => String.ofList (replaceExtension path.toList extension.toList)

def hasExtension (name extension : String) : Bool :=
  match cutExtension? name.toList with
  | some (_, found) => found == extension.toList
  | none => false

def entryPath (directory name : String) : String :=
  if directory.toList.getLast? = some '/' then
    directory ++ name
  else
    directory ++ "/" ++ name

end JackVm.CommandLine

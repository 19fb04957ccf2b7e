import JackVm.CommandLine.PathName

/-!
# Paths

What is put behind the last slash of a path is its last component, and a new extension changes no
other. Only the last component of a path decides how the path ends.
-/

namespace JackVm.CommandLine

theorem cutLast?_append_cons {c : Char} {after : List Char} (h : c ∉ after) (before : List Char) :
    cutLast? c (before ++ c :: after) = some (before, after) := by
  induction before with
  | nil => simp [cutLast?, cutLast?_eq_none_iff.mpr h]
  | cons x before ih => simp [cutLast?, ih]

theorem cutLast?_eq_some_iff {c : Char} {cs before after : List Char} :
    cutLast? c cs = some (before, after) ↔ cs = before ++ c :: after ∧ c ∉ after := by
  constructor
  · exact eq_append_of_cutLast?
  · intro h
    rw [h.1, cutLast?_append_cons h.2]

theorem cutExtension?_eq_some_iff {name stem extension : List Char} :
    cutExtension? name = some (stem, extension) ↔
      stem ≠ [] ∧ name = stem ++ '.' :: extension ∧ '.' ∉ extension := by
  rw [← cutLast?_eq_some_iff, cutExtension?]
  split
  · next after cut =>
    rw [cut]
    constructor
    · intro h
      cases h
    · intro h
      cases h.2
      exact absurd rfl h.1
  · next cut =>
    constructor
    · intro h
      refine ⟨?_, h⟩
      intro empty
      subst empty
      exact cut _ h
    · exact And.right

/-- A name whose extension is that of sources. A dot that begins a name begins no extension. -/
def IsSourceName (name : String) : Prop :=
  ∃ stem, stem ≠ "" ∧ name = stem ++ ".jack"

theorem hasExtension_iff {name : String} : hasExtension name "jack" ↔ IsSourceName name := by
  have cut (stem : List Char) :
      cutExtension? name.toList = some (stem, ['j', 'a', 'c', 'k']) ↔
        stem ≠ [] ∧ name = String.ofList stem ++ ".jack" := by
    rw [cutExtension?_eq_some_iff, ← String.toList_inj, String.toList_append, String.toList_ofList]
    simp
  constructor
  · intro h
    rw [hasExtension] at h
    split at h
    · next stem extension found =>
      have jack : extension = ['j', 'a', 'c', 'k'] := by simpa using h
      have source := (cut stem).mp (jack ▸ found)
      refine ⟨String.ofList stem, ?_, source.2⟩
      intro empty
      exact source.1 (by simpa using empty)
    · cases h
  · intro h
    obtain ⟨stem, nonempty, source⟩ := h
    have found := (cut stem.toList).mpr ⟨by simpa using nonempty, by simpa using source⟩
    rw [hasExtension, found]
    rfl

/-! ## Components -/

theorem pathComponents_of_notMem {name : List Char} (h : '/' ∉ name) :
    pathComponents name = [name] := by
  induction name with
  | nil => rfl
  | cons c cs ih =>
    rw [List.mem_cons, not_or] at h
    rw [pathComponents, if_neg (Ne.symm h.1), ih h.2]

theorem pathComponents_ne_nil (path : List Char) : pathComponents path ≠ [] := by
  cases path with
  | nil => simp [pathComponents]
  | cons c cs =>
    rw [pathComponents]
    split
    · simp
    · split <;> simp

theorem pathComponents_append {name : List Char} (h : '/' ∉ name) (front : List Char) :
    pathComponents (front ++ '/' :: name) = pathComponents front ++ [name] := by
  induction front with
  | nil => simp [pathComponents, pathComponents_of_notMem h]
  | cons c cs ih =>
    rw [List.cons_append, pathComponents, pathComponents, ih]
    split
    · rfl
    · cases components : pathComponents cs with
      | nil => exact absurd components (pathComponents_ne_nil cs)
      | cons first others => rfl

theorem notMem_of_mem_pathComponents {path name : List Char} (h : name ∈ pathComponents path) :
    '/' ∉ name := by
  induction path generalizing name with
  | nil =>
    rw [pathComponents, List.mem_singleton] at h
    simp [h]
  | cons c cs ih =>
    rw [pathComponents] at h
    split at h
    · cases h with
      | head => simp
      | tail _ h => exact ih h
    · next other =>
      split at h
      · rw [List.mem_singleton] at h
        simp [h, Ne.symm other]
      · next first others components =>
        cases h with
        | head =>
          have plain := ih (components ▸ List.mem_cons_self)
          simp [Ne.symm other, plain]
        | tail _ h => exact ih (components ▸ List.mem_cons_of_mem first h)

def components (path : String) : List String :=
  (pathComponents path.toList).map String.ofList

theorem components_append {name : String} (h : '/' ∉ name.toList) (front : String) :
    components (front ++ "/" ++ name) = components front ++ [name] := by
  have parts : (front ++ "/" ++ name).toList = front.toList ++ '/' :: name.toList := by simp
  rw [components, parts, pathComponents_append h, List.map_append]
  simp [components]

theorem components_of_notMem {name : String} (h : '/' ∉ name.toList) :
    components name = [name] := by
  rw [components, pathComponents_of_notMem h]
  simp

/-- A slash at the end of a directory's path adds an empty component, which leads nowhere else. -/
theorem components_entryPath {name : String} (h : '/' ∉ name.toList) (directory : String) :
    ∃ front, components (entryPath directory name) = front ++ [name] ∧
      (components directory = front ∨ components directory = front ++ [""]) := by
  rw [entryPath]
  by_cases slash : directory.toList.getLast? = some '/'
  · rw [if_pos slash]
    obtain ⟨front, whole⟩ := List.getLast?_eq_some_iff.mp slash
    have parts : directory = String.ofList front ++ "/" ++ "" := by
      rw [← String.toList_inj, whole]
      simp
    refine ⟨components (String.ofList front), ?_, .inr ?_⟩
    · rw [← components_append h, parts, String.append_empty]
    · rw [parts, components_append (by simp)]
  · rw [if_neg slash]
    exact ⟨components directory, components_append h directory, .inl rfl⟩

theorem notMem_replaceExtension {name extension : List Char} (plain : '/' ∉ name)
    (plainExtension : '/' ∉ extension) : '/' ∉ replaceExtension name extension := by
  rw [replaceExtension]
  split
  · simp
  · next stem _ _ cut =>
    have whole := (cutExtension?_eq_some_iff.mp cut).2.1
    rw [whole] at plain
    simp only [List.mem_append, not_or] at plain
    simp [plain.1, plainExtension]
  · simp [plain, plainExtension]

/-! ## Where paths begin -/

theorem head?_entryPath {directory : String} (h : directory ≠ "") (name : String) :
    (entryPath directory name).toList.head? = directory.toList.head? := by
  obtain ⟨c, cs, letters⟩ := List.exists_cons_of_ne_nil (mt String.toList_eq_nil_iff.mp h)
  rw [entryPath]
  split <;> simp [letters]

theorem replaceExtension_ne_nil (name extension : List Char) :
    replaceExtension name extension ≠ [] := by
  rw [replaceExtension]
  split <;> simp

theorem withExtension_ne_empty (path extension : String) : withExtension path extension ≠ "" := by
  rw [ne_eq, ← String.toList_eq_nil_iff, withExtension]
  split <;> simp [replaceExtension_ne_nil]

theorem head?_withExtension {extension : String} (h : '/' ∉ extension.toList) (path : String) :
    (withExtension path extension).toList.head? = some '/' ↔ path.toList.head? = some '/' := by
  rw [withExtension]
  cases cut : cutLast? '/' path.toList with
  | none =>
    have plain := cutLast?_eq_none_iff.mp cut
    have changed := notMem_replaceExtension plain h
    rw [String.toList_ofList]
    constructor
    · intro first
      exact absurd (List.mem_of_mem_head? first) changed
    · intro first
      exact absurd (List.mem_of_mem_head? first) plain
  | some parts =>
    obtain ⟨directory, name⟩ := parts
    dsimp only
    rw [String.toList_ofList, (cutLast?_eq_some_iff.mp cut).1]
    cases directory <;> simp

theorem components_withExtension {extension : String} (h : '/' ∉ extension.toList)
    (path : String) :
    ∃ front name changed, components path = front ++ [name] ∧
      components (withExtension path extension) = front ++ [changed] := by
  rw [withExtension]
  cases cut : cutLast? '/' path.toList with
  | none =>
    have plain := cutLast?_eq_none_iff.mp cut
    refine ⟨[], path, String.ofList (replaceExtension path.toList extension.toList),
      components_of_notMem plain, components_of_notMem ?_⟩
    rw [String.toList_ofList]
    exact notMem_replaceExtension plain h
  | some parts =>
    obtain ⟨directory, name⟩ := parts
    obtain ⟨whole, plain⟩ := cutLast?_eq_some_iff.mp cut
    refine ⟨(pathComponents directory).map String.ofList, String.ofList name,
      String.ofList (replaceExtension name extension.toList), ?_, ?_⟩
    · rw [components, whole, pathComponents_append plain, List.map_append, List.map_singleton]
    · rw [components, String.toList_ofList,
        pathComponents_append (notMem_replaceExtension plain h), List.map_append,
        List.map_singleton]

end JackVm.CommandLine

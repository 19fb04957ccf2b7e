import JackVm.CommandLine.FileTree
import JackVm.Proofs.CommandLine.Collection
import Mathlib.Data.List.Nodup

/-!
# Paths in a tree

Where a path leads depends on the directories of a tree and not on its files. A path next to a file
leads to a directory or to a place that can hold a file, and it does so for as long as only files
are written.
-/

namespace JackVm.CommandLine

namespace Destination

def place : Destination → List String
  | .entry place _ => place
  | .free place => place

/-- The place that a file written there gets. A directory gets none. -/
def receiver? : Destination → Option (List String)
  | .entry place (.file _) => some place
  | .free place => some place
  | .entry _ .directory => none

end Destination

namespace FileTree

variable {t t' : FileTree} {path name : String} {place : List String}

/-- Different entries are at different places, and no name has a slash. -/
structure WellFormed (t : FileTree) : Prop where
  distinct : (t.entries.map Prod.fst).Nodup
  plain : ∀ entry ∈ t.entries, ∀ name ∈ entry.1, '/' ∉ name.toList
  working : ∀ name ∈ t.working, '/' ∉ name.toList

theorem mem_of_find?_eq_some {entry : FileEntry} (h : t.find? (place ++ [name]) = some entry) :
    (place ++ [name], entry) ∈ t.entries := by
  have found : t.entries.lookup (place ++ [name]) = some entry := by
    cases place <;> exact h
  obtain ⟨before, after, split, _⟩ := List.lookup_eq_some_iff.mp found
  rw [split]
  simp

def nameIn (place p : List String) : Option String :=
  match p.getLast? with
  | some name => if p.dropLast = place then some name else none
  | none => none

theorem nameIn_eq_some_iff {p : List String} :
    nameIn place p = some name ↔ p = place ++ [name] := by
  rw [nameIn]
  constructor
  · intro h
    split at h
    · next last found =>
      have parts := List.dropLast_append_getLast? _ found
      split at h
      · next same =>
        cases h
        rw [← same, parts]
      · cases h
    · cases h
  · intro h
    simp [h]

theorem names_eq (t : FileTree) (place : List String) :
    t.names place = (t.entries.map Prod.fst).filterMap (nameIn place) := by
  rw [List.filterMap_map]
  rfl

theorem mem_names_iff : name ∈ t.names place ↔ ∃ entry, (place ++ [name], entry) ∈ t.entries := by
  rw [names_eq, List.mem_filterMap]
  simp [nameIn_eq_some_iff]

theorem WellFormed.nodup_names (wf : t.WellFormed) (place : List String) :
    (t.names place).Nodup := by
  rw [names_eq]
  apply wf.distinct.filterMap
  intro p q name hp hq
  rw [nameIn_eq_some_iff.mp hp, nameIn_eq_some_iff.mp hq]

theorem lookup_filter_ne {q : List String} (h : q ≠ place)
    (entries : List (List String × FileEntry)) :
    (entries.filter (·.1 ≠ place)).lookup q = entries.lookup q := by
  induction entries with
  | nil => rfl
  | cons entry entries ih =>
    by_cases removed : entry.1 = place
    · have other : (q == entry.1) = false := by simpa [removed] using h
      rw [List.filter_cons_of_neg (by simpa using removed), ih, List.lookup_cons, other]
    · rw [List.filter_cons_of_pos (by simpa using removed), List.lookup_cons, List.lookup_cons, ih]

theorem find?_put {entry : FileEntry} (h : place ≠ []) (q : List String) :
    (t.put place entry).find? q = if q = place then some entry else t.find? q := by
  cases q with
  | nil => rw [if_neg (Ne.symm h), find?, find?]
  | cons name q =>
    show ((place, entry) :: t.entries.filter (·.1 ≠ place)).lookup (name :: q) = _
    rw [List.lookup_cons]
    by_cases same : name :: q = place
    · rw [if_pos same, beq_iff_eq.mpr same]
    · rw [if_neg same, beq_eq_false_iff_ne.mpr same, lookup_filter_ne same]
      rfl

theorem WellFormed.put {entry : FileEntry} (wf : t.WellFormed)
    (plain : ∀ name ∈ place, '/' ∉ name.toList) : (t.put place entry).WellFormed where
  distinct := by
    show (place :: (t.entries.filter (·.1 ≠ place)).map Prod.fst).Nodup
    rw [List.nodup_cons]
    constructor
    · simp
    · exact wf.distinct.sublist (List.filter_sublist.map _)
  plain := by
    intro e mem
    cases mem with
    | head => exact plain
    | tail _ mem => exact wf.plain e (List.mem_of_mem_filter mem)
  working := wf.working

/-! ## Following a path -/

theorem ne_empty_of_resolve {d : Destination} (h : t.resolve path = .ok d) : path ≠ "" := by
  intro empty
  rw [resolve, if_pos empty] at h
  cases h

theorem resolve_of_ne_empty (h : path ≠ "") :
    t.resolve path = (components path).foldlM t.step (.entry (t.start path) .directory) :=
  if_neg h

theorem resolve_eq (nonempty : path ≠ "") {front : List String}
    (h : components path = front ++ [name]) :
    t.resolve path = front.foldlM t.step (.entry (t.start path) .directory) >>=
      fun here => t.step here name := by
  rw [resolve_of_ne_empty nonempty, h, List.foldlM_append]
  simp

theorem start_eq {other : String}
    (h : other.toList.head? = some '/' ↔ path.toList.head? = some '/') :
    t.start other = t.start path := by
  rw [start, start]
  simp only [h]

/-- What holds where a path starts and is kept by each step holds where the path leads. -/
theorem resolve_induction {P : Destination → Prop} {d : Destination}
    (root : P (.entry (t.start path) .directory))
    (step : ∀ here name d, P here → '/' ∉ name.toList → t.step here name = .ok d → P d)
    (h : t.resolve path = .ok d) : P d := by
  have plain : ∀ name ∈ components path, '/' ∉ name.toList := by
    intro name mem
    obtain ⟨part, inside, rfl⟩ := List.mem_map.mp mem
    rw [String.toList_ofList]
    exact notMem_of_mem_pathComponents inside
  rw [resolve_of_ne_empty (ne_empty_of_resolve h)] at h
  generalize components path = names at plain h
  generalize Destination.entry (t.start path) .directory = here at root h
  induction names generalizing here with
  | nil =>
    cases h
    exact root
  | cons name names ih =>
    rw [List.foldlM_cons] at h
    cases next : t.step here name with
    | error e =>
      rw [next] at h
      cases h
    | ok there =>
      rw [next] at h
      exact ih (fun other mem => plain other (List.mem_cons_of_mem name mem)) there
        (step here name there root (plain name List.mem_cons_self) next) h

theorem step_empty {here : Destination} (h : t.step here "" = .ok (.entry place .directory)) :
    here = .entry place .directory := by
  cases here with
  | entry p content =>
    cases content with
    | directory =>
      simp only [step] at h
      cases h
      rfl
    | file content => cases h
  | free p => cases h

theorem resolve_entryPath (plain : '/' ∉ name.toList)
    (h : t.resolve path = .ok (.entry place .directory)) :
    t.resolve (entryPath path name) = t.step (.entry place .directory) name := by
  obtain ⟨front, whole, directory⟩ := components_entryPath plain path
  have nonempty := ne_empty_of_resolve h
  have first := head?_entryPath nonempty name
  have other : entryPath path name ≠ "" := by
    intro empty
    rw [empty] at first
    exact nonempty (String.toList_eq_nil_iff.mp (List.head?_eq_none_iff.mp first.symm))
  have begins : t.start (entryPath path name) = t.start path := start_eq (by rw [first])
  rw [resolve_eq other whole, begins]
  cases directory with
  | inl same =>
    rw [resolve_of_ne_empty nonempty] at h
    rw [← same, h]
    rfl
  | inr slash =>
    rw [resolve_eq nonempty slash] at h
    cases start : front.foldlM t.step (.entry (t.start path) .directory) with
    | error e =>
      rw [start] at h
      cases h
    | ok here =>
      rw [start] at h
      rw [step_empty h]
      rfl

def destination (t : FileTree) (place : List String) : Destination :=
  match t.find? place with
  | some content => .entry place content
  | none => .free place

theorem step_of_ne (empty : name ≠ "") (dot : name ≠ ".") (dots : name ≠ "..") :
    t.step (.entry place .directory) name = .ok (t.destination (place ++ [name])) := by
  rw [step, if_neg (by simp [empty, dot]), if_neg dots, destination]
  dsimp only
  cases t.find? (place ++ [name]) <;> rfl

/-- What a step can do. It stays among directories, whatever the tree, or adds a name to one. -/
theorem step_cases {here d : Destination} (h : t.step here name = .ok d) :
    here.receiver? = none ∧
      (d.receiver? = none ∧ d.place ⊆ here.place ∧ (∀ u : FileTree, u.step here name = .ok d) ∨
        ∃ place, here = .entry place .directory ∧ d = t.destination (place ++ [name]) ∧
          ∀ u : FileTree, u.step here name = .ok (u.destination (place ++ [name]))) := by
  cases here with
  | entry place content =>
    cases content with
    | directory =>
      refine ⟨rfl, ?_⟩
      by_cases stays : name = "" ∨ name = "."
      · left
        rw [step, if_pos stays] at h
        cases h
        exact ⟨rfl, List.Subset.refl _, fun u => by rw [step, if_pos stays]⟩
      · by_cases up : name = ".."
        · left
          have kept (u : FileTree) : u.step (.entry place .directory) name =
              .ok (.entry place.dropLast .directory) := by
            rw [step, if_neg stays, if_pos up]
          rw [kept] at h
          cases h
          exact ⟨rfl, List.dropLast_subset place, kept⟩
        · right
          rw [not_or] at stays
          have leads (u : FileTree) : u.step (.entry place .directory) name =
              .ok (u.destination (place ++ [name])) := step_of_ne stays.1 stays.2 up
          rw [leads t] at h
          cases h
          exact ⟨place, rfl, rfl, leads⟩
    | file content => cases h
  | free place => cases h

end FileTree

theorem IsSourceName.length_le {name : String} (h : IsSourceName name) : 5 ≤ name.length := by
  obtain ⟨stem, _, rfl⟩ := h
  rw [String.length_append]
  exact Nat.le_add_left _ _

namespace FileTree

variable {t t' : FileTree} {path name : String} {place : List String}

theorem isFile_iff : t.isFile path ↔ ∃ content, t.read path = .ok content := by
  rw [isFile, read]
  cases t.resolve path with
  | error e => simp
  | ok d =>
    cases d with
    | entry place content => cases content <;> simp
    | free place => simp

theorem read_entryPath (plain : '/' ∉ name.toList) (source : IsSourceName name)
    (h : t.resolve path = .ok (.entry place .directory)) {content : ByteArray} :
    t.read (entryPath path name) = .ok content ↔
      t.find? (place ++ [name]) = some (.file content) := by
  have long := source.length_le
  have other {short : String} (h : short.length < 5) : name ≠ short := by
    intro same
    rw [same] at long
    omega
  rw [read, resolve_entryPath plain h,
    step_of_ne (other (by decide)) (other (by decide)) (other (by decide)), destination]
  cases t.find? (place ++ [name]) with
  | none => simp
  | some entry => cases entry <;> simp

/-! ## The answers of a tree -/

def view (t : FileTree) : View where
  isDirectory := t.isDirectory
  isFile := t.isFile
  entryNames := t.entryNames
  read := t.read

theorem WellFormed.nodup_entryNames (wf : t.WellFormed) (path : String) (names : List String)
    (h : t.view.entryNames path = .ok names) : names.Nodup := by
  change t.entryNames path = .ok names at h
  rw [entryNames] at h
  split at h
  · cases h
    exact wf.nodup_names _
  all_goals cases h

theorem WellFormed.view_of (wf : t.WellFormed) : t.view.Of t where
  isDirectory _ := rfl
  isFile _ := rfl
  entryNames _ := rfl
  read _ := rfl
  nodup := wf.nodup_entryNames

/-- The sources of a directory are the files at places in it. -/
theorem WellFormed.hasSource_iff (wf : t.WellFormed)
    (h : t.resolve path = .ok (.entry place .directory)) :
    t.view.HasSource path name ↔
      IsSourceName name ∧ ∃ content, t.find? (place ++ [name]) = some (.file content) := by
  have listed : (∃ names, t.view.entryNames path = .ok names ∧ name ∈ names) ↔
      ∃ entry, (place ++ [name], entry) ∈ t.entries := by
    have told : t.view.entryNames path = .ok (t.names place) := by
      show t.entryNames path = _
      rw [entryNames, h]
    rw [← mem_names_iff, told]
    simp
  rw [View.HasSource, listed]
  show _ ∧ _ ∧ t.isFile _ = true ↔ _
  rw [isFile_iff]
  have plain {entry : FileEntry} (mem : (place ++ [name], entry) ∈ t.entries) :
      '/' ∉ name.toList := wf.plain _ mem name (by simp)
  constructor
  · intro source
    obtain ⟨⟨entry, mem⟩, source, content, read⟩ := source
    exact ⟨source, content, (read_entryPath (plain mem) source h).mp read⟩
  · intro source
    obtain ⟨source, content, found⟩ := source
    have mem := mem_of_find?_eq_some found
    exact ⟨⟨_, mem⟩, source, content, (read_entryPath (plain mem) source h).mpr found⟩

end FileTree
end JackVm.CommandLine

import JackVm.Proofs.CommandLine.Tree

/-!
# Writing to a tree

A path leads to a directory or to a place that can hold a file. While only files are written, no
directory comes or goes, so it goes on leading there. What is written for a file next to it can be
refused only for a directory that stands in its place.
-/

namespace JackVm.CommandLine

/-- Whether destinations differ at most in the file that is there. -/
def Destination.Agrees (d d' : Destination) : Prop :=
  d = d' ∧ d.receiver? = none ∨ ∃ place, d.receiver? = some place ∧ d'.receiver? = some place

namespace FileTree

variable {t t' : FileTree} {path name : String} {place : List String}

/-- Whether a file written to a path gets to a place. -/
def Receives (t : FileTree) (path : String) (place : List String) : Prop :=
  ∃ d, t.resolve path = .ok d ∧ d.receiver? = some place

theorem isDirectory_iff :
    t.isDirectory path ↔ ∃ d, t.resolve path = .ok d ∧ d.receiver? = none := by
  rw [isDirectory]
  cases t.resolve path with
  | error e => simp
  | ok d =>
    cases d with
    | entry place content => cases content <;> simp [Destination.receiver?]
    | free place => simp [Destination.receiver?]

theorem Receives.unique {p : List String} (h : t.Receives path place) (h' : t.Receives path p) :
    place = p := by
  obtain ⟨d, leads, receives⟩ := h
  obtain ⟨d', leads', receives'⟩ := h'
  cases leads.symm.trans leads'
  exact Option.some.inj (receives.symm.trans receives')

theorem Receives.not_isDirectory (h : t.Receives path place) : t.isDirectory path = false := by
  rw [← Bool.not_eq_true, isDirectory_iff]
  intro directory
  obtain ⟨d, leads, receives⟩ := h
  obtain ⟨d', leads', other⟩ := directory
  cases leads.symm.trans leads'
  rw [receives] at other
  cases other

/-! ## What a write does -/

theorem write_of_receives (h : t.Receives path place) (content : ByteArray) :
    t.write path content = .ok (t.put place (.file content)) := by
  obtain ⟨d, leads, receives⟩ := h
  rw [write, leads]
  cases d with
  | entry p entry =>
    cases entry with
    | directory => cases receives
    | file old =>
      cases receives
      rfl
  | free p =>
    cases receives
    rfl

theorem write_of_isDirectory (h : t.isDirectory path) (content : ByteArray) :
    t.write path content = .error .isADirectory := by
  obtain ⟨d, leads, receives⟩ := isDirectory_iff.mp h
  rw [write, leads]
  cases d with
  | entry p entry =>
    cases entry with
    | directory => rfl
    | file old => cases receives
  | free p => cases receives

theorem write_run_ok {content : ByteArray} (h : t.write path content = .ok t') :
    (FileSystem.write path content : StateM FileTree (Except FileError Unit)) t = (.ok (), t') := by
  simp only [FileSystem.write, h]

theorem write_run_error {content : ByteArray} {e : FileError}
    (h : t.write path content = .error e) :
    (FileSystem.write path content : StateM FileTree (Except FileError Unit)) t =
      (.error e, t) := by
  simp only [FileSystem.write, h]

/-! ## Places that can hold a file -/

theorem place_destination (t : FileTree) (place : List String) :
    (t.destination place).place = place := by
  rw [destination]
  split <;> rfl

theorem receiver?_destination_eq_none (h : t.find? place = some .directory) :
    (t.destination place).receiver? = none := by
  rw [destination, h]
  rfl

theorem receiver?_destination (h : t.find? place ≠ some .directory) :
    (t.destination place).receiver? = some place := by
  rw [destination]
  split
  · next content found =>
    cases content with
    | directory => exact absurd found h
    | file content => rfl
  · rfl

theorem place_eq_of_receiver? {d : Destination} (h : d.receiver? = some place) :
    d.place = place := by
  cases d with
  | entry p content =>
    cases content with
    | directory => cases h
    | file content => exact Option.some.inj h
  | free p => exact Option.some.inj h

theorem exists_step (t : FileTree) (place : List String) (name : String) :
    ∃ d, t.step (.entry place .directory) name = .ok d := by
  rw [step]
  split
  · exact ⟨_, rfl⟩
  · split
    · exact ⟨_, rfl⟩
    · dsimp only
      split <;> exact ⟨_, rfl⟩

theorem Receives.ne_nil (h : t.Receives path place) : place ≠ [] := by
  obtain ⟨d, leads, receives⟩ := h
  revert receives
  apply resolve_induction _ _ leads
  · intro receives
    cases receives
  · intro here name d _ _ step receives
    obtain ⟨_, stays | ⟨p, _, rfl, _⟩⟩ := step_cases step
    · rw [stays.1] at receives
      cases receives
    · rw [← place_eq_of_receiver? receives, place_destination]
      simp

theorem Receives.find?_ne_directory (h : t.Receives path place) :
    t.find? place ≠ some .directory := by
  obtain ⟨d, leads, receives⟩ := h
  revert receives
  apply resolve_induction _ _ leads
  · intro receives
    cases receives
  · intro here name d _ _ step receives
    obtain ⟨_, stays | ⟨p, _, rfl, _⟩⟩ := step_cases step
    · rw [stays.1] at receives
      cases receives
    · intro directory
      rw [← place_eq_of_receiver? receives, place_destination] at directory
      rw [receiver?_destination_eq_none directory] at receives
      cases receives

theorem Receives.plain (wf : t.WellFormed) (h : t.Receives path place) :
    ∀ name ∈ place, '/' ∉ name.toList := by
  obtain ⟨d, leads, receives⟩ := h
  rw [← place_eq_of_receiver? receives]
  apply resolve_induction _ _ leads
  · show ∀ name ∈ t.start path, _
    rw [start]
    split
    · exact List.forall_mem_nil _
    · exact wf.working
  · intro here name d inside plain step
    obtain ⟨_, stays | ⟨p, rfl, rfl, _⟩⟩ := step_cases step
    · exact fun other mem => inside other (stays.2.1 mem)
    · rw [place_destination]
      intro other mem
      cases List.mem_append.mp mem with
      | inl mem => exact inside other mem
      | inr mem => exact List.mem_singleton.mp mem ▸ plain

/-- Next to a file there is a directory or a place that can hold a file. -/
theorem isDirectory_or_receives {extension : String} {content : ByteArray}
    (plain : '/' ∉ extension.toList) (h : t.read path = .ok content) :
    t.isDirectory (withExtension path extension) ∨
      ∃ place, t.Receives (withExtension path extension) place := by
  obtain ⟨front, name, changed, whole, next⟩ := components_withExtension plain path
  have nonempty : path ≠ "" := by
    intro empty
    rw [read, resolve, if_pos empty] at h
    cases h
  have begins : t.start (withExtension path extension) = t.start path :=
    start_eq (head?_withExtension plain path)
  have found : ∃ place, t.resolve path = .ok (.entry place (.file content)) := by
    rw [read] at h
    split at h
    · next place old leads =>
      cases h
      exact ⟨place, leads⟩
    all_goals cases h
  obtain ⟨place, leads⟩ := found
  rw [resolve_eq nonempty whole] at leads
  cases start : front.foldlM t.step (.entry (t.start path) .directory) with
  | error e =>
    rw [start] at leads
    cases leads
  | ok here =>
    rw [start] at leads
    obtain ⟨_, stays | ⟨p, rfl, _⟩⟩ := step_cases leads
    · cases stays.1
    · obtain ⟨d, reached⟩ := t.exists_step p changed
      have target : t.resolve (withExtension path extension) = .ok d := by
        rw [resolve_eq (withExtension_ne_empty path extension) next,
          begins, start]
        exact reached
      cases receives : d.receiver? with
      | none => exact .inl (isDirectory_iff.mpr ⟨d, target, receives⟩)
      | some place => exact .inr ⟨place, d, target, receives⟩

/-! ## Trees with the same directories -/

structure SameDirectories (t t' : FileTree) : Prop where
  working : t.working = t'.working
  directory (place : List String) :
    t.find? place = some .directory ↔ t'.find? place = some .directory

namespace SameDirectories

theorem refl (t : FileTree) : t.SameDirectories t :=
  ⟨rfl, fun _ => Iff.rfl⟩

theorem put {content : ByteArray} (same : t.SameDirectories t')
    (h : t'.find? place ≠ some .directory) (nonempty : place ≠ []) :
    t.SameDirectories (t'.put place (.file content)) where
  working := same.working
  directory p := by
    rw [same.directory p, find?_put nonempty]
    split
    · next there => simp [there, h]
    · rfl

theorem agrees (same : t.SameDirectories t') (place : List String) :
    (t.destination place).Agrees (t'.destination place) := by
  by_cases directory : t.find? place = some .directory
  · left
    refine ⟨?_, receiver?_destination_eq_none directory⟩
    rw [destination, destination, directory, (same.directory place).mp directory]
  · right
    have other := mt (same.directory place).mpr directory
    exact ⟨place, receiver?_destination directory, receiver?_destination other⟩

theorem step {here here' d : Destination} (same : t.SameDirectories t')
    (agrees : here.Agrees here') (h : t.step here name = .ok d) :
    ∃ d', t'.step here' name = .ok d' ∧ d.Agrees d' := by
  obtain ⟨among, leads⟩ := step_cases h
  have equal : here = here' := by
    cases agrees with
    | inl equal => exact equal.1
    | inr receive =>
      obtain ⟨p, receives, _⟩ := receive
      rw [among] at receives
      cases receives
  rw [← equal]
  cases leads with
  | inl stays => exact ⟨d, stays.2.2 t', .inl ⟨rfl, stays.1⟩⟩
  | inr adds =>
    obtain ⟨place, _, rfl, leads⟩ := adds
    exact ⟨_, leads t', same.agrees _⟩

theorem foldlM_step {names : List String} {here here' d : Destination}
    (same : t.SameDirectories t') (agrees : here.Agrees here')
    (h : names.foldlM t.step here = .ok d) :
    ∃ d', names.foldlM t'.step here' = .ok d' ∧ d.Agrees d' := by
  induction names generalizing here here' with
  | nil =>
    cases h
    exact ⟨here', rfl, agrees⟩
  | cons name names ih =>
    rw [List.foldlM_cons] at h
    cases next : t.step here name with
    | error e =>
      rw [next] at h
      cases h
    | ok there =>
      rw [next] at h
      obtain ⟨there', next', agrees'⟩ := same.step agrees next
      rw [List.foldlM_cons, next']
      exact ih agrees' h

theorem resolve {d : Destination} (same : t.SameDirectories t') (h : t.resolve path = .ok d) :
    ∃ d', t'.resolve path = .ok d' ∧ d.Agrees d' := by
  have nonempty := ne_empty_of_resolve h
  have begins : t'.start path = t.start path := by
    rw [start, start, same.working]
  rw [resolve_of_ne_empty nonempty] at h ⊢
  rw [begins]
  exact same.foldlM_step (.inl ⟨rfl, rfl⟩) h

theorem isDirectory (same : t.SameDirectories t') (h : t.isDirectory path) :
    t'.isDirectory path := by
  obtain ⟨d, leads, receives⟩ := isDirectory_iff.mp h
  obtain ⟨d', leads', agrees⟩ := same.resolve leads
  cases agrees with
  | inl equal => exact isDirectory_iff.mpr ⟨d', leads', equal.1 ▸ receives⟩
  | inr receive =>
    obtain ⟨p, other, _⟩ := receive
    rw [receives] at other
    cases other

theorem receives (same : t.SameDirectories t') (h : t.Receives path place) :
    t'.Receives path place := by
  obtain ⟨d, leads, receives⟩ := h
  obtain ⟨d', leads', agrees⟩ := same.resolve leads
  cases agrees with
  | inl equal =>
    rw [equal.2] at receives
    cases receives
  | inr receive =>
    obtain ⟨p, first, second⟩ := receive
    cases first.symm.trans receives
    exact ⟨d', leads', second⟩

end SameDirectories

end FileTree

end JackVm.CommandLine

import JackVm.Proofs.CommandLine.Units

/-!
# Runs over a tree

A run whose sources can all be read handles each of them on its own: what it prints and what the
tree holds at its end follow from the tree at its start, source by source.
-/

namespace JackVm.CommandLine

namespace FileTree

variable {t : FileTree} {path : String} {group : List String}

/-- Whether a path leads to a file or to a directory with at least one source. -/
def Usable (t : FileTree) (path : String) : Prop :=
  (∃ content, t.read path = .ok content) ∨
    ∃ place name content, t.resolve path = .ok (.entry place .directory) ∧ IsSourceName name ∧
      t.find? (place ++ [name]) = some (.file content)

/-- The sources that a path stands for: a file for itself, and a directory for the sources at places
in it, in the byte order of their names. -/
inductive StandsFor (t : FileTree) : String → List String → Prop
  | file {path : String} {content : ByteArray} (h : t.read path = .ok content) :
    StandsFor t path [path]
  | directory {path : String} {place names : List String}
    (h : t.resolve path = .ok (.entry place .directory))
    (sorted : names.Pairwise fun a b => utf8 a.toList < utf8 b.toList)
    (sources : ∀ name, name ∈ names ↔
      IsSourceName name ∧ ∃ content, t.find? (place ++ [name]) = some (.file content))
    (nonempty : names ≠ []) :
    StandsFor t path (names.map (entryPath path))

theorem not_isDirectory_of_read {content : ByteArray} (h : t.read path = .ok content) :
    t.isDirectory path = false := by
  rw [read] at h
  rw [isDirectory]
  split at h
  · next leads => rw [leads]
  all_goals cases h

theorem isDirectory_of_resolve {place : List String}
    (h : t.resolve path = .ok (.entry place .directory)) : t.isDirectory path := by
  rw [isDirectory, h]

theorem StandsFor.readable (wf : t.WellFormed) (h : t.StandsFor path group) :
    ∀ unit ∈ group, ∃ content, t.read unit = .ok content := by
  intro unit mem
  cases h with
  | file read =>
    rw [List.mem_singleton.mp mem]
    exact ⟨_, read⟩
  | directory leads sorted sources nonempty =>
    obtain ⟨name, listed, rfl⟩ := List.mem_map.mp mem
    obtain ⟨source, content, found⟩ := (sources name).mp listed
    have plain := wf.plain _ (mem_of_find?_eq_some found) name (by simp)
    exact ⟨content, (read_entryPath plain source leads).mpr found⟩

theorem Usable.standsFor (wf : t.WellFormed) (usable : t.Usable path)
    (h : t.view.StandsFor path group) : t.StandsFor path group := by
  cases usable with
  | inl file =>
    obtain ⟨content, read⟩ := file
    cases h with
    | single _ => exact .file read
    | directory directory _ _ _ => cases (not_isDirectory_of_read read).symm.trans directory
  | inr directory =>
    obtain ⟨place, name, content, leads, _, _⟩ := directory
    cases h with
    | single file => cases file.symm.trans (isDirectory_of_resolve leads)
    | directory _ sorted sources nonempty =>
      exact .directory leads sorted (fun other => (sources other).trans (wf.hasSource_iff leads))
        nonempty

theorem StandsFor.inView (wf : t.WellFormed) (h : t.StandsFor path group) :
    t.view.StandsFor path group := by
  cases h with
  | file read => exact .single (not_isDirectory_of_read read)
  | directory leads sorted sources nonempty =>
    exact .directory (isDirectory_of_resolve leads) sorted
      (fun name => (sources name).trans (wf.hasSource_iff leads).symm) nonempty

theorem StandsFor.eq_of_sourcesAt (wf : t.WellFormed) (h : t.StandsFor path group)
    {found : List String} (collected : t.view.sourcesAt path = .ok found) : group = found :=
  (h.inView wf).unique (View.sourcesAt_eq_ok (wf.nodup_entryNames path) collected)

theorem not_mute (t : FileTree) (path : String) (e : ListingError) : ¬ t.view.Mute path e := by
  intro mute
  obtain ⟨directory, listed⟩ := mute
  change t.isDirectory path = true at directory
  change t.entryNames path = .error e at listed
  rw [isDirectory] at directory
  rw [entryNames] at listed
  split at directory
  · next leads =>
    rw [leads] at listed
    cases listed
  · cases directory

theorem Usable.not_bare (wf : t.WellFormed) (usable : t.Usable path) : ¬ t.view.Bare path := by
  intro bare
  cases usable with
  | inl file =>
    obtain ⟨content, read⟩ := file
    cases (not_isDirectory_of_read read).symm.trans bare.1
  | inr directory =>
    obtain ⟨place, name, content, leads, source, found⟩ := directory
    exact bare.2.2 name ((wf.hasSource_iff leads).mpr ⟨source, content, found⟩)

theorem exists_readSources (wf : t.WellFormed) {paths : List String}
    (usable : ∀ path ∈ paths, t.Usable path) : ∃ units, t.view.readSources paths = .ok units := by
  cases read : t.view.readSources paths with
  | ok units => exact ⟨units, rfl⟩
  | error failure =>
    have first := View.readSources_eq_error wf.nodup_entryNames read
    generalize failure.message = message at first
    cases first with
    | bare split _ bare => exact absurd bare ((usable _ (by simp [split])).not_bare wf)
    | mute _ _ mute => exact absurd mute (t.not_mute _ _)
    | @unreadable groups before after path error collected split _ unreadable =>
      have listed : path ∈ groups.flatten := by simp [split]
      obtain ⟨group, inside, mem⟩ := List.mem_flatten.mp listed
      obtain ⟨argument, given, stands⟩ := exists_mem_of_forall₂ collected.flip inside
      obtain ⟨content, read⟩ := ((usable argument given).standsFor wf stands).readable wf path mem
      cases read.symm.trans unreadable

end FileTree

namespace Invocation

variable {i : Invocation} {named : Bool} {t : FileTree} {units : List SourceFile}
variable {r r' : Report} {u u' : FileTree}

namespace Runs

theorem output (h : i.Runs named t units r u r' u') :
    ∃ texts, List.Forall₂ i.Prints units texts ∧
      r'.output = r.output ++ String.join texts := by
  induction h with
  | nil r u => exact ⟨[], .nil, by simp⟩
  | cons first _ ih =>
    obtain ⟨text, prints, here⟩ := first.output
    obtain ⟨texts, others, behind⟩ := ih
    refine ⟨text :: texts, .cons prints others, ?_⟩
    rw [behind, here, String.join_cons, String.append_assoc]

theorem errors (h : i.Runs named t units r u r' u') :
    ∃ texts, List.Forall₂ (i.Complains named t) units texts ∧
      r'.errors = r.errors ++ String.join texts := by
  induction h with
  | nil r u => exact ⟨[], .nil, by simp⟩
  | cons first _ ih =>
    obtain ⟨text, complains, here⟩ := first.errors
    obtain ⟨texts, others, behind⟩ := ih
    refine ⟨text :: texts, .cons complains others, ?_⟩
    rw [behind, here, String.join_cons, String.append_assoc]

theorem succeeded (h : i.Runs named t units r u r' u') :
    r'.succeeded ↔ r.succeeded ∧ ∀ unit ∈ units, i.Succeeds t unit := by
  induction h with
  | nil r u => simp
  | cons first _ ih => rw [ih, first.succeeded, List.forall_mem_cons, and_assoc]

theorem untouched (h : i.Runs named t units r u r' u') (printed : i.toStdout) : u' = u := by
  induction h with
  | nil r u => rfl
  | cons first _ ih => rw [ih, first.untouched printed]

theorem frame (h : i.Runs named t units r u r' u') {place : List String}
    (none : ∀ unit ∈ units, ∀ text, ¬ i.Delivers t unit text place) :
    u'.find? place = u.find? place := by
  induction h with
  | nil r u => rfl
  | cons first _ ih =>
    rw [List.forall_mem_cons] at none
    rw [ih none.2, first.frame place none.1]

theorem last (h : i.Runs named t units r u r' u') {before after : List SourceFile}
    {unit : SourceFile} {text : String} {place : List String}
    (split : units = before ++ unit :: after) (delivers : i.Delivers t unit text place)
    (none : ∀ later ∈ after, ∀ other, ¬ i.Delivers t later other place) :
    u'.find? place = some (.file text.toUTF8) := by
  induction before generalizing units r u with
  | nil =>
    cases split
    cases h with
    | cons first others => rw [others.frame none, first.delivered text place delivers]
  | cons _ before ih =>
    cases split
    cases h with
    | cons _ others => exact ih others rfl

theorem wellFormed (h : i.Runs named t units r u r' u') (wf : u.WellFormed) : u'.WellFormed := by
  induction h with
  | nil r u => exact wf
  | cons first _ ih => exact ih first.wellFormed

end Runs

theorem foldlM_runs (readable : ∀ unit ∈ units, t.read unit.path = .ok unit.content)
    (same : t.SameDirectories u) (wf : u.WellFormed) (r : Report) :
    ∃ r' u', (units.foldlM (compileSource i named) r : StateM FileTree Report) u = (r', u') ∧
      i.Runs named t units r u r' u' := by
  induction units generalizing r u with
  | nil => exact ⟨r, u, rfl, .nil r u⟩
  | cons unit units ih =>
    rw [List.forall_mem_cons] at readable
    obtain ⟨r₁, u₁, step, first⟩ := compileSource_handles readable.1 same wf r
    obtain ⟨r', u', run, others⟩ := ih readable.2 first.same first.wellFormed r₁
    refine ⟨r', u', ?_, .cons first others⟩
    rw [List.foldlM_cons, StateM.bind_run step]
    exact run

/-- What a run that starts in a tree makes of its sources. The errors name the sources if there are
several. -/
structure Isolated (i : Invocation) (t : FileTree) (units : List SourceFile) (report : Report)
    (final : FileTree) : Prop where
  output : ∃ texts, List.Forall₂ i.Prints units texts ∧ report.output = String.join texts
  errors : ∃ texts, List.Forall₂ (i.Complains (1 < units.length) t) units texts ∧
    report.errors = String.join texts
  exitCode : report.exitCode = 0 ↔ ∀ unit ∈ units, i.Succeeds t unit
  untouched : i.toStdout → final = t
  /-- Every text has its place, unless a directory stands there. -/
  delivered : ∀ unit ∈ units, ∀ text, i.product.Makes unit.content text → i.toStdout = false →
    t.isDirectory (i.target unit) = false → ∃ place, i.Delivers t unit text place
  frame (place : List String) :
    (∀ unit ∈ units, ∀ text, ¬ i.Delivers t unit text place) → final.find? place = t.find? place
  last (before : List SourceFile) (unit : SourceFile) (after : List SourceFile) (text : String)
    (place : List String) : units = before ++ unit :: after → i.Delivers t unit text place →
    (∀ later ∈ after, ∀ other, ¬ i.Delivers t later other place) →
    final.find? place = some (.file text.toUTF8)
  wellFormed : final.WellFormed

end Invocation

/-- A run over files and over directories with sources handles each source on its own. -/
theorem runs_are_isolated {t : FileTree} (wf : t.WellFormed) (invocation : Invocation)
    (usable : ∀ path ∈ invocation.paths, t.Usable path) :
    ∃ groups units report final,
      List.Forall₂ t.StandsFor invocation.paths groups ∧
      units.map SourceFile.path = groups.flatten ∧
      (∀ unit ∈ units, t.read unit.path = .ok unit.content) ∧
      (runInvocation invocation : StateM FileTree Report) t = (report, final) ∧
      invocation.Isolated t units report final := by
  obtain ⟨units, read⟩ := FileTree.exists_readSources wf usable
  obtain ⟨groups, collected, named, contents⟩ := View.readSources_eq_ok wf.nodup_entryNames read
  have run : ∃ report final,
      (units.foldlM (compileSource invocation (1 < units.length)) {} : StateM FileTree Report) t =
        (report, final) ∧ invocation.Runs (1 < units.length) t units {} t report final :=
    Invocation.foldlM_runs contents (.refl t) wf {}
  obtain ⟨report, final, handled, runs⟩ := run
  refine ⟨groups, units, report, final, ?_, named, contents,
    (wf.view_of.run_ok read).trans handled, ?_⟩
  · apply ((List.forall₂_and_left _ _).mpr ⟨usable, collected⟩).imp
    intro path group stands
    exact stands.1.standsFor wf stands.2
  · exact {
      output := by
        obtain ⟨texts, prints, output⟩ := runs.output
        exact ⟨texts, prints, output.trans String.empty_append⟩
      errors := by
        obtain ⟨texts, complains, errors⟩ := runs.errors
        exact ⟨texts, complains, errors.trans String.empty_append⟩
      exitCode := by
        have succeeded : report.succeeded ↔ ∀ unit ∈ units, invocation.Succeeds t unit := by
          rw [runs.succeeded]
          exact and_iff_right rfl
        rw [← succeeded, Report.exitCode]
        simp
      untouched := runs.untouched
      delivered := fun unit mem text made written free =>
        Invocation.exists_delivers made written (contents unit mem) free
      frame := fun _ => runs.frame
      last := fun _ _ _ _ _ => runs.last
      wellFormed := runs.wellFormed wf }

/-- A tree of two classes and a text that is none, with a directory where the first class is to be
written. -/
def classesAndDirectory : FileTree where
  entries :=
    [(["B.jack"], .file "class".toUTF8), (["A.vm"], .directory),
      (["C.jack"], .file "class C \x7b function int f() \x7b return 7; \x7d \x7d".toUTF8),
      (["A.jack"], .file "class A\x7b\x7d".toUTF8)]

theorem classesAndDirectory_sourcesAt : classesAndDirectory.view.sourcesAt "." =
    .ok ["./A.jack", "./B.jack", "./C.jack"] := by
  have listed : classesAndDirectory.view.entryNames "." =
      .ok ["B.jack", "A.vm", "C.jack", "A.jack"] := by decide +kernel
  have chosen : classesAndDirectory.view.sourceNames "." ["B.jack", "A.vm", "C.jack", "A.jack"] =
      ["B.jack", "C.jack", "A.jack"] := by decide +kernel
  have sorted : (["B.jack", "C.jack", "A.jack"].mergeSort fun a b => decide (a ≤ b)) =
      ["A.jack", "B.jack", "C.jack"] := by
    simp [List.mergeSort, List.MergeSort.Internal.splitInTwo]
  rw [View.sourcesAt, if_pos (by decide +kernel), listed]
  dsimp only
  rw [chosen, sorted]
  decide +kernel

theorem classesAndDirectory_sourcesAt_file :
    classesAndDirectory.view.sourcesAt "C.jack" = .ok ["C.jack"] := by
  decide +kernel

theorem classesAndDirectory_readSources :
    classesAndDirectory.view.readSources ["C.jack", "."] = .ok
      [⟨"C.jack", "class C \x7b function int f() \x7b return 7; \x7d \x7d".toUTF8⟩,
        ⟨"./A.jack", "class A\x7b\x7d".toUTF8⟩, ⟨"./B.jack", "class".toUTF8⟩,
        ⟨"./C.jack", "class C \x7b function int f() \x7b return 7; \x7d \x7d".toUTF8⟩] := by
  simp only [View.readSources, List.mapM_cons, List.mapM_nil, classesAndDirectory_sourcesAt_file,
    classesAndDirectory_sourcesAt]
  rfl

/-- The last class is given twice, for itself and in its directory. -/
theorem runs_are_isolated_repeated :
    ∃ groups units report final,
      List.Forall₂ classesAndDirectory.StandsFor ["C.jack", "."] groups ∧
      units.map SourceFile.path = groups.flatten ∧
      (∀ unit ∈ units, classesAndDirectory.read unit.path = .ok unit.content) ∧
      (runInvocation { paths := ["C.jack", "."] } : StateM FileTree Report) classesAndDirectory =
        (report, final) ∧
      Invocation.Isolated { paths := ["C.jack", "."] } classesAndDirectory units report final ∧
      groups = [["C.jack"], ["./A.jack", "./B.jack", "./C.jack"]] ∧
      report.output = "" ∧
      report.errors = "Error: failed to write ./A.vm: Is a directory (os error 21)\n" ++
        "./B.jack: [line 1] Error at end: Expected identifier\n" ∧
      report.exitCode = 1 ∧
      final.read "C.vm" = .ok "function C.f 0\npush constant 7\nreturn\n".toUTF8 := by
  have wf : classesAndDirectory.WellFormed :=
    ⟨by decide, by simp [classesAndDirectory], by simp [classesAndDirectory]⟩
  have usable : ∀ path ∈ ["C.jack", "."], classesAndDirectory.Usable path := by
    intro path mem
    cases mem with
    | head => exact .inl (FileTree.isFile_iff.mp (by decide +kernel))
    | tail _ mem =>
      cases mem with
      | head => exact .inr ⟨[], "A.jack", _, rfl, ⟨"A", by decide, by decide⟩, rfl⟩
      | tail _ mem => cases mem
  obtain ⟨groups, units, report, final, stands, named, contents, run, isolated⟩ :=
    runs_are_isolated wf { paths := ["C.jack", "."] } usable
  have groups_eq : groups = [["C.jack"], ["./A.jack", "./B.jack", "./C.jack"]] := by
    cases stands with
    | cons first others =>
      cases others with
      | cons second others =>
        cases others
        rw [first.eq_of_sourcesAt wf classesAndDirectory_sourcesAt_file,
          second.eq_of_sourcesAt wf classesAndDirectory_sourcesAt]
  have handled := (wf.view_of.run_ok classesAndDirectory_readSources).symm.trans run
  have reported := congrArg Prod.fst handled
  have left := congrArg Prod.snd handled
  dsimp only at reported left
  refine ⟨groups, units, report, final, stands, named, contents, run, isolated, groups_eq, ?_⟩
  rw [← reported, ← left]
  decide +kernel

end JackVm.CommandLine

import JackVm.Proofs.CommandLine.Isolation

/-!
# Outputs that meet

Sources whose names differ only in their extensions have one output, and a source may have the name
of an output. A run writes over what is there. So when a run has succeeded, a path holds the text of
the last source whose output is there, and what it held before if there is no such source.
-/

namespace JackVm.CommandLine

namespace FileTree

variable {t t' : FileTree} {path other : String} {place : List String} {content : ByteArray}

/-- Whether two paths lead to one place for a file. -/
def Shares (t : FileTree) (path other : String) : Prop :=
  ∃ place, t.Receives path place ∧ t.Receives other place

theorem Receives.resolve (h : t.Receives path place) :
    t.resolve path = .ok (t.destination place) := by
  obtain ⟨d, leads, receives⟩ := h
  have there : d.receiver? = some place → d = t.destination place := by
    apply resolve_induction _ _ leads
    · intro receives
      cases receives
    · intro here name d _ _ step receives
      obtain ⟨_, stays | ⟨p, _, rfl, _⟩⟩ := step_cases step
      · rw [stays.1] at receives
        cases receives
      · rw [← place_eq_of_receiver? receives, place_destination]
  rw [leads, there receives]

theorem Receives.read (h : t.Receives path place) (found : t.find? place = some (.file content)) :
    t.read path = .ok content := by
  rw [FileTree.read, h.resolve, destination, found]

theorem exists_receives_of_read (h : t.read path = .ok content) :
    ∃ place, t.Receives path place ∧ t.find? place = some (.file content) := by
  have file : t.isFile path := isFile_iff.mpr ⟨content, h⟩
  have receives : ∃ place, t.Receives path place := by
    rw [isFile] at file
    split at file
    · next place _ leads => exact ⟨place, _, leads, rfl⟩
    · cases file
  obtain ⟨place, receives⟩ := receives
  refine ⟨place, receives, ?_⟩
  rw [FileTree.read, receives.resolve, destination] at h
  cases found : t.find? place with
  | none =>
    rw [found] at h
    cases h
  | some entry =>
    rw [found] at h
    cases entry with
    | directory => cases h
    | file old => rw [Except.ok.inj h]

end FileTree

namespace Invocation

variable {i : Invocation} {named : Bool} {t : FileTree} {units : List SourceFile}
variable {r r' : Report} {u u' final : FileTree}

theorem Runs.same (h : i.Runs named t units r u r' u') (same : t.SameDirectories u) :
    t.SameDirectories u' := by
  induction h with
  | nil r u => exact same
  | cons first _ ih => exact ih first.same

/-- What a run that has succeeded leaves behind. -/
structure Leaves (i : Invocation) (t : FileTree) (units : List SourceFile) (final : FileTree) :
    Prop where
  /-- The text made of a source is in its output, unless a later source has the same output. -/
  own (before : List SourceFile) (unit : SourceFile) (after : List SourceFile) :
    units = before ++ unit :: after →
      ∃ text, i.product.Makes unit.content text ∧
        ((∀ later ∈ after, ¬ t.Shares (i.target later) (i.target unit)) →
          final.read (i.target unit) = .ok text.toUTF8)
  /-- A source is what it was, unless it is where an output is. -/
  kept (unit : SourceFile) : unit ∈ units →
    (∀ other ∈ units, ¬ t.Shares (i.target other) unit.path) →
      final.read unit.path = .ok unit.content
  /-- Where outputs meet, the last one stays. -/
  replaced (path : String) (before : List SourceFile) (unit : SourceFile)
    (after : List SourceFile) : units = before ++ unit :: after →
      t.Shares (i.target unit) path → (∀ later ∈ after, ¬ t.Shares (i.target later) path) →
        ∃ text, i.product.Makes unit.content text ∧ final.read path = .ok text.toUTF8

namespace Runs

theorem replaced (h : i.Runs named t units r t r' final) {path : String}
    {before after : List SourceFile} {unit : SourceFile} {text : String}
    (written : i.toStdout = false) (split : units = before ++ unit :: after)
    (made : i.product.Makes unit.content text) (shares : t.Shares (i.target unit) path)
    (none : ∀ later ∈ after, ¬ t.Shares (i.target later) path) :
    final.read path = .ok text.toUTF8 := by
  obtain ⟨place, target, leads⟩ := shares
  have found : final.find? place = some (.file text.toUTF8) := by
    apply h.last split ⟨made, written, target⟩
    intro later mem other delivers
    exact none later mem ⟨place, delivers.2.2, leads⟩
  exact ((h.same (.refl t)).receives leads).read found

theorem kept (h : i.Runs named t units r t r' final) {path : String} {content : ByteArray}
    (readable : t.read path = .ok content)
    (none : ∀ unit ∈ units, ¬ t.Shares (i.target unit) path) :
    final.read path = .ok content := by
  obtain ⟨place, leads, found⟩ := FileTree.exists_receives_of_read readable
  have frame : final.find? place = t.find? place := by
    apply h.frame
    intro unit mem text delivers
    exact none unit mem ⟨place, delivers.2.2, leads⟩
  exact ((h.same (.refl t)).receives leads).read (frame.trans found)

theorem leaves (h : i.Runs named t units r t r' final) (written : i.toStdout = false)
    (readable : ∀ unit ∈ units, t.read unit.path = .ok unit.content)
    (succeeded : r'.succeeded) : i.Leaves t units final where
  own before unit after split := by
    have mem : unit ∈ units := by simp [split]
    have succeeds : i.Succeeds t unit := (h.succeeded.mp succeeded).2 unit mem
    obtain ⟨⟨text, made⟩, printed | free⟩ := succeeds
    · cases written.symm.trans printed
    · obtain ⟨place, delivers⟩ := exists_delivers made written (readable unit mem) free
      have itself : t.Shares (i.target unit) (i.target unit) :=
        ⟨place, delivers.2.2, delivers.2.2⟩
      exact ⟨text, made, h.replaced written split made itself⟩
  kept unit mem := h.kept (readable unit mem)
  replaced path before unit after split shares none := by
    have mem : unit ∈ units := by simp [split]
    obtain ⟨text, made⟩ := ((h.succeeded.mp succeeded).2 unit mem).1
    exact ⟨text, made, h.replaced written split made shares none⟩

end Runs

end Invocation

/-- A run that has succeeded has read all of its sources. -/
theorem exists_runs_of_exitCode {t final : FileTree} (wf : t.WellFormed) {invocation : Invocation}
    {report : Report}
    (ran : (runInvocation invocation : StateM FileTree Report) t = (report, final))
    (exit : report.exitCode = 0) :
    ∃ units, t.view.readSources invocation.paths = .ok units ∧
      invocation.Runs (1 < units.length) t units {} t report final := by
  cases read : t.view.readSources invocation.paths with
  | error failure =>
    cases (wf.view_of.run_error read).symm.trans ran
    cases exit
  | ok units =>
    have nodup := wf.nodup_entryNames
    obtain ⟨_, _, _, contents⟩ := View.readSources_eq_ok nodup read
    have run : ∃ r u,
        (units.foldlM (compileSource invocation (1 < units.length)) {} :
          StateM FileTree Report) t = (r, u) ∧
        invocation.Runs (1 < units.length) t units {} t r u :=
      Invocation.foldlM_runs contents (.refl t) wf {}
    obtain ⟨r, u, handled, runs⟩ := run
    cases handled.symm.trans ((wf.view_of.run_ok read).symm.trans ran)
    exact ⟨units, rfl, runs⟩

/-- After a run that has succeeded, each output and each source holds the text of the last source
whose output is there. A source at which there is no output is what it was. -/
theorem last_output_stays {t final : FileTree} (wf : t.WellFormed) {invocation : Invocation}
    {report : Report} (written : invocation.toStdout = false)
    (ran : (runInvocation invocation : StateM FileTree Report) t = (report, final))
    (exit : report.exitCode = 0) :
    ∃ groups units, List.Forall₂ t.view.StandsFor invocation.paths groups ∧
      units.map SourceFile.path = groups.flatten ∧
      (∀ unit ∈ units, t.read unit.path = .ok unit.content) ∧
      invocation.Leaves t units final := by
  obtain ⟨units, read, runs⟩ := exists_runs_of_exitCode wf ran exit
  obtain ⟨groups, collected, named, contents⟩ := View.readSources_eq_ok wf.nodup_entryNames read
  have succeeded : report.succeeded := by
    by_contra failed
    rw [Report.exitCode, if_neg failed] at exit
    cases exit
  exact ⟨groups, units, collected, named, contents, runs.leaves written contents succeeded⟩

/-- A tree of two classes with one stem, and of a class under the name of an output. -/
def meetingOutputs : FileTree where
  entries :=
    [(["A.jack"], .file "class A\x7b\x7d".toUTF8), (["C.vm"], .file "class C\x7b\x7d".toUTF8),
      (["A.txt"], .file "class B\x7b function void f() \x7b return; \x7d \x7d".toUTF8)]

def meetingInvocation : Invocation :=
  { paths := ["A.jack", "A.txt", "C.vm"] }

def metOutputs : FileTree :=
  ((runInvocation meetingInvocation : StateM FileTree Report) meetingOutputs).2

theorem run_meetingOutputs :
    (runInvocation meetingInvocation : StateM FileTree Report) meetingOutputs =
      ({}, metOutputs) := by
  have report : ((runInvocation meetingInvocation : StateM FileTree Report) meetingOutputs).1 =
      {} := by
    decide +kernel
  rw [metOutputs, ← report, Prod.eta]

/-- The output of the second class is where that of the first one was, and that of the third one is
where its source was. -/
theorem last_output_stays_meeting :
    meetingOutputs.WellFormed ∧ meetingInvocation.toStdout = false ∧
    (runInvocation meetingInvocation : StateM FileTree Report) meetingOutputs =
      ({}, metOutputs) ∧
    ({} : Report).exitCode = 0 ∧
    (∃ groups units,
      List.Forall₂ meetingOutputs.view.StandsFor meetingInvocation.paths groups ∧
      units.map SourceFile.path = groups.flatten ∧
      (∀ unit ∈ units, meetingOutputs.read unit.path = .ok unit.content) ∧
      meetingInvocation.Leaves meetingOutputs units metOutputs) ∧
    metOutputs.read "A.vm" = .ok "function B.f 0\npush constant 0\nreturn\n".toUTF8 ∧
    metOutputs.read "C.vm" = .ok "".toUTF8 := by
  have wf : meetingOutputs.WellFormed :=
    ⟨by decide, by simp [meetingOutputs], by simp [meetingOutputs]⟩
  exact ⟨wf, rfl, run_meetingOutputs, rfl, last_output_stays wf rfl run_meetingOutputs rfl,
    by decide +kernel, by decide +kernel⟩

/-- A run may succeed although the output of its first source is lost and its last source is
written over. -/
theorem outputs_may_meet :
    ∃ t final report,
      (runInvocation { paths := ["A.jack", "A.txt", "C.vm"] } : StateM FileTree Report) t =
        (report, final) ∧ report.exitCode = 0 ∧
      (∃ source code, t.read "A.jack" = .ok source ∧ compile source = .ok code ∧
        final.read "A.vm" ≠ .ok code.text.toUTF8) ∧
      ∃ source, t.read "C.vm" = .ok source ∧ final.read "C.vm" ≠ .ok source := by
  refine ⟨meetingOutputs, metOutputs, {}, run_meetingOutputs, rfl, ?_, ?_⟩
  · exact ⟨_, {}, rfl, by decide +kernel, by decide +kernel⟩
  · exact ⟨_, rfl, by decide +kernel⟩

end JackVm.CommandLine

import JackVm.Proofs.CommandLine.Tree

/-!
# Runs that stop before they compile

A run that cannot collect or read all of its sources reports the first failure and does nothing
else, whatever the other sources are.
-/

namespace JackVm.CommandLine

namespace View

variable {v : View} {paths : List String}

def Refuses (v : View) (paths : List String) : Prop :=
  (∃ path ∈ paths, v.Barren path) ∨
    ∃ path ∈ paths, ∃ unit error, v.Collects path unit ∧ v.read unit = .error error

theorem Refuses.readSources_ne_ok
    (nodup : ∀ path names, v.entryNames path = .ok names → names.Nodup)
    (h : v.Refuses paths) (units : List SourceFile) : v.readSources paths ≠ .ok units := by
  intro read
  obtain ⟨groups, collected, named, contents⟩ := readSources_eq_ok nodup read
  cases h with
  | inl barren =>
    obtain ⟨path, mem, barren⟩ := barren
    obtain ⟨group, _, stands⟩ := exists_mem_of_forall₂ collected mem
    exact stands.not_barren barren
  | inr unreadable =>
    obtain ⟨path, mem, unit, error, collects, failed⟩ := unreadable
    obtain ⟨group, inside, stands⟩ := exists_mem_of_forall₂ collected mem
    have listed : unit ∈ groups.flatten :=
      List.mem_flatten.mpr ⟨group, inside, stands.mem_iff.mpr collects⟩
    rw [← named] at listed
    obtain ⟨source, mem, rfl⟩ := List.mem_map.mp listed
    cases (contents source mem).symm.trans failed

end View

/-- A run with a directory without sources or with a path that cannot be read changes nothing and
prints the line of the first failure. There is no other such line. -/
theorem refused_runs_do_nothing {σ : Type} [FileSystem (StateM σ)] {v : View} {s : σ}
    (answers : v.Of s) (invocation : Invocation) (refuses : v.Refuses invocation.paths) :
    ∃ message report, v.FirstFailure invocation.paths message ∧
      (∀ other, v.FirstFailure invocation.paths other → other = message) ∧
      (runInvocation invocation : StateM σ Report) s = (report, s) ∧
      report.output = "" ∧ report.errors = message ++ "\n" ∧ report.exitCode = 1 := by
  cases read : v.readSources invocation.paths with
  | ok units => exact absurd read (refuses.readSources_ne_ok answers.nodup units)
  | error failure =>
    have first := View.readSources_eq_error answers.nodup read
    refine ⟨failure.message, ({} : Report).fail failure.message, first,
      fun _ other => other.unique first, answers.run_error read, rfl, ?_, rfl⟩
    show "" ++ failure.message ++ "\n" = _
    rw [String.empty_append]

def sourceBesideBare : FileTree :=
  { entries := [(["A.jack"], .file .empty), (["d"], .directory)] }

/-- The directory is reported although the missing source stands before it. -/
theorem refused_runs_do_nothing_missing_and_bare :
    ∃ message report,
      sourceBesideBare.view.FirstFailure ["missing.jack", "A.jack", "d"] message ∧
      (∀ other, sourceBesideBare.view.FirstFailure ["missing.jack", "A.jack", "d"] other →
        other = message) ∧
      (runInvocation { paths := ["missing.jack", "A.jack", "d"] } : StateM FileTree Report)
        sourceBesideBare = (report, sourceBesideBare) ∧
      report.output = "" ∧ report.errors = message ++ "\n" ∧ report.exitCode = 1 := by
  have wf : sourceBesideBare.WellFormed :=
    ⟨by decide, by simp [sourceBesideBare], by simp [sourceBesideBare]⟩
  apply refused_runs_do_nothing wf.view_of { paths := ["missing.jack", "A.jack", "d"] }
  left
  have told : sourceBesideBare.view.entryNames "d" = .ok [] := by decide +kernel
  refine ⟨"d", by simp, .inl ⟨by decide +kernel, ⟨[], told⟩, ?_⟩⟩
  intro name source
  obtain ⟨⟨names, listed, mem⟩, _⟩ := source
  cases told.symm.trans listed
  cases mem

end JackVm.CommandLine

import JackVm.Proofs.CommandLine.Writes
import JackVm.Proofs.Compilation.Session

/-!
# One source after another

What a source adds to a report and to the tree depends on its content and on the directories of the
tree, which stay. So it does not matter what the other sources are or what was written before.
-/

namespace JackVm.CommandLine

namespace Product

/-- What is made of a source: the text of its code, or its trace. -/
inductive Makes : Product → ByteArray → String → Prop
  | vm {source : ByteArray} {code : Code} (h : compile source = .ok code) :
    Makes .vm source code.text
  | trace {source : ByteArray} {code : Code} {text : String}
    (h : compileTraced source = .ok (code, text)) : Makes .trace source text

variable {p : Product} {source : ByteArray} {text : String} {e : CompileError}

theorem of_eq_ok_iff : p.of source = .ok text ↔ p.Makes source text := by
  constructor
  · intro h
    cases p with
    | vm =>
      rw [of] at h
      cases run : compile source with
      | error e =>
        rw [run] at h
        cases h
      | ok code =>
        rw [run] at h
        cases h
        exact .vm run
    | trace =>
      rw [of] at h
      cases run : compileTraced source with
      | error e =>
        rw [run] at h
        cases h
      | ok result =>
        rw [run] at h
        cases h
        exact .trace run
  · intro h
    cases h with
    | vm run | trace run =>
      rw [of, run]
      rfl

/-- Whatever is to be made of a source, it is refused as it is compiled. -/
theorem of_eq_error_iff : p.of source = .error e ↔ compile source = .error e := by
  cases p with
  | vm =>
    rw [of]
    cases compile source <;> simp [Except.map]
  | trace =>
    rw [of, compile_eq_compileTraced]
    cases compileTraced source <;> simp [Except.map]

end Product

namespace Invocation

variable (i : Invocation) (named : Bool) (t : FileTree) (unit : SourceFile)

def target : String :=
  withExtension unit.path i.product.extension

/-- What a source adds to the output. -/
inductive Prints : String → Prop
  | text {text : String} (made : i.product.Makes unit.content text) (printed : i.toStdout) :
    Prints text
  | nothing {text : String} (made : i.product.Makes unit.content text)
    (written : i.toStdout = false) : Prints ""
  | refused {e : CompileError} (h : compile unit.content = .error e) : Prints ""

/-- What a source adds to the errors. A write fails only where a directory stands. -/
inductive Complains : String → Prop
  | refused {e : CompileError} (h : compile unit.content = .error e) :
    Complains ((if named then unit.path ++ ": " else "") ++ e.message ++ "\n")
  | unwritable {text : String} (made : i.product.Makes unit.content text)
    (written : i.toStdout = false) (directory : t.isDirectory (i.target unit)) :
    Complains ("Error: failed to write " ++ i.target unit ++ ": Is a directory (os error 21)\n")
  | nothing {text : String} (made : i.product.Makes unit.content text)
    (free : i.toStdout ∨ t.isDirectory (i.target unit) = false) : Complains ""

/-- Whether a source compiles and its text gets to where it belongs. -/
def Succeeds : Prop :=
  (∃ text, i.product.Makes unit.content text) ∧
    (i.toStdout ∨ t.isDirectory (i.target unit) = false)

/-- Whether a text made of a source belongs to a place. -/
def Delivers (text : String) (place : List String) : Prop :=
  i.product.Makes unit.content text ∧ i.toStdout = false ∧ t.Receives (i.target unit) place

/-- What the handling of one source makes of a report and of a tree with the directories of the
first one. -/
structure Handles (r : Report) (u : FileTree) (r' : Report) (u' : FileTree) : Prop where
  output : ∃ text, i.Prints unit text ∧ r'.output = r.output ++ text
  errors : ∃ text, i.Complains named t unit text ∧ r'.errors = r.errors ++ text
  succeeded : r'.succeeded ↔ r.succeeded ∧ i.Succeeds t unit
  untouched : i.toStdout → u' = u
  delivered (text : String) (place : List String) :
    i.Delivers t unit text place → u'.find? place = some (.file text.toUTF8)
  frame (place : List String) :
    (∀ text, ¬ i.Delivers t unit text place) → u'.find? place = u.find? place
  same : t.SameDirectories u'
  wellFormed : u'.WellFormed

/-- The handling of some sources in turn. -/
inductive Runs : List SourceFile → Report → FileTree → Report → FileTree → Prop
  | nil (r : Report) (u : FileTree) : Runs [] r u r u
  | cons {unit : SourceFile} {units : List SourceFile} {r r' r'' : Report} {u u' u'' : FileTree}
    (first : i.Handles named t unit r u r' u') (others : Runs units r' u' r'' u'') :
    Runs (unit :: units) r u r'' u''

variable {i named t unit}
variable {r r' : Report} {u u' : FileTree}

/-! ## One source -/

theorem plain_extension (product : Product) : '/' ∉ product.extension.toList := by
  cases product <;> decide

theorem exists_delivers {text : String} (made : i.product.Makes unit.content text)
    (written : i.toStdout = false) (readable : t.read unit.path = .ok unit.content)
    (free : t.isDirectory (i.target unit) = false) : ∃ place, i.Delivers t unit text place := by
  cases FileTree.isDirectory_or_receives (plain_extension i.product) readable with
  | inl directory =>
    rw [target, directory] at free
    cases free
  | inr receives =>
    obtain ⟨place, receives⟩ := receives
    exact ⟨place, made, written, receives⟩

theorem not_makes {e : CompileError} (h : compile unit.content = .error e) (text : String) :
    ¬ i.product.Makes unit.content text := by
  rw [← Product.of_eq_ok_iff, Product.of_eq_error_iff.mpr h]
  intro same
  cases same

theorem makes_unique {text other : String} (h : i.product.Makes unit.content text)
    (h' : i.product.Makes unit.content other) : text = other := by
  rw [← Product.of_eq_ok_iff] at h h'
  exact Except.ok.inj (h.symm.trans h')

theorem Handles.of_error {e : CompileError} (h : compile unit.content = .error e)
    (same : t.SameDirectories u) (wf : u.WellFormed) :
    i.Handles named t unit r u
      (r.fail (if named then unit.path ++ ": " ++ e.message else e.message)) u where
  output := ⟨"", .refused h, String.append_empty.symm⟩
  errors := by
    refine ⟨_, .refused h, ?_⟩
    show r.errors ++ _ ++ "\n" = _
    cases named <;> simp [String.append_assoc]
  succeeded := by
    simp [Succeeds, not_makes h, Report.fail]
  untouched _ := rfl
  delivered text place delivers := absurd delivers.1 (not_makes h text)
  frame _ _ := rfl
  same := same
  wellFormed := wf

theorem Handles.of_printed {text : String} (made : i.product.Makes unit.content text)
    (printed : i.toStdout) (same : t.SameDirectories u) (wf : u.WellFormed) :
    i.Handles named t unit r u (r.print text) u where
  output := ⟨text, .text made printed, rfl⟩
  errors := ⟨"", .nothing made (.inl printed), String.append_empty.symm⟩
  succeeded := (and_iff_left ⟨⟨text, made⟩, .inl printed⟩).symm
  untouched _ := rfl
  delivered text place delivers := by
    cases printed.symm.trans delivers.2.1
  frame _ _ := rfl
  same := same
  wellFormed := wf

theorem isADirectory_line (path : String) :
    (Failure.unwritable path .isADirectory).message ++ "\n" =
      "Error: failed to write " ++ path ++ ": Is a directory (os error 21)\n" := by
  have ending : ": " ++ ("Is a directory (os error 21)" ++ "\n") =
      ": Is a directory (os error 21)\n" := by decide +kernel
  show "Error: failed to write " ++ path ++ ": " ++ "Is a directory (os error 21)" ++ "\n" = _
  simp only [String.append_assoc]
  rw [ending]

theorem Handles.of_directory {text : String} (made : i.product.Makes unit.content text)
    (written : i.toStdout = false) (directory : t.isDirectory (i.target unit))
    (same : t.SameDirectories u) (wf : u.WellFormed) :
    i.Handles named t unit r u
      (r.fail (Failure.unwritable (i.target unit) .isADirectory).message) u where
  output := ⟨"", .nothing made written, String.append_empty.symm⟩
  errors := by
    refine ⟨_, .unwritable made written directory, ?_⟩
    rw [← isADirectory_line, ← String.append_assoc]
    rfl
  succeeded := by
    simp [Succeeds, written, directory, Report.fail]
  untouched printed := by
    cases written.symm.trans printed
  delivered text place delivers := by
    cases delivers.2.2.not_isDirectory.symm.trans directory
  frame _ _ := rfl
  same := same
  wellFormed := wf

theorem Handles.of_delivers {text : String} {place : List String}
    (h : i.Delivers t unit text place) (same : t.SameDirectories u) (wf : u.WellFormed) :
    i.Handles named t unit r u r (u.put place (.file text.toUTF8)) where
  output := ⟨"", .nothing h.1 h.2.1, String.append_empty.symm⟩
  errors := ⟨"", .nothing h.1 (.inr h.2.2.not_isDirectory), String.append_empty.symm⟩
  succeeded := (and_iff_left ⟨⟨text, h.1⟩, .inr h.2.2.not_isDirectory⟩).symm
  untouched printed := by
    cases h.2.1.symm.trans printed
  delivered other p delivers := by
    rw [makes_unique delivers.1 h.1, FileTree.find?_put h.2.2.ne_nil,
      if_pos (delivers.2.2.unique h.2.2)]
  frame p none := by
    rw [FileTree.find?_put h.2.2.ne_nil, if_neg]
    intro there
    exact none text (there ▸ h)
  same := same.put (same.receives h.2.2).find?_ne_directory h.2.2.ne_nil
  wellFormed := wf.put ((same.receives h.2.2).plain wf)

theorem compileSource_handles (readable : t.read unit.path = .ok unit.content)
    (same : t.SameDirectories u) (wf : u.WellFormed) (r : Report) :
    ∃ r' u', (compileSource i named r unit : StateM FileTree Report) u = (r', u') ∧
      i.Handles named t unit r u r' u' := by
  cases compiled : i.product.of unit.content with
  | error e =>
    refine ⟨_, u, ?_, .of_error (Product.of_eq_error_iff.mp compiled) same wf⟩
    rw [compileSource, compiled]
    rfl
  | ok text =>
    have made := Product.of_eq_ok_iff.mp compiled
    rw [compileSource, compiled]
    show ∃ r' u', (deliver i unit text r : StateM FileTree Report) u = (r', u') ∧ _
    rw [deliver]
    cases written : i.toStdout with
    | true => exact ⟨_, u, rfl, .of_printed made written same wf⟩
    | false =>
      cases directory : t.isDirectory (i.target unit) with
      | true =>
        refine ⟨_, u, ?_, .of_directory made written directory same wf⟩
        exact StateM.bind_run
          (FileTree.write_run_error (FileTree.write_of_isDirectory (same.isDirectory directory) _))
      | false =>
        obtain ⟨place, delivers⟩ := exists_delivers made written readable directory
        refine ⟨r, _, ?_, .of_delivers delivers same wf⟩
        exact StateM.bind_run
          (FileTree.write_run_ok (FileTree.write_of_receives (same.receives delivers.2.2) _))

end Invocation

end JackVm.CommandLine

import JackVm.CommandLine.Run
import JackVm.Proofs.CommandLine.ByteOrder
import JackVm.Proofs.CommandLine.Path
import Mathlib.Data.List.Forall2

/-!
# Collecting and reading sources

Before anything is compiled, a run only asks its file system. What it gets is a function of what the
file system answers: the sources of each argument in turn, or the first failure. A directory without
sources or names is found before any source is read.
-/

namespace JackVm.CommandLine

/-- The answers of a file system as long as nothing is written. -/
structure View where
  isDirectory : String → Bool
  isFile : String → Bool
  entryNames : String → Except ListingError (List String)
  read : String → Except FileError ByteArray

namespace View

/-- Whether a state of a file system gives the answers of a view and does not change by that. A
directory names each of its entries once. -/
structure Of {σ : Type} [FileSystem (StateM σ)] (v : View) (s : σ) : Prop where
  isDirectory (path : String) :
    (FileSystem.isDirectory path : StateM σ Bool) s = (v.isDirectory path, s)
  isFile (path : String) : (FileSystem.isFile path : StateM σ Bool) s = (v.isFile path, s)
  entryNames (path : String) :
    (FileSystem.entryNames path : StateM σ (Except ListingError (List String))) s =
      (v.entryNames path, s)
  read (path : String) :
    (FileSystem.read path : StateM σ (Except FileError ByteArray)) s = (v.read path, s)
  nodup (path : String) (names : List String) : v.entryNames path = .ok names → names.Nodup

/-- Whether a directory has a source of a certain name. -/
def HasSource (v : View) (directory name : String) : Prop :=
  (∃ names, v.entryNames directory = .ok names ∧ name ∈ names) ∧ IsSourceName name ∧
    v.isFile (entryPath directory name)

/-- Whether a path is a directory that does not tell its names. -/
def Mute (v : View) (path : String) (error : ListingError) : Prop :=
  v.isDirectory path ∧ v.entryNames path = .error error

/-- Whether a path is a directory that tells its names and has no source. -/
def Bare (v : View) (path : String) : Prop :=
  v.isDirectory path ∧ (∃ names, v.entryNames path = .ok names) ∧ ∀ name, ¬ v.HasSource path name

/-- What a path stands for: itself, or the sources of a directory in the byte order of their
names. -/
inductive StandsFor (v : View) : String → List String → Prop
  | single {path : String} (h : v.isDirectory path = false) : StandsFor v path [path]
  | directory {path : String} {names : List String} (h : v.isDirectory path)
    (sorted : names.Pairwise fun a b => utf8 a.toList < utf8 b.toList)
    (sources : ∀ name, name ∈ names ↔ v.HasSource path name) (nonempty : names ≠ []) :
    StandsFor v path (names.map (entryPath path))

def sourceNames (v : View) (directory : String) (names : List String) : List String :=
  (names.filter (hasExtension · "jack")).filter fun name => v.isFile (entryPath directory name)

def sourcesAt (v : View) (path : String) : Except Failure (List String) :=
  if v.isDirectory path then
    match v.entryNames path with
    | .error e => .error (.unlistable path e)
    | .ok names =>
      if (v.sourceNames path names).isEmpty then
        .error (.noSources path)
      else
        .ok (((v.sourceNames path names).mergeSort fun a b => decide (a ≤ b)).map (entryPath path))
  else
    .ok [path]

def readSource (v : View) (path : String) : Except Failure SourceFile :=
  match v.read path with
  | .ok content => .ok { path, content }
  | .error e => .error (.unreadable path e)

def readSources (v : View) (paths : List String) : Except Failure (List SourceFile) := do
  let groups ← paths.mapM v.sourcesAt
  groups.flatten.mapM v.readSource

end View

section
variable {σ : Type} {s : σ}

theorem StateM.bind_run {α β : Type} {x : StateM σ α} {f : α → StateM σ β} {a : α} {t : σ}
    (h : x s = (a, t)) : (x >>= f) s = f a t := by
  show (match x s with | (a, t) => f a t) = _
  rw [h]

theorem filterM_run {p : String → StateM σ Bool} {q : String → Bool}
    (h : ∀ name, p name s = (q name, s)) (names : List String) :
    (names.filterM p) s = (names.filter q, s) := by
  have accumulated (taken : List String) :
      (names.filterAuxM p taken) s = ((names.filter q).reverse ++ taken, s) := by
    induction names generalizing taken with
    | nil => rfl
    | cons name names ih =>
      rw [List.filterAuxM, StateM.bind_run (h name), ih, List.filter_cons]
      cases q name <;> simp
  rw [List.filterM, StateM.bind_run (accumulated [])]
  show ((((names.filter q).reverse ++ []).reverse), s) = _
  simp

theorem ExceptT.bind_run {ε α β : Type} {x : ExceptT ε (StateM σ) α}
    {f : α → ExceptT ε (StateM σ) β} {r : Except ε α} {g : α → Except ε β}
    (hx : x.run s = (r, s)) (hf : ∀ a, (f a).run s = (g a, s)) :
    (x >>= f).run s = (r >>= g, s) := by
  rw [ExceptT.run_bind, StateM.bind_run hx]
  cases r with
  | error e => rfl
  | ok a => exact hf a

theorem mapM_run {ε α β : Type} {f : α → ExceptT ε (StateM σ) β} {g : α → Except ε β}
    (h : ∀ x, (f x).run s = (g x, s)) (xs : List α) : (xs.mapM f).run s = (xs.mapM g, s) := by
  induction xs with
  | nil => rfl
  | cons x xs ih =>
    rw [List.mapM_cons, List.mapM_cons]
    apply ExceptT.bind_run (h x)
    intro y
    exact ExceptT.bind_run ih fun _ => rfl

end

section
variable {ε α β : Type} {f : α → Except ε β}

theorem forall₂_of_mapM_eq_ok {xs : List α} {ys : List β} (h : xs.mapM f = .ok ys) :
    List.Forall₂ (fun x y => f x = .ok y) xs ys := by
  induction xs generalizing ys with
  | nil =>
    cases h
    exact .nil
  | cons x xs ih =>
    rw [List.mapM_cons] at h
    cases first : f x with
    | error e =>
      rw [first] at h
      cases h
    | ok y =>
      cases others : xs.mapM f with
      | error e =>
        rw [first, others] at h
        cases h
      | ok zs =>
        rw [first, others] at h
        cases h
        exact .cons first (ih others)

theorem exists_mem_of_forall₂ {R : α → β → Prop} {xs : List α} {ys : List β} {x : α}
    (h : List.Forall₂ R xs ys) (mem : x ∈ xs) : ∃ y ∈ ys, R x y := by
  induction h with
  | nil => cases mem
  | @cons _ y _ _ first _ ih =>
    cases mem with
    | head => exact ⟨y, List.mem_cons_self, first⟩
    | tail _ mem =>
      obtain ⟨z, inside, related⟩ := ih mem
      exact ⟨z, List.mem_cons_of_mem y inside, related⟩

theorem first_unique {P : α → Prop} {xs before after before' after' : List α} {x y : α}
    (split : xs = before ++ x :: after) (earlier : ∀ z ∈ before, ¬ P z) (hx : P x)
    (split' : xs = before' ++ y :: after') (earlier' : ∀ z ∈ before', ¬ P z) (hy : P y) :
    x = y := by
  rw [split, List.append_eq_append_iff] at split'
  cases split' with
  | inl longer =>
    obtain ⟨between, whole, rest⟩ := longer
    cases between with
    | nil => exact (List.cons.inj rest).1
    | cons z _ =>
      cases rest
      exact absurd hx (earlier' x (by simp [whole]))
  | inr longer =>
    obtain ⟨between, whole, rest⟩ := longer
    cases between with
    | nil => exact (List.cons.inj rest).1.symm
    | cons z _ =>
      cases rest
      exact absurd hy (earlier y (by simp [whole]))

theorem exists_of_mapM_eq_error {xs : List α} {e : ε} (h : xs.mapM f = .error e) :
    ∃ before x after, xs = before ++ x :: after ∧ (∀ y ∈ before, ∃ z, f y = .ok z) ∧
      f x = .error e := by
  induction xs with
  | nil => cases h
  | cons x xs ih =>
    rw [List.mapM_cons] at h
    cases first : f x with
    | error d =>
      rw [first] at h
      cases h
      exact ⟨[], x, xs, rfl, by simp, first⟩
    | ok y =>
      cases others : xs.mapM f with
      | ok zs =>
        rw [first, others] at h
        cases h
      | error d =>
        rw [first, others] at h
        cases h
        obtain ⟨before, z, after, split, earlier, failed⟩ := ih others
        refine ⟨x :: before, z, after, by rw [split, List.cons_append], ?_, failed⟩
        intro w mem
        cases mem with
        | head => exact ⟨y, first⟩
        | tail _ mem => exact earlier w mem

end

namespace View

variable {σ : Type} [FileSystem (StateM σ)] {v : View} {s : σ}

theorem Of.sourcesAt (h : v.Of s) (path : String) :
    (CommandLine.sourcesAt path : StateM σ _) s = (v.sourcesAt path, s) := by
  rw [CommandLine.sourcesAt, StateM.bind_run (h.isDirectory path), View.sourcesAt]
  by_cases directory : v.isDirectory path
  · rw [if_pos directory, if_pos directory, StateM.bind_run (h.entryNames path)]
    cases v.entryNames path with
    | error e => rfl
    | ok names =>
      dsimp only
      rw [StateM.bind_run (filterM_run (fun name => h.isFile (entryPath path name)) _)]
      show (if (v.sourceNames path names).isEmpty then _ else _ : StateM σ _) s = _
      split <;> rfl
  · rw [if_neg directory, if_neg directory]
    rfl

theorem Of.readSource (h : v.Of s) (path : String) :
    (CommandLine.readSource path : StateM σ _) s = (v.readSource path, s) := by
  rw [CommandLine.readSource, StateM.bind_run (h.read path), View.readSource]
  cases v.read path <;> rfl

theorem Of.readSources (h : v.Of s) (paths : List String) :
    (CommandLine.readSources paths : StateM σ _) s = (v.readSources paths, s) :=
  ExceptT.bind_run (mapM_run h.sourcesAt paths) fun groups => mapM_run h.readSource groups.flatten

variable {invocation : Invocation}

theorem Of.run_error (h : v.Of s) {failure : Failure}
    (read : v.readSources invocation.paths = .error failure) :
    (runInvocation invocation : StateM σ Report) s =
      (({} : Report).fail failure.message, s) := by
  rw [runInvocation, StateM.bind_run (h.readSources invocation.paths), read]
  rfl

theorem Of.run_ok (h : v.Of s) {units : List SourceFile}
    (read : v.readSources invocation.paths = .ok units) :
    (runInvocation invocation : StateM σ Report) s =
      (units.foldlM (compileSource invocation (1 < units.length)) {} : StateM σ Report) s := by
  rw [runInvocation, StateM.bind_run (h.readSources invocation.paths), read]

/-! ## What is collected -/

theorem mem_sourceNames {path name : String} {names : List String}
    (listed : v.entryNames path = .ok names) :
    name ∈ v.sourceNames path names ↔ v.HasSource path name := by
  rw [sourceNames, List.mem_filter, List.mem_filter, hasExtension_iff, HasSource, listed, and_assoc]
  simp

theorem pairwise_sourceNames {path : String} {names : List String} (nodup : names.Nodup) :
    ((v.sourceNames path names).mergeSort fun a b => decide (a ≤ b)).Pairwise
      fun a b => utf8 a.toList < utf8 b.toList := by
  have sorted : ((v.sourceNames path names).mergeSort fun a b => decide (a ≤ b)).Pairwise
      fun a b => decide (a ≤ b) := by
    apply List.pairwise_mergeSort
    · intro a b c ab bc
      exact decide_eq_true (String.le_trans (of_decide_eq_true ab) (of_decide_eq_true bc))
    · intro a b
      simpa using String.le_total a b
  have distinct : ((v.sourceNames path names).mergeSort fun a b => decide (a ≤ b)).Nodup := by
    rw [(List.mergeSort_perm _ _).nodup_iff]
    exact (nodup.filter _).filter _
  apply (sorted.and distinct).imp
  intro a b h
  exact utf8_lt_of_le (of_decide_eq_true h.1) h.2

theorem sourcesAt_eq_error {path : String} {f : Failure} (h : v.sourcesAt path = .error f) :
    v.Bare path ∧ f = .noSources path ∨ ∃ e, v.Mute path e ∧ f = .unlistable path e := by
  rw [sourcesAt] at h
  by_cases directory : v.isDirectory path
  · rw [if_pos directory] at h
    cases listed : v.entryNames path with
    | error e =>
      rw [listed] at h
      exact .inr ⟨e, ⟨directory, listed⟩, (Except.error.inj h).symm⟩
    | ok names =>
      rw [listed] at h
      dsimp only at h
      by_cases none : v.sourceNames path names = []
      · rw [none] at h
        refine .inl ⟨⟨directory, ⟨names, listed⟩, fun name source => ?_⟩, (Except.error.inj h).symm⟩
        have mem := (mem_sourceNames listed).mpr source
        rw [none] at mem
        cases mem
      · rw [if_neg (by simpa using none)] at h
        cases h
  · rw [if_neg directory] at h
    cases h

theorem sourcesAt_eq_ok {path : String} {group : List String}
    (nodup : ∀ names, v.entryNames path = .ok names → names.Nodup)
    (h : v.sourcesAt path = .ok group) : v.StandsFor path group := by
  rw [sourcesAt] at h
  by_cases directory : v.isDirectory path
  · rw [if_pos directory] at h
    cases listed : v.entryNames path with
    | error e =>
      rw [listed] at h
      cases h
    | ok names =>
      rw [listed] at h
      dsimp only at h
      by_cases none : v.sourceNames path names = []
      · rw [none] at h
        cases h
      · rw [if_neg (by simpa using none)] at h
        rw [← Except.ok.inj h]
        have perm := List.mergeSort_perm (v.sourceNames path names) fun a b => decide (a ≤ b)
        apply StandsFor.directory directory
        · exact pairwise_sourceNames (nodup names listed)
        · intro name
          rw [perm.mem_iff]
          exact mem_sourceNames listed
        · intro empty
          rw [empty] at perm
          exact none (List.perm_nil.mp perm.symm)
  · rw [if_neg directory] at h
    rw [← Except.ok.inj h]
    exact .single (by simpa using directory)

/-- The sources that a path stands for, in no order. -/
def Collects (v : View) (path unit : String) : Prop :=
  v.isDirectory path = false ∧ unit = path ∨
    v.isDirectory path ∧ ∃ name, v.HasSource path name ∧ unit = entryPath path name

theorem StandsFor.mem_iff {path unit : String} {group : List String} (h : v.StandsFor path group) :
    unit ∈ group ↔ v.Collects path unit := by
  cases h with
  | single file => simp [Collects, file]
  | directory directory _ sources _ => simp [Collects, directory, sources, eq_comm]

theorem StandsFor.not_bare {path : String} {group : List String} (h : v.StandsFor path group) :
    ¬ v.Bare path := by
  intro bare
  cases h with
  | single file => exact absurd bare.1 (by simp [file])
  | directory _ _ sources nonempty =>
    obtain ⟨name, mem⟩ := List.exists_mem_of_ne_nil _ nonempty
    exact bare.2.2 name ((sources name).mp mem)

theorem StandsFor.not_mute {path : String} {group : List String} (h : v.StandsFor path group)
    {e : ListingError} : ¬ v.Mute path e := by
  intro mute
  cases h with
  | single file => cases file.symm.trans mute.1
  | directory _ _ sources nonempty =>
    obtain ⟨name, mem⟩ := List.exists_mem_of_ne_nil _ nonempty
    obtain ⟨⟨names, listed, _⟩, _⟩ := (sources name).mp mem
    cases listed.symm.trans mute.2

def Barren (v : View) (path : String) : Prop :=
  v.Bare path ∨ ∃ e, v.Mute path e

theorem StandsFor.not_barren {path : String} {group : List String} (h : v.StandsFor path group) :
    ¬ v.Barren path := by
  rintro (bare | ⟨e, mute⟩)
  · exact h.not_bare bare
  · exact h.not_mute mute

theorem Mute.not_bare {path : String} {e : ListingError} (h : v.Mute path e) : ¬ v.Bare path := by
  intro bare
  obtain ⟨_, ⟨names, listed⟩, _⟩ := bare
  cases listed.symm.trans h.2

/-- The error line for the first failure of a collection. A directory that gives no sources comes
before every path that cannot be read. -/
inductive FirstFailure (v : View) (paths : List String) : String → Prop
  | bare {before after : List String} {path : String} (split : paths = before ++ path :: after)
    (earlier : ∀ other ∈ before, ¬ v.Barren other) (h : v.Bare path) :
    FirstFailure v paths ("Error: no .jack files in " ++ path)
  | mute {before after : List String} {path : String} {e : ListingError}
    (split : paths = before ++ path :: after) (earlier : ∀ other ∈ before, ¬ v.Barren other)
    (h : v.Mute path e) : FirstFailure v paths (Failure.unlistable path e).message
  | unreadable {groups : List (List String)} {before after : List String} {path : String}
    {error : FileError} (collected : List.Forall₂ v.StandsFor paths groups)
    (split : groups.flatten = before ++ path :: after)
    (earlier : ∀ other ∈ before, ∃ content, v.read other = .ok content)
    (h : v.read path = .error error) :
    FirstFailure v paths ("Error: failed to read " ++ path ++ ": " ++ error.message)

theorem StandsFor.unique {path : String} {group group' : List String} (h : v.StandsFor path group)
    (h' : v.StandsFor path group') : group = group' := by
  cases h with
  | single file =>
    cases h' with
    | single _ => rfl
    | directory directory _ _ _ => cases file.symm.trans directory
  | @directory names directory sorted sources _ =>
    cases h' with
    | single file => cases file.symm.trans directory
    | @directory names' _ sorted' sources' _ =>
      have perm : names.Perm names' := by
        apply (List.perm_ext_iff_of_nodup (sorted.imp ?_) (sorted'.imp ?_)).mpr
        · intro name
          rw [sources, sources']
        · intro a b less same
          exact List.lt_irrefl _ (same ▸ less)
        · intro a b less same
          exact List.lt_irrefl _ (same ▸ less)
      rw [perm.eq_of_pairwise (fun a b _ _ ab ba => absurd ba (List.lt_asymm ab)) sorted sorted']

theorem FirstFailure.unique {paths : List String} {message message' : String}
    (h : v.FirstFailure paths message) (h' : v.FirstFailure paths message') :
    message = message' := by
  have groups_unique : Relator.RightUnique (List.Forall₂ v.StandsFor) :=
    Relator.RightUnique.forall₂ fun _ _ _ => StandsFor.unique
  have apart {before after : List String} {path : String} {groups : List (List String)}
      (split : paths = before ++ path :: after) (barren : v.Barren path) :
      ¬ List.Forall₂ v.StandsFor paths groups := by
    intro collected
    have given : path ∈ paths := by simp [split]
    obtain ⟨group, _, stands⟩ := exists_mem_of_forall₂ collected given
    exact stands.not_barren barren
  cases h with
  | bare split earlier bare =>
    cases h' with
    | bare split' earlier' bare' =>
      rw [first_unique split earlier (.inl bare) split' earlier' (.inl bare')]
    | mute split' earlier' mute' =>
      cases first_unique split earlier (.inl bare) split' earlier' (.inr ⟨_, mute'⟩)
      exact absurd bare mute'.not_bare
    | unreadable collected _ _ _ => exact absurd collected (apart split (.inl bare))
  | mute split earlier mute =>
    cases h' with
    | bare split' earlier' bare' =>
      cases first_unique split earlier (.inr ⟨_, mute⟩) split' earlier' (.inl bare')
      exact absurd bare' mute.not_bare
    | mute split' earlier' mute' =>
      cases first_unique split earlier (.inr ⟨_, mute⟩) split' earlier' (.inr ⟨_, mute'⟩)
      cases mute.2.symm.trans mute'.2
      rfl
    | unreadable collected _ _ _ => exact absurd collected (apart split (.inr ⟨_, mute⟩))
  | @unreadable groups _ _ path error collected split earlier unreadable =>
    cases h' with
    | bare split' _ bare' => exact absurd collected (apart split' (.inl bare'))
    | mute split' _ mute' => exact absurd collected (apart split' (.inr ⟨_, mute'⟩))
    | @unreadable groups' _ _ path' error' collected' split' earlier' unreadable' =>
      rw [← groups_unique collected collected'] at split'
      have same : path = path' := by
        apply first_unique (P := fun path => ∃ error, v.read path = .error error) split _
          ⟨error, unreadable⟩ split' _ ⟨error', unreadable'⟩
        · intro other mem failed
          obtain ⟨content, read⟩ := earlier other mem
          cases read.symm.trans failed.choose_spec
        · intro other mem failed
          obtain ⟨content, read⟩ := earlier' other mem
          cases read.symm.trans failed.choose_spec
      cases same
      cases unreadable.symm.trans unreadable'
      rfl

theorem readSource_eq_ok_iff {path : String} {unit : SourceFile} :
    v.readSource path = .ok unit ↔ v.read unit.path = .ok unit.content ∧ unit.path = path := by
  rw [readSource]
  constructor
  · intro h
    cases read : v.read path with
    | error e =>
      rw [read] at h
      cases h
    | ok content =>
      rw [read] at h
      cases h
      exact ⟨read, rfl⟩
  · intro h
    rw [← h.2, h.1]

theorem readSource_eq_error_iff {path : String} {failure : Failure} :
    v.readSource path = .error failure ↔
      ∃ error, v.read path = .error error ∧ failure = .unreadable path error := by
  rw [readSource]
  cases v.read path with
  | ok content => simp
  | error e => simp [eq_comm]

theorem forall₂_sourcesAt
    (nodup : ∀ path names, v.entryNames path = .ok names → names.Nodup) {paths : List String}
    {groups : List (List String)} (h : paths.mapM v.sourcesAt = .ok groups) :
    List.Forall₂ v.StandsFor paths groups :=
  (forall₂_of_mapM_eq_ok h).imp fun path _ => sourcesAt_eq_ok (nodup path)

theorem readSources_eq_ok
    (nodup : ∀ path names, v.entryNames path = .ok names → names.Nodup) {paths : List String}
    {units : List SourceFile} (h : v.readSources paths = .ok units) :
    ∃ groups, List.Forall₂ v.StandsFor paths groups ∧
      units.map SourceFile.path = groups.flatten ∧
      ∀ unit ∈ units, v.read unit.path = .ok unit.content := by
  rw [readSources] at h
  cases collected : paths.mapM v.sourcesAt with
  | error f =>
    rw [collected] at h
    cases h
  | ok groups =>
    rw [collected] at h
    have read := ((forall₂_of_mapM_eq_ok h).imp fun _ _ => readSource_eq_ok_iff.mp).flip
    obtain ⟨contents, named⟩ := (List.forall₂_and_left _ _).mp read
    rw [← List.forall₂_map_left_iff, List.forall₂_eq_eq_eq] at named
    exact ⟨groups, forall₂_sourcesAt nodup collected, named, contents⟩

theorem readSources_eq_error
    (nodup : ∀ path names, v.entryNames path = .ok names → names.Nodup) {paths : List String}
    {failure : Failure} (h : v.readSources paths = .error failure) :
    v.FirstFailure paths failure.message := by
  rw [readSources] at h
  cases collected : paths.mapM v.sourcesAt with
  | error f =>
    rw [collected] at h
    cases h
    obtain ⟨before, path, after, split, earlier, failed⟩ := exists_of_mapM_eq_error collected
    have first : ∀ other ∈ before, ¬ v.Barren other := by
      intro other mem
      obtain ⟨group, found⟩ := earlier other mem
      exact (sourcesAt_eq_ok (nodup other) found).not_barren
    rcases sourcesAt_eq_error failed with ⟨bare, rfl⟩ | ⟨e, mute, rfl⟩
    · exact .bare split first bare
    · exact .mute split first mute
  | ok groups =>
    rw [collected] at h
    obtain ⟨before, path, after, split, earlier, failed⟩ := exists_of_mapM_eq_error h
    obtain ⟨error, unreadable, rfl⟩ := readSource_eq_error_iff.mp failed
    apply FirstFailure.unreadable (forall₂_sourcesAt nodup collected) split _ unreadable
    intro other mem
    obtain ⟨unit, found⟩ := earlier other mem
    have read := readSource_eq_ok_iff.mp found
    exact ⟨unit.content, read.2 ▸ read.1⟩

end View

end JackVm.CommandLine

import JackVm.Proofs.Compilation.Acceptance
import Mathlib.Data.Fin.VecNotation
import Mathlib.Data.List.OfFn

/-!
# Subroutines are compiled apart

What a subroutine is compiled to depends on the name and the variables of its class, and not on the
subroutines around it. So each has its own block of the code of the class.
-/

namespace JackVm

/-- Whether the tokens of a source are those of a class. -/
def ClassDec.SpelledBy (c : ClassDec) (source : ByteArray) : Prop :=
  ∃ text, String.fromUTF8? source = some text ∧ c.lexemes = sourceLexemes text

section
variable {c : ClassDec} {source : ByteArray} {code : Code}

theorem ClassDec.SpelledBy.yields (h : c.SpelledBy source) (run : compile source = .ok code) :
    c.Valid ∧ code.instructions = c.code := by
  obtain ⟨text, decoded, derives⟩ := h
  obtain ⟨text', c', decoded', derives', valid, instructions⟩ := compile_yields run
  obtain rfl : text' = text := Option.some.inj (decoded'.symm.trans decoded)
  obtain rfl : c' = c := ClassDec.lexemes_injective (derives'.trans derives.symm)
  exact ⟨valid, instructions⟩

theorem ClassDec.SpelledBy.accepted_iff (h : c.SpelledBy source) :
    (∃ code, compile source = .ok code) ↔ c.Valid := by
  constructor
  · rintro ⟨code, run⟩
    exact (h.yields run).1
  · intro valid
    obtain ⟨text, decoded, derives⟩ := h
    exact compile_ok decoded derives valid

end

section
variable {name : String} {decs : List ClassVarDec}

/-- The subroutines around it make no difference to a subroutine. -/
theorem SubroutineDec.Valid.among {d : SubroutineDec} {ds : List SubroutineDec}
    (h : d.Valid ⟨name, decs, ds⟩) (others : List SubroutineDec) : d.Valid ⟨name, decs, others⟩ :=
  ⟨h.admissible, h.permitted⟩

theorem ClassDec.valid_iff_forall {ds : List SubroutineDec} (some : ds ≠ []) :
    ClassDec.Valid ⟨name, decs, ds⟩ ↔ ∀ d ∈ ds, ClassDec.Valid ⟨name, decs, [d]⟩ := by
  constructor
  · intro h d hd
    refine ⟨h.admissible, fun d' hd' => ?_⟩
    rw [List.mem_singleton.mp hd']
    exact (h.subroutines d hd).among [d]
  · intro h
    obtain ⟨d, hd⟩ := List.exists_mem_of_ne_nil ds some
    refine ⟨(h d hd).admissible, fun d hd => ?_⟩
    exact ((h d hd).subroutines d (List.mem_singleton_self d)).among ds

/-- The block that a subroutine has in the code of every class with some name and variables. -/
def SubroutineDec.block (name : String) (decs : List ClassVarDec) (d : SubroutineDec) :
    List Instruction :=
  d.code ⟨name, decs, []⟩

theorem ClassDec.code_eq_blocks (ds : List SubroutineDec) :
    ClassDec.code ⟨name, decs, ds⟩ = ds.flatMap (SubroutineDec.block name decs) := rfl

end

/-- A class with several subroutines is accepted if each of them is accepted as the only one, and
its code is made of the codes that they have as the only ones. -/
theorem compile_subroutines_apart (name : String) (decs : List ClassVarDec) (n : Nat)
    (positive : 0 < n) (subroutine : Fin n → SubroutineDec) (whole : ByteArray)
    (single : Fin n → ByteArray)
    (together : ClassDec.SpelledBy ⟨name, decs, List.ofFn subroutine⟩ whole)
    (apart : ∀ i, ClassDec.SpelledBy ⟨name, decs, [subroutine i]⟩ (single i)) :
    ((∃ code, compile whole = .ok code) ↔ ∀ i, ∃ code, compile (single i) = .ok code) ∧
    (∀ (code : Code) (block : Fin n → Code), compile whole = .ok code →
      (∀ i, compile (single i) = .ok (block i)) →
      code.instructions = (List.ofFn fun i => (block i).instructions).flatten) ∧
    ∃ block : SubroutineDec → List Instruction, ∀ (subroutines : List SubroutineDec)
      (source : ByteArray) (code : Code), ClassDec.SpelledBy ⟨name, decs, subroutines⟩ source →
      compile source = .ok code → code.instructions = subroutines.flatMap block := by
  refine ⟨?_, ?_, SubroutineDec.block name decs, ?_⟩
  · have some : List.ofFn subroutine ≠ [] := by
      rw [Ne, List.ofFn_eq_nil_iff]
      omega
    rw [together.accepted_iff, ClassDec.valid_iff_forall some, List.forall_mem_ofFn_iff]
    exact forall_congr' fun i => (apart i).accepted_iff.symm
  · intro code block run runs
    have blocks (i : Fin n) : (block i).instructions = (subroutine i).block name decs := by
      rw [((apart i).yields (runs i)).2, ClassDec.code_eq_blocks, List.flatMap_singleton]
    rw [(together.yields run).2, ClassDec.code_eq_blocks, List.flatMap_def, List.map_ofFn]
    simp only [blocks]
    rfl
  · intro subroutines source code spelled run
    rw [(spelled.yields run).2, ClassDec.code_eq_blocks]

/-- Two subroutines of which one hides the field that the other returns. -/
theorem compile_subroutines_apart_hiding :
    ∃ (subroutine : Fin 2 → SubroutineDec) (whole : ByteArray) (single : Fin 2 → ByteArray)
      (code : Code) (block : Fin 2 → Code),
      ClassDec.SpelledBy ⟨"A", [⟨.field, .int, "x", []⟩], List.ofFn subroutine⟩ whole ∧
      compile whole = .ok code ∧ (∀ i, compile (single i) = .ok (block i)) ∧
      code.instructions = (List.ofFn fun i => (block i).instructions).flatten ∧
      code.instructions = [.function "A.f" 0, .push .argument 0, .pop .pointer 0, .push .this 0,
        .return, .function "A.g" 0, .push .argument 0, .return] := by
  let first : SubroutineDec :=
    ⟨.method, some .int, "f", [], [], [.return (some (.mk (.variable "x") []))]⟩
  let second : SubroutineDec :=
    ⟨.function, some .int, "g", [⟨.int, "x"⟩], [], [.return (some (.mk (.variable "x") []))]⟩
  let both := "class A \x7b field int x; method int f() \x7b return x; \x7d
    function int g(int x) \x7b return x; \x7d \x7d"
  let one := "class A \x7b field int x; method int f() \x7b return x; \x7d \x7d"
  let other := "class A \x7b field int x; function int g(int x) \x7b return x; \x7d \x7d"
  have together : ClassDec.SpelledBy ⟨"A", [⟨.field, .int, "x", []⟩], List.ofFn ![first, second]⟩
      both.toUTF8 :=
    ⟨both, fromUTF8?_toUTF8 both, by decide +kernel⟩
  have apart : ∀ i, ClassDec.SpelledBy ⟨"A", [⟨.field, .int, "x", []⟩], [![first, second] i]⟩
      (![one.toUTF8, other.toUTF8] i) := by
    rw [Fin.forall_fin_two]
    exact ⟨⟨one, fromUTF8?_toUTF8 one, by decide +kernel⟩,
      ⟨other, fromUTF8?_toUTF8 other, by decide +kernel⟩⟩
  let block : Fin 2 → Code := ![
    .ofRows [⟨.function "A.f" 0, 1⟩, ⟨.push .argument 0, 1⟩, ⟨.pop .pointer 0, 1⟩,
      ⟨.push .this 0, 1⟩, ⟨.return, 1⟩],
    .ofRows [⟨.function "A.g" 0, 1⟩, ⟨.push .argument 0, 1⟩, ⟨.return, 1⟩]]
  have runs : ∀ i, compile (![one.toUTF8, other.toUTF8] i) = .ok (block i) := by
    rw [Fin.forall_fin_two]
    constructor <;> decide +kernel
  have independent := compile_subroutines_apart "A" _ 2 (by decide) ![first, second] _ _ together
    apart
  obtain ⟨code, run⟩ := independent.1.mpr fun i => ⟨block i, runs i⟩
  have blocks := independent.2.1 code block run runs
  exact ⟨_, _, _, code, block, together, run, runs, blocks, blocks.trans rfl⟩

end JackVm

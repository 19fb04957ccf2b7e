import JackVm.Proofs.Machine.Execution
import JackVm.Proofs.Translation.Labels
import Mathlib.Logic.Relation

/-!
# Runs of a block

The machine with its jumps. A run of a block goes from place to place until it returns or comes to
the end. A jump leads to the label of its name in the same block.
-/

namespace JackVm

def labelPlace (block : List Instruction) (name : String) : Option Nat :=
  block.findIdx? (· = .label name)

/-- How far the run of a block has come. -/
structure Configuration (W : Type) where
  place : Nat
  state : MachineState W

namespace Machine

variable {W : Type} [DecidableEq W] (m : Machine W)

/-- Where one instruction of a block leads, unless it returns or cannot be run. -/
def advance (block : List Instruction) (x : Configuration W) : Option (Configuration W) :=
  match block[x.place]? with
  | none | some .return => none
  | some (.label _) | some (.function _ _) => some { x with place := x.place + 1 }
  | some (.goto name) => (labelPlace block name).map fun place => { x with place }
  | some (.ifGoto name) =>
    match x.state.stack with
    | [] => none
    | v :: stack =>
      let state := { x.state with stack }
      if v = m.constant 0 then some ⟨x.place + 1, state⟩
      else (labelPlace block name).map fun place => ⟨place, state⟩
  | some i => (m.step x.state i).map fun state => ⟨x.place + 1, state⟩

def Reaches (block : List Instruction) : Configuration W → Configuration W → Prop :=
  Relation.ReflTransGen fun x y => m.advance block x = some y

end Machine

/-! ## Places of a block -/

/-- Whether code stands in a block from one place up to another. -/
def Located (block : List Instruction) : Nat → List Instruction → Nat → Prop
  | p, [], q => p = q
  | p, i :: code, q => block[p]? = some i ∧ Located block (p + 1) code q

section
variable {block : List Instruction} {p q : Nat} {i : Instruction} {a b : List Instruction}

@[simp] theorem located_nil : Located block p [] q ↔ p = q := Iff.rfl

@[simp] theorem located_cons :
    Located block p (i :: a) q ↔ block[p]? = some i ∧ Located block (p + 1) a q :=
  Iff.rfl

@[simp] theorem located_append :
    Located block p (a ++ b) q ↔ ∃ r, Located block p a r ∧ Located block r b q := by
  induction a generalizing p with
  | nil => simp
  | cons i a ih => simp [ih, and_assoc]

theorem located_suffix (front code : List Instruction) :
    Located (front ++ code) front.length code (front ++ code).length := by
  induction code generalizing front with
  | nil => simp
  | cons i code ih =>
    have further := ih (front ++ [i])
    simp only [List.append_assoc, List.singleton_append, List.length_append,
      List.length_singleton] at further
    exact ⟨by simp, by simpa using further⟩

theorem located_self (block : List Instruction) : Located block 0 block block.length :=
  located_suffix [] block

theorem labelPlace_eq {name : String} (distinct : (labels block).Nodup)
    (here : block[p]? = some (.label name)) : labelPlace block name = some p := by
  obtain ⟨inside, same⟩ := List.getElem?_eq_some_iff.mp here
  rw [labelPlace, List.findIdx?_eq_some_iff_getElem]
  refine ⟨inside, decide_eq_true same, ?_⟩
  intro j before
  rw [labels, List.Nodup, List.pairwise_filterMap, List.pairwise_iff_getElem] at distinct
  have other := distinct j p (Nat.lt_trans before inside) inside before
  intro found
  have label : block[j] = .label name := of_decide_eq_true found
  rw [label, same] at other
  exact other name rfl name rfl rfl

end

/-! ## Where instructions lead -/

namespace Machine

variable {W : Type} [DecidableEq W] {m : Machine W} {block code : List Instruction} {p q : Nat}
  {σ τ : MachineState W} {i : Instruction} {name : String} {v : W} {stack : List W}

theorem advance_of_step (here : block[p]? = some i) (run : m.step σ i = some τ) :
    m.advance block ⟨p, σ⟩ = some ⟨p + 1, τ⟩ := by
  cases i with
  | push | pop | arithmetic | call => simp only [advance, here, run, Option.map_some]
  | label | goto | ifGoto | function | «return» => cases run

theorem advance_of_label (here : block[p]? = some (.label name)) :
    m.advance block ⟨p, σ⟩ = some ⟨p + 1, σ⟩ := by
  simp only [advance, here]

theorem advance_of_function {locals : Nat} (here : block[p]? = some (.function name locals)) :
    m.advance block ⟨p, σ⟩ = some ⟨p + 1, σ⟩ := by
  simp only [advance, here]

variable (distinct : (labels block).Nodup) (there : block[q]? = some (.label name))
include distinct there

theorem advance_of_goto (here : block[p]? = some (.goto name)) :
    m.advance block ⟨p, σ⟩ = some ⟨q, σ⟩ := by
  simp only [advance, here, labelPlace_eq distinct there, Option.map_some]

theorem advance_of_ifGoto (here : block[p]? = some (.ifGoto name))
    (top : σ.stack = v :: stack) (nonzero : v ≠ m.constant 0) :
    m.advance block ⟨p, σ⟩ = some ⟨q, { σ with stack }⟩ := by
  simp only [advance, here, top, if_neg nonzero, labelPlace_eq distinct there, Option.map_some]

omit distinct there in
theorem advance_of_ifGoto_zero (here : block[p]? = some (.ifGoto name))
    (top : σ.stack = v :: stack) (zero : v = m.constant 0) :
    m.advance block ⟨p, σ⟩ = some ⟨p + 1, { σ with stack }⟩ := by
  simp only [advance, here, top, if_pos zero]

omit distinct there in
/-- Code without jumps is run straight through wherever it stands. -/
theorem reaches_of_exec (here : Located block p code q) (run : m.exec code σ = some τ) :
    m.Reaches block ⟨p, σ⟩ ⟨q, τ⟩ := by
  induction code generalizing p σ with
  | nil =>
    obtain rfl := located_nil.mp here
    cases run
    exact .refl
  | cons i code ih =>
    obtain ⟨first, further⟩ := located_cons.mp here
    rw [exec_cons] at run
    obtain ⟨between, stepped, rest⟩ := Option.bind_eq_some_iff.mp run
    exact .head (advance_of_step first stepped) (ih further rest)

end Machine

end JackVm

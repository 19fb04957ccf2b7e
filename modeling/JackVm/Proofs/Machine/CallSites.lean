import JackVm.Proofs.Machine.StackDepth
import Mathlib.Data.List.Induction

/-!
# Operands and call sites

Code of an operand leaves one value on the stack and needs nothing of what was there before. A call
takes the values of the operands that stand in front of it, each of which lies where the last
instruction of the operand has put it.
-/

namespace JackVm

/-- A call with the code of each value that it is given. -/
structure CallSite where
  target : String
  operands : List (List Instruction)
  deriving DecidableEq, Repr

structure PushesOne (code : List Instruction) : Prop where
  depth (d : Nat) : checkedDepth d code = some (d + 1)
  stack (place : Nat) (s : List Nat) :
    stackAfter place s code = (place + code.length - 1) :: s

/-- Whether an instruction neither calls a function nor begins one. -/
def Instruction.staysInside : Instruction → Bool
  | .call _ _ | .function _ _ => false
  | _ => true

/-- The calls that the body of a function makes, each right behind its operands. -/
inductive Calls : List Instruction → List CallSite → Prop
  | nil : Calls [] []
  | other {code : List Instruction} {sites : List CallSite} {i : Instruction}
    (before : Calls code sites) (inside : i.staysInside) : Calls (code ++ [i]) sites
  | call {front : List Instruction} {operands : List (List Instruction)} {sites : List CallSite}
    (target : String) (before : Calls (front ++ operands.flatten) sites)
    (single : ∀ p ∈ operands, PushesOne p) :
    Calls (front ++ operands.flatten ++ [.call target operands.length])
      (sites ++ [⟨target, operands⟩])

/-- The places where operands that stand in a row have put their values. -/
def pushedBy : Nat → List (List Instruction) → List Nat
  | _, [] => []
  | place, p :: rest => (place + p.length - 1) :: pushedBy (place + p.length) rest

theorem length_pushedBy (place : Nat) (operands : List (List Instruction)) :
    (pushedBy place operands).length = operands.length := by
  induction operands generalizing place with
  | nil => rfl
  | cons p operands ih => rw [pushedBy, List.length_cons, ih, List.length_cons]

theorem checkedDepth_operands {operands : List (List Instruction)}
    (single : ∀ p ∈ operands, PushesOne p) (depth : Nat) :
    checkedDepth depth operands.flatten = some (depth + operands.length) := by
  induction operands generalizing depth with
  | nil => rfl
  | cons p operands ih =>
    rw [List.forall_mem_cons] at single
    rw [List.flatten_cons, checkedDepth_append, single.1.depth, Option.bind_some, ih single.2,
      List.length_cons]
    congr 1
    omega

theorem stackAfter_operands {operands : List (List Instruction)}
    (single : ∀ p ∈ operands, PushesOne p) (place : Nat) (s : List Nat) :
    stackAfter place s operands.flatten = (pushedBy place operands).reverse ++ s := by
  induction operands generalizing place s with
  | nil => rfl
  | cons p operands ih =>
    rw [List.forall_mem_cons] at single
    rw [List.flatten_cons, stackAfter_append, single.1.stack, ih single.2, pushedBy,
      List.reverse_cons, List.append_assoc]
    rfl

/-- Behind a row of operands their values lie on what the stack held in front of them. -/
theorem stackAt_operands {code front : List Instruction} {operands : List (List Instruction)}
    {place : Nat} (single : ∀ p ∈ operands, PushesOne p)
    (split : code.take place = front ++ operands.flatten) :
    stackAt code place =
      (pushedBy front.length operands).reverse ++ stackAt code front.length := by
  have within : front.length ≤ place := by
    have length := congrArg List.length split
    rw [List.length_take, List.length_append] at length
    omega
  have before : code.take front.length = front := by
    rw [← Nat.min_eq_left within, ← List.take_take, split, List.take_left]
  rw [stackAt, stackAt, split, before, stackAfter_append, stackAfter_operands single,
    Nat.zero_add]

theorem Instruction.fits_of_gives {i : Instruction} (gives : i.gives = 1) {depth : Nat}
    (enough : i.needs ≤ depth) : i.fits depth = true := by
  cases i with
  | push | arithmetic | call => exact decide_eq_true enough
  | pop | label | goto | ifGoto | function | «return» => cases gives

theorem PushesOne.apply {operands : List (List Instruction)}
    (single : ∀ p ∈ operands, PushesOne p) (i : Instruction) (needs : i.needs = operands.length)
    (gives : i.gives = 1) : PushesOne (operands.flatten ++ [i]) where
  depth d := by
    rw [checkedDepth_append, checkedDepth_operands single, Option.bind_some, checkedDepth,
      if_pos (i.fits_of_gives gives (by omega)), checkedDepth, needs, gives]
    congr 2
    omega
  stack place s := by
    have taken : ((pushedBy place operands).reverse ++ s).drop i.needs = s := by
      apply List.drop_left'
      rw [List.length_reverse, length_pushedBy, needs]
    rw [stackAfter_append, stackAfter_operands single, stackAfter, stackBehind, taken, gives,
      List.length_append]
    rfl

namespace Calls

theorem of_all {code : List Instruction} (inside : code.all Instruction.staysInside) :
    Calls code [] := by
  induction code using List.reverseRecOn with
  | nil => exact .nil
  | append_singleton code i ih =>
    rw [List.all_append, Bool.and_eq_true] at inside
    apply Calls.other
    · exact ih inside.1
    · simpa using inside.2

theorem append {a b : List Instruction} {s t : List CallSite} (ha : Calls a s)
    (hb : Calls b t) : Calls (a ++ b) (s ++ t) := by
  induction hb with
  | nil => simpa using ha
  | other before inside ih =>
    rw [← List.append_assoc]
    exact ih.other inside
  | @call front operands sites target before single ih =>
    rw [← List.append_assoc, ← List.append_assoc, ← List.append_assoc]
    rw [← List.append_assoc] at ih
    exact ih.call target single

theorem ne_function {code : List Instruction} {sites : List CallSite} (h : Calls code sites) :
    ∀ i ∈ code, ∀ name locals, i ≠ .function name locals := by
  induction h with
  | nil => simp
  | other before stays ih =>
    rw [List.forall_mem_append, List.forall_mem_singleton]
    refine ⟨ih, ?_⟩
    rintro name locals rfl
    cases stays
  | call target before single ih =>
    rw [List.forall_mem_append, List.forall_mem_singleton]
    exact ⟨ih, by simp⟩

/-- In front of each call are the operands of one of the sites. -/
theorem site {code : List Instruction} {sites : List CallSite} (h : Calls code sites)
    {place arguments : Nat} {target : String}
    (here : code[place]? = some (.call target arguments)) :
    ∃ operands front, ⟨target, operands⟩ ∈ sites ∧ operands.length = arguments ∧
      (∀ p ∈ operands, PushesOne p) ∧ code.take place = front ++ operands.flatten := by
  induction h with
  | nil => simp at here
  | @other code sites i before stays ih =>
    by_cases inside : place < code.length
    · rw [List.getElem?_append_left inside] at here
      obtain ⟨operands, front, listed, count, single, split⟩ := ih here
      refine ⟨operands, front, listed, count, single, ?_⟩
      rw [List.take_append_of_le_length (Nat.le_of_lt inside), split]
    · rw [List.getElem?_append_right (by omega), List.getElem?_singleton] at here
      split at here
      · cases here
        cases stays
      · cases here
  | @call front operands sites callee before single ih =>
    by_cases inside : place < (front ++ operands.flatten).length
    · rw [List.getElem?_append_left inside] at here
      obtain ⟨operands', front', listed, count, single', split⟩ := ih here
      refine ⟨operands', front', List.mem_append_left _ listed, count, single', ?_⟩
      rw [List.take_append_of_le_length (Nat.le_of_lt inside), split]
    · rw [List.getElem?_append_right (by omega), List.getElem?_singleton] at here
      split at here
      · next atEnd =>
        cases here
        refine ⟨operands, front, by simp, rfl, single, ?_⟩
        rw [show place = (front ++ operands.flatten).length by omega, List.take_left]
      · cases here

end Calls

/-! ## Operands with their calls -/

/-- Code of an operand, with the calls in it. -/
structure Computes (code : List Instruction) (sites : List CallSite) : Prop where
  single : PushesOne code
  calls : Calls code sites

structure Operands (operands : List (List Instruction)) (sites : List CallSite) : Prop where
  single : ∀ p ∈ operands, PushesOne p
  calls : Calls operands.flatten sites

theorem Operands.nil : Operands [] [] where
  single := List.forall_mem_nil _
  calls := .nil

theorem Operands.cons {code : List Instruction} {operands : List (List Instruction)}
    {s t : List CallSite} (first : Computes code s) (rest : Operands operands t) :
    Operands (code :: operands) (s ++ t) where
  single := List.forall_mem_cons.mpr ⟨first.single, rest.single⟩
  calls := by
    rw [List.flatten_cons]
    exact first.calls.append rest.calls

theorem Operands.append {a b : List (List Instruction)} {s t : List CallSite}
    (ha : Operands a s) (hb : Operands b t) : Operands (a ++ b) (s ++ t) where
  single := List.forall_mem_append.mpr ⟨ha.single, hb.single⟩
  calls := by
    rw [List.flatten_append]
    exact ha.calls.append hb.calls

namespace Computes

variable {a b : List Instruction} {s t : List CallSite}

theorem call {operands : List (List Instruction)} (h : Operands operands s) (target : String) :
    Computes (operands.flatten ++ [.call target operands.length])
      (s ++ [⟨target, operands⟩]) where
  single := .apply h.single _ rfl rfl
  calls := @Calls.call [] operands s target h.calls h.single

theorem push (segment : Segment) (index : Nat) : Computes [.push segment index] [] where
  single := .apply (List.forall_mem_nil _) (.push segment index) rfl rfl
  calls := .of_all rfl

theorem unary (h : Computes a s) (command : Command) (one : command.operands = 1) :
    Computes (a ++ [.arithmetic command]) s where
  single := by
    have single := PushesOne.apply (List.forall_mem_singleton.mpr h.single)
      (.arithmetic command) one rfl
    rwa [List.flatten_singleton] at single
  calls := .other h.calls rfl

theorem binary (ha : Computes a s) (hb : Computes b t) (command : Command)
    (two : command.operands = 2) : Computes (a ++ b ++ [.arithmetic command]) (s ++ t) where
  single := by
    have single := PushesOne.apply
      (List.forall_mem_cons.mpr ⟨ha.single, List.forall_mem_singleton.mpr hb.single⟩)
      (.arithmetic command) two rfl
    rwa [List.flatten_cons, List.flatten_singleton] at single
  calls := .other (ha.calls.append hb.calls) rfl

theorem exchange (h : Computes a s) (segment segment' : Segment) (index index' : Nat) :
    Computes (a ++ [.pop segment index, .push segment' index']) s where
  single := by
    constructor
    · intro d
      rw [checkedDepth_append, h.single.depth, Option.bind_some]
      simp [checkedDepth, Instruction.fits, Instruction.needs, Instruction.gives]
    · intro place l
      rw [stackAfter_append, h.single.stack, List.length_append]
      rfl
  calls := by
    have plain : Calls [.pop segment index, .push segment' index'] [] := .of_all rfl
    have calls := h.calls.append plain
    rwa [List.append_nil] at calls

end Computes

end JackVm

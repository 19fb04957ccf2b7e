import JackVm.Proofs.Machine.BlockRun
import JackVm.Proofs.Machine.ExpressionValue
import JackVm.Proofs.Machine.StackSafety
import JackVm.Proofs.Machine.StatementExecution
import JackVm.Proofs.Machine.Temp
import JackVm.Proofs.Syntax.Unambiguity

/-!
# Compiled statements do what their source does

A run of a block goes along with the execution of its subroutine, statement by statement, with
nothing on the stack in between. Pointer 1 and the temporary word may be anything at each statement,
since the code of a statement sets them before it uses them.
-/

namespace JackVm

/-- A place of a block, the activation there and what is on the stack. -/
structure Stage (W : Type) where
  place : Nat
  activation : Activation W
  stack : List W

namespace Machine

variable {W : Type} [DecidableEq W] (m : Machine W) (block : List Instruction)

/-- Whether runs of a block lead from one stage to another, whatever pointer 1 and the temporary
word are. -/
def Leads (x y : Stage W) : Prop :=
  ∀ element world, World.Agrees world x.activation.world →
    ∃ element' world', World.Agrees world' y.activation.world ∧
      m.Reaches block ⟨x.place, x.activation.frame, x.stack, element, world⟩
        ⟨y.place, y.activation.frame, y.stack, element', world'⟩

/-- Whether runs of a block lead from a stage to where some statements end, which is a place with an
empty stack unless they return. -/
def Arrives (x : Stage W) (q : Nat) (b : Activation W) : Outcome W → Prop
  | .finished => m.Leads block x ⟨q, b, []⟩
  | .returned v => ∃ r, block[r]? = some .return ∧ m.Leads block x ⟨r, b, [v]⟩

variable {m block} {x y z : Stage W} {p q r : Nat} {a b : Activation W} {o : Outcome W} {v : W}
  {stack : List W} {code : List Instruction} {name other : String} {env : Environment}

namespace Leads

theorem refl (x : Stage W) : m.Leads block x x :=
  fun element world agree => ⟨element, world, agree, .refl⟩

theorem trans (h : m.Leads block x y) (k : m.Leads block y z) : m.Leads block x z := by
  intro element world agree
  obtain ⟨element₁, world₁, agree₁, first⟩ := h element world agree
  obtain ⟨element₂, world₂, agree₂, second⟩ := k element₁ world₁ agree₁
  exact ⟨element₂, world₂, agree₂, first.trans second⟩

theorem arrives (h : m.Leads block x y) (k : m.Arrives block y q b o) :
    m.Arrives block x q b o := by
  cases o with
  | finished => exact h.trans k
  | returned v =>
    obtain ⟨r, returns, onward⟩ := k
    exact ⟨r, returns, h.trans onward⟩

theorem of_advance {below : List W}
    (h : ∀ element world, m.advance block ⟨p, a.frame, stack, element, world⟩ =
      some ⟨q, a.frame, below, element, world⟩) :
    m.Leads block ⟨p, a, stack⟩ ⟨q, a, below⟩ :=
  fun element world agree => ⟨element, world, agree, .single (h element world)⟩

theorem label (here : block[p]? = some (.label name)) :
    m.Leads block ⟨p, a, stack⟩ ⟨p + 1, a, stack⟩ :=
  of_advance fun _ _ => advance_of_label here

theorem goto (distinct : (labels block).Nodup) (here : block[p]? = some (.goto name))
    (there : block[q]? = some (.label name)) :
    m.Leads block ⟨p, a, stack⟩ ⟨q, a, stack⟩ :=
  of_advance fun _ _ => advance_of_goto distinct there here

theorem ifGoto (distinct : (labels block).Nodup) (here : block[p]? = some (.ifGoto name))
    (there : block[q]? = some (.label name)) (nonzero : v ≠ m.constant 0) :
    m.Leads block ⟨p, a, v :: stack⟩ ⟨q, a, stack⟩ :=
  of_advance fun _ _ => advance_of_ifGoto distinct there here rfl nonzero

theorem ifGoto_zero (here : block[p]? = some (.ifGoto name)) (zero : v = m.constant 0) :
    m.Leads block ⟨p, a, v :: stack⟩ ⟨p + 1, a, stack⟩ :=
  of_advance fun _ _ => advance_of_ifGoto_zero here rfl zero

theorem of_exec {below : List W} (here : Located block p code q)
    (h : ∀ element world, World.Agrees world a.world →
      ∃ element' world', World.Agrees world' b.world ∧
        m.exec code ⟨a.frame, stack, element, world⟩ =
          some ⟨b.frame, below, element', world'⟩) :
    m.Leads block ⟨p, a, stack⟩ ⟨q, b, below⟩ := by
  intro element world agree
  obtain ⟨element', world', agree', run⟩ := h element world agree
  exact ⟨element', world', agree', reaches_of_exec here run⟩

/-- Code that does what a computation does leads to the activation that the computation leaves. -/
theorem of_runs {α : Type} {before : List W} {c : Evaluation W α} {after : α → List W} {result : α}
    (here : Located block p code q) (runs : m.Runs a.frame before code c after)
    (ignores : c.IgnoresTemp) (computes : a.Computes c result b) (deeper : List W) :
    m.Leads block ⟨p, a, before ++ deeper⟩ ⟨q, b, after result ++ deeper⟩ := by
  apply of_exec here
  intro element world agree
  obtain ⟨result', world', element', evaluates, run⟩ := runs deeper element world
  obtain ⟨left, same, agree'⟩ := ignores _ _ _ _ agree.symm computes.evaluates
  obtain ⟨rfl, rfl⟩ := Prod.mk.inj (Option.some.inj (evaluates.symm.trans same))
  exact ⟨element', world', agree'.symm, computes.frame ▸ run⟩

variable (hm : m.IgnoresTemp)
include hm

theorem expression {e : Expression} (permitted : ∀ u ∈ e.uses, u.Permitted env)
    (here : Located block p (e.code env) q) (computes : a.Computes (e.eval m env a.frame) v b) :
    m.Leads block ⟨p, a, stack⟩ ⟨q, b, v :: stack⟩ :=
  of_runs here (e.runs m a.frame permitted) (e.ignoresTemp env a.frame hm) computes stack

theorem term {t : Term} (permitted : ∀ u ∈ t.uses, u.Permitted env)
    (here : Located block p (t.code env) q) (computes : a.Computes (t.eval m env a.frame) v b) :
    m.Leads block ⟨p, a, stack⟩ ⟨q, b, v :: stack⟩ :=
  of_runs here (t.runs m a.frame permitted) (t.ignoresTemp env a.frame hm) computes stack

omit hm in
theorem load (declared : (env.find? name).isSome) (here : Located block p (env.load name) q)
    (computes : a.Computes (m.variableValue env a.frame name) v b) :
    m.Leads block ⟨p, a, stack⟩ ⟨q, b, v :: stack⟩ :=
  of_runs here (m.runs_load a.frame declared) (.variableValue env a.frame name) computes stack

omit hm in
theorem store {slot : Variable} (found : env.find? name = some slot)
    (here : Located block p (env.store name) q) :
    m.Leads block ⟨p, a, v :: stack⟩ ⟨q, slot.assign m v a, stack⟩ := by
  rw [Environment.store_of_find? found] at here
  apply of_exec here
  rintro element ⟨heap, statics, temp⟩ ⟨rfl, rfl⟩
  obtain ⟨-, -, kind, index⟩ := slot
  cases kind <;> exact ⟨element, ⟨_, _, temp⟩, ⟨rfl, rfl⟩, rfl⟩

omit hm in
theorem discard (here : block[p]? = some (.pop .temp 0)) :
    m.Leads block ⟨p, a, v :: stack⟩ ⟨p + 1, a, stack⟩ := by
  apply of_exec (located_cons.mpr ⟨here, located_nil.mpr rfl⟩)
  intro element world agree
  exact ⟨element, { world with temp := v }, ⟨agree.heap, agree.statics⟩, rfl⟩

omit hm in
theorem add {i base : W} (here : block[p]? = some (.arithmetic .add)) :
    m.Leads block ⟨p, a, base :: i :: stack⟩ ⟨p + 1, a, m.add i base :: stack⟩ :=
  of_advance fun _ _ => advance_of_step here rfl

omit hm in
theorem complement (here : block[p]? = some (.arithmetic .not)) :
    m.Leads block ⟨p, a, v :: stack⟩ ⟨p + 1, a, m.not v :: stack⟩ :=
  of_advance fun _ _ => advance_of_step here rfl

omit hm in
/-- The value waits in the temporary word until pointer 1 holds the address. -/
theorem assignElement {address : W}
    (here : Located block p [.pop .temp 0, .pop .pointer 1, .push .temp 0, .pop .that 0] q) :
    m.Leads block ⟨p, a, v :: address :: stack⟩ ⟨q, a.put address v, stack⟩ := by
  apply of_exec here
  rintro element ⟨heap, statics, temp⟩ ⟨rfl, rfl⟩
  exact ⟨address, ⟨Function.update a.world.heap address v, a.world.statics, v⟩, ⟨rfl, rfl⟩, rfl⟩

omit hm in
theorem branch_taken (distinct : (labels block).Nodup)
    (here : Located block p [.ifGoto name, .goto other, .label name] q)
    (nonzero : v ≠ m.constant 0) :
    m.Leads block ⟨p, a, v :: stack⟩ ⟨q, a, stack⟩ := by
  obtain ⟨choice, -, beginning, rfl⟩ := here
  exact (ifGoto distinct choice beginning nonzero).trans (label beginning)

omit hm in
theorem branch_passed (distinct : (labels block).Nodup)
    (here : Located block p [.ifGoto name, .goto other, .label name] q)
    (zero : v = m.constant 0) (there : block[r]? = some (.label other)) :
    m.Leads block ⟨p, a, v :: stack⟩ ⟨r + 1, a, stack⟩ := by
  obtain ⟨choice, passing, -⟩ := here
  have passed : m.Leads block ⟨p, a, v :: stack⟩ ⟨p + 1, a, stack⟩ := ifGoto_zero choice zero
  exact (passed.trans (goto distinct passing there)).trans (label there)

theorem loop_tested {condition : Expression} (permitted : ∀ u ∈ condition.uses, u.Permitted env)
    (beginning : block[p]? = some (.label name))
    (evaluation : Located block (p + 1) (condition.code env) q)
    (complementing : block[q]? = some (.arithmetic .not))
    (computes : a.Computes (condition.eval m env a.frame) v b) :
    m.Leads block ⟨p, a, []⟩ ⟨q + 1, b, [m.not v]⟩ := by
  have evaluated : m.Leads block ⟨p + 1, a, []⟩ ⟨q, b, [v]⟩ :=
    expression hm permitted evaluation computes
  exact ((label beginning).trans evaluated).trans (complement complementing)

end Leads

theorem Arrives.onward (h : m.Arrives block x r b o)
    (k : m.Leads block ⟨r, b, []⟩ ⟨q, b, []⟩) : m.Arrives block x q b o := by
  cases o with
  | finished => exact Leads.trans h k
  | returned v => exact h

end Machine

section
variable {W : Type} [DecidableEq W] (m : Machine W) (block : List Instruction) (env : Environment)

/-- Whether runs through the code of a statement, wherever it stands in a block, do what some
execution of it does. -/
def Statement.Simulates (s : Statement) (a : Activation W) (o : Outcome W) (b : Activation W) :
    Prop :=
  (∀ u ∈ s.uses, u.Permitted env) → ∀ ifs whiles p q,
    Located block p (s.code env ifs whiles) q → m.Arrives block ⟨p, a, []⟩ q b o

/-- Whether runs through the code of statements in order do what some execution of them does. -/
def StatementsSimulate (body : List Statement) (a : Activation W) (o : Outcome W)
    (b : Activation W) : Prop :=
  (∀ u ∈ statementUses body, u.Permitted env) → ∀ ifs whiles p q,
    Located block p (statementCode env ifs whiles body) q → m.Arrives block ⟨p, a, []⟩ q b o

end

section
variable {W : Type} [DecidableEq W] {m : Machine W} {block : List Instruction} {env : Environment}
  {a b c d : Activation W} {o : Outcome W} {v x : W} {name : String} {value condition : Expression}
  {body otherwise rest : List Statement} {first : Statement} {ifs whiles p q r : Nat}

/-! ## Statements without others inside -/

section
variable (hm : m.IgnoresTemp)
include hm

theorem simulates_let {slot : Variable} (computes : a.Computes (value.eval m env a.frame) x b)
    (found : env.find? name = some slot) :
    (Statement.let name value).Simulates m block env a .finished (slot.assign m x b) := by
  intro permitted ifs whiles p q here
  rw [Statement.uses, List.forall_mem_cons] at permitted
  rw [Statement.code, located_append] at here
  obtain ⟨r, evaluation, assignment⟩ := here
  have evaluated : m.Leads block ⟨p, a, []⟩ ⟨r, b, [x]⟩ :=
    .expression hm permitted.2 evaluation computes
  exact evaluated.trans (.store found assignment)

theorem simulates_letElement {index : Expression} {i base : W}
    (indexed : a.Computes (index.eval m env a.frame) i b)
    (based : b.Computes (m.variableValue env b.frame name) base c)
    (computes : c.Computes (value.eval m env c.frame) x d) :
    (Statement.letElement name index value).Simulates m block env a .finished
      (d.put (m.add i base) x) := by
  intro permitted ifs whiles p q here
  rw [Statement.uses, List.forall_mem_cons, List.forall_mem_append] at permitted
  simp only [Statement.code, located_append] at here
  obtain ⟨t, ⟨s, ⟨r', ⟨r, indexing, loading⟩, adding, rfl⟩, evaluation⟩, assignment⟩ := here
  have atIndex : m.Leads block ⟨p, a, []⟩ ⟨r, b, [i]⟩ :=
    .expression hm permitted.2.1 indexing indexed
  have atBase : m.Leads block ⟨r, b, [i]⟩ ⟨r', c, [base, i]⟩ := .load permitted.1 loading based
  have atAddress : m.Leads block ⟨r', c, [base, i]⟩ ⟨r' + 1, c, [m.add i base]⟩ := .add adding
  have atValue : m.Leads block ⟨r' + 1, c, [m.add i base]⟩ ⟨t, d, [x, m.add i base]⟩ :=
    .expression hm permitted.2.2 evaluation computes
  exact ((atIndex.trans atBase).trans (atAddress.trans atValue)).trans (.assignElement assignment)

theorem simulates_do {callee : Callee} {arguments : List Expression}
    (computes : a.Computes ((Term.call callee arguments).eval m env a.frame) v b) :
    (Statement.do callee arguments).Simulates m block env a .finished b := by
  intro permitted ifs whiles p q here
  rw [Statement.code, located_append] at here
  obtain ⟨r, evaluation, discarding, rfl⟩ := here
  have evaluated : m.Leads block ⟨p, a, []⟩ ⟨r, b, [v]⟩ :=
    .term (t := .call callee arguments) hm permitted evaluation computes
  exact evaluated.trans (.discard discarding)

theorem simulates_returnValue (computes : a.Computes (value.eval m env a.frame) v b) :
    (Statement.return (some value)).Simulates m block env a (.returned v) b := by
  intro permitted ifs whiles p q here
  rw [Statement.code, located_append] at here
  obtain ⟨r, evaluation, returning, rfl⟩ := here
  exact ⟨r, returning, .expression hm permitted evaluation computes⟩

end

theorem simulates_return :
    (Statement.return none).Simulates m block env a (.returned (m.constant 0)) a := by
  intro _ ifs whiles p q here
  obtain ⟨pushing, returning, rfl⟩ := here
  exact ⟨p + 1, returning, .of_advance fun _ _ => Machine.advance_of_step pushing rfl⟩

/-! ## Conditionals -/

theorem located_ifElse
    (here : Located block p ((Statement.ifElse condition body otherwise).code env ifs whiles) q) :
    ∃ r s t u, Located block p (condition.code env) r ∧
      Located block r [.ifGoto (Compilation.ifTrueLabel ifs),
        .goto (Compilation.ifFalseLabel ifs), .label (Compilation.ifTrueLabel ifs)] s ∧
      Located block s (statementCode env (ifs + 1) whiles body) t ∧
      block[t]? = some (.goto (Compilation.ifEndLabel ifs)) ∧
      block[t + 1]? = some (.label (Compilation.ifFalseLabel ifs)) ∧
      Located block (t + 1 + 1) (statementCode env (ifs + 1 + ifCount body)
        (whiles + whileCount body) otherwise) u ∧
      block[u]? = some (.label (Compilation.ifEndLabel ifs)) ∧ u + 1 = q := by
  simp only [Statement.code, located_append] at here
  obtain ⟨u, ⟨_, ⟨t, ⟨s, ⟨r, evaluation, branch⟩, first⟩, leaving, beginning, rfl⟩, second⟩,
    ending, rfl⟩ := here
  exact ⟨r, s, t, u, evaluation, branch, first, leaving, beginning, second, ending, rfl⟩

section
variable (hm : m.IgnoresTemp) (distinct : (labels block).Nodup)
include hm distinct

theorem simulates_ifTaken (computes : a.Computes (condition.eval m env a.frame) v b)
    (nonzero : v ≠ m.constant 0) (inside : StatementsSimulate m block env body b o c) :
    (Statement.if condition body).Simulates m block env a o c := by
  intro permitted ifs whiles p q here
  rw [Statement.uses, List.forall_mem_append] at permitted
  simp only [Statement.code, located_append] at here
  obtain ⟨t, ⟨s, ⟨r, evaluation, branch⟩, branchBody⟩, ending, rfl⟩ := here
  have evaluated : m.Leads block ⟨p, a, []⟩ ⟨r, b, [v]⟩ :=
    .expression hm permitted.1 evaluation computes
  have entered := evaluated.trans (.branch_taken distinct branch nonzero)
  have executed := entered.arrives (inside permitted.2 _ _ s t branchBody)
  exact executed.onward (.label ending)

theorem simulates_ifPassed (computes : a.Computes (condition.eval m env a.frame) v b)
    (zero : v = m.constant 0) :
    (Statement.if condition body).Simulates m block env a .finished b := by
  intro permitted ifs whiles p q here
  rw [Statement.uses, List.forall_mem_append] at permitted
  simp only [Statement.code, located_append] at here
  obtain ⟨t, ⟨s, ⟨r, evaluation, branch⟩, -⟩, ending, rfl⟩ := here
  have evaluated : m.Leads block ⟨p, a, []⟩ ⟨r, b, [v]⟩ :=
    .expression hm permitted.1 evaluation computes
  exact evaluated.trans (.branch_passed distinct branch zero ending)

theorem simulates_ifElseTaken (computes : a.Computes (condition.eval m env a.frame) v b)
    (nonzero : v ≠ m.constant 0) (inside : StatementsSimulate m block env body b o c) :
    (Statement.ifElse condition body otherwise).Simulates m block env a o c := by
  intro permitted ifs whiles p q here
  rw [Statement.uses, List.forall_mem_append, List.forall_mem_append] at permitted
  obtain ⟨r, s, t, u, evaluation, branch, first, leaving, -, -, ending, rfl⟩ := located_ifElse here
  have evaluated : m.Leads block ⟨p, a, []⟩ ⟨r, b, [v]⟩ :=
    .expression hm permitted.1 evaluation computes
  have entered := evaluated.trans (.branch_taken distinct branch nonzero)
  have executed := entered.arrives (inside permitted.2.1 _ _ s t first)
  have left : m.Leads block ⟨t, c, []⟩ ⟨u, c, []⟩ := .goto distinct leaving ending
  exact executed.onward (left.trans (.label ending))

theorem simulates_ifElseOther (computes : a.Computes (condition.eval m env a.frame) v b)
    (zero : v = m.constant 0) (inside : StatementsSimulate m block env otherwise b o c) :
    (Statement.ifElse condition body otherwise).Simulates m block env a o c := by
  intro permitted ifs whiles p q here
  rw [Statement.uses, List.forall_mem_append, List.forall_mem_append] at permitted
  obtain ⟨r, s, t, u, evaluation, branch, -, -, beginning, second, ending, rfl⟩ :=
    located_ifElse here
  have evaluated : m.Leads block ⟨p, a, []⟩ ⟨r, b, [v]⟩ :=
    .expression hm permitted.1 evaluation computes
  have entered := evaluated.trans (.branch_passed distinct branch zero beginning)
  have executed := entered.arrives (inside permitted.2.2 _ _ _ u second)
  exact executed.onward (.label ending)

end

/-! ## Loops -/

theorem located_while
    (here : Located block p ((Statement.while condition body).code env ifs whiles) q) :
    ∃ r t, block[p]? = some (.label (Compilation.whileStartLabel whiles)) ∧
      Located block (p + 1) (condition.code env) r ∧ block[r]? = some (.arithmetic .not) ∧
      block[r + 1]? = some (.ifGoto (Compilation.whileEndLabel whiles)) ∧
      Located block (r + 1 + 1) (statementCode env ifs (whiles + 1) body) t ∧
      block[t]? = some (.goto (Compilation.whileStartLabel whiles)) ∧
      block[t + 1]? = some (.label (Compilation.whileEndLabel whiles)) ∧ t + 1 + 1 = q := by
  simp only [Statement.code, located_append] at here
  obtain ⟨t, ⟨_, ⟨r, ⟨_, ⟨beginning, rfl⟩, evaluation⟩, complementing, choice, rfl⟩, loop⟩, back,
    ending, rfl⟩ := here
  exact ⟨r, t, beginning, evaluation, complementing, choice, loop, back, ending, rfl⟩

section
variable (hm : m.IgnoresTemp)
include hm

theorem simulates_whileDone (distinct : (labels block).Nodup)
    (computes : a.Computes (condition.eval m env a.frame) v b)
    (ends : m.not v ≠ m.constant 0) :
    (Statement.while condition body).Simulates m block env a .finished b := by
  intro permitted ifs whiles p q here
  rw [Statement.uses, List.forall_mem_append] at permitted
  obtain ⟨r, t, beginning, evaluation, complementing, choice, -, -, ending, rfl⟩ :=
    located_while here
  have tested :=
    Machine.Leads.loop_tested hm permitted.1 beginning evaluation complementing computes
  exact (tested.trans (.ifGoto distinct choice ending ends)).trans (.label ending)

theorem simulates_whileAgain (distinct : (labels block).Nodup)
    (computes : a.Computes (condition.eval m env a.frame) v b)
    (goes : m.not v = m.constant 0)
    (inside : StatementsSimulate m block env body b .finished c)
    (again : (Statement.while condition body).Simulates m block env c o d) :
    (Statement.while condition body).Simulates m block env a o d := by
  intro permitted ifs whiles p q here
  have afterwards := again permitted ifs whiles p q here
  rw [Statement.uses, List.forall_mem_append] at permitted
  obtain ⟨r, t, beginning, evaluation, complementing, choice, loop, back, -⟩ := located_while here
  have tested :=
    Machine.Leads.loop_tested hm permitted.1 beginning evaluation complementing computes
  have executed : m.Leads block ⟨r + 1 + 1, b, []⟩ ⟨t, c, []⟩ := inside permitted.2 _ _ _ t loop
  have returned : m.Leads block ⟨t, c, []⟩ ⟨p, c, []⟩ := .goto distinct back beginning
  exact (((tested.trans (.ifGoto_zero choice goes)).trans executed).trans returned).arrives
    afterwards

theorem simulates_whileReturned (computes : a.Computes (condition.eval m env a.frame) v b)
    (goes : m.not v = m.constant 0)
    (inside : StatementsSimulate m block env body b (.returned x) c) :
    (Statement.while condition body).Simulates m block env a (.returned x) c := by
  intro permitted ifs whiles p q here
  rw [Statement.uses, List.forall_mem_append] at permitted
  obtain ⟨r, t, beginning, evaluation, complementing, choice, loop, -⟩ := located_while here
  have tested :=
    Machine.Leads.loop_tested hm permitted.1 beginning evaluation complementing computes
  have executed := inside permitted.2 _ _ _ t loop
  exact (tested.trans (.ifGoto_zero choice goes)).arrives executed

end

/-! ## Statements in order -/

theorem simulates_nil : StatementsSimulate m block env [] a .finished a := by
  intro _ ifs whiles p q here
  obtain rfl := located_nil.mp here
  exact .refl _

theorem simulates_cons
    (head : first.Simulates m block env a .finished b)
    (tail : StatementsSimulate m block env rest b o c) :
    StatementsSimulate m block env (first :: rest) a o c := by
  intro permitted ifs whiles p q here
  rw [statementUses, List.forall_mem_append] at permitted
  simp only [statementCode, located_append] at here
  obtain ⟨r, started, continued⟩ := here
  have executed : m.Leads block ⟨p, a, []⟩ ⟨r, b, []⟩ := head permitted.1 _ _ p r started
  exact executed.arrives (tail permitted.2 _ _ r q continued)

theorem simulates_stop
    (head : first.Simulates m block env a (.returned v) b) :
    StatementsSimulate m block env (first :: rest) a (.returned v) b := by
  intro permitted ifs whiles p q here
  rw [statementUses, List.forall_mem_append] at permitted
  simp only [statementCode, located_append] at here
  obtain ⟨r, started, -⟩ := here
  exact head permitted.1 _ _ p r started

/-- Runs through the code of statements do what their execution does. -/
theorem StatementsExecute.simulates (hm : m.IgnoresTemp) (distinct : (labels block).Nodup)
    (h : StatementsExecute m env body a o b) : StatementsSimulate m block env body a o b := by
  -- The execution of a loop contains further executions of the same loop, so the induction is on
  -- the execution and not on the statements.
  apply @StatementsExecute.rec W _ m env
    (fun s a o b _ => s.Simulates m block env a o b)
    (fun body a o b _ => StatementsSimulate m block env body a o b)
  case «let» => exact fun computes found => simulates_let hm computes found
  case letElement =>
    exact fun indexed based computes => simulates_letElement hm indexed based computes
  case ifTaken =>
    exact fun computes nonzero _ inside => simulates_ifTaken hm distinct computes nonzero inside
  case ifPassed => exact fun computes zero => simulates_ifPassed hm distinct computes zero
  case ifElseTaken =>
    exact fun computes nonzero _ inside => simulates_ifElseTaken hm distinct computes nonzero inside
  case ifElseOther =>
    exact fun computes zero _ inside => simulates_ifElseOther hm distinct computes zero inside
  case whileDone => exact fun computes ends => simulates_whileDone hm distinct computes ends
  case whileAgain =>
    exact fun computes goes _ _ inside again =>
      simulates_whileAgain hm distinct computes goes inside again
  case whileReturned =>
    exact fun computes goes _ inside => simulates_whileReturned hm computes goes inside
  case «do» => exact fun computes => simulates_do hm computes
  case «return» => exact simulates_return
  case returnValue => exact fun computes => simulates_returnValue hm computes
  case nil => exact simulates_nil
  case cons => exact fun _ _ head tail => simulates_cons head tail
  case stop => exact fun _ head => simulates_stop head
  exact h

/-- The prologue of a subroutine takes or makes its object. -/
theorem leads_prologue (hm : m.IgnoresTemp) (fields : Nat) (form : SubroutineForm)
    (here : Located block p (Compilation.SubroutineForm.prologue fields form) q) :
    m.Leads block ⟨p, a, []⟩ ⟨q, form.enter m fields a, []⟩ := by
  apply Machine.Leads.of_exec here
  intro element world agree
  cases form with
  | function => exact ⟨element, world, agree, rfl⟩
  | method => exact ⟨element, world, agree, rfl⟩
  | constructor =>
    obtain ⟨same, left⟩ := hm "Memory.alloc" [m.constant fields] world a.world agree
    have entered : SubroutineForm.constructor.enter m fields a =
        ⟨{ a.frame with object := (m.answer "Memory.alloc" [m.constant fields] world).1 },
          (m.answer "Memory.alloc" [m.constant fields] a.world).2⟩ := by
      rw [SubroutineForm.enter, same]
    rw [entered]
    exact ⟨element, _, left, rfl⟩

end

/-- Runs of the block of a subroutine do what the execution of the subroutine does. -/
theorem SubroutineDec.arrives {W : Type} [DecidableEq W] {m : Machine W} (hm : m.IgnoresTemp)
    {c : ClassDec} {d : SubroutineDec} (valid : d.Valid c) {a b : Activation W} {o : Outcome W}
    (h : d.Executes m c a o b) :
    m.Arrives (d.code c) ⟨0, a, []⟩ (d.code c).length b o := by
  have parts : Located (d.code c) 0 ([.function (c.name ++ "." ++ d.name) d.localCount] ++
      Compilation.SubroutineForm.prologue c.fieldCount d.form ++
      statementCode (d.environment c) 0 0 d.body) (d.code c).length := located_self (d.code c)
  simp only [located_append] at parts
  obtain ⟨r, ⟨_, ⟨beginning, rfl⟩, prologue⟩, statements⟩ := parts
  have begun : m.Leads (d.code c) ⟨0, a, []⟩ ⟨0 + 1, a, []⟩ :=
    .of_advance fun _ _ => Machine.advance_of_function beginning
  have entered := begun.trans (leads_prologue hm c.fieldCount d.form prologue)
  exact entered.arrives (h.simulates hm (d.nodup_labels c) valid.permitted 0 0 r _ statements)

/-- Whatever compiles does in the block of each subroutine what its source does. If the execution of
the source returns a value then the run of the block comes to a return with just that value on the
stack; if it comes to the end without, so does the run. The locals, the arguments, the heap and the
statics are then the same. -/
theorem compile_statements_simulate (source : ByteArray) (code : Code)
    (h : compile source = .ok code) :
    ∃ (text : String) (c : ClassDec), String.fromUTF8? source = some text ∧
      c.lexemes = sourceLexemes text ∧
      (functionBlocks code.instructions).flatten = code.instructions ∧
      functionBlocks code.instructions = c.subroutines.map (fun d => d.code c) ∧
      ∀ d ∈ c.subroutines, ∀ (W : Type) [DecidableEq W] (m : Machine W), m.IgnoresTemp →
        ∀ (a b : Activation W) (o : Outcome W), d.Executes m c a o b →
          m.Arrives (d.code c) ⟨0, a, []⟩ (d.code c).length b o := by
  obtain ⟨text, c, decoded, derives, valid, flat, blocks⟩ := compile_blocks h
  refine ⟨text, c, decoded, derives, flat, blocks, ?_⟩
  intro d hd W _ m hm a b o executes
  exact SubroutineDec.arrives hm (valid.subroutines d hd) executes

/-- A machine of unbounded integers on which every call answers zero. -/
def integers : Machine Int where
  constant n := n
  neg x := -x
  not x := -x - 1
  add x y := x + y
  sub x y := x - y
  eq x y := if x = y then -1 else 0
  gt x y := if x > y then -1 else 0
  lt x y := if x < y then -1 else 0
  and x y := if x = 0 then 0 else y
  or x y := if x = 0 then y else x
  answer _ _ world := (0, world)

theorem integers_ignoresTemp : integers.IgnoresTemp :=
  fun _ _ _ _ agree => ⟨rfl, agree⟩

/-- A loop that fills an array from its end. -/
def filling : SubroutineDec where
  form := .function
  result := some .int
  name := "f"
  parameters := [⟨.int, "n"⟩, ⟨.named "Array", "a"⟩]
  varDecs := []
  body := [
    .while (.mk (.variable "n") [(.greater, .integer "0")]) [
      .letElement "a" (.mk (.variable "n") []) (.mk (.variable "n") []),
      .let "n" (.mk (.variable "n") [(.subtract, .integer "1")])],
    .return (some (.mk (.element "a" (.mk (.integer "1") [])) []))]

def unfilled : Activation Int :=
  ⟨⟨fun _ => 0, fun i => if i = 0 then 1 else 0, 0⟩, ⟨fun _ => 0, fun _ => 0, 0⟩⟩

def filled : Activation Int :=
  (⟨"n", "int", .argument, 0⟩ : Variable).assign integers 0 (unfilled.put 1 1)

theorem filling_executes :
    filling.Executes integers ⟨"P", [], [filling]⟩ unfilled (.returned 1) filled := by
  have index : unfilled.Computes (Expression.eval integers
      (filling.environment ⟨"P", [], [filling]⟩) unfilled.frame (.mk (.variable "n") []))
      1 unfilled := ⟨rfl, rfl⟩
  have base : unfilled.Computes (integers.variableValue
      (filling.environment ⟨"P", [], [filling]⟩) unfilled.frame "a") 0 unfilled := ⟨rfl, rfl⟩
  refine .cons (b := filled)
    (.whileAgain (v := -1) (b := unfilled) (c := filled) ⟨rfl, rfl⟩ rfl ?_ ?_) ?_
  · refine .cons (b := unfilled.put 1 1) (.letElement index base index) ?_
    exact .cons (.let (b := unfilled.put 1 1) (v := ⟨"n", "int", .argument, 0⟩) (x := 0)
      ⟨rfl, rfl⟩ rfl) .nil
  · exact .whileDone (v := 0) ⟨rfl, rfl⟩ (by decide)
  · exact .stop (.returnValue ⟨rfl, rfl⟩)

theorem compile_statements_simulate_filling :
    ∃ source code, compile source = .ok code ∧
      ∃ (text : String) (c : ClassDec), String.fromUTF8? source = some text ∧
        c.lexemes = sourceLexemes text ∧ c.subroutines = [filling] ∧
        code.instructions = filling.code c ∧
        ∃ a b : Activation Int, filling.Executes integers c a (.returned 1) b ∧
          integers.Arrives code.instructions ⟨0, a, []⟩ code.instructions.length b
            (.returned 1) := by
  have run : compile "class P \x7b function int f(int n, Array a) \x7b
      while (n > 0) \x7b let a[n] = n; let n = n - 1; \x7d return a[1]; \x7d \x7d".toUTF8 =
      .ok (.ofRows [⟨.function "P.f" 0, 1⟩, ⟨.label "WHILE_EXP0", 2⟩, ⟨.push .argument 0, 2⟩,
        ⟨.push .constant 0, 2⟩, ⟨.arithmetic .gt, 2⟩, ⟨.arithmetic .not, 2⟩,
        ⟨.ifGoto "WHILE_END0", 2⟩, ⟨.push .argument 0, 2⟩, ⟨.push .argument 1, 2⟩,
        ⟨.arithmetic .add, 2⟩, ⟨.push .argument 0, 2⟩, ⟨.pop .temp 0, 2⟩, ⟨.pop .pointer 1, 2⟩,
        ⟨.push .temp 0, 2⟩, ⟨.pop .that 0, 2⟩, ⟨.push .argument 0, 2⟩, ⟨.push .constant 1, 2⟩,
        ⟨.arithmetic .sub, 2⟩, ⟨.pop .argument 0, 2⟩, ⟨.goto "WHILE_EXP0", 2⟩,
        ⟨.label "WHILE_END0", 2⟩, ⟨.push .constant 1, 2⟩, ⟨.push .argument 1, 2⟩,
        ⟨.arithmetic .add, 2⟩, ⟨.pop .pointer 1, 2⟩, ⟨.push .that 0, 2⟩, ⟨.return, 2⟩]) := by
    rw [compile_ofList]
    decide +kernel
  obtain ⟨text, c, decoded, derives, -, -, simulates⟩ := compile_statements_simulate _ _ run
  obtain rfl : c = ⟨"P", [], [filling]⟩ := by
    apply ClassDec.lexemes_injective
    obtain rfl := Option.some.inj (decoded.symm.trans (fromUTF8?_toUTF8 _))
    rw [derives]
    decide +kernel
  have arrives := simulates filling (List.mem_singleton_self _) Int integers integers_ignoresTemp
    unfilled filled _ filling_executes
  exact ⟨_, _, run, text, _, decoded, derives, rfl, rfl, unfilled, filled, filling_executes,
    arrives⟩

end JackVm

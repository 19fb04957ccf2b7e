import JackVm.Proofs.Compilation.Window
import Mathlib.Tactic.Simps.Basic

/-!
# Progress of a compilation

An output is what one stretch of a compilation takes from its source and adds to its state: the
lexemes taken, the instructions written, the trace events and the labels used up. Outputs join one
after the other. `Compiles s o t` says that a compilation has gone from `s` to `t` with output `o`,
and leaves the names in scope alone.
-/

namespace JackVm

@[ext] structure Output where
  lexemes : List Lexeme := []
  code : List Instruction := []
  /-- The place of the token whose line each instruction records, in the window at the start. -/
  anchors : List Nat := []
  events : List TraceEvent := []
  ifs : Nat := 0
  whiles : Nat := 0
  deriving DecidableEq, Repr

namespace Output

def append (a b : Output) : Output where
  lexemes := a.lexemes ++ b.lexemes
  code := a.code ++ b.code
  anchors := a.anchors ++ b.anchors.map (a.lexemes.length + ·)
  events := a.events ++ b.events
  ifs := a.ifs + b.ifs
  whiles := a.whiles + b.whiles

instance : Append Output := ⟨append⟩

@[simps] def took (l : Lexeme) : Output :=
  { lexemes := [l], events := [.terminal l] }

/-- Instructions that record the line of the token at a place of the window. -/
@[simps] def wrote (code : List Instruction) (place : Nat := 0) : Output :=
  { code, anchors := code.map fun _ => place }

/-- An output followed by instructions whose line is that of a place at its start. -/
@[simps] def thenWrote (o : Output) (code : List Instruction) (place : Nat := 0) : Output :=
  { o with code := o.code ++ code, anchors := o.anchors ++ code.map fun _ => place }

/-- The output of a production, given that of its body. -/
@[simps] def within (p : Production) (o : Output) : Output :=
  { o with events := .opened p.name :: (o.events ++ [.closed]) }

@[simps] def oneIf : Output := { ifs := 1 }

@[simps] def oneWhile : Output := { whiles := 1 }

@[simp] theorem lexemes_append (a b : Output) : (a ++ b).lexemes = a.lexemes ++ b.lexemes := rfl

@[simp] theorem code_append (a b : Output) : (a ++ b).code = a.code ++ b.code := rfl

@[simp] theorem ifs_append (a b : Output) : (a ++ b).ifs = a.ifs + b.ifs := rfl

@[simp] theorem whiles_append (a b : Output) : (a ++ b).whiles = a.whiles + b.whiles := rfl

theorem append_assoc (a b c : Output) : a ++ b ++ c = a ++ (b ++ c) := by
  show append (append a b) c = append a (append b c)
  simp [append, Nat.add_assoc]

theorem append_empty (o : Output) : o ++ ({} : Output) = o := by
  show Output.mk .. = o
  simp

end Output

/-- What a compilation has taken and written on its way from `s` to `t`. -/
structure Progress (s : CompilerState) (o : Output) (t : CompilerState) : Prop where
  takes : Takes s.window o.lexemes
  window : t.window = s.window.drop o.lexemes.length
  instructions : t.code.instructions = s.code.instructions ++ o.code
  lines : t.code.lines = s.code.lines ++ o.anchors.map s.lineAt
  trace : t.trace = s.trace.map fun r => ⟨r.events ++ o.events.toArray⟩

/-- Progress inside a subroutine, where names keep their meaning and labels are counted. -/
structure Compiles (s : CompilerState) (o : Output) (t : CompilerState) : Prop
    extends Progress s o t where
  className : t.className = s.className
  scopes : t.scopes = s.scopes
  ifLabels : t.ifLabels = s.ifLabels + o.ifs
  whileLabels : t.whileLabels = s.whileLabels + o.whiles

section
variable {s t u : CompilerState} {a b o : Output}

theorem Progress.lineAt (h : Progress s o t) (place : Nat) :
    t.lineAt place = s.lineAt (o.lexemes.length + place) := by
  rw [CompilerState.lineAt, CompilerState.lineAt, h.window, Stream'.get_drop]

theorem Progress.refl (s : CompilerState) : Progress s {} s where
  takes := trivial
  window := rfl
  instructions := by simp
  lines := by simp
  trace := by cases s.trace <;> simp

theorem Progress.trans (first : Progress s a t) (second : Progress t b u) :
    Progress s (a ++ b) u where
  takes := (takes_append ..).mpr ⟨first.takes, first.window ▸ second.takes⟩
  window := by simp [second.window, first.window, Stream'.drop_drop]
  instructions := by simp [second.instructions, first.instructions]
  lines := by
    rw [second.lines, first.lines, List.append_assoc]
    congr 1
    show _ = List.map s.lineAt (a.anchors ++ b.anchors.map (a.lexemes.length + ·))
    rw [List.map_append, List.map_map]
    congr 1
    exact List.map_congr_left fun place _ => first.lineAt place
  trace := by
    rw [second.trace, first.trace]
    show _ = s.trace.map fun r => Trace.mk <| r.events ++ (a.events ++ b.events).toArray
    cases s.trace <;> simp

theorem Progress.takes_rest (h : Progress s o t) (rest : List Lexeme)
    (ahead : Takes s.window (o.lexemes ++ rest)) : Takes t.window rest :=
  h.window ▸ ((takes_append ..).mp ahead).2

theorem Compiles.refl (s : CompilerState) : Compiles s {} s :=
  ⟨.refl s, rfl, rfl, rfl, rfl⟩

theorem Compiles.trans (first : Compiles s a t) (second : Compiles t b u) :
    Compiles s (a ++ b) u where
  toProgress := first.toProgress.trans second.toProgress
  className := second.className.trans first.className
  scopes := second.scopes.trans first.scopes
  ifLabels := by rw [second.ifLabels, first.ifLabels, Nat.add_assoc]; rfl
  whileLabels := by rw [second.whileLabels, first.whileLabels, Nat.add_assoc]; rfl

end

end JackVm

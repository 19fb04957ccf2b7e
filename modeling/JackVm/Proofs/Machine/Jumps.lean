import JackVm.Proofs.Machine.StackSafety
import JackVm.Proofs.Translation.Labels

/-!
# Jumps of compiled code

In each block of compiled code the labels and the jumps belong together one to one. The labels are
those of the conditionals and the loops of the block's own subroutine, and these are numbered from
zero in the order in which the source begins them.
-/

namespace JackVm

/-- Whether the labels of a block and its jumps belong together. -/
structure LabelsMatch (block : List Instruction) : Prop where
  distinct : (labels block).Nodup
  defined (name : String) : name ∈ jumps block → name ∈ labels block
  once (name : String) : name ∈ labels block → (jumps block).count name = 1

/-- Whether the block of a subroutine numbers its conditionals and its loops in order. -/
structure NumbersInOrder (c : ClassDec) (d : SubroutineDec) : Prop where
  ifs : (d.placements.filter (·.statement.isIf)).map Placement.ifNumber =
    List.range (d.lexemes.count (.keyword .if))
  whiles : (d.placements.filter (·.statement.isWhile)).map Placement.whileNumber =
    List.range (d.lexemes.count (.keyword .while))
  stands (p : Placement) : p ∈ d.placements → p.front ++ p.statement.lexemes <+: d.lexemes
  translated (p : Placement) : p ∈ d.placements →
    p.statement.code (d.environment c) p.ifNumber p.whileNumber <:+: d.code c
  labels : (labels (d.code c)).Perm (d.placements.flatMap Placement.labels)

theorem SubroutineDec.labelsMatch (d : SubroutineDec) (c : ClassDec) :
    LabelsMatch (d.code c) where
  distinct := d.nodup_labels c
  defined _ named := (d.perm_jumps c).mem_iff.mp named
  once name here := by
    rw [(d.perm_jumps c).count_eq]
    exact List.count_eq_one_of_mem (d.nodup_labels c) here

theorem SubroutineDec.numbersInOrder (d : SubroutineDec) (c : ClassDec) :
    NumbersInOrder c d where
  ifs := by
    rw [d.inOrder.ifs, List.range_eq_range']
    rfl
  whiles := by
    rw [d.inOrder.whiles, List.range_eq_range']
    rfl
  stands := d.stands
  translated := d.contains c
  labels := d.perm_labels c

/-- In each block of whatever compiles the labels and the jumps belong together, and the numbers in
the labels are those of the conditionals and the loops of its subroutine, in order. -/
theorem compile_labels_match (source : ByteArray) (code : Code) (h : compile source = .ok code) :
    ∃ (text : String) (c : ClassDec), String.fromUTF8? source = some text ∧
      c.lexemes = sourceLexemes text ∧
      (functionBlocks code.instructions).flatten = code.instructions ∧
      functionBlocks code.instructions = c.subroutines.map (fun d => d.code c) ∧
      ∀ d ∈ c.subroutines, LabelsMatch (d.code c) ∧ NumbersInOrder c d := by
  obtain ⟨text, c, decoded, derives, -, flat, blocks⟩ := compile_blocks h
  exact ⟨text, c, decoded, derives, flat, blocks,
    fun d _ => ⟨d.labelsMatch c, d.numbersInOrder c⟩⟩

theorem compile_labels_match_nested :
    ∃ source code, compile source = .ok code ∧
      code.instructions = [.function "P.f" 0, .push .argument 0, .ifGoto "IF_TRUE0",
        .goto "IF_FALSE0", .label "IF_TRUE0", .label "WHILE_EXP0", .push .argument 0,
        .arithmetic .not, .ifGoto "WHILE_END0", .push .argument 0, .ifGoto "IF_TRUE1",
        .goto "IF_FALSE1", .label "IF_TRUE1", .label "IF_FALSE1", .goto "WHILE_EXP0",
        .label "WHILE_END0", .goto "IF_END0", .label "IF_FALSE0", .label "IF_END0",
        .function "P.g" 0, .push .argument 0, .ifGoto "IF_TRUE0", .goto "IF_FALSE0",
        .label "IF_TRUE0", .label "IF_FALSE0"] ∧
      ∃ (text : String) (c : ClassDec), String.fromUTF8? source = some text ∧
        c.lexemes = sourceLexemes text ∧
        (functionBlocks code.instructions).flatten = code.instructions ∧
        functionBlocks code.instructions = c.subroutines.map (fun d => d.code c) ∧
        ∀ d ∈ c.subroutines, LabelsMatch (d.code c) ∧ NumbersInOrder c d := by
  have run : compile "class P \x7b
      function void f(int x) \x7b
        if (x) \x7b while (x) \x7b if (x) \x7b \x7d \x7d \x7d else \x7b \x7d \x7d
      function void g(int x) \x7b if (x) \x7b \x7d \x7d \x7d".toUTF8 =
      .ok (.ofRows [⟨.function "P.f" 0, 2⟩, ⟨.push .argument 0, 3⟩, ⟨.ifGoto "IF_TRUE0", 3⟩,
        ⟨.goto "IF_FALSE0", 3⟩, ⟨.label "IF_TRUE0", 3⟩, ⟨.label "WHILE_EXP0", 3⟩,
        ⟨.push .argument 0, 3⟩, ⟨.arithmetic .not, 3⟩, ⟨.ifGoto "WHILE_END0", 3⟩,
        ⟨.push .argument 0, 3⟩, ⟨.ifGoto "IF_TRUE1", 3⟩, ⟨.goto "IF_FALSE1", 3⟩,
        ⟨.label "IF_TRUE1", 3⟩, ⟨.label "IF_FALSE1", 3⟩, ⟨.goto "WHILE_EXP0", 3⟩,
        ⟨.label "WHILE_END0", 3⟩, ⟨.goto "IF_END0", 3⟩, ⟨.label "IF_FALSE0", 3⟩,
        ⟨.label "IF_END0", 3⟩, ⟨.function "P.g" 0, 4⟩, ⟨.push .argument 0, 4⟩,
        ⟨.ifGoto "IF_TRUE0", 4⟩, ⟨.goto "IF_FALSE0", 4⟩, ⟨.label "IF_TRUE0", 4⟩,
        ⟨.label "IF_FALSE0", 4⟩]) := by
    rw [compile_ofList]
    decide +kernel
  exact ⟨_, _, run, rfl, compile_labels_match _ _ run⟩

end JackVm

import JackVm.Proofs.Compilation.Prediction

/-!
# Prediction of expressions

An expression is read up to the token that ends it, which no expression goes on with. Bounds grow
with the tokens ahead, so none is ever used up.
-/

namespace JackVm

open Compilation
open scoped Computability

/-- The tokens that an expression can stand in front of. -/
def closers : List TokenKind :=
  [.mark .rightParen, .mark .rightBracket, .mark .comma, .mark .semicolon]

def termStarts : List TokenKind :=
  constants ++ [.identifier, .mark .leftParen, .mark .minus, .mark .tilde]

/-- Whether a compilation reads a language in front of some kinds of tokens. -/
def ReadsBefore {α : Type} (source : Stream' Token) (follow : List TokenKind) (n : Nat)
    (L : Language TokenKind) (x : Compilation α) : Prop :=
  ∀ K, StartsIn follow K → Reads source n (L * K) x n K

theorem cons_mem_termTexts_mul {k : TokenKind} {w : List TokenKind} {L : Language TokenKind} :
    k :: w ∈ termTexts * L ↔ k ∈ constants ∧ w ∈ L ∨
      k = .identifier ∧ w ∈ (1 + indexTexts + callTexts) * L ∨
      k = .mark .leftParen ∧ w ∈ expressionTexts * (token (.mark .rightParen) * L) ∨
      k ∈ [.mark .minus, .mark .tilde] ∧ w ∈ termTexts * L := by
  conv_lhs => rw [termTexts_eq]
  simp only [add_mul, mul_assoc, Language.mem_add, cons_mem_oneOf_mul, List.mem_singleton]
  tauto

theorem startsIn_termTexts_mul {L : Language TokenKind} : StartsIn termStarts (termTexts * L) := by
  intro k w hw
  rw [cons_mem_termTexts_mul] at hw
  simp only [termStarts, List.mem_append, List.mem_cons] at hw ⊢
  tauto

theorem startsIn_expressionTexts_mul {L : Language TokenKind} :
    StartsIn termStarts (expressionTexts * L) := by
  rw [expressionTexts_eq, mul_assoc]
  exact startsIn_termTexts_mul

@[simp] theorem possible_termTexts : Possible termTexts :=
  ⟨_, .constant .null, rfl⟩

@[simp] theorem possible_expressionTexts : Possible expressionTexts :=
  ⟨_, .mk (.constant .null) [], rfl⟩

@[simp] theorem possible_argumentTexts : Possible argumentTexts :=
  ⟨_, [], rfl⟩

@[simp] theorem possible_callTexts : Possible callTexts := by
  simp [callTexts]

@[simp] theorem possible_indexTexts : Possible indexTexts := by
  simp [indexTexts]

theorem startsIn_callTexts_mul {L : Language TokenKind} :
    StartsIn [.mark .leftParen, .mark .dot] (callTexts * L) := by
  rw [callTexts]
  simp only [add_mul, one_mul, mul_assoc]
  exact (startsIn_oneOf_mul (by decide)).add (startsIn_oneOf_mul (by decide))

theorem startsIn_indexTexts_mul {L : Language TokenKind} :
    StartsIn [.mark .leftBracket] (indexTexts * L) := by
  rw [indexTexts, mul_assoc]
  exact startsIn_oneOf_mul (by decide)

theorem isSome_operator {k : TokenKind} : (BinaryOperator.ofKind? k).isSome ↔ k ∈ operators := by
  rw [Option.isSome_iff_exists]
  simp only [BinaryOperator.ofKind?_eq_some_iff, eq_comm (a := k)]
  rw [← exists_operator (p := (· = k)), exists_eq_right]

section
variable {source : Stream' Token} {n bound : Nat} {K : Language TokenKind}

/-! ## Indices and arguments -/

section
variable {argument : Compilation Unit}
  (reads : ∀ m ≤ n, ReadsBefore source closers m expressionTexts argument)
include reads

theorem elementAddress_reads (base : Variable) :
    Reads source n (indexTexts * K) (elementAddress argument base) (n - 1) K := by
  rw [indexTexts, mul_assoc, mul_assoc]
  apply Reads.expect_bind (by decide)
  apply Reads.bind (reads _ (Nat.sub_le ..) _ (startsIn_oneOf_mul (by decide)))
  intro _
  apply Reads.quiet_bind .currentLine
  intro line
  apply Reads.quiet_bind (.emitAll _ _)
  intro _
  apply Reads.bind (.expect (by decide) (Nat.sub_le ..))
  intro _
  exact .quiet (.pure _) le_rfl

theorem expressionList_reads (bounded : n ≤ bound + 1) :
    ReadsBefore source [.mark .rightParen] n argumentTexts (expressionList argument bound) := by
  intro K starts
  apply Reads.of_possible_right
  intro last
  apply Reads.production
  apply Reads.peekKind_bind
  intro k
  rw [argumentTexts_eq, add_mul, one_mul, mul_assoc]
  split
  · next ended =>
    subst ended
    apply ReadsAt.left (.pure 0 le_rfl) last
    exact startsIn_expressionTexts_mul.refuses (by decide)
  · next more =>
    have further : StartsIn closers ((token (.mark .comma) * expressionTexts)∗ * K) :=
      .kstar_mul (fun _ => startsIn_oneOf_mul_mul.mono (by decide)) (starts.mono (by decide))
    apply ReadsAt.right _ (by simp [last])
    · exact starts.refuses (by simpa using more)
    · apply ReadsAt.bind (reads n le_rfl _ further k)
      intro _
      apply Reads.commas bounded possible_expressionTexts starts (by decide)
      intro m le count
      apply Reads.bind (reads m le _ further)
      exact fun _ => .quiet (.countArguments count 1) le_rfl

theorem callEnd_reads {m receivers : Nat} {write : Nat → Compilation Unit} (le : m ≤ n)
    (bounded : n ≤ bound + 1) (quiet : ∀ count, Quiet (write count)) :
    Reads source m (argumentTexts * (token (.mark .rightParen) * K)) (do
      let count ← callArguments argument bound receivers
      write count) n K := by
  rw [callArguments]
  simp only [bind_assoc, pure_bind]
  apply Reads.bind (expressionList_reads (fun l below => reads l (below.trans le))
    (le.trans bounded) _ (startsIn_oneOf_mul (by decide)))
  intro count
  apply Reads.quiet_bind (.countArguments count receivers)
  intro total
  apply Reads.expect_bind (by decide)
  exact .quiet (quiet total) (by omega)

theorem call_reads (bounded : n ≤ bound + 1) (name : String) :
    Reads source n (callTexts * K) (call argument bound name) n K := by
  apply Reads.of_possible_right
  intro last
  rw [callTexts]
  simp only [add_mul, one_mul, mul_assoc]
  apply Reads.quiet_bind .currentLine
  intro line
  apply Reads.peekKind_bind
  intro k
  split
  · next own =>
    subst own
    apply ReadsAt.left _ (by simp [last]) (by simp)
    apply ReadsAt.bind (.take (by decide) (by decide))
    intro _
    apply Reads.quiet_bind (.emit _ _)
    intro _
    exact callEnd_reads reads (Nat.sub_le ..) bounded
      fun count => Quiet.className.bind fun _ => .emit _ _
  · next qualified =>
    apply ReadsAt.right _ (by simp [last]) (by simp [qualified])
    apply Reads.expect_bind (by decide)
    apply Reads.expect_bind (by decide)
    apply Reads.quiet_bind .currentText
    intro subroutine
    apply Reads.quiet_bind (.lookup name)
    intro found
    cases found with
    | some v =>
      apply Reads.quiet_bind (.emit _ _)
      intro _
      apply Reads.expect_bind (by decide)
      exact callEnd_reads reads (by omega) bounded fun count => .emit _ _
    | none =>
      apply Reads.expect_bind (by decide)
      exact callEnd_reads reads (by omega) bounded fun count => .emit _ _

end

/-! ## Terms and expressions -/

theorem constant_reads {kind : TokenKind} {write : Unit → Compilation Unit}
    (one : kind ∈ constants) (quiet : ∀ u, Quiet (write u)) :
    ReadsAt source kind n (termTexts * K) (consume >>= write) n K := by
  have rest (w : List TokenKind) : kind :: w ∈ termTexts * K ↔ w ∈ K := by
    rw [cons_mem_termTexts_mul]
    revert one
    simp only [constants, List.mem_cons, List.not_mem_nil, or_false]
    rintro (rfl | rfl | rfl | rfl | rfl | rfl) <;> simp
  apply ReadsAt.of_possible_right
  intro last
  apply ReadsAt.bind (.consume _ last rest)
  · exact fun u => .quiet (quiet u) (Nat.sub_le ..)
  · rintro rfl
    revert one
    decide

theorem applied_reads {follow : List TokenKind} {kind : TokenKind} {operand : Compilation Unit}
    (op : UnaryOperator) (one : kind ∈ [.mark .minus, .mark .tilde])
    (reads : ReadsBefore source follow (n - 1) termTexts operand) (starts : StartsIn follow K) :
    ReadsAt source kind n (termTexts * K) (applied op operand) n K := by
  have rest (w : List TokenKind) : kind :: w ∈ termTexts * K ↔ w ∈ termTexts * K := by
    rw [cons_mem_termTexts_mul]
    revert one
    simp only [List.mem_cons, List.not_mem_nil, or_false]
    rintro (rfl | rfl) <;> simp [constants]
  apply ReadsAt.of_possible
  intro possible
  apply ReadsAt.bind (.consume _ possible rest)
  · intro _
    apply Reads.quiet_bind .currentLine
    intro line
    apply Reads.bind (reads K starts)
    exact fun _ => .quiet (.emit _ _) (Nat.sub_le ..)
  · rintro rfl
    revert one
    decide

theorem name_reads {name : String} (bounded : n - 1 ≤ bound + 1)
    (reads : ∀ m ≤ n - 1, ReadsBefore source closers m expressionTexts (expression bound))
    (starts : StartsIn (operators ++ closers) K) :
    ReadsAt source .identifier n (termTexts * K) (do
      consume
      let next ← peekKind
      if next = .mark .leftParen ∨ next = .mark .dot then
        call (expression bound) bound name
      else
        let v ← resolveCurrent
        if next = .mark .leftBracket then
          let line ← elementAddress (expression bound) v
          emitAll [.pop .pointer 1, .push .that 0] line
        else
          emit v.push (← currentLine)) n K := by
  have rest (w : List TokenKind) : .identifier :: w ∈ termTexts * K ↔
      w ∈ K + indexTexts * K + callTexts * K := by
    rw [cons_mem_termTexts_mul, add_mul, add_mul, one_mul]
    simp [constants]
  apply ReadsAt.of_possible_right
  intro last
  apply ReadsAt.bind (.consume (by decide) (by simp [last]) rest)
  intro _
  apply Reads.peekKind_bind
  intro k
  split
  · next called =>
    have uncalled : StartsIn (.mark .leftBracket :: (operators ++ closers))
        (K + indexTexts * K) :=
      (starts.mono (List.subset_cons_self ..)).add (startsIn_indexTexts_mul.mono (by decide))
    apply ReadsAt.right _ (by simp [last])
    · exact uncalled.refuses (by rcases called with rfl | rfl <;> decide)
    · exact (call_reads reads bounded name k).mono (Nat.sub_le ..)
  · next uncalled =>
    apply ReadsAt.left _ (by simp [last])
    · exact startsIn_callTexts_mul.refuses (by simpa using uncalled)
    · apply ReadsAt.quiet_bind .resolveCurrent
      intro v
      split
      · next indexed =>
        subst indexed
        apply ReadsAt.right _ (by simp [last]) (starts.refuses (by decide))
        apply ReadsAt.bind (elementAddress_reads reads v _)
        exact fun line => .quiet (.emitAll _ _) (by omega)
      · next plain =>
        apply ReadsAt.left _ last (startsIn_indexTexts_mul.refuses (by simpa using plain))
        exact Reads.quiet (Quiet.currentLine.bind fun _ => .emit _ _) (Nat.sub_le ..) k

-- The induction is on the bound. An expression begins with a term and takes no token of its own, so
-- each token ahead asks for two of the bound.
mutual

theorem expression_reads : (bound n : Nat) → 2 * n ≤ bound →
    ReadsBefore source closers n expressionTexts (expression bound)
  | 0, n => by
    intro bounded K starts k s same awaits few
    omega
  | bound + 1, n => by
    intro bounded K starts
    apply Reads.production
    rw [expressionTexts_eq, mul_assoc]
    have further : StartsIn (operators ++ closers) ((oneOf operators * termTexts)∗ * K) :=
      .kstar_mul (fun _ => startsIn_oneOf_mul_mul.mono (by decide)) (starts.mono (by decide))
    apply Reads.bind (term_reads bound n (by omega) _ further)
    intro _
    apply Reads.iterate (by omega) le_rfl (fun _ => isSome_operator) (by decide)
      (by simp [operators]) (fun L => startsIn_oneOf_mul_mul) starts (by decide)
    intro m le k operator _
    obtain ⟨op, found⟩ := Option.isSome_iff_exists.mp (isSome_operator.mpr operator)
    apply ReadsAt.peekKind_bind
    rw [found, mul_assoc]
    apply ReadsAt.bind (.take operator (by decide))
    intro _
    apply Reads.quiet_bind .currentLine
    intro line
    apply Reads.bind (term_reads bound (m - 1) (by omega) _ further)
    exact fun _ => .quiet (.emit _ _) le_rfl

theorem term_reads : (bound n : Nat) → 2 * n ≤ bound + 1 →
    ReadsBefore source (operators ++ closers) n termTexts (term bound)
  | 0, n => by
    intro bounded K starts k s same awaits few
    omega
  | bound + 1, n => by
    intro bounded K starts
    apply Reads.production
    intro k
    apply ReadsAt.peekLexeme_bind
    rintro l rfl
    cases l with
    | integer digits =>
      have one : TokenKind.integer ∈ constants := by decide
      exact constant_reads one fun _ => .integerConstant digits
    | string content =>
      have one : TokenKind.string ∈ constants := by decide
      exact constant_reads one fun _ => .stringConstant content
    | keyword k =>
      cases k with
      | true =>
        exact constant_reads (by decide) fun _ => Quiet.currentLine.bind fun _ => .emitAll _ _
      | false | null | this =>
        exact constant_reads (by decide) fun _ => Quiet.currentLine.bind fun _ => .emit _ _
      | _ => exact .failAtPeek (startsIn_termTexts_mul.refuses (by decide)) nofun nofun
    | identifier name =>
      exact name_reads (by omega) (fun m le => expression_reads bound m (by omega)) starts
    | mark m =>
      cases m with
      | leftParen =>
        have rest (w : List TokenKind) : .mark .leftParen :: w ∈ termTexts * K ↔
            w ∈ expressionTexts * (token (.mark .rightParen) * K) := by
          rw [cons_mem_termTexts_mul]
          simp [constants]
        apply ReadsAt.of_possible_right
        intro last
        apply ReadsAt.bind (.consume (by decide) (by simp [last]) rest)
        intro _
        apply Reads.bind (expression_reads bound (n - 1) (by omega) _
          (startsIn_oneOf_mul (by decide)))
        exact fun _ => .expect (by decide) (by omega)
      | minus =>
        exact applied_reads .negate (by decide) (term_reads bound (n - 1) (by omega)) starts
      | tilde =>
        exact applied_reads .complement (by decide) (term_reads bound (n - 1) (by omega)) starts
      | _ => exact .failAtPeek (startsIn_termTexts_mul.refuses (by decide)) nofun nofun
    | fault f =>
      have outside : TokenKind.fault ∉ termStarts := by decide
      exact .failAtPeek (startsIn_termTexts_mul.refuses outside) nofun nofun
    | endOfInput => exact .failAtPeek (startsIn_termTexts_mul.refuses (by decide)) nofun nofun

end

end

end JackVm

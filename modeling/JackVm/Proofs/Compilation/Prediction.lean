import JackVm.Proofs.Compilation.Quiet
import JackVm.Proofs.Syntax.Sentence

/-!
# Prediction

At any time the tokens that a compilation has taken begin a sentence. What it still awaits is a
language: each text of it completes a sentence, and any sentence that goes on with the next token is
completed by a text of it. So a compilation that refuses the next token is right to do so.

`Reads` says of a compilation which language it awaits before and after. There is one rule for each
way in which compilations are put together.
-/

namespace JackVm

open Compilation
open scoped Computability

/-- Whether kinds of tokens begin the text of a class with the end of the input behind. -/
def BeginsSentence (w : List TokenKind) : Prop :=
  ∃ c : ClassDec, w <+: c.lexemes.map Lexeme.kind ++ [.endOfInput]

def sentences : Language TokenKind :=
  textsOf ClassDec.lexemes * token .endOfInput

theorem beginsSentence_iff {w : List TokenKind} : BeginsSentence w ↔ ∃ v, w ++ v ∈ sentences := by
  simp only [sentences, mem_textsOf_mul, mem_oneOf, List.mem_singleton, exists_eq_left,
    exists_eq_left', eq_comm (a := _ ++ [TokenKind.endOfInput])]
  exact exists_comm

/-- Whether a token is the first that does not continue a sentence, and all that a problem names
in its place would. -/
structure Misplaced (front : List TokenKind) (kind : TokenKind) (problem : Problem) : Prop where
  begins : BeginsSentence front
  stops : ¬ BeginsSentence (front ++ [kind])
  expected (kinds : List TokenKind) : problem = .expected kinds →
    ∀ k ∈ kinds, BeginsSentence (front ++ [k])
  /-- Where no statement begins, none is asked for. -/
  unasked : problem ≠ .expectedStatement

/-- Whether a token stands behind others in a source, none of which ends the input. -/
structure StandsBehind (source : Stream' Token) (front : List Token) (t : Token) : Prop where
  place : ∃ rest, source = front ++ₛ Stream'.cons t rest
  unended : ∀ x ∈ front, x.kind ≠ .endOfInput

/-- Whether an error is that something else was expected only where that is so. -/
def Justified (source : Stream' Token) (e : CompileError) : Prop :=
  ∀ t problem, e = .atToken t problem → problem.isExpectation →
    ∃ front, StandsBehind source front t ∧ Misplaced (front.map Token.kind) t.kind problem

/-- Whether a compilation that has taken some tokens of a source awaits a language. -/
structure AwaitsBehind (source : Stream' Token) (front : List Token) (s : CompilerState)
    (R : Language TokenKind) : Prop where
  place : source = front ++ₛ Stream'.cons s.peek s.input.toStream
  unended : ∀ x ∈ front, x.kind ≠ .endOfInput
  possible : Possible R
  completes (w : List TokenKind) : w ∈ R → front.map Token.kind ++ w ∈ sentences
  completed (w : List TokenKind) : front.map Token.kind ++ s.peek.kind :: w ∈ sentences →
    s.peek.kind :: w ∈ R

def Awaits (source : Stream' Token) (s : CompilerState) (R : Language TokenKind) : Prop :=
  ∃ front, AwaitsBehind source front s R

/-- The number of tokens in front of the end of the input. -/
def CompilerState.ahead (s : CompilerState) : Nat :=
  if s.peek.kind = .endOfInput then 0 else s.input.upcoming.length + 1

/-- Whether a run ends in one of some states or with one of some errors. -/
def Ends {α : Type} (x : Compilation α) (s : CompilerState) (states : CompilerState → Prop)
    (errors : CompileError → Prop) : Prop :=
  match x s with
  | .ok _ t => states t
  | .error e _ => errors e

/-- Whether a compilation that has fewer than `n` tokens ahead, and one of a given kind next, takes
what it awaits up to a language and then has fewer than `n'` tokens ahead, unless it fails with a
justified error. -/
def ReadsAt {α : Type} (source : Stream' Token) (kind : TokenKind) (n : Nat)
    (R : Language TokenKind) (x : Compilation α) (n' : Nat) (R' : Language TokenKind) : Prop :=
  ∀ s, s.peek.kind = kind → Awaits source s R → s.ahead < n →
    Ends x s (fun t => Awaits source t R' ∧ t.ahead < n') (Justified source)

/-- The same whatever the next token is. -/
def Reads {α : Type} (source : Stream' Token) (n : Nat) (R : Language TokenKind)
    (x : Compilation α) (n' : Nat) (R' : Language TokenKind) : Prop :=
  ∀ kind, ReadsAt source kind n R x n' R'

section
variable {α β : Type} {x : Compilation α} {f : α → Compilation β} {s : CompilerState}
  {states states' : CompilerState → Prop} {errors errors' : CompileError → Prop}

theorem Ends.mono (h : Ends x s states errors) (good : ∀ t, states t → states' t)
    (bad : ∀ e, errors e → errors' e) : Ends x s states' errors' := by
  unfold Ends at h ⊢
  cases run : x s with
  | ok a t =>
    rw [run] at h
    exact good t h
  | error e t =>
    rw [run] at h
    exact bad e h

theorem Ends.bind (h : Ends x s states' errors)
    (hf : ∀ a t, states' t → Ends (f a) t states errors) : Ends (x >>= f) s states errors := by
  unfold Ends at h ⊢
  cases run : x s with
  | ok a t =>
    rw [run] at h
    rw [bind_ok run]
    exact hf a t h
  | error e t =>
    rw [run] at h
    rw [bind_error run]
    exact h

end

theorem Quiet.ends {α : Type} {x : Compilation α} (h : Quiet x) (source : Stream' Token)
    (s : CompilerState) : Ends x s s.SameWindow (Justified source) := by
  have window := h.window s
  unfold Ends
  cases run : x s with
  | ok a t =>
    rw [run] at window
    exact window
  | error e t =>
    intro token problem same expectation
    exact absurd expectation (h.ordinary s t e run token problem same).1

/-! ## Taking and refusing the next token -/

section
variable {source : Stream' Token} {front : List Token} {s : CompilerState}
  {R K : Language TokenKind} {n : Nat}

theorem AwaitsBehind.narrow (h : AwaitsBehind source front s R) (inside : ∀ w ∈ K, w ∈ R)
    (possible : Possible K) (kept : ∀ w, s.peek.kind :: w ∈ R → s.peek.kind :: w ∈ K) :
    AwaitsBehind source front s K where
  place := h.place
  unended := h.unended
  possible := possible
  completes w hw := h.completes w (inside w hw)
  completed w hw := kept w (h.completed w hw)

theorem AwaitsBehind.taken (h : AwaitsBehind source front s R)
    (unended : s.peek.kind ≠ .endOfInput) (possible : Possible K)
    (rest : ∀ w, s.peek.kind :: w ∈ R ↔ w ∈ K) :
    AwaitsBehind source (front ++ [s.peek]) s.taken K where
  place := by
    rw [h.place, TokenStream.toStream_next, Stream'.append_append_stream]
    rfl
  unended x hx := by
    rcases List.mem_append.mp hx with hx | hx
    · exact h.unended x hx
    · exact List.mem_singleton.mp hx ▸ unended
  possible := possible
  completes w hw := by
    have := h.completes (s.peek.kind :: w) ((rest w).mpr hw)
    simpa using this
  completed w hw := (rest _).mp (h.completed _ (by simpa using hw))

theorem AwaitsBehind.misplaced (h : AwaitsBehind source front s R) {problem : Problem}
    (refused : ∀ w, s.peek.kind :: w ∉ R)
    (expected : ∀ kinds, problem = .expected kinds → ∀ k ∈ kinds, ∃ w, k :: w ∈ R)
    (unasked : problem ≠ .expectedStatement) :
    Misplaced (front.map Token.kind) s.peek.kind problem where
  unasked := unasked
  begins := by
    obtain ⟨w, hw⟩ := h.possible
    exact beginsSentence_iff.mpr ⟨w, h.completes w hw⟩
  stops := by
    intro begins
    obtain ⟨v, hv⟩ := beginsSentence_iff.mp begins
    rw [List.append_assoc] at hv
    exact refused v (h.completed v hv)
  expected kinds same k hk := by
    obtain ⟨w, hw⟩ := expected kinds same k hk
    exact beginsSentence_iff.mpr ⟨w, by simpa using h.completes _ hw⟩

theorem CompilerState.ahead_taken (more : s.peek.kind ≠ .endOfInput) (few : s.ahead < n) :
    s.taken.ahead < n - 1 := by
  have here : s.input.upcoming.length + 1 < n := by simpa [ahead, more] using few
  have next : s.taken.ahead ≤ s.input.upcoming.length := by
    show (if s.input.next.1.kind = .endOfInput then 0 else s.input.next.2.upcoming.length + 1) ≤ _
    obtain ⟨upcoming, endLine⟩ := s.input
    cases upcoming with
    | nil => simp [Token.kind, Lexeme.kind]
    | cons token upcoming =>
      by_cases ended : token.kind = .endOfInput <;> simp [ended]
  omega

end

/-! ## Rules -/

section
variable {α β : Type} {x y : Compilation α} {f : α → Compilation β} {source : Stream' Token}
  {kind : TokenKind} {kinds : List TokenKind} {n m n' : Nat} {R R' A B K : Language TokenKind}

namespace ReadsAt

theorem bind (hx : ReadsAt source kind n R x m K) (hf : ∀ a, Reads source m K (f a) n' R') :
    ReadsAt source kind n R (x >>= f) n' R' := by
  intro s same awaits few
  apply (hx s same awaits few).bind
  rintro a t ⟨awaits, few⟩
  exact hf a _ t rfl awaits few

theorem mono (h : ReadsAt source kind n R x m R') (le : m ≤ n') :
    ReadsAt source kind n R x n' R' := by
  intro s same awaits few
  apply (h s same awaits few).mono
  · rintro t ⟨awaits, few⟩
    exact ⟨awaits, few.trans_le le⟩
  · exact fun _ => id

theorem narrow (h : ReadsAt source kind n K x n' R') (inside : ∀ w ∈ K, w ∈ R)
    (possible : Possible K) (kept : ∀ w, kind :: w ∈ R → kind :: w ∈ K) :
    ReadsAt source kind n R x n' R' := by
  rintro s rfl ⟨front, awaits⟩ few
  exact h s rfl ⟨front, awaits.narrow inside possible kept⟩ few

/-- Of two languages the one that goes on with the next token is awaited. -/
theorem left (h : ReadsAt source kind n A x n' R') (possible : Possible A)
    (refused : ∀ w, kind :: w ∉ B) : ReadsAt source kind n (A + B) x n' R' := by
  apply h.narrow (fun w hw => (Language.mem_add ..).mpr (.inl hw)) possible
  intro w hw
  exact ((Language.mem_add ..).mp hw).resolve_right (refused w)

theorem right (h : ReadsAt source kind n B x n' R') (possible : Possible B)
    (refused : ∀ w, kind :: w ∉ A) : ReadsAt source kind n (A + B) x n' R' := by
  rw [add_comm]
  exact h.left possible refused

theorem quiet_bind (hx : Quiet x) (hf : ∀ a, ReadsAt source kind n R (f a) n' R') :
    ReadsAt source kind n R (x >>= f) n' R' := by
  rintro s rfl ⟨front, awaits⟩ few
  apply (hx.ends source s).bind
  rintro a t ⟨-, peek, input⟩
  refine hf a t (by rw [peek]) ⟨front, ?_⟩ (by rwa [CompilerState.ahead, peek, input])
  exact ⟨by rw [peek, input]; exact awaits.place, awaits.unended, awaits.possible,
    awaits.completes, by rw [peek]; exact awaits.completed⟩

theorem pure (a : α) (le : n ≤ n') :
    ReadsAt source kind n R (Pure.pure a : Compilation α) n' R :=
  fun _ _ awaits few => ⟨awaits, few.trans_le le⟩

theorem peekKind_bind {f : TokenKind → Compilation α}
    (h : ReadsAt source kind n R (f kind) n' R') :
    ReadsAt source kind n R (peekKind >>= f) n' R' := by
  rintro s rfl awaits few
  exact h s rfl awaits few

theorem peekLexeme_bind {f : Lexeme → Compilation α}
    (h : ∀ l : Lexeme, l.kind = kind → ReadsAt source kind n R (f l) n' R') :
    ReadsAt source kind n R (peekLexeme >>= f) n' R' := by
  rintro s rfl awaits few
  exact h s.peek.lexeme rfl s rfl awaits few

theorem consume (unended : kind ≠ .endOfInput) (possible : Possible K)
    (rest : ∀ w, kind :: w ∈ R ↔ w ∈ K) : ReadsAt source kind n R consume (n - 1) K := by
  rintro s rfl ⟨front, awaits⟩ few
  unfold Ends
  cases run : Compilation.consume s with
  | ok u t =>
    obtain ⟨-, rfl⟩ := consume_eq_ok.mp run
    exact ⟨⟨_, awaits.taken unended possible rest⟩, s.ahead_taken unended few⟩
  | error e t =>
    intro t' problem same
    obtain ⟨-, line, fault, unreadable⟩ := eq_unreadable_of_consume run
    rw [unreadable] at same
    cases same

theorem of_possible (h : Possible R → ReadsAt source kind n R x n' R') :
    ReadsAt source kind n R x n' R' := by
  intro s same awaits
  obtain ⟨front, behind⟩ := awaits
  exact h behind.possible s same ⟨front, behind⟩

theorem of_possible_right (h : Possible K → ReadsAt source kind n (A * K) x n' R') :
    ReadsAt source kind n (A * K) x n' R' :=
  of_possible fun possible => h (possible_mul.mp possible).2

theorem take (inside : kind ∈ kinds) (unended : .endOfInput ∉ kinds) :
    ReadsAt source kind n (oneOf kinds * K) Compilation.consume (n - 1) K := by
  apply of_possible_right
  intro possible
  apply consume (ne_of_mem_of_not_mem inside unended) possible
  intro w
  rw [cons_mem_oneOf_mul]
  exact and_iff_right inside

theorem failAtPeek {problem : Problem} (refused : ∀ w, kind :: w ∉ R)
    (expected : ∀ kinds, problem = .expected kinds → ∀ k ∈ kinds, ∃ w, k :: w ∈ R)
    (unasked : problem ≠ .expectedStatement) :
    ReadsAt source kind n R (Compilation.failAtPeek problem : Compilation α) n' R' := by
  rintro _ rfl ⟨front, awaits⟩ _ t p same -
  cases same
  exact ⟨front, ⟨⟨_, awaits.place⟩, awaits.unended⟩, awaits.misplaced refused expected unasked⟩

theorem quiet (hx : Quiet x) (le : n ≤ n') : ReadsAt source kind n R x n' R := by
  rw [← bind_pure x]
  exact .quiet_bind hx fun a => .pure a le

theorem production {p : Production} (h : ReadsAt source kind n R x n' R') :
    ReadsAt source kind n R (production p x) n' R' :=
  .quiet_bind (.record _) fun _ => .bind h fun _ _ =>
    .quiet (.bind (.record _) fun _ => .pure _) le_rfl

theorem of_le_one (unended : kind ≠ .endOfInput) (le : n ≤ 1) :
    ReadsAt source kind n R x n' R' := by
  rintro s rfl _ few
  rw [CompilerState.ahead, if_neg unended] at few
  omega

end ReadsAt

namespace Reads

theorem bind (hx : Reads source n R x m K) (hf : ∀ a, Reads source m K (f a) n' R') :
    Reads source n R (x >>= f) n' R' :=
  fun k => (hx k).bind hf

theorem quiet_bind (hx : Quiet x) (hf : ∀ a, Reads source n R (f a) n' R') :
    Reads source n R (x >>= f) n' R' :=
  fun k => .quiet_bind hx fun a => hf a k

theorem peekKind_bind {f : TokenKind → Compilation α}
    (h : ∀ k, ReadsAt source k n R (f k) n' R') : Reads source n R (peekKind >>= f) n' R' :=
  fun k => (h k).peekKind_bind

theorem quiet (hx : Quiet x) (le : n ≤ n') : Reads source n R x n' R :=
  fun _ => .quiet hx le

theorem mono (h : Reads source n R x m R') (le : m ≤ n') : Reads source n R x n' R' :=
  fun k => (h k).mono le

theorem of_possible_right (h : Possible K → Reads source n (A * K) x n' R') :
    Reads source n (A * K) x n' R' :=
  fun k => .of_possible_right fun possible => h possible k

theorem production {p : Production} (h : Reads source n R x n' R') :
    Reads source n R (production p x) n' R' :=
  fun k => (h k).production

theorem ends {s : CompilerState} (R' : Language TokenKind) (h : Reads source n R x n R')
    (awaits : Awaits source s R) (few : s.ahead < n) :
    Ends x s (fun _ => True) (Justified source) :=
  (h _ s rfl awaits few).mono (fun _ _ => trivial) fun _ => id

/-- Repetition ends at the first token that no further part begins with. -/
theorem iterate {p : TokenKind → Bool} {body : α → Compilation α} {bound : Nat}
    {outside : List TokenKind} (bounded : n ≤ bound + 1) (le : n ≤ n')
    (again : ∀ k, p k ↔ k ∈ kinds) (unended : .endOfInput ∉ kinds) (possible : Possible B)
    (part : ∀ L, StartsIn kinds (B * L)) (rest : StartsIn outside K)
    (apart : ∀ k ∈ kinds, k ∉ outside)
    (step : ∀ m ≤ n, ∀ k ∈ kinds, ∀ a,
      ReadsAt source k m (B * (B∗ * K)) (body a) (m - 1) (B∗ * K)) (a : α) :
    Reads source n (B∗ * K) (iterate p body bound a) n' K := by
  apply of_possible_right
  intro last
  induction bound generalizing n a with
  | zero =>
    apply peekKind_bind
    intro k
    split
    · next more =>
      -- With the bound used up there is nothing ahead, so no part is left out.
      exact .of_le_one (ne_of_mem_of_not_mem ((again k).mp more) unended) bounded
    · next done =>
      have other : k ∉ kinds := fun inside => done ((again k).mpr inside)
      rw [kstar_mul_eq]
      exact ReadsAt.left (.pure a le) last ((part _).refuses other)
  | succ bound ih =>
    apply peekKind_bind
    intro k
    rw [kstar_mul_eq]
    split
    · next more =>
      have inside := (again k).mp more
      apply ReadsAt.right _ (by simp [possible, last]) (rest.refuses (apart k inside))
      exact (step n le_rfl k inside a).bind fun a' =>
        ih (by omega) (by omega) (fun m le => step m (by omega)) a'
    · next done =>
      have other : k ∉ kinds := fun inside => done ((again k).mpr inside)
      exact ReadsAt.left (.pure a le) last ((part _).refuses other)

theorem commas {body : α → Compilation α} {bound : Nat} {outside : List TokenKind}
    (bounded : n ≤ bound + 1) (possible : Possible B) (rest : StartsIn outside K)
    (apart : .mark .comma ∉ outside)
    (item : ∀ m ≤ n, ∀ a, Reads source m (B * ((token (.mark .comma) * B)∗ * K)) (body a) m
      ((token (.mark .comma) * B)∗ * K)) (a : α) :
    Reads source n ((token (.mark .comma) * B)∗ * K)
      (Compilation.iterate (· = .mark .comma) (fun a => do
        Compilation.consume
        body a) bound a) n K := by
  apply iterate bounded le_rfl (by simp) (by decide) (by simp [possible])
    (fun L => startsIn_oneOf_mul_mul) rest (by simpa using apart)
  intro m le k comma a
  rw [mul_assoc]
  apply ReadsAt.bind (.take comma (by decide))
  exact fun _ => item (m - 1) (by omega) a

theorem expectAny (unended : .endOfInput ∉ kinds) (le : n - 1 ≤ n') :
    Reads source n (oneOf kinds * K) (expectAny kinds) n' K := by
  apply of_possible_right
  intro possible
  apply peekKind_bind
  intro k
  split
  · next inside =>
    exact (ReadsAt.take inside unended).mono le
  · next outside =>
    apply ReadsAt.failAtPeek
    · simp [outside]
    · rintro _ ⟨rfl⟩ k' inside
      obtain ⟨w, hw⟩ := possible
      exact ⟨w, by simp [inside, hw]⟩
    · nofun

theorem expect (unended : kind ≠ .endOfInput) (le : n - 1 ≤ n') :
    Reads source n (token kind * K) (expect kind) n' K := by
  have same : Compilation.expect kind = Compilation.expectAny [kind] := by
    simp [Compilation.expect, Compilation.expectAny]
  rw [same]
  exact expectAny (by simpa using unended.symm) le

theorem expect_bind {f : Unit → Compilation α} (unended : kind ≠ .endOfInput)
    (hf : Reads source (n - 1) K (f ()) n' R') :
    Reads source n (token kind * K) (Compilation.expect kind >>= f) n' R' :=
  .bind (.expect unended le_rfl) fun _ => hf

end Reads

end

end JackVm

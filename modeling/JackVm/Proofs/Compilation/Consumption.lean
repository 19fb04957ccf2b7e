import JackVm.Proofs.Compilation.Quiet

/-!
# Consumption of tokens

A compilation only moves its window, by one place for each token that it takes. It takes neither the
end of input nor a fault, so the first of these that lies ahead limits how far the window goes.

`Consumes n least x` says that `x` takes at least `least` tokens or fails, and that it does not use
up a bound if fewer than `n` tokens can be taken. There is one rule for each way in which
compilations are put together. The number of tokens that can be taken goes down with every round of
a loop and on every way from one expression to the next.
-/

namespace JackVm

open Compilation

/-- The kinds of token that can be taken. -/
def TokenKind.isTakable : TokenKind → Bool
  | .endOfInput | .fault => false
  | _ => true

/-- Whether an error is that a bound is used up. -/
def CompileError.IsBound (e : CompileError) : Prop :=
  ∃ t, e = .atToken t .boundReached

theorem TokenKind.isTakable_of_again (p : TokenKind → Bool) {kind : TokenKind} (again : p kind)
    (ended : p .endOfInput = false) (faulty : p .fault = false) : kind.isTakable := by
  cases kind with
  | endOfInput => cases ended.symm.trans again
  | fault => cases faulty.symm.trans again
  | _ => rfl

theorem TokenKind.isTakable_of_found {α : Type} {f : TokenKind → Option α} {kind : TokenKind}
    {a : α} (found : f kind = some a) (ended : f .endOfInput = none) (faulty : f .fault = none) :
    kind.isTakable := by
  apply isTakable_of_again (fun k => (f k).isSome)
  · rw [found]
    rfl
  · rw [ended]
    rfl
  · rw [faulty]
    rfl

namespace CompilerState

/-- The number of tokens from the next one on in front of the end of input or of a fault. -/
def room (s : CompilerState) : Nat :=
  s.remaining.findIdx fun t => !t.kind.isTakable

/-- Whether a window has moved by some tokens, all of which could be taken. -/
structure Moves (s : CompilerState) (n : Nat) (t : CompilerState) : Prop where
  window : t.window = s.window.drop n
  taken (i : Nat) : i < n → (s.window.get (i + 1)).kind.isTakable

variable {s t u : CompilerState} {m n : Nat}

theorem room_lt (s : CompilerState) : s.room < s.remaining.length := by
  apply List.findIdx_lt_length_of_exists
  refine ⟨⟨.endOfInput, s.input.endLine⟩, ?_, rfl⟩
  simp [remaining, TokenStream.toList]

theorem window_get_succ {i : Nat} (h : i < s.remaining.length) :
    s.window.get (i + 1) = s.remaining[i] := by
  rw [window_eq]
  exact Stream'.get_append_left _ _ _ h

theorem takable_of_lt_room {i : Nat} (h : i < s.room) :
    (s.window.get (i + 1)).kind.isTakable := by
  rw [window_get_succ (Nat.lt_trans h s.room_lt)]
  simpa using List.not_of_lt_findIdx h

theorem not_takable_room (s : CompilerState) :
    ¬ (s.window.get (s.room + 1)).kind.isTakable := by
  have inside := s.room_lt
  rw [window_get_succ inside]
  unfold room at inside ⊢
  simpa using List.findIdx_getElem (w := inside)

theorem le_of_not_takable {i : Nat} (all : ∀ j < n, (s.window.get (j + 1)).kind.isTakable)
    (h : ¬ (s.window.get (i + 1)).kind.isTakable) : n ≤ i := by
  by_contra more
  exact h (all i (Nat.lt_of_not_le more))

namespace Moves

theorem of_sameWindow (h : s.SameWindow t) : s.Moves 0 t where
  window := h.window_eq
  taken _ none := absurd none (Nat.not_lt_zero _)

theorem refl (s : CompilerState) : s.Moves 0 s :=
  of_sameWindow ⟨rfl, rfl, rfl⟩

theorem trans (h : s.Moves m t) (h' : t.Moves n u) : s.Moves (m + n) u where
  window := by rw [h'.window, h.window, Stream'.drop_drop, Nat.add_comm]
  taken i below := by
    by_cases first : i < m
    · exact h.taken i first
    · have second := h'.taken (i - m) (by omega)
      rw [h.window, Stream'.get_drop] at second
      have place : m + (i - m + 1) = i + 1 := by omega
      rwa [place] at second

theorem shifted (h : s.peek.kind.isTakable) : s.Moves 1 s.shifted where
  window := s.window_shifted
  taken i below := by
    have first : i = 0 := by omega
    rw [first]
    exact h

theorem le_room (h : s.Moves n t) : n ≤ s.room :=
  le_of_not_takable h.taken s.not_takable_room

theorem room_eq (h : s.Moves n t) : t.room = s.room - n := by
  have le := h.le_room
  have place (i : Nat) : t.window.get (i + 1) = s.window.get (n + i + 1) := by
    rw [h.window, Stream'.get_drop, Nat.add_assoc]
  apply Nat.le_antisymm
  · apply le_of_not_takable (s := t) fun i => takable_of_lt_room
    have whole : n + (s.room - n) = s.room := by omega
    rw [place, whole]
    exact s.not_takable_room
  · apply le_of_not_takable (s := t) _ t.not_takable_room
    intro i below
    rw [place]
    exact takable_of_lt_room (by omega)

end Moves

theorem room_pos (h : s.peek.kind.isTakable) : 0 < s.room := by
  by_contra none
  have stopped := s.not_takable_room
  have here : s.room = 0 := by omega
  rw [here] at stopped
  exact stopped h

end CompilerState

/-! ## Rules -/

/-- Whether a compilation that has a token of a given kind next takes some tokens or fails, and does
not use up a bound if few tokens can be taken. -/
def ConsumesAt {α : Type} (kind : TokenKind) (n least : Nat) (x : Compilation α) : Prop :=
  ∀ s, s.peek.kind = kind →
    match x s with
    | .ok _ t => ∃ m, least ≤ m ∧ s.Moves m t
    | .error e t => (∃ m, s.Moves m t) ∧ (s.room < n → ¬ e.IsBound)

/-- The same whatever the next token is. -/
def Consumes {α : Type} (n least : Nat) (x : Compilation α) : Prop :=
  ∀ kind, ConsumesAt kind n least x

section
variable {α β : Type} {x y : Compilation α} {f : α → Compilation β} {kind : TokenKind}
  {kinds : List TokenKind} {n n' least least' : Nat}

namespace ConsumesAt

theorem mono (h : ConsumesAt kind n least x) (few : n' ≤ n) (le : least' ≤ least) :
    ConsumesAt kind n' least' x := by
  intro s same
  have run := h s same
  cases result : x s with
  | ok a t =>
    rw [result] at run
    obtain ⟨m, enough, moves⟩ := run
    exact ⟨m, Nat.le_trans le enough, moves⟩
  | error e t =>
    rw [result] at run
    exact ⟨run.1, fun below => run.2 (Nat.lt_of_lt_of_le below few)⟩

theorem weaken (h : ConsumesAt kind n least x) : ConsumesAt kind n 0 x :=
  h.mono le_rfl (Nat.zero_le least)

theorem bind {a : Nat} (hx : ConsumesAt kind n a x) (hf : ∀ v, Consumes (n - a) (least - a) (f v)) :
    ConsumesAt kind n least (x >>= f) := by
  intro s same
  have first := hx s same
  cases run : x s with
  | error e t =>
    rw [run] at first
    rw [bind_error run]
    exact first
  | ok v t =>
    rw [run] at first
    obtain ⟨m, enough, moves⟩ := first
    rw [bind_ok run]
    have second := hf v _ t rfl
    cases result : f v t with
    | ok b u =>
      rw [result] at second
      obtain ⟨m', enough', moves'⟩ := second
      exact ⟨m + m', by omega, moves.trans moves'⟩
    | error e u =>
      rw [result] at second
      obtain ⟨⟨m', moves'⟩, unbound⟩ := second
      refine ⟨⟨m + m', moves.trans moves'⟩, fun below => unbound ?_⟩
      have le := moves.le_room
      rw [moves.room_eq]
      omega

theorem quiet (h : Quiet x) : ConsumesAt kind n 0 x := by
  intro s _
  have window := h.window s
  cases run : x s with
  | ok a t =>
    rw [run] at window
    exact ⟨0, Nat.le_refl 0, .of_sameWindow window⟩
  | error e t =>
    rw [run] at window
    refine ⟨⟨0, .of_sameWindow window⟩, fun _ bound => ?_⟩
    obtain ⟨token, same⟩ := bound
    exact (h.ordinary s t e run token _ same).2 rfl

theorem quiet_bind (hx : Quiet x) (hf : ∀ v, ConsumesAt kind n least (f v)) :
    ConsumesAt kind n least (x >>= f) := by
  intro s same
  have window := hx.window s
  cases run : x s with
  | ok v t =>
    rw [run] at window
    rw [bind_ok run]
    have second := hf v t (window.peek ▸ same)
    have moves : s.Moves 0 t := .of_sameWindow window
    have room : t.room = s.room := moves.room_eq
    cases result : f v t with
    | ok b u =>
      rw [result] at second
      obtain ⟨m, enough, moves'⟩ := second
      exact ⟨0 + m, by omega, moves.trans moves'⟩
    | error e u =>
      rw [result] at second
      obtain ⟨⟨m, moves'⟩, unbound⟩ := second
      exact ⟨⟨0 + m, moves.trans moves'⟩, fun below => unbound (room ▸ below)⟩
  | error e t =>
    have first : ConsumesAt kind n 0 x := quiet hx
    have alone := first s same
    rw [run] at alone
    rw [bind_error run]
    exact alone

theorem peekKind_bind {f : TokenKind → Compilation α} (h : ConsumesAt kind n least (f kind)) :
    ConsumesAt kind n least (peekKind >>= f) := by
  intro s same
  subst same
  exact h s rfl

theorem peekLexeme_bind {f : Lexeme → Compilation α}
    (h : ∀ l : Lexeme, l.kind = kind → ConsumesAt kind n least (f l)) :
    ConsumesAt kind n least (peekLexeme >>= f) := by
  intro s same
  exact h s.peek.lexeme same s same

theorem fail {problem : Problem} (h : problem ≠ .boundReached) :
    ConsumesAt kind n least (failAtPeek problem : Compilation α) := by
  intro s _
  refine ⟨⟨0, .refl s⟩, fun _ bound => ?_⟩
  obtain ⟨t, same⟩ := bound
  cases same
  exact h rfl

theorem consume (takable : kind.isTakable) : ConsumesAt kind n 1 consume := by
  intro s same
  have moves : s.Moves 1 s.shifted := .shifted (same ▸ takable)
  cases run : Compilation.consume s with
  | ok u t =>
    obtain ⟨-, taken⟩ := consume_eq_ok.mp run
    rw [taken]
    exact ⟨1, Nat.le_refl 1, moves.window, moves.taken⟩
  | error e t =>
    obtain ⟨shifted, line, fault, unreadable⟩ := eq_unreadable_of_consume run
    rw [shifted, unreadable]
    refine ⟨⟨1, moves⟩, fun _ bound => ?_⟩
    obtain ⟨token, same⟩ := bound
    cases same

theorem moves {s : CompilerState} (h : ConsumesAt s.peek.kind n least x) :
    ∃ m, m ≤ s.room ∧ s.Moves m (final (x s)) := by
  have run := h s rfl
  cases result : x s with
  | ok a t =>
    rw [result] at run
    obtain ⟨m, _, moves⟩ := run
    exact ⟨m, moves.le_room, moves⟩
  | error e t =>
    rw [result] at run
    obtain ⟨m, moves⟩ := run.1
    exact ⟨m, moves.le_room, moves⟩

theorem not_isBound {s t : CompilerState} {e : CompileError}
    (h : ConsumesAt s.peek.kind n least x) (few : s.room < n) (run : x s = .error e t) :
    ¬ e.IsBound := by
  have failed := h s rfl
  rw [run] at failed
  exact failed.2 few

end ConsumesAt

namespace Consumes

theorem mono (h : Consumes n least x) (few : n' ≤ n) (le : least' ≤ least) :
    Consumes n' least' x :=
  fun k => (h k).mono few le

theorem weaken (h : Consumes n least x) : Consumes n 0 x :=
  fun k => (h k).weaken

theorem bind {a : Nat} (hx : Consumes n a x) (hf : ∀ v, Consumes (n - a) (least - a) (f v)) :
    Consumes n least (x >>= f) :=
  fun k => (hx k).bind hf

theorem quiet (h : Quiet x) : Consumes n 0 x :=
  fun _ => .quiet h

theorem quiet_bind (hx : Quiet x) (hf : ∀ v, Consumes n least (f v)) :
    Consumes n least (x >>= f) :=
  fun k => .quiet_bind hx fun v => hf v k

theorem peekKind_bind {f : TokenKind → Compilation α} (h : ∀ k, ConsumesAt k n least (f k)) :
    Consumes n least (peekKind >>= f) :=
  fun k => .peekKind_bind (h k)

theorem production {p : Production} (h : Consumes n least x) :
    Consumes n least (production p x) := by
  apply quiet_bind (.record _)
  intro _
  apply bind h
  intro v
  exact (quiet (Quiet.bind (.record _) fun _ => .pure v)).mono le_rfl (by omega)

theorem expectAny (takable : ∀ kind ∈ kinds, kind.isTakable) :
    Consumes n 1 (expectAny kinds) := by
  apply peekKind_bind
  intro kind
  split
  · next inside => exact .consume (takable kind inside)
  · exact .fail nofun

theorem expect (takable : kind.isTakable) : Consumes n 1 (expect kind) := by
  have same : Compilation.expect kind = Compilation.expectAny [kind] := by
    simp [Compilation.expect, Compilation.expectAny]
  rw [same]
  exact expectAny (by simpa using takable)

theorem exhausted : Consumes 0 least (exhausted : Compilation α) := by
  intro kind s _
  exact ⟨⟨0, .refl s⟩, fun below => absurd below (Nat.not_lt_zero _)⟩

/-- A loop whose every round takes a token ends. -/
theorem iterate {p : TokenKind → Bool} {body : α → Compilation α} {bound : Nat}
    (bounded : n ≤ bound + 1) (ended : p .endOfInput = false) (faulty : p .fault = false)
    (step : ∀ m ≤ n, ∀ kind, p kind → ∀ a, ConsumesAt kind m 1 (body a)) (a : α) :
    Consumes n 0 (iterate p body bound a) := by
  induction bound generalizing n a with
  | zero =>
    apply peekKind_bind
    intro kind
    split
    · next more =>
      intro s same
      have room : 0 < s.room := s.room_pos (same ▸ TokenKind.isTakable_of_again p more ended faulty)
      exact ⟨⟨0, .refl s⟩, fun below => by omega⟩
    · exact .quiet (.pure a)
  | succ bound ih =>
    apply peekKind_bind
    intro kind
    split
    · next more =>
      apply (step n le_rfl kind more a).bind
      intro b
      exact ih (by omega) (fun m le => step m (by omega)) b
    · exact .quiet (.pure a)

end Consumes

end

end JackVm

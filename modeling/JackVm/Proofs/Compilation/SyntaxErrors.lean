import JackVm.Proofs.Compilation.ClassPrediction
import JackVm.Proofs.Compilation.Source

/-!
# Syntax errors

An error that something was expected stands at the first token of the source that does not continue
a sentence. All tokens before it do, and so would each token that the error names.
-/

namespace JackVm

open Compilation

theorem StandsBehind.isPrefix {input : TokenStream} {front : List Token} {t : Token}
    (h : StandsBehind input.toStream front t) : front ++ [t] <+: input.toList := by
  obtain ⟨upcoming, endLine⟩ := input
  obtain ⟨⟨rest, place⟩, unended⟩ := h
  induction front generalizing upcoming with
  | nil =>
    have first : (⟨upcoming, endLine⟩ : TokenStream).next.1 = t := by
      rw [TokenStream.toStream_next] at place
      exact (Stream'.cons_injective2 place).1
    cases upcoming with
    | nil => exact first ▸ List.prefix_rfl
    | cons token upcoming => exact first ▸ List.prefix_append ..
  | cons x front ih =>
    rw [TokenStream.toStream_next] at place
    obtain ⟨first, more⟩ := Stream'.cons_injective2 place
    rw [List.forall_mem_cons] at unended
    cases upcoming with
    | nil => exact absurd (first ▸ rfl) unended.1
    | cons token upcoming =>
      obtain rfl : token = x := first
      exact List.cons_prefix_cons.mpr ⟨rfl, ih upcoming unended.2 more⟩

theorem expected_isPrefix_append {first : String} (h : "Expected".toList <+: first.toList)
    (rest : String) : "Expected".toList <+: (first ++ rest).toList := by
  rw [String.toList_append]
  exact h.trans (List.prefix_append ..)

theorem not_expected_isPrefix_append {first : String} {c : Char} (h : first.toList.head? = some c)
    (other : c ≠ 'E') (rest : String) : ¬ "Expected".toList <+: (first ++ rest).toList := by
  rintro ⟨more, same⟩
  rw [String.toList_append] at same
  cases letters : first.toList with
  | nil =>
    rw [letters] at h
    cases h
  | cons d ds =>
    rw [letters] at h same
    obtain rfl : d = c := Option.some.inj h
    exact other (List.cons.inj same).1.symm

theorem Problem.expected_isPrefix_message_iff (p : Problem) :
    "Expected".toList <+: p.message.toList ↔ p.isExpectation := by
  cases p with
  | expected kinds =>
    have one : "Expected".toList <+: "Expected ".toList := by decide
    have several : "Expected".toList <+: "Expected one of ".toList := by decide
    refine iff_of_true ?_ rfl
    rcases kinds with _ | ⟨k, _ | ⟨l, kinds⟩⟩
    · exact expected_isPrefix_append several _
    · exact expected_isPrefix_append one _
    · exact expected_isPrefix_append several _
  | expectedTerm => exact iff_of_true (by decide) rfl
  | declaration error =>
    refine iff_of_false ?_ Bool.false_ne_true
    cases error with
    | alreadyDefined name =>
      have told : (declaration (.alreadyDefined name)).message =
          "'" ++ name ++ "' is already defined in this scope" := rfl
      rw [told, String.append_assoc]
      exact not_expected_isPrefix_append (c := '\'') rfl (by decide) _
    | tooManyVariables => decide
  | undefinedVariable name =>
    refine iff_of_false ?_ Bool.false_ne_true
    have told : (undefinedVariable name).message = "Undefined variable '" ++ name ++ "'" := rfl
    rw [told, String.append_assoc]
    exact not_expected_isPrefix_append (c := 'U') rfl (by decide) _
  | _ => decide

theorem Token.place_eq (t : Token) :
    t.place = if t.kind = .endOfInput then " at end" else " at '" ++ t.text ++ "'" := by
  obtain ⟨lexeme, line⟩ := t
  cases lexeme <;> rfl

theorem Token.place_eq_end_iff (t : Token) : t.place = " at end" ↔ t.kind = .endOfInput := by
  rw [place_eq]
  split
  · simp [*]
  · next more =>
    simp [more, String.ext_iff]

theorem awaits_start (text : String) (traced : Bool) :
    Awaits (TokenStream.ofString text).toStream (.start text traced) sentences := by
  refine ⟨[], ?_, by simp, ?_, fun _ => id, fun _ => id⟩
  · rw [TokenStream.toStream_next]
    rfl
  · simp [sentences, classTexts_eq, classTexts]

/-- An error at a token is one of the class, since what cannot be read is no token. -/
theorem exists_wholeClass_eq_error {source : ByteArray} {t : Token} {problem : Problem}
    (h : compile source = .error (.atToken t problem)) :
    ∃ text, String.fromUTF8? source = some text ∧ ∃ r,
      wholeClass (.start text false) = .error (.atToken t problem) r := by
  unfold compile finalState at h
  cases decoded : String.fromUTF8? source with
  | none =>
    rw [decoded] at h
    cases h
  | some text =>
    rw [decoded] at h
    refine ⟨text, rfl, ?_⟩
    cases started : advance (.ofString text false) with
    | ok u r =>
      obtain ⟨-, rfl⟩ := advance_eq_ok.mp started
      simp only [bind_ok started] at h
      cases run : wholeClass (.start text false) with
      | ok u r =>
        rw [CompilerState.start] at run
        rw [run] at h
        cases h
      | error e r =>
        rw [CompilerState.start] at run
        rw [run] at h
        cases h
        exact ⟨r, rfl⟩
    | error e r =>
      simp only [bind_error started] at h
      obtain ⟨-, line, fault, rfl⟩ := eq_unreadable_of_advance started
      cases h

end JackVm

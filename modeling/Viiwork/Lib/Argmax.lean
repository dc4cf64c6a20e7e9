import Mathlib

/-!
# Viiwork.Lib.Argmax

The argument of the highest score in a list whose scores differ. It is a matter of
the list's members alone, it is the head of the list sorted by score, and leaving
out another member does not change it.
-/

namespace Viiwork.Lib

open List

variable {α γ : Type*} [LinearOrder γ] {f : α → γ} {xs ys : List α} {m : α}

/-- No two members have one score. -/
def ScoresDiffer (f : α → γ) (xs : List α) : Prop :=
  ∀ a ∈ xs, ∀ b ∈ xs, f a = f b → a = b

omit [LinearOrder γ] in
theorem ScoresDiffer.mono (h : ScoresDiffer f xs) (hsub : ∀ x ∈ ys, x ∈ xs) : ScoresDiffer f ys :=
  fun a ha b hb => h a (hsub a ha) b (hsub b hb)

theorem ScoresDiffer.argmax_eq_some_iff (h : ScoresDiffer f xs) :
    xs.argmax f = some m ↔ m ∈ xs ∧ ∀ a ∈ xs, f a ≤ f m := by
  constructor
  · intro hm
    exact ⟨argmax_mem hm, fun a ha => le_of_mem_argmax ha hm⟩
  · rintro ⟨hm, hle⟩
    cases hmax : xs.argmax f with
    | none =>
      rw [argmax_eq_none.1 hmax] at hm
      cases hm
    | some m' =>
      have hle' := le_of_mem_argmax hm (Option.mem_def.2 hmax)
      have hmem := argmax_mem (Option.mem_def.2 hmax)
      rw [h m' hmem m hm (le_antisymm (hle m' hmem) hle')]

/-- The order of the members, and how often each occurs, do not matter. -/
theorem ScoresDiffer.argmax_congr (h : ScoresDiffer f xs) (hsame : ∀ x, x ∈ ys ↔ x ∈ xs) :
    ys.argmax f = xs.argmax f := by
  have h' : ScoresDiffer f ys := h.mono fun x hx => (hsame x).1 hx
  refine Option.ext fun m => ?_
  rw [h.argmax_eq_some_iff, h'.argmax_eq_some_iff]
  simp only [hsame]

/-- Without a member that is not it, the argument stays. -/
theorem ScoresDiffer.argmax_without (h : ScoresDiffer f xs) {gone : α}
    (hsame : ∀ x, x ∈ ys ↔ x ∈ xs ∧ x ≠ gone) (hne : xs.argmax f ≠ some gone) :
    ys.argmax f = xs.argmax f := by
  have h' : ScoresDiffer f ys := h.mono fun x hx => ((hsame x).1 hx).1
  cases hmax : xs.argmax f with
  | none =>
    rw [argmax_eq_none]
    refine eq_nil_iff_forall_not_mem.2 fun x hx => ?_
    have := ((hsame x).1 hx).1
    rw [argmax_eq_none.1 hmax] at this
    cases this
  | some m =>
    obtain ⟨hm, hle⟩ := h.argmax_eq_some_iff.1 hmax
    refine h'.argmax_eq_some_iff.2 ⟨(hsame m).2 ⟨hm, ?_⟩, fun a ha => hle a ((hsame a).1 ha).1⟩
    rintro rfl
    exact hne hmax

/-- A list sorted by falling score starts with the argument. -/
theorem ScoresDiffer.head?_insertionSort (h : ScoresDiffer f xs) {r : α → α → Prop}
    [DecidableRel r] [Std.Total r] [IsTrans α r] (hr : ∀ a b, r a b → f b ≤ f a) :
    (xs.insertionSort r).head? = xs.argmax f := by
  cases hsort : xs.insertionSort r with
  | nil =>
    have hnil : xs = [] := by
      simpa [hsort] using (perm_insertionSort r xs).symm
    rw [hnil]
    rfl
  | cons m rest =>
    have hsorted := pairwise_insertionSort r xs
    rw [hsort] at hsorted
    refine (h.argmax_eq_some_iff.2 ⟨?_, fun a ha => ?_⟩).symm
    · rw [← mem_insertionSort r, hsort]
      exact mem_cons_self
    · rw [← mem_insertionSort r, hsort] at ha
      rcases mem_cons.1 ha with rfl | ha
      · exact le_rfl
      · exact hr m a (rel_of_pairwise_cons hsorted ha)

end Viiwork.Lib

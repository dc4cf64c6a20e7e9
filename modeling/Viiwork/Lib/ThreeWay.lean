import Mathlib

/-!
# Viiwork.Lib.ThreeWay

Comparisons that answer with a number: negative, zero or positive. `ThreeWay s c` says that `c`
orders the elements of `s`, different ones perhaps as equal. Such a comparison can be taken of a
key (`comap`), refined by another one where it answers zero (`thenBy`), and extended to lists by
their first difference (`lexSign`).
-/

namespace Viiwork.Lib

variable {α β : Type*}

/-- `c` orders the elements of `s`, the greatest with positive answers. -/
structure ThreeWay (s : α → Prop) (c : α → α → Int) : Prop where
  swap : ∀ {a b}, s a → s b → c b a = -c a b
  trans : ∀ {a b d}, s a → s b → s d → 0 ≤ c a b → 0 ≤ c b d → 0 ≤ c a d

namespace ThreeWay

variable {s t : α → Prop} {c e : α → α → Int} {a b d : α}

/-- **Rule of keys.** -/
theorem comap {c : β → β → Int} {s : β → Prop} (h : ThreeWay s c) (f : α → β) :
    ThreeWay (fun a => s (f a)) fun a b => c (f a) (f b) :=
  ⟨fun ha hb => h.swap ha hb, fun ha hb hd => h.trans ha hb hd⟩

section

variable (h : ThreeWay s c)
include h

theorem pos_left (ha : s a) (hb : s b) (hd : s d) (hab : 0 < c a b) (hbd : 0 ≤ c b d) :
    0 < c a d := by
  by_contra hle
  -- otherwise `d` is at least `a`, and so is `b`
  have hda : 0 ≤ c d a := by rw [h.swap ha hd]; omega
  have hba := h.trans hb hd ha hbd hda
  rw [h.swap ha hb] at hba
  omega

theorem pos_right (ha : s a) (hb : s b) (hd : s d) (hab : 0 ≤ c a b) (hbd : 0 < c b d) :
    0 < c a d := by
  by_contra hle
  have hda : 0 ≤ c d a := by rw [h.swap ha hd]; omega
  have hdb := h.trans hd ha hb hda hab
  rw [h.swap hb hd] at hdb
  omega

theorem congr (heq : ∀ a b, s a → s b → e a b = c a b) : ThreeWay s e := by
  constructor
  · intro a b ha hb
    rw [heq b a hb ha, heq a b ha hb]
    exact h.swap ha hb
  · intro a b d ha hb hd hab hbd
    rw [heq a b ha hb] at hab
    rw [heq b d hb hd] at hbd
    rw [heq a d ha hd]
    exact h.trans ha hb hd hab hbd

theorem mono (hts : ∀ a, t a → s a) : ThreeWay t c :=
  ⟨fun ha hb => h.swap (hts _ ha) (hts _ hb),
    fun ha hb hd => h.trans (hts _ ha) (hts _ hb) (hts _ hd)⟩

/-- One step of a comparison by first differences: `r` is what decides where `c` does not. -/
theorem first_trans (ha : s a) (hb : s b) (hd : s d) {r₁ r₂ r₃ : Int}
    (hr : 0 ≤ r₁ → 0 ≤ r₂ → 0 ≤ r₃) (hab : 0 ≤ if c a b ≠ 0 then c a b else r₁)
    (hbd : 0 ≤ if c b d ≠ 0 then c b d else r₂) : 0 ≤ if c a d ≠ 0 then c a d else r₃ := by
  have hab' : 0 ≤ c a b := by split_ifs at hab <;> omega
  have hbd' : 0 ≤ c b d := by split_ifs at hbd <;> omega
  have had := h.trans ha hb hd hab' hbd'
  split_ifs with had₀
  · exact had
  · -- nothing between them differs either
    have hab₀ : c a b = 0 := by
      by_contra hne
      have := h.pos_left ha hb hd (lt_of_le_of_ne hab' (Ne.symm hne)) hbd'
      omega
    have hbd₀ : c b d = 0 := by
      by_contra hne
      have := h.pos_right ha hb hd hab' (lt_of_le_of_ne hbd' (Ne.symm hne))
      omega
    rw [if_neg (not_not.2 hab₀)] at hab
    rw [if_neg (not_not.2 hbd₀)] at hbd
    exact hr hab hbd

end

/-- **Rule of refinement.** -/
theorem thenBy (hc : ThreeWay s c) (he : ThreeWay s e) :
    ThreeWay s fun a b => if c a b ≠ 0 then c a b else e a b := by
  constructor
  · intro a b ha hb
    have hswap := hc.swap ha hb
    have hswap' := he.swap ha hb
    split_ifs <;> omega
  · intro a b d ha hb hd hab hbd
    exact hc.first_trans ha hb hd (he.trans ha hb hd) hab hbd

end ThreeWay

/-! ### Numbers and orders -/

theorem threeWay_sub : ThreeWay (fun _ : Int => True) fun a b => (a - b).sign := by
  constructor
  · intro a b _ _
    rw [← Int.sign_neg, neg_sub]
  · intro a b d _ _ _ hab hbd
    rw [Int.sign_nonneg_iff] at *
    omega

/-- The answer as a number. -/
def ordSign : Ordering → Int
  | .lt => -1
  | .eq => 0
  | .gt => 1

theorem threeWay_compare [Ord α] [Std.TransOrd α] :
    ThreeWay (fun _ : α => True) fun a b => ordSign (compare a b) := by
  have hge : ∀ o : Ordering, 0 ≤ ordSign o ↔ o.isGE = true := by decide
  constructor
  · intro a b _ _
    have hswap : compare b a = (compare a b).swap := Std.OrientedCmp.eq_swap
    rw [hswap]
    cases compare a b <;> rfl
  · intro a b d _ _ _ hab hbd
    rw [hge] at *
    exact Std.TransCmp.isGE_trans hab hbd

/-! ### Lists -/

/-- The first difference decides, and with none the length. -/
def lexSign (c : α → α → Int) : List α → List α → Int
  | a :: as, b :: bs => if c a b ≠ 0 then c a b else lexSign c as bs
  | as, bs => (as.length - bs.length : Int).sign

theorem lexSign_nil_cons (c : α → α → Int) (b : α) (bs : List α) : lexSign c [] (b :: bs) = -1 := by
  rw [lexSign]
  · exact Int.sign_eq_neg_one_of_neg (by simp; omega)
  · simp

theorem lexSign_cons_nil (c : α → α → Int) (a : α) (as : List α) : lexSign c (a :: as) [] = 1 := by
  rw [lexSign]
  · exact Int.sign_eq_one_of_pos (by simp)
  · simp

variable {c : α → α → Int}

theorem lexSign_append (hself : ∀ a, c a a = 0) (pre as bs : List α) :
    lexSign c (pre ++ as) (pre ++ bs) = lexSign c as bs := by
  induction pre with
  | nil => rfl
  | cons a pre ih => simpa [lexSign, hself] using ih

theorem lexSign_self (hself : ∀ a, c a a = 0) (as : List α) : lexSign c as as = 0 := by
  simpa [lexSign] using lexSign_append hself as [] []

/-- **Rule of lists.** -/
theorem ThreeWay.lexSign {s : α → Prop} (h : ThreeWay s c) :
    ThreeWay (fun as : List α => ∀ a ∈ as, s a) (lexSign c) := by
  constructor
  · intro as
    induction as with
    | nil =>
      intro bs _ _
      cases bs with
      | nil => rfl
      | cons b bs => rw [lexSign_cons_nil, lexSign_nil_cons, neg_neg]
    | cons a as ih =>
      intro bs has hbs
      cases bs with
      | nil => rw [lexSign_cons_nil, lexSign_nil_cons]
      | cons b bs =>
        obtain ⟨ha, has⟩ := List.forall_mem_cons.1 has
        obtain ⟨hb, hbs⟩ := List.forall_mem_cons.1 hbs
        have hswap := h.swap ha hb
        have hrest := ih has hbs
        rw [Lib.lexSign, Lib.lexSign]
        split_ifs <;> omega
  · intro as
    induction as with
    | nil =>
      intro bs ds _ _ _ hab hbd
      cases bs with
      | nil => exact hbd
      | cons b bs =>
        rw [lexSign_nil_cons] at hab
        omega
    | cons a as ih =>
      intro bs ds has hbs hds hab hbd
      cases ds with
      | nil => rw [lexSign_cons_nil]; omega
      | cons d ds =>
        cases bs with
        | nil =>
          rw [lexSign_nil_cons] at hbd
          omega
        | cons b bs =>
          obtain ⟨ha, has⟩ := List.forall_mem_cons.1 has
          obtain ⟨hb, hbs⟩ := List.forall_mem_cons.1 hbs
          obtain ⟨hd, hds⟩ := List.forall_mem_cons.1 hds
          rw [Lib.lexSign] at hab hbd ⊢
          exact h.first_trans ha hb hd (ih has hbs hds) hab hbd

end Viiwork.Lib

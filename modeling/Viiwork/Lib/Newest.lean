import Mathlib

/-!
# Viiwork.Lib.Newest

Keeping the greatest element by a **key**, one arrival at a time. `newest` is
the update of a last-writer-wins register; `IsNewest S` says what the register
holds once it has seen exactly the writes in `S`. The register depends on the
*set* of writes only (`IsNewest.unique`), which is what makes delivery order,
repetition and grouping irrelevant.
-/

namespace Viiwork.Lib

variable {α κ : Type*} [LinearOrder κ] (key : α → κ)

/-- Take `x` when it is strictly newer than what is held. -/
def newest (held : Option α) (x : α) : Option α :=
  match held with
  | none => some x
  | some m => if key m < key x then some x else some m

theorem newest_of_lt {m x : α} (h : key m < key x) : newest key (some m) x = some x :=
  if_pos h

theorem newest_of_le {m x : α} (h : key x ≤ key m) : newest key (some m) x = some m :=
  if_neg h.not_gt

/-- Two writes end in the same register either way round, where equal keys mean
equal writes. -/
theorem newest_comm {x y : α} (hkey : key x = key y → x = y) :
    newest key (some x) y = newest key (some y) x := by
  rcases lt_trichotomy (key x) (key y) with hlt | heq | hgt
  · rw [newest_of_lt key hlt, newest_of_le key hlt.le]
  · rw [hkey heq]
  · rw [newest_of_le key hgt.le, newest_of_lt key hgt]

/-- `held` is a newest element of `S`, or `S` is empty and nothing is held. -/
def IsNewest (S : Set α) : Option α → Prop
  | none => S = ∅
  | some m => m ∈ S ∧ ∀ x ∈ S, key x ≤ key m

/-- One arrival. -/
theorem IsNewest.newest {S : Set α} {held : Option α} (h : IsNewest key S held) (x : α) :
    IsNewest key (insert x S) (newest key held x) := by
  cases held with
  | none =>
    obtain rfl : S = ∅ := h
    exact ⟨Set.mem_insert _ _, fun y hy => by simp_all⟩
  | some m =>
    obtain ⟨hm, hmax⟩ := h
    rcases lt_or_ge (key m) (key x) with hlt | hle
    · rw [newest_of_lt key hlt]
      refine ⟨Set.mem_insert _ _, fun y hy => ?_⟩
      rcases Set.mem_insert_iff.mp hy with rfl | hy
      · exact le_refl _
      · exact (hmax y hy).trans hlt.le
    · rw [newest_of_le key hle]
      refine ⟨Set.mem_insert_of_mem _ hm, fun y hy => ?_⟩
      rcases Set.mem_insert_iff.mp hy with rfl | hy
      · exact hle
      · exact hmax y hy

/-- Where a key determines its element, the newest element is unique. -/
theorem IsNewest.unique {S : Set α} (hkey : ∀ a ∈ S, ∀ b ∈ S, key a = key b → a = b)
    {r r' : Option α} (h : IsNewest key S r) (h' : IsNewest key S r') : r = r' := by
  cases r with
  | none =>
    obtain rfl : S = ∅ := h
    cases r' with
    | none => rfl
    | some m => exact absurd h'.1 (Set.notMem_empty m)
  | some m =>
    cases r' with
    | none =>
      obtain rfl : S = ∅ := h'
      exact absurd h.1 (Set.notMem_empty m)
    | some m' =>
      have hk : key m = key m' := le_antisymm (h'.2 m h.1) (h.2 m' h'.1)
      rw [hkey m h.1 m' h'.1 hk]

end Viiwork.Lib

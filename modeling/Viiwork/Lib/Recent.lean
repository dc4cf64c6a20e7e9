import Mathlib

/-!
# Viiwork.Lib.Recent

The last value given to each key, the most recent key first, is `dedupKeys` of what was given, the
latest first. A cache of `n` keys that moves each key it is given to the front and drops what is
over holds the first `n` of them (`take_kinsert`): the keys with fewer than `n` others since
(`mem_take_dedupKeys_iff`).
-/

namespace Viiwork.Lib

open List

variable {α β : Type*} [DecidableEq α] {l xs since before : List (Σ _ : α, β)}
  {a : α} {b : β} {n : Nat}

/-- What is cut off before a key is given would be cut off after it. -/
theorem take_kinsert : ((l.take n).kinsert a b).take n = (l.kinsert a b).take n := by
  cases n with
  | zero => rfl
  | succ n =>
    rw [kinsert_def, kinsert_def, take_succ_cons, take_succ_cons]
    congr 1
    induction l generalizing n with
    | nil => rfl
    | cons y l ih =>
      rw [take_succ_cons]
      by_cases ha : a = y.1
      · rw [kerase_cons_eq ha, kerase_cons_eq ha, take_take, min_self]
      · rw [kerase_cons_ne ha, kerase_cons_ne ha]
        cases n with
        | zero => rfl
        | succ n => rw [take_succ_cons, take_succ_cons, ih]

/-- Before a key stand the keys since. -/
theorem dedupKeys_split (h : a ∉ since.keys) :
    ∃ older, dedupKeys (since ++ ⟨a, b⟩ :: before) = dedupKeys since ++ ⟨a, b⟩ :: older := by
  induction since with
  | nil => exact ⟨_, rfl⟩
  | cons y since ih =>
    rw [keys_cons, mem_cons, not_or] at h
    obtain ⟨older, heq⟩ := ih h.2
    rw [cons_append, dedupKeys_cons, dedupKeys_cons, heq, kinsert_def, kinsert_def]
    by_cases hy : y.1 ∈ (dedupKeys since).keys
    · exact ⟨older, by rw [kerase_append_left hy, cons_append]⟩
    · refine ⟨kerase y.1 older, ?_⟩
      rw [kerase_append_right hy, kerase_cons_ne (Ne.symm h.1), kerase_of_notMem_keys hy]
      rfl

theorem mem_keys_dedupKeys : a ∈ (dedupKeys l).keys ↔ a ∈ l.keys := by
  rw [← dlookup_isSome, dlookup_dedupKeys, dlookup_isSome]

/-- **The first `n`** are the last values of the keys with fewer than `n` others since. -/
theorem mem_take_dedupKeys_iff : ⟨a, b⟩ ∈ (dedupKeys xs).take n ↔
    ∃ since before, xs = since ++ ⟨a, b⟩ :: before ∧ a ∉ since.keys ∧
      since.keys.toFinset.card < n := by
  have hcount : ∀ {since before : List (Σ _ : α, β)}, a ∉ since.keys →
      (⟨a, b⟩ ∈ (dedupKeys (since ++ ⟨a, b⟩ :: before)).take n ↔ since.keys.toFinset.card < n) := by
    classical
    intro since before ha
    obtain ⟨older, heq⟩ := @dedupKeys_split _ _ _ since before a b ha
    have hkeys : since.keys.toFinset = (dedupKeys since).keys.toFinset := by
      ext a
      rw [mem_toFinset, mem_toFinset, mem_keys_dedupKeys]
    rw [heq, mem_take_iff_idxOf_lt (by simp), idxOf_append_of_notMem, idxOf_cons_self, hkeys,
      toFinset_card_of_nodup (nodupKeys_dedupKeys since), keys, length_map, add_zero]
    exact fun hmem => ha (mem_keys_dedupKeys.1 (mem_keys_of_mem hmem))
  constructor
  · intro h
    have hmem := mem_of_mem_take h
    have hlook : dlookup a xs = some b :=
      (dlookup_dedupKeys a xs).symm.trans (mem_dlookup (nodupKeys_dedupKeys xs) hmem)
    obtain ⟨b', since, before, ha, rfl, -⟩ :=
      exists_of_kerase (mem_keys_dedupKeys.1 (mem_keys_of_mem hmem))
    rw [dlookup_append, dlookup_eq_none.2 ha, dlookup_cons_eq] at hlook
    cases hlook
    exact ⟨since, before, rfl, ha, (hcount ha).1 h⟩
  · rintro ⟨since, before, rfl, ha, hlt⟩
    exact (hcount ha).2 hlt

end Viiwork.Lib

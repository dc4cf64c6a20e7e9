import Mathlib

/-!
# Viiwork.Lib.KeyedList

Lists whose elements carry a **key** from a linear order, kept newest (largest
key) first without repeated keys. This is the shape of a bounded version
history: the module gives the normal form `Descending`, the two passes that
reach it (`dedupKey`, `sortDesc`), and the facts a merge of two such lists
rests on:

* a descending list is a fixed point of both passes, and it is the *only*
  fixed point of the capped union with itself (`unionDesc_self_iff`);
* when a key determines its element, the capped union does not depend on the
  order of its arguments (`unionDesc_comm`).

A list that fills a map is read the other way round: the last element of a key is the
one that the map keeps (`lastWith`); a sum over the keys of the sums by key is the sum
(`sum_by_key`).

Nothing here knows what the elements are.
-/

namespace Viiwork.Lib

open List

variable {α κ : Type*} [LinearOrder κ] (key : α → κ)

/-! ### The normal form -/

/-- Strictly decreasing keys: newest first, no key twice. -/
def Descending (l : List α) : Prop := l.Pairwise fun a b => key b < key a

instance (l : List α) : Decidable (Descending key l) :=
  inferInstanceAs (Decidable (l.Pairwise fun a b => key b < key a))

@[simp] theorem descending_nil : Descending key [] := List.Pairwise.nil

variable {a : α} {l l₁ l₂ : List α} {n : Nat}

@[simp] theorem descending_cons :
    Descending key (a :: l) ↔ (∀ b ∈ l, key b < key a) ∧ Descending key l :=
  pairwise_cons

variable {key} in
theorem Descending.take (h : Descending key l) (n : Nat) : Descending key (l.take n) :=
  List.Pairwise.sublist (take_sublist n l) h

variable {key} in
theorem Descending.tail (h : Descending key l) : Descending key l.tail :=
  List.Pairwise.sublist (tail_sublist l) h

variable {key} in
/-- Two descending lists with the same members are the same list. -/
theorem Descending.eq_of_mem_iff (h₁ : Descending key l₁) (h₂ : Descending key l₂)
    (h : ∀ a, a ∈ l₁ ↔ a ∈ l₂) : l₁ = l₂ := by
  have : Std.Irrefl (fun a b : α => key b < key a) := ⟨fun a => lt_irrefl (key a)⟩
  have : Std.Antisymm (fun a b : α => key b < key a) :=
    ⟨fun a b hab hba => absurd hab (lt_asymm hba)⟩
  exact List.Pairwise.eq_of_mem_iff h₁ h₂ h

/-! ### Dropping repeated keys -/

/-- Keep the first element of each key that is not in `seen`. -/
def dedupKey (seen : List κ) : List α → List α
  | [] => []
  | a :: l => if key a ∈ seen then dedupKey seen l else a :: dedupKey (key a :: seen) l

theorem mem_of_mem_dedupKey :
    ∀ {l : List α} {seen : List κ}, a ∈ dedupKey key seen l → a ∈ l ∧ key a ∉ seen
  | [], _, h => by simp [dedupKey] at h
  | b :: l, seen, h => by
      rw [dedupKey] at h
      split at h
      · obtain ⟨hl, hs⟩ := mem_of_mem_dedupKey h
        exact ⟨mem_cons_of_mem _ hl, hs⟩
      · rename_i hb
        rcases mem_cons.mp h with rfl | h
        · exact ⟨mem_cons_self, hb⟩
        · obtain ⟨hl, hs⟩ := mem_of_mem_dedupKey h
          exact ⟨mem_cons_of_mem _ hl, fun hk => hs (mem_cons_of_mem _ hk)⟩

/-- No key survives twice. -/
theorem dedupKey_pairwise :
    ∀ (l : List α) (seen : List κ), (dedupKey key seen l).Pairwise fun a b => key a ≠ key b
  | [], _ => List.Pairwise.nil
  | a :: l, seen => by
      rw [dedupKey]
      split
      · exact dedupKey_pairwise l seen
      · refine pairwise_cons.mpr ⟨fun b hb => ?_, dedupKey_pairwise l _⟩
        have hs := (mem_of_mem_dedupKey key hb).2
        exact fun h => hs (h ▸ mem_cons_self)

/-- Every unseen key keeps a representative. -/
theorem exists_mem_dedupKey :
    ∀ {l : List α} {seen : List κ}, a ∈ l → key a ∉ seen →
      ∃ b ∈ dedupKey key seen l, key b = key a
  | [], _, h, _ => absurd h not_mem_nil
  | b :: l, seen, h, hs => by
      rw [dedupKey]
      by_cases hb : key b ∈ seen
      · rw [if_pos hb]
        rcases mem_cons.mp h with rfl | h
        · exact absurd hb hs
        · exact exists_mem_dedupKey h hs
      · rw [if_neg hb]
        by_cases hab : key a = key b
        · exact ⟨b, mem_cons_self, hab.symm⟩
        · rcases mem_cons.mp h with rfl | h
          · exact absurd rfl hab
          · have hs' : key a ∉ key b :: seen := by
              rw [mem_cons, not_or]; exact ⟨hab, hs⟩
            obtain ⟨c, hc, hk⟩ := exists_mem_dedupKey h hs'
            exact ⟨c, mem_cons_of_mem _ hc, hk⟩

/-- A list without repeated keys, none of them seen, is left alone. -/
theorem dedupKey_eq_self :
    ∀ {l : List α} {seen : List κ}, l.Pairwise (fun a b => key a ≠ key b) →
      (∀ a ∈ l, key a ∉ seen) → dedupKey key seen l = l
  | [], _, _, _ => rfl
  | a :: l, seen, hp, hs => by
      obtain ⟨ha, hl⟩ := pairwise_cons.mp hp
      rw [dedupKey, if_neg (hs a mem_cons_self), dedupKey_eq_self hl]
      intro b hb hk
      rcases mem_cons.mp hk with h | h
      · exact ha b hb h.symm
      · exact hs b (mem_cons_of_mem _ hb) h

/-- Elements whose keys were all seen add nothing. -/
theorem dedupKey_append_seen :
    ∀ {l l' : List α} {seen : List κ}, (∀ a ∈ l', key a ∈ seen ∨ ∃ b ∈ l, key b = key a) →
      dedupKey key seen (l ++ l') = dedupKey key seen l
  | [], l', seen, h => by
      have hnil : dedupKey key seen l' = [] := by
        apply eq_nil_iff_forall_not_mem.mpr
        intro a ha
        obtain ⟨hl, hs⟩ := mem_of_mem_dedupKey key ha
        rcases h a hl with hk | ⟨b, hb, -⟩
        · exact hs hk
        · exact absurd hb not_mem_nil
      simpa [dedupKey] using hnil
  | b :: l, l', seen, h => by
      simp only [cons_append, dedupKey]
      split
      · rename_i hb
        refine dedupKey_append_seen fun a ha => ?_
        rcases h a ha with hk | ⟨c, hc, hk⟩
        · exact .inl hk
        · rcases mem_cons.mp hc with rfl | hc
          · exact .inl (hk ▸ hb)
          · exact .inr ⟨c, hc, hk⟩
      · refine congrArg _ (dedupKey_append_seen fun a ha => ?_)
        rcases h a ha with hk | ⟨c, hc, hk⟩
        · exact .inl (mem_cons_of_mem _ hk)
        · rcases mem_cons.mp hc with rfl | hc
          · exact .inl (hk ▸ mem_cons_self)
          · exact .inr ⟨c, hc, hk⟩

/-! ### Sorting -/

/-- Stable sort, largest key first. -/
def sortDesc (l : List α) : List α := l.insertionSort fun a b => key b ≤ key a

theorem mem_sortDesc : a ∈ sortDesc key l ↔ a ∈ l :=
  mem_insertionSort _

/-- Sorting a list without repeated keys reaches the normal form. -/
theorem sortDesc_descending (h : l.Pairwise fun a b => key a ≠ key b) :
    Descending key (sortDesc key l) := by
  have : Std.Total (fun a b : α => key b ≤ key a) := ⟨fun a b => le_total _ _⟩
  have : IsTrans α (fun a b : α => key b ≤ key a) := ⟨fun a b c hab hbc => hbc.trans hab⟩
  have hsorted := pairwise_insertionSort (fun a b : α => key b ≤ key a) l
  have hne : (sortDesc key l).Pairwise fun a b => key a ≠ key b :=
    (perm_insertionSort _ l).symm.pairwise h fun hab => hab.symm
  exact (hsorted.and hne).imp fun ⟨hle, hne⟩ => lt_of_le_of_ne hle hne.symm

theorem sortDesc_eq_self (h : Descending key l) : sortDesc key l = l :=
  List.Pairwise.insertionSort_eq (h.imp fun hlt => le_of_lt hlt)

/-! ### The capped union -/

/-- Both lists without repeated keys, newest first, at most `n` of them. -/
def unionDesc (n : Nat) (l₁ l₂ : List α) : List α :=
  (sortDesc key (dedupKey key [] (l₁ ++ l₂))).take n

theorem unionDesc_descending (n : Nat) (l₁ l₂ : List α) :
    Descending key (unionDesc key n l₁ l₂) :=
  (sortDesc_descending key (dedupKey_pairwise key _ _)).take n

theorem unionDesc_length_le (n : Nat) (l₁ l₂ : List α) :
    (unionDesc key n l₁ l₂).length ≤ n :=
  length_take_le _ _

theorem mem_of_mem_unionDesc (h : a ∈ unionDesc key n l₁ l₂) : a ∈ l₁ ∨ a ∈ l₂ := by
  have hmem := (mem_sortDesc key).mp (mem_of_mem_take h)
  exact mem_append.mp (mem_of_mem_dedupKey key hmem).1

/-- A short descending list united with part of itself is itself. -/
theorem unionDesc_of_subset {l' : List α} (h : Descending key l) (hn : l.length ≤ n)
    (hsub : ∀ a ∈ l', ∃ b ∈ l, key b = key a) : unionDesc key n l l' = l := by
  have hne : l.Pairwise fun a b => key a ≠ key b := h.imp fun hlt => ne_of_gt hlt
  rw [unionDesc, dedupKey_append_seen key fun a ha => .inr (hsub a ha),
    dedupKey_eq_self key hne (fun a _ => not_mem_nil), sortDesc_eq_self key h,
    take_of_length_le hn]

theorem unionDesc_self (h : Descending key l) (hn : l.length ≤ n) : unionDesc key n l l = l :=
  unionDesc_of_subset key h hn fun a ha => ⟨a, ha, rfl⟩

/-- **The normal form is exactly what uniting with a copy leaves alone.** -/
theorem unionDesc_self_iff : unionDesc key n l l = l ↔ Descending key l ∧ l.length ≤ n := by
  constructor
  · intro h
    rw [← h]
    exact ⟨unionDesc_descending key n l l, unionDesc_length_le key n l l⟩
  · rintro ⟨h, hn⟩
    exact unionDesc_self key h hn

/-- Where a key determines its element, dropping repeated keys drops no element. -/
theorem mem_dedupKey_iff (hkey : ∀ a ∈ l, ∀ b ∈ l, key a = key b → a = b) :
    a ∈ dedupKey key [] l ↔ a ∈ l := by
  refine ⟨fun h => (mem_of_mem_dedupKey key h).1, fun h => ?_⟩
  obtain ⟨b, hb, hk⟩ := exists_mem_dedupKey key h not_mem_nil
  rw [← hkey b (mem_of_mem_dedupKey key hb).1 a h hk]
  exact hb

/-- **Uniting is symmetric** where a key determines its element. -/
theorem unionDesc_comm (n : Nat) (hkey : ∀ a ∈ l₁ ++ l₂, ∀ b ∈ l₁ ++ l₂, key a = key b → a = b) :
    unionDesc key n l₁ l₂ = unionDesc key n l₂ l₁ := by
  have hswap : ∀ a, a ∈ l₁ ++ l₂ ↔ a ∈ l₂ ++ l₁ := fun a => by
    rw [mem_append, mem_append, or_comm]
  have hkey' : ∀ a ∈ l₂ ++ l₁, ∀ b ∈ l₂ ++ l₁, key a = key b → a = b :=
    fun a ha b hb => hkey a ((hswap a).mpr ha) b ((hswap b).mpr hb)
  have hsort : sortDesc key (dedupKey key [] (l₁ ++ l₂)) =
      sortDesc key (dedupKey key [] (l₂ ++ l₁)) := by
    refine Descending.eq_of_mem_iff (sortDesc_descending key (dedupKey_pairwise key _ _))
      (sortDesc_descending key (dedupKey_pairwise key _ _)) fun a => ?_
    rw [mem_sortDesc, mem_sortDesc, mem_dedupKey_iff key hkey, mem_dedupKey_iff key hkey']
    exact hswap a
  rw [unionDesc, unionDesc, hsort]

/-! ### The last element of a key -/

section LastWith

variable {α κ : Type*} [DecidableEq κ] (key : α → κ)

/-- What a map filled from the list has for the key. -/
def lastWith (k : κ) (l : List α) : Option α := l.reverse.find? fun a => decide (key a = k)

variable {key}
variable {a : α} {k : κ} {l : List α}

theorem mem_of_lastWith (h : lastWith key k l = some a) : a ∈ l ∧ key a = k :=
  ⟨mem_reverse.1 (mem_of_find?_eq_some h), by simpa using List.find?_some h⟩

theorem lastWith_eq_none_iff : lastWith key k l = none ↔ ∀ a ∈ l, key a ≠ k := by
  simp [lastWith]

theorem lastWith_of_mem (hnodup : (l.map key).Nodup) (ha : a ∈ l) :
    lastWith key (key a) l = some a := by
  cases h : lastWith key (key a) l with
  | none => exact absurd rfl (lastWith_eq_none_iff.1 h a ha)
  | some b =>
    obtain ⟨hb, hkey⟩ := mem_of_lastWith h
    rw [inj_on_of_nodup_map hnodup hb ha hkey]

/-- The last entry of a key is the last of a finer key that it has. -/
theorem lastWith_of_imp {κ' : Type*} [DecidableEq κ'] {key' : α → κ'} {k' : κ'}
    (himp : ∀ b ∈ l, key' b = k' → key b = k) (h : lastWith key k l = some a) (ha : key' a = k') :
    lastWith key' k' l = some a := by
  obtain ⟨_, newer, older, hsplit, hnewer⟩ := List.find?_eq_some_iff_append.1 h
  refine List.find?_eq_some_iff_append.2 ⟨by simpa using ha, newer, older, hsplit, ?_⟩
  intro b hb
  have hmem : b ∈ l := mem_reverse.1 (by rw [hsplit]; exact mem_append_left _ hb)
  have hne : key b ≠ k := by simpa using hnewer b hb
  simpa using fun hk => hne (himp b hmem hk)

/-- In a list in order, no entry of the key is after the last one. -/
theorem le_of_lastWith {f : α → Int} {b : α} (hsorted : l.Pairwise fun x y => f x ≤ f y)
    (h : lastWith key k l = some a) (hb : b ∈ l) (hkey : key b = k) : f b ≤ f a := by
  obtain ⟨_, newer, older, hsplit, hnewer⟩ := List.find?_eq_some_iff_append.1 h
  have hmem := mem_reverse.2 hb
  have hpair := pairwise_reverse.2 hsorted
  rw [hsplit] at hmem hpair
  rw [mem_append, mem_cons] at hmem
  obtain hin | rfl | hin := hmem
  · have hne : key b ≠ k := by simpa using hnewer b hin
    exact absurd hkey hne
  · exact Int.le_refl _
  · exact rel_of_pairwise_cons (pairwise_append.1 hpair).2.1 hin

/-- The last entry of a key among the entries of the key. -/
theorem lastWith_filter {κ' : Type*} [DecidableEq κ'] {key' : α → κ'} {k' : κ'}
    (h : ∀ a ∈ l, key a = k → key' a = k') :
    lastWith key' k' (l.filter fun a => key a = k) = lastWith key k l := by
  have hfilter : (l.filter fun a => key a = k).filter (fun a => key' a = k') =
      l.filter fun a => key a = k := by
    rw [filter_eq_self]
    intro a ha
    rw [mem_filter, decide_eq_true_eq] at ha
    simpa using h a ha.1 ha.2
  rw [lastWith, lastWith, ← List.head?_filter, ← List.head?_filter, filter_reverse, hfilter,
    filter_reverse]

theorem lastWith_map {β : Type*} (f : β → α) (k : κ) (l : List β) :
    lastWith key k (l.map f) = (lastWith (key ∘ f) k l).map f := by
  rw [lastWith, ← map_reverse, List.find?_map]
  rfl

theorem lastWith_append (k : κ) (l l' : List α) :
    lastWith key k (l ++ l') = (lastWith key k l').or (lastWith key k l) := by
  rw [lastWith, reverse_append, List.find?_append]
  rfl

/-- The map that the list fills. -/
theorem foldl_update_apply {β : Type*} (val : α → β) (l : List α) (m : κ → Option β) (k : κ) :
    l.foldl (fun m a => Function.update m (key a) (some (val a))) m k =
      ((lastWith key k l).map val).or (m k) := by
  induction l using List.reverseRecOn with
  | nil => rfl
  | append_singleton l a ih =>
    rw [foldl_append, foldl_cons, foldl_nil, lastWith_append]
    by_cases hk : key a = k
    · subst hk
      simp [lastWith]
    · have hnone : lastWith key k [a] = none := lastWith_eq_none_iff.2 (by simpa using hk)
      rw [Function.update_of_ne (Ne.symm hk), ih, hnone, Option.none_or]

end LastWith

/-! ### Sums by key -/

section ByKey

variable {α κ : Type*} [DecidableEq κ]

/-- The keys in the order of their first appearance. -/
def firsts (l : List κ) : List κ := l.reverse.dedup.reverse

theorem mem_firsts {l : List κ} {k : κ} : k ∈ firsts l ↔ k ∈ l := by
  simp [firsts]

theorem firsts_nodup (l : List κ) : (firsts l).Nodup :=
  nodup_reverse.2 (nodup_dedup _)

/-- One key of a list without repetitions counts once. -/
theorem sum_map_single {M : Type*} [AddCommMonoid M] {ks : List κ} (hnodup : ks.Nodup) {k : κ}
    (hk : k ∈ ks) (x : M) : (ks.map fun k' => if k = k' then x else 0).sum = x := by
  rw [← sum_toFinset _ hnodup, Finset.sum_ite_eq, if_pos (mem_toFinset.2 hk)]

/-- **A sum by key** is the sum. -/
theorem sum_by_key {M : Type*} [AddCommMonoid M] (key : α → κ) (f : α → M) {ks : List κ}
    (hnodup : ks.Nodup) {l : List α} (hmem : ∀ a ∈ l, key a ∈ ks) :
    (ks.map fun k => ((l.filter fun a => key a = k).map f).sum).sum = (l.map f).sum := by
  induction l with
  | nil => simp
  | cons a l ih =>
    rw [forall_mem_cons] at hmem
    have hcons : ∀ k, (((a :: l).filter fun a => key a = k).map f).sum =
        (if key a = k then f a else 0) + ((l.filter fun a => key a = k).map f).sum := by
      intro k
      by_cases h : key a = k
      · simp [h]
      · simp [h]
    simp only [hcons, sum_map_add, sum_map_single hnodup hmem.1, ih hmem.2, map_cons,
      sum_cons]

end ByKey

end Viiwork.Lib

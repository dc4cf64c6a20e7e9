import Viiwork.Alias.Merge

/-!
# Viiwork.Alias.Ops

The operations of a store as data, so that a **run** is a list of them. What an
operation can do is said once, by one inversion lemma for each kind
(`LocalOp.exec_cases`, `MergeOp.exec_cases`, `purgeTombstones_cases`); the
invariants of later modules are read off these and never off the code.
-/

namespace Viiwork.Alias

open Viiwork.Meshapi

/-! ### Local writes -/

/-- A write by the node's own operator. -/
inductive LocalOp
  | set (name target : String) (fallbacks : List String)
  | delete (name : String)
  | revert (name : String)
  deriving Repr, DecidableEq

namespace LocalOp

def name : LocalOp → String
  | set name _ _ => name
  | delete name => name
  | revert name => name

def exec (s : Store) (c : Call) : LocalOp → Store × Except StoreErr AliasEntry
  | set name target fallbacks => s.set c name target fallbacks
  | delete name => s.delete c name
  | revert name => s.revert c name

/-- The old versions that stay in the history: `Revert` takes the newest out. -/
def kept (prev : AliasEntry) : LocalOp → List AliasVersion
  | revert _ => prev.history.tail
  | _ => prev.history

/-- What the written entry points to. -/
def PointsTo (prev : AliasEntry) (e : AliasEntry) : LocalOp → Prop
  | set name target fallbacks => validAliasName name = true ∧ e.target = target ∧
      e.fallbacks = fallbacks ∧ e.deleted = false
  | delete _ => e.target = "" ∧ e.fallbacks = [] ∧ e.deleted = true
  | revert _ => ∃ back rest, prev.history = back :: rest ∧ e.target = back.target ∧
      e.fallbacks = back.fallbacks ∧ e.deleted = false

end LocalOp

/-- What a name holds before a write, the zero entry when there is none. -/
def Store.prevEntry (s : Store) (n : String) : AliasEntry := (s.lookup n).getD default

/-- A local write that succeeded with entry `e`. -/
structure LocalWrite (s : Store) (c : Call) (op : LocalOp) (e : AliasEntry) : Prop where
  exec : op.exec s c = (s.written op.name e, .ok e)
  writeOk : c.writeOk = true
  next : Store.NextOf s c op.name e
  known : validAliasName op.name = true ∨ (s.lookup op.name).isSome = true
  pointsTo : op.PointsTo (s.prevEntry op.name) e
  history : e.history = historyAfter (s.prevEntry op.name) (s.lookup op.name).isSome
    (op.kept (s.prevEntry op.name))

/-- A local write errs and changes nothing, or stores its entry. -/
theorem LocalOp.exec_cases (s : Store) (c : Call) (op : LocalOp) :
    (∃ err, op.exec s c = (s, .error err)) ∨ ∃ e, LocalWrite s c op e := by
  cases op with
  | set name target fallbacks =>
    refine (s.set_cases c name target fallbacks).imp_right ?_
    rintro ⟨e, h, hok, hname, hnext, ht, hf, hd, hh⟩
    exact ⟨e, h, hok, hnext, .inl hname, ⟨hname, ht, hf, hd⟩, hh⟩
  | delete name =>
    refine (s.delete_cases c name).imp_right ?_
    rintro ⟨prev, e, h, hok, hprev, -, hnext, ht, hf, hd, hh⟩
    refine ⟨e, h, hok, hnext, .inr ?_, ⟨ht, hf, hd⟩, ?_⟩
    · simp [LocalOp.name, hprev]
    · simp [LocalOp.name, LocalOp.kept, Store.prevEntry, hprev, hh]
  | revert name =>
    refine (s.revert_cases c name).imp_right ?_
    rintro ⟨prev, back, rest, e, h, hok, hprev, hhist, hnext, ht, hf, hd, hh⟩
    refine ⟨e, h, hok, hnext, .inr ?_, ?_, ?_⟩
    · simp [LocalOp.name, hprev]
    · exact ⟨back, rest, by simp [LocalOp.name, Store.prevEntry, hprev, hhist], ht, hf, hd⟩
    · simp [LocalOp.name, LocalOp.kept, Store.prevEntry, hprev, hhist, hh]

/-! ### Merges -/

/-- A call that applies what another member sent. -/
inductive MergeOp
  | merge (name : String) (remote : AliasEntry)
  | mergeTable (t : AliasTable)
  deriving DecidableEq

namespace MergeOp

def exec (s : Store) (c : Call) : MergeOp → Store × Except StoreErr Unit
  | merge name remote => ((s.merge c name remote).1, (s.merge c name remote).2.map fun _ => ())
  | mergeTable t => ((s.mergeTable c t).1, (s.mergeTable c t).2.map fun _ => ())

def run (s : Store) (c : Call) (op : MergeOp) : Store := (op.exec s c).1

/-- The entry the call brings for `n`, if any. -/
def incoming (n : String) : MergeOp → Option AliasEntry
  | merge name remote => Store.receivedMsg name remote n
  | mergeTable t => if t.v = aliasTableVersion then Store.received t n else none

/-- A merge brings entries under valid names only, and accepted ones only. -/
theorem incoming_some {op : MergeOp} {n : String} {r : AliasEntry}
    (h : op.incoming n = some r) : validAliasName n = true ∧ acceptRemote r = true := by
  cases op with
  | merge name remote =>
    simp only [incoming, Store.receivedMsg] at h
    split at h
    · rename_i hc
      rw [← Option.some.inj h]
      simp only [Bool.and_eq_true] at hc
      exact ⟨hc.1.2, hc.2⟩
    · cases h
  | mergeTable t =>
    simp only [incoming] at h
    split at h
    · rw [Store.received, Option.filter_eq_some_iff, Bool.and_eq_true] at h
      exact h.2
    · cases h

/-- A merge errs and changes nothing, or merges every name with what it brings. -/
theorem exec_cases (s : Store) (c : Call) (op : MergeOp) :
    (∃ err, op.exec s c = (s, .error err)) ∨
      ∃ s', op.exec s c = (s', .ok ()) ∧ Store.MergesTo s s' fun n => op.incoming n := by
  cases op with
  | merge name remote =>
    rcases s.merge_cases c name remote with ⟨-, h⟩ | ⟨s', ch, cf, h, hm, -, -⟩
    · exact .inl ⟨_, by rw [exec, h]; rfl⟩
    · exact .inr ⟨s', by rw [exec, h]; rfl, hm⟩
  | mergeTable t =>
    rcases s.mergeTable_cases c t with ⟨-, err, h⟩ | ⟨s', ch, cf, h, hv, hm, -, -, -⟩
    · exact .inl ⟨err, by rw [exec, h]; rfl⟩
    · refine .inr ⟨s', by rw [exec, h]; rfl, ?_⟩
      simpa only [incoming, hv, if_true] using hm

/-- A call whose persist succeeds merges every name with what it brings. -/
theorem run_lookup {s : Store} {c : Call} (hok : c.writeOk = true) (op : MergeOp) (n : String) :
    (op.run s c).lookup n = mergeInto (s.lookup n) (op.incoming n) := by
  cases op with
  | merge name remote =>
    rcases s.merge_cases c name remote with ⟨hfail, -⟩ | ⟨s', ch, cf, h, hm, -, -⟩
    · rw [hok] at hfail; cases hfail
    · simp only [run, exec, incoming, h, hm.lookup]
  | mergeTable t =>
    rcases s.mergeTable_cases c t with ⟨hfail, err, h⟩ | ⟨s', ch, cf, h, hv, hm, -, -, -⟩
    · have hv : t.v ≠ aliasTableVersion := by
        rcases hfail with hv | ⟨hw, -⟩
        · exact hv
        · rw [hok] at hw; cases hw
      simp [run, exec, incoming, h, hv]
    · simp only [run, exec, incoming, h, hm.lookup, hv, if_true]

end MergeOp

/-! ### All operations -/

/-- An operation of a store. -/
inductive Op
  | write (op : LocalOp)
  | merge (op : MergeOp)
  | purge
  deriving DecidableEq

namespace Op

def exec (s : Store) (c : Call) : Op → Store × Except StoreErr Unit
  | write op => ((op.exec s c).1, (op.exec s c).2.map fun _ => ())
  | merge op => op.exec s c
  | purge => ((s.purgeTombstones c).1, (s.purgeTombstones c).2.map fun _ => ())

/-- **What an operation can do.** It errs and changes nothing, stores a local
write, merges every name, or purges. -/
theorem exec_cases (s : Store) (c : Call) (op : Op) :
    (∃ err, op.exec s c = (s, .error err)) ∨
      (∃ w e, op = write w ∧ LocalWrite s c w e ∧ op.exec s c = (s.written w.name e, .ok ())) ∨
      (∃ m s', op = merge m ∧ op.exec s c = (s', .ok ()) ∧
        Store.MergesTo s s' fun n => m.incoming n) ∨
      (op = purge ∧ (op.exec s c = (s, .ok ()) ∨ op.exec s c = (s.purged c, .ok ()))) := by
  cases op with
  | write w =>
    rcases w.exec_cases s c with ⟨err, h⟩ | ⟨e, hw⟩
    · exact .inl ⟨err, by rw [exec, h]; rfl⟩
    · exact .inr (.inl ⟨w, e, rfl, hw, by rw [exec, hw.exec]; rfl⟩)
  | merge m =>
    rcases m.exec_cases s c with ⟨err, h⟩ | ⟨s', h, hm⟩
    · exact .inl ⟨err, h⟩
    · exact .inr (.inr (.inl ⟨m, s', rfl, h, hm⟩))
  | purge =>
    rcases s.purgeTombstones_cases c with ⟨h, -⟩ | ⟨-, h⟩ | ⟨-, k, h⟩
    · exact .inr (.inr (.inr ⟨rfl, .inl (by rw [exec, h]; rfl)⟩))
    · exact .inl ⟨_, by rw [exec, h]; rfl⟩
    · exact .inr (.inr (.inr ⟨rfl, .inr (by rw [exec, h]; rfl)⟩))

end Op

/-- One operation of a store, as a step. -/
def Store.step (s : Store) (p : Call × Op) : Option Store := some (p.2.exec s p.1).1

end Viiwork.Alias

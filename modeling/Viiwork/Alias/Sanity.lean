import Viiwork.Lib.Run
import Viiwork.Alias.Service
import Viiwork.Alias.History

/-!
# Viiwork.Alias.Sanity

**Well-formed tables under hostile gossip.** `acceptRemote` looks at the current
version of what arrives, so no merge can break a table. The history that came
with it is not looked at, and `Revert` makes its first version current: a table
stays well formed as long as no `Revert` takes up a version without a target,
and no longer (`run_sane_iff`).
-/

namespace Viiwork.Alias

open Viiwork.Meshapi Viiwork.Lib

/-- What must hold of an entry however hostile the input was. -/
structure SaneEntry (n : String) (e : AliasEntry) : Prop where
  name : validAliasName n = true
  ver : e.ver ≤ maxAliasVer
  short : e.history.length ≤ maxAliasHistory
  target : e.deleted = false → e.target ≠ ""

/-- Every stored entry is sane. -/
def Sane (s : Store) : Prop := ∀ n e, s.lookup n = some e → SaneEntry n e

theorem sane_empty (self : String) : Sane (Store.empty self) := by
  intro n e he
  rw [Store.empty_lookup] at he
  cases he

variable {e : AliasEntry} {n : String} {s : Store}

/-- A sane entry is one `acceptRemote` would accept. -/
theorem SaneEntry.accepted (h : SaneEntry n e) : acceptRemote e = true :=
  acceptRemote_iff.mpr ⟨h.target, h.ver⟩

/-- A merge of an accepted entry under a valid name is sane. -/
theorem saneEntry_mergeEntry {loc? : Option AliasEntry} {remote : AliasEntry}
    (hloc : ∀ loc, loc? = some loc → SaneEntry n loc) (hname : validAliasName n = true)
    (hrem : acceptRemote remote = true) : SaneEntry n (mergeEntry loc? remote) := by
  obtain ⟨htarget, hver⟩ :=
    acceptRemote_iff.mp (acceptRemote_mergeEntry (fun loc h => (hloc loc h).accepted) hrem)
  exact ⟨hname, hver, mergeEntry_length_le fun loc h => (hloc loc h).short, htarget⟩

/-- A local write is sane when it does not point at the empty name. -/
theorem saneEntry_localWrite {c : Call} {op : LocalOp} (h : Sane s) (hw : LocalWrite s c op e)
    (htarget : e.deleted = false → e.target ≠ "") : SaneEntry op.name e := by
  refine ⟨?_, ?_, ?_, htarget⟩
  · rcases hw.known with hname | hsome
    · exact hname
    · obtain ⟨prev, hprev⟩ := Option.isSome_iff_exists.mp hsome
      exact (h _ _ hprev).name
  · have hver := hw.next.ver
    have hbound := hw.next.bound
    omega
  · rw [hw.history]
    exact historyAfter_length_le _ _ _

/-- Storing one sane entry keeps a store sane, and storing any other breaks it. -/
theorem sane_written_iff (h : Sane s) : Sane (s.written n e) ↔ SaneEntry n e := by
  constructor
  · intro hs
    exact hs n e (Store.lookup_written_self s n e)
  · intro he m e' hm
    rw [Store.lookup_written] at hm
    split at hm
    · rename_i hn
      subst hn
      exact Option.some.inj hm ▸ he
    · exact h m e' hm

theorem Sane.mergesTo {s' : Store} {m : MergeOp} (h : Sane s)
    (hm : Store.MergesTo s s' fun n => m.incoming n) : Sane s' := by
  intro n e he
  rw [hm.lookup] at he
  cases hin : m.incoming n with
  | none =>
    rw [hin] at he
    exact h n e he
  | some r =>
    rw [hin, mergeInto_some] at he
    obtain ⟨hname, hacc⟩ := MergeOp.incoming_some hin
    exact Option.some.inj he ▸ saneEntry_mergeEntry (h n) hname hacc

theorem Sane.purged (h : Sane s) (c : Call) : Sane (s.purged c) :=
  fun n e he => h n e (Store.lookup_purged_eq_some.mp he).1

/-! ### One call -/

namespace Service

theorem set_store_cases (sv : Service) (v : View) (c : Call) (name : String)
    (req : AliasWriteRequest) :
    ((Step.set v c name req).exec sv).1.store = sv.store ∧
        (validateWrite sv.store v name req = .ok () →
          (sv.store.set c name req.target req.fallbacks).2.toBool = false) ∨
      validateWrite sv.store v name req = .ok () ∧
        ∃ e, LocalWrite sv.store c (.set name req.target req.fallbacks) e ∧
          ((Step.set v c name req).exec sv).1.store = sv.store.written name e := by
  rw [Step.exec_store, Step.op?]
  cases hval : validateWrite sv.store v name req with
  | error err => exact .inl ⟨rfl, fun h => by cases h⟩
  | ok u =>
    dsimp only [Op.exec]
    rcases (LocalOp.set name req.target req.fallbacks).exec_cases sv.store c with
      ⟨err, hx⟩ | ⟨e, hw⟩
    · rw [hx]
      exact .inl ⟨rfl, fun _ => congrArg (fun r => r.2.toBool) hx⟩
    · exact .inr ⟨rfl, e, hw, congrArg Prod.fst hw.exec⟩

theorem delete_store_cases (sv : Service) (c : Call) (name : String) :
    ((Step.delete c name).exec sv).1.store = sv.store ∨
      ∃ e, LocalWrite sv.store c (.delete name) e ∧ e.deleted = true ∧
        ((Step.delete c name).exec sv).1.store = sv.store.written name e := by
  rw [Step.exec_store, Step.op?]
  rcases (LocalOp.delete name).exec_cases sv.store c with ⟨err, hx⟩ | ⟨e, hw⟩
  · exact .inl (congrArg Prod.fst hx)
  · exact .inr ⟨e, hw, hw.pointsTo.2.2, congrArg Prod.fst hw.exec⟩

/-- A `Revert` takes up the first version of the history. -/
theorem revert_store_cases (sv : Service) (c : Call) (name : String) :
    ((Step.revert c name).exec sv).1.store = sv.store ∧
        (sv.store.revert c name).2.toBool = false ∨
      (sv.store.revert c name).2.toBool = true ∧ ∃ e back,
        LocalWrite sv.store c (.revert name) e ∧
        (sv.store.prevEntry name).history.head? = some back ∧
        e.target = back.target ∧ e.fallbacks = back.fallbacks ∧ e.deleted = false ∧
        ((Step.revert c name).exec sv).1.store = sv.store.written name e := by
  rw [Step.exec_store, Step.op?]
  rcases (LocalOp.revert name).exec_cases sv.store c with ⟨err, hx⟩ | ⟨e, hw⟩
  · exact .inl ⟨congrArg Prod.fst hx, congrArg (fun r => r.2.toBool) hx⟩
  · obtain ⟨back, rest, hhist, ht, hf, hlive⟩ := hw.pointsTo
    exact .inr ⟨congrArg (fun r => r.2.toBool) hw.exec, e, back, hw, congrArg List.head? hhist, ht,
      hf, hlive, congrArg Prod.fst hw.exec⟩

theorem purge_store_cases (sv : Service) (c : Call) :
    (sv.purge c).store = sv.store ∨ (sv.purge c).store = sv.store.purged c := by
  rw [purge]
  rcases sv.store.purgeTombstones_cases c with ⟨hx, -⟩ | ⟨-, hx⟩ | ⟨-, k, hx⟩
  · exact .inl (by rw [hx])
  · exact .inl (by rw [hx])
  · exact .inr (by rw [hx])

/-- One call of the service. -/
def step (sv : Service) (a : Step) : Option Service := some (a.exec sv).1

/-- A fresh service on an empty table. -/
def fresh (self : String) (broadcasts : Bool) : Service :=
  { store := Store.empty self, broadcasts := broadcasts, conflictOrder := [] }

/-- **The revert condition.** A `Revert` that succeeds takes up a version with a
target. -/
def RevertsToTarget (sv : Service) : Step → Prop
  | .revert c name => (sv.store.revert c name).2.toBool = true →
      ∀ back ∈ (sv.store.prevEntry name).history.head?, back.target ≠ ""
  | _ => True

variable {sv : Service}

section

variable (h : Sane sv.store)
include h

/-- `Set` stores what `ValidateWrite` let through. -/
theorem sane_set (v : View) (c : Call) (name : String) (req : AliasWriteRequest) :
    Sane ((Step.set v c name req).exec sv).1.store := by
  rcases set_store_cases sv v c name req with ⟨hsame, -⟩ | ⟨hval, e, hw, hstore⟩
  · rwa [hsame]
  · obtain ⟨-, -, htarget, -, -⟩ := validateWrite_ok hval
    obtain ⟨-, ht, -, -⟩ := hw.pointsTo
    rw [hstore]
    exact (sane_written_iff h).mpr (saneEntry_localWrite h hw fun _ => ht ▸ htarget)

/-- `Delete` stores a tombstone. -/
theorem sane_delete (c : Call) (name : String) : Sane ((Step.delete c name).exec sv).1.store := by
  rcases delete_store_cases sv c name with hsame | ⟨e, hw, hd, hstore⟩
  · rwa [hsame]
  · rw [hstore]
    refine (sane_written_iff h).mpr (saneEntry_localWrite h hw fun hlive => ?_)
    rw [hd] at hlive
    cases hlive

/-- `Revert` keeps the table sane just in case the version it takes up has a
target. -/
theorem sane_revert_iff (c : Call) (name : String) :
    RevertsToTarget sv (.revert c name) ↔ Sane ((Step.revert c name).exec sv).1.store := by
  rcases revert_store_cases sv c name with
    ⟨hsame, hfail⟩ | ⟨hok, e, back, hw, hhead, ht, -, hlive, hstore⟩
  · rw [hsame]
    exact iff_of_true (fun hok => by simp [hok] at hfail) h
  · rw [hstore, sane_written_iff h]
    constructor
    · intro hback
      have hne := hback hok back hhead
      exact saneEntry_localWrite h hw fun _ => ht ▸ hne
    · intro hsane _ b hb
      obtain rfl : back = b := Option.some.inj (hhead.symm.trans hb)
      exact ht ▸ hsane.target hlive

/-- A merge keeps the table sane, whatever it brings. -/
theorem sane_merge (c : Call) (m : MergeOp) : Sane ((Op.merge m).exec sv.store c).1 := by
  rcases m.exec_cases sv.store c with ⟨err, hx⟩ | ⟨s', hx, hm⟩
  · rw [Op.exec, hx]; exact h
  · rw [Op.exec, hx]; exact h.mergesTo hm

theorem sane_purge (c : Call) : Sane (sv.purge c).store := by
  rcases purge_store_cases sv c with hsame | hpurged
  · rwa [hsame]
  · rw [hpurged]
    exact h.purged c

/-- One call keeps the table sane just in case it meets the revert condition. -/
theorem sane_step_iff (a : Step) : RevertsToTarget sv a ↔ Sane (a.exec sv).1.store := by
  cases a with
  | set v c name req => exact iff_of_true trivial (sane_set h v c name req)
  | delete c name => exact iff_of_true trivial (sane_delete h c name)
  | revert c name => exact sane_revert_iff h c name
  | purge c => exact iff_of_true trivial (sane_purge h c)
  | notifyMsg c msg =>
    refine iff_of_true trivial ?_
    rw [Step.exec_store, Step.op?]
    cases msg with
    | none => exact h
    | some b => exact sane_merge h c _
  | mergeRemoteState c buf =>
    refine iff_of_true trivial ?_
    rw [Step.exec_store, Step.op?]
    cases buf with
    | none => exact h
    | some t => exact sane_merge h c _

end

/-! ### Whole runs -/

/-- **Well-formed tables.** From an empty table, whatever is set, deleted, purged
and received: every state of a run is sane exactly when no `Revert` of the run
takes up a version without a target. -/
theorem run_sane_iff (self : String) (broadcasts : Bool) (acts : List Step) :
    (∀ pre, pre <+: acts → ∀ sv, run step (fresh self broadcasts) pre = some sv →
        Sane sv.store) ↔
      RunMeets step RevertsToTarget (fresh self broadcasts) acts := by
  have hiff : ∀ (s : Service) (a : Step) (s' : Service), Sane s.store → step s a = some s' →
      (RevertsToTarget s a ↔ Sane s'.store) := by
    intro s a s' hs hstep
    rw [← Option.some.inj hstep]
    exact sane_step_iff hs a
  exact (runMeets_iff step (fun _ _ => rfl) hiff (sane_empty self)).symm

/-- A pushed table whose entry has a target and a history of one version without
one passes `acceptRemote`; a `Revert` of it leaves `chat` live with no target. -/
theorem run_not_sane_hostile_history :
    let hostile : AliasEntry :=
      { target := "m", ver := 1, ts := 5, byNode := "x",
        history := [{ target := "", fallbacks := [], ts := 4, byNode := "x" }] }
    let pushed : AliasTable := { v := 1, aliases := (∅ : AliasMap).insert "chat" hostile }
    ∃ sv e, run step (fresh "a" true)
        [.mergeRemoteState { now := 6 } (some pushed), .revert { now := 7 } "chat"] = some sv ∧
      sv.store.lookup "chat" = some e ∧ e.deleted = false ∧ e.target = "" ∧ ¬ Sane sv.store := by
  intro hostile pushed
  have hheld : ((run step (fresh "a" true) [.mergeRemoteState { now := 6 } (some pushed),
      .revert { now := 7 } "chat"]).bind fun sv => sv.store.lookup "chat") =
        some { ver := 2, ts := 7, byNode := "a",
               history := [{ target := "m", fallbacks := [], ts := 5, byNode := "x" }] } := by
    decide +kernel
  obtain ⟨sv, hrun, he⟩ := Option.bind_eq_some_iff.mp hheld
  exact ⟨sv, _, hrun, he, rfl, rfl, fun hsane => (hsane "chat" _ he).target rfl rfl⟩

end Service

end Viiwork.Alias

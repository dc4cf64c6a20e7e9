import Viiwork.Lib.Run
import Viiwork.Alias.History

/-!
# Viiwork.Alias.Mesh

A **mesh** of stores that write locally and gossip. What a member sent stays
available for ever, so a delivery may be late, repeated or out of order. Each
member's clock moves forward between its own writes; nothing relates the clocks
of two members.

The module's question is whether a store at rest stays at rest: whether merging
a copy of its own table changes anything. It does as long as every version that
a step puts in front of a history is newer, by `TS` and `By`, than that history
(`Mesh.run_settled`). Skewed clocks break this: a member whose clock is behind
writes twice over an entry from the future, and the next push/pull reorders the
history.
-/

namespace Viiwork.Alias

open Viiwork.Meshapi Viiwork.Lib List Option

variable {ι : Type} [DecidableEq ι]

/-- The members' stores, the time of each member's last write, and everything
that was ever sent. -/
structure Mesh (ι : Type) where
  store : ι → Store
  wrote : ι → Option Int
  sent : List MergeOp

namespace Mesh

/-- Members with empty stores, under the given node names. -/
def initial (self : ι → String) : Mesh ι :=
  { store := fun i => Store.empty (self i), wrote := fun _ => none, sent := [] }

/-- What can happen in a mesh. -/
inductive Act (ι : Type)
  /-- A member's operator writes. -/
  | write (i : ι) (c : Call) (op : LocalOp)
  /-- A member broadcasts the current version of a name, without its history. -/
  | broadcast (i : ι) (name : String)
  /-- A member sends its table for push/pull. -/
  | push (i : ι)
  /-- A member receives something that was sent. -/
  | receive (i : ι) (c : Call) (m : MergeOp)

def step (M : Mesh ι) : Act ι → Option (Mesh ι)
  | .write i c op =>
    match op.exec (M.store i) c with
    | (_, .error _) => some M
    | (s', .ok _) =>
      -- The member's own clock moved on since its last write.
      if ∀ t ∈ M.wrote i, t < c.now then
        some { M with store := Function.update M.store i s',
                      wrote := Function.update M.wrote i (some c.now) }
      else none
  | .broadcast i name =>
    match (M.store i).lookup name with
    | none => none
    | some e => some { M with sent := .merge name { e with history := [] } :: M.sent }
  | .push i => some { M with sent := .mergeTable (M.store i).table :: M.sent }
  | .receive i c m =>
    if m ∈ M.sent then
      some { M with store := Function.update M.store i (m.run (M.store i) c) }
    else none

/-- The entries a merge call carries. -/
def carried : MergeOp → List (String × AliasEntry)
  | .merge name remote => [(name, remote)]
  | .mergeTable t => t.aliases.toList

theorem mem_carried {m : MergeOp} {n : String} {r : AliasEntry} (h : m.incoming n = some r) :
    (n, r) ∈ carried m := by
  cases m with
  | merge name remote =>
    simp only [MergeOp.incoming, Store.receivedMsg] at h
    split at h
    · rename_i hc
      simp only [Bool.and_eq_true, decide_eq_true_eq] at hc
      rw [carried, hc.1.1, some.inj h]
      exact mem_singleton_self _
    · cases h
  | mergeTable t =>
    simp only [MergeOp.incoming] at h
    split at h
    · exact Std.ExtTreeMap.mem_toList_iff_getElem?_eq_some.mpr
        (filter_eq_some_iff.mp h).1
    · cases h

/-- **The order condition.** Every version the step puts in front of a history
is newer than all of it. A step that errs puts none. -/
def InOrder (M : Mesh ι) : Act ι → Prop
  | .write i c op => (op.exec (M.store i) c).2.toBool = true →
      ReplacedInOrder (op.kept ((M.store i).prevEntry op.name)) ((M.store i).lookup op.name)
  | .receive i c m => (m.exec (M.store i) c).2.toBool = true →
      ∀ p ∈ carried m, m.incoming p.1 = some p.2 → MergeInOrder p.2 ((M.store i).lookup p.1)
  | _ => True

instance (M : Mesh ι) : DecidablePred (InOrder M)
  | .write _ _ _ => inferInstanceAs (Decidable (_ = true → ReplacedInOrder _ _))
  | .receive _ _ m => inferInstanceAs (Decidable (_ = true →
      ∀ p ∈ carried m, m.incoming p.1 = some p.2 → MergeInOrder p.2 _))
  | .broadcast _ _ => isTrue trivial
  | .push _ => isTrue trivial

/-- Every entry in the mesh, held or sent, is settled. -/
structure AllSettled (M : Mesh ι) : Prop where
  v : ∀ i, (M.store i).table.v = aliasTableVersion
  held : ∀ i n e, (M.store i).lookup n = some e → Settled e
  sent : ∀ m ∈ M.sent, ∀ p ∈ carried m, Settled p.2

omit [DecidableEq ι] in
theorem allSettled_initial (self : ι → String) : AllSettled (initial self) := by
  refine ⟨fun _ => rfl, fun i n e he => ?_, fun m hm => absurd hm not_mem_nil⟩
  rw [initial, Store.empty_lookup] at he
  cases he

/-- A member whose store stays settled keeps the mesh settled. -/
theorem AllSettled.update {M : Mesh ι} (h : AllSettled M) (i : ι) {s' : Store}
    (wrote : ι → Option Int) (hv : s'.table.v = aliasTableVersion)
    (hs : ∀ n e, s'.lookup n = some e → Settled e) :
    AllSettled { M with store := Function.update M.store i s', wrote := wrote } := by
  refine ⟨fun j => ?_, fun j n e he => ?_, h.sent⟩
  · by_cases hj : j = i
    · subst hj; simpa using hv
    · simpa [hj] using h.v j
  · by_cases hj : j = i
    · subst hj
      simp only [Function.update_self] at he
      exact hs n e he
    · simp only [Function.update_of_ne hj] at he
      exact h.held j n e he

/-- A local write in order stores a settled entry. -/
theorem settled_of_localWrite {s : Store} {c : Call} {op : LocalOp} {e : AliasEntry}
    (h : ∀ n e, s.lookup n = some e → Settled e) (hw : LocalWrite s c op e)
    (hord : ReplacedInOrder (op.kept (s.prevEntry op.name)) (s.lookup op.name)) : Settled e := by
  have hprev : Descending AliasVersion.key (s.prevEntry op.name).history := by
    rw [Store.prevEntry]
    cases hl : s.lookup op.name with
    | none => exact descending_nil _
    | some prev => exact (h _ _ hl).descending
  have hkept : Descending AliasVersion.key (op.kept (s.prevEntry op.name)) := by
    cases op with
    | revert name => exact hprev.tail
    | set | delete => exact hprev
  refine ⟨?_, ?_⟩
  · rw [hw.history]
    exact historyAfter_descending hkept hord
  · rw [hw.history]
    exact historyAfter_length_le _ _ _

/-- One step keeps every entry settled. -/
theorem AllSettled.step {M M' : Mesh ι} {a : Act ι} (h : AllSettled M) (hord : InOrder M a)
    (hs : M.step a = some M') : AllSettled M' := by
  cases a with
  | write i c op =>
    rcases op.exec_cases (M.store i) c with ⟨err, hx⟩ | ⟨e, hw⟩
    · simp only [Mesh.step, hx, some.injEq] at hs
      exact hs ▸ h
    · simp only [Mesh.step, hw.exec] at hs
      split at hs
      · have hsettled := settled_of_localWrite (h.held i) hw (hord (by rw [hw.exec]; rfl))
        rw [← some.inj hs]
        refine h.update i _ (h.v i) fun n e' he => ?_
        rw [Store.lookup_written] at he
        split at he
        · exact some.inj he ▸ hsettled
        · exact h.held i n e' he
      · cases hs
  | broadcast i name =>
    cases he : (M.store i).lookup name with
    | none => simp [Mesh.step, he] at hs
    | some e =>
      simp only [Mesh.step, he, some.injEq] at hs
      rw [← hs]
      refine ⟨h.v, h.held, fun m hm p hp => ?_⟩
      rcases mem_cons.mp hm with rfl | hm
      · rw [mem_singleton.mp hp]
        exact ⟨descending_nil _, Nat.zero_le _⟩
      · exact h.sent m hm p hp
  | push i =>
    simp only [Mesh.step, some.injEq] at hs
    rw [← hs]
    refine ⟨h.v, h.held, fun m hm p hp => ?_⟩
    rcases mem_cons.mp hm with rfl | hm
    · exact h.held i p.1 p.2 (Std.ExtTreeMap.mem_toList_iff_getElem?_eq_some.mp hp)
    · exact h.sent m hm p hp
  | receive i c m =>
    simp only [Mesh.step] at hs
    split at hs
    · rename_i hm
      rw [← some.inj hs]
      rcases m.exec_cases (M.store i) c with ⟨err, hx⟩ | ⟨s', hx, hmerge⟩
      · refine h.update i _ ?_ ?_
        · rw [MergeOp.run, hx]; exact h.v i
        · rw [MergeOp.run, hx]; exact h.held i
      · have hord' := hord (by rw [hx]; rfl)
        rw [MergeOp.run, hx]
        refine h.update i _ (hmerge.v.trans (h.v i)) fun n e he => ?_
        rw [hmerge.lookup] at he
        cases hin : m.incoming n with
        | none =>
          rw [hin] at he
          exact h.held i n e he
        | some r =>
          rw [hin, mergeInto_some] at he
          rw [← some.inj he]
          have hr := mem_carried hin
          exact mergeEntry_settled (h.held i n) (h.sent m hm _ hr) (hord' _ hr hin)
    · cases hs

/-- A run in order keeps every entry settled. -/
theorem run_settled {M : Mesh ι} {self : ι → String} {acts : List (Act ι)}
    (hord : RunMeets step InOrder (initial self) acts)
    (hrun : run step (initial self) acts = some M) : AllSettled M :=
  run_invariant step (fun _ _ _ hI hP hs => hI.step hP hs) (allSettled_initial self) hord hrun

/-- **Quiescence of the history.** In every run whose steps put only newer
versions in front of a history, no store is changed by a copy of its own table. -/
theorem run_quiescent (self : ι → String) (acts : List (Act ι)) (M : Mesh ι)
    (hord : RunMeets step InOrder (initial self) acts)
    (hrun : run step (initial self) acts = some M) (i : ι) (c : Call) :
    ∃ conflicts, (M.store i).mergeTable c (M.store i).table =
      (M.store i, .ok ([], conflicts)) := by
  have h := run_settled hord hrun
  exact mergeTable_self_of_settled (h.v i) (h.held i) c

/-- Clocks that agree: `x` writes, `y` learns it and writes twice. -/
def agreeingClocks : List (Act Bool) :=
  [.write false { now := 10 } (.set "chat" "m1" []), .push false,
   .receive true { now := 11 } (.mergeTable
     { v := 1, aliases := (∅ : AliasMap).insert "chat"
        { target := "m1", ver := 1, ts := 10, byNode := "x" } }),
   .write true { now := 20 } (.set "chat" "m2" []),
   .write true { now := 30 } (.set "chat" "m3" [])]

/-- Skewed clocks: `x` is at 1000 when `y` is at 10. -/
def skewedClocks : List (Act Bool) :=
  [.write false { now := 1000 } (.set "chat" "m1" []), .push false,
   .receive true { now := 9 } (.mergeTable
     { v := 1, aliases := (∅ : AliasMap).insert "chat"
        { target := "m1", ver := 1, ts := 1000, byNode := "x" } }),
   .write true { now := 10 } (.set "chat" "m2" []),
   .write true { now := 20 } (.set "chat" "m3" [])]

/-- Node names of the two-member runs. -/
def xy (i : Bool) : String := if i then "y" else "x"

/-- The condition is met by a run with two versions in a history. -/
theorem run_quiescent_agreeingClocks :
    ((run step (initial xy) agreeingClocks).map fun M =>
        ((M.store true).prevEntry "chat").history.map (·.target)) = some ["m2", "m1"] ∧
      ∃ M, run step (initial xy) agreeingClocks = some M ∧ ∃ conflicts,
        (M.store true).mergeTable { now := 40 } (M.store true).table =
          (M.store true, .ok ([], conflicts)) := by
  refine ⟨by decide +kernel, ?_⟩
  have hsome : (run step (initial xy) agreeingClocks).isSome = true := by decide +kernel
  obtain ⟨M, hM⟩ := isSome_iff_exists.mp hsome
  exact ⟨M, hM, run_quiescent xy agreeingClocks M (by decide +kernel) hM true { now := 40 }⟩

/-- With skewed clocks the two writes of `y` leave `m2` in front of `m1`, and a
copy of `y`'s own table reports `chat` changed and puts `m1` in front: `Revert`
no longer restores the version that was replaced. -/
theorem run_not_quiescent_skewedClocks :
    ((run step (initial xy) skewedClocks).map fun M =>
        let s := M.store true
        let r := s.mergeTable { now := 40 } s.table
        ((s.prevEntry "chat").history.map (·.target), r.2.toOption.map (·.1),
          (r.1.prevEntry "chat").history.map (·.target))) =
      some (["m2", "m1"], some ["chat"], ["m1", "m2"]) := by
  decide +kernel

end Mesh

end Viiwork.Alias

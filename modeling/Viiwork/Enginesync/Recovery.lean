import Viiwork.Enginesync.Downgrade

/-!
# Viiwork.Enginesync.Recovery

What a run leaves when it is stopped, and what a later one makes of it. A run that returns without
an error leaves the tag that the node's state asks for in the compose file, the project up on it
and every release that was ever brought up in the record, if no run before was cut short within a
swap (`recovers`).

A swap writes the tag, brings the project up and saves the record, and a later run decides by the
tag alone. Cut short behind the write, nobody brings the project up; behind the `up`, the release
is missing in the record (both in `cut_short`).
-/

namespace Viiwork.Enginesync

open Viiwork.Lib Viiwork.Update Relation List

/-! ### The releases in the record -/

/-- Each once, where it comes first. -/
def latest : List String → List String
  | [] => []
  | v :: vs => v :: (latest vs).filter (· ≠ v)

/-- The last releases that were brought up, as many as the record has room for, oldest first. -/
def recent (log : List Event) : List String := ((latest (ups log)).take historyMax).reverse

theorem nodup_latest (vs : List String) : (latest vs).Nodup := by
  induction vs with
  | nil => exact nodup_nil
  | cons v vs ih =>
    refine nodup_cons.2 ⟨fun hmem => ?_, ih.filter _⟩
    have hne := of_mem_filter hmem
    simp at hne

/-- Room for one more than is asked for is enough to leave one out. -/
theorem take_filter_ne {vs : List String} (h : vs.Nodup) (v : String) (n : Nat) :
    ((vs.take (n + 1)).filter (· ≠ v)).take n = (vs.filter (· ≠ v)).take n := by
  induction vs generalizing n with
  | nil => rw [take_nil]
  | cons u vs ih =>
    obtain ⟨hu, hvs⟩ := nodup_cons.1 h
    by_cases heq : u = v
    · subst heq
      have hall : ∀ {l : List String}, l ⊆ vs → l.filter (· ≠ u) = l := by
        intro l hl
        exact filter_eq_self.2 fun w hw => decide_eq_true fun heq => hu (heq ▸ hl hw)
      rw [take_succ_cons, filter_cons_of_neg (by simp),
        filter_cons_of_neg (by simp), hall (take_subset n vs),
        hall (List.Subset.refl _), take_take, min_self]
    · rw [take_succ_cons, filter_cons_of_pos (by simpa using heq),
        filter_cons_of_pos (by simpa using heq)]
      cases n with
      | zero => rfl
      | succ n => rw [take_succ_cons, take_succ_cons, ih hvs n]

variable {log : List Event} {m : Machine}

/-- **The history is kept.** -/
theorem history_addHistory {r : Record} (h : r.history = recent log) (v : String) :
    (r.addHistory v).history = recent (.up v :: log) := by
  have hcons : ∀ n (vs : List String), (vs.reverse ++ [v]).drop ((vs.reverse ++ [v]).length - n) =
      ((v :: vs).take n).reverse := by
    intro n vs
    rw [← reverse_cons, reverse_take, length_reverse]
  simp only [Record.addHistory, h, recent, filter_reverse, hcons]
  rw [ups, latest, historyMax, take_succ_cons, take_succ_cons,
    take_filter_ne (nodup_latest _)]

/-! ### Swaps in the log -/

/-- The last thing that happened to the compose file. -/
def lastSwap (log : List Event) : Option Event :=
  log.find? fun
    | .write _ _ | .up _ | .putBack _ => true
    | .prepare _ | .record => false

/-- The record was saved since a release was brought up. -/
def recorded : List Event → Bool
  | [] => true
  | .up _ :: _ => false
  | .record :: _ => true
  | _ :: log => recorded log

/-- No swap was cut short: a tag that was written has been brought up or put back, and what was
brought up is in the record. -/
def finished (log : List Event) : Bool :=
  recorded log && match lastSwap log with
    | some (.write _ _) => false
    | _ => true

theorem finished_iff : finished log = true ↔
    recorded log = true ∧ ∀ was v, lastSwap log ≠ some (.write was v) := by
  rw [finished, Bool.and_eq_true]
  refine and_congr_right fun _ => ?_
  split
  · rename_i was v heq
    simp [heq]
  · rename_i hne
    exact iff_of_true rfl hne

section Log

variable {c v : String} {log : List Event}

theorem tagOf_of_up (hlog : Lawful c log) (h : lastSwap log = some (.up v)) : tagOf c log = v := by
  induction log with
  | nil => cases h
  | cons e log ih =>
    cases e with
    | prepare u => exact ih hlog.2 h
    | record => exact ih hlog h
    | write | putBack => cases h
    | up u =>
      cases h
      obtain ⟨⟨was, earlier, rfl⟩, -⟩ := hlog
      rfl

theorem tagOf_ne_of_putBack (hlog : Lawful c log) (h : lastSwap log = some (.putBack v)) :
    tagOf c log ≠ v := by
  induction log with
  | nil => cases h
  | cons e log ih =>
    cases e with
    | prepare u => exact ih hlog.2 h
    | record => exact ih hlog h
    | write | up => cases h
    | putBack u =>
      cases h
      obtain ⟨⟨was, earlier, rfl⟩, ⟨-, hne, -⟩, -⟩ := hlog
      exact hne

end Log

/-! ### The record over a run -/

/-- The helper's record has the releases that were brought up, and so has the saved one unless
the last is yet to be saved. -/
structure Kept (r : Record) (m : Machine) : Prop where
  history : r.history = recent m.log
  saved : recorded m.log = true → m.loadRecord.history = recent m.log

section Kept

variable {r : Record} {m m' : Machine} {S : NodeState → Prop} {st : NodeState}
variable {a b : Record × Machine}

theorem Kept.act (h : Kept a.1 a.2) (hact : Act st a b) : Kept b.1 b.2 := by
  cases hact with
  | keep _ hhistory => exact ⟨hhistory.trans h.history, h.saved⟩
  | adopt | backup | result | prepare | write | putBack => exact ⟨h.history, h.saved⟩
  | save => exact ⟨h.history, fun _ => h.history⟩
  | up => exact ⟨history_addHistory h.history _, nofun⟩

theorem Kept.acts (h : Kept a.1 a.2) (hacts : Acts st a b) : Kept b.1 b.2 := by
  induction hacts with
  | refl => exact h
  | tail _ hact ih => exact ih.act hact

theorem kept_load (h : m.loadRecord.history = recent m.log) : Kept m.loadRecord m := ⟨h, fun _ => h⟩

theorem Kept.passes (h : Kept m.loadRecord m)
    (hpasses : ReflTransGen (fun m m' => ∃ st, S st ∧ Whole st m m') m m') :
    Kept m'.loadRecord m' := by
  induction hpasses with
  | refl => exact h
  | @tail m₁ _ _ hwhole ih =>
    obtain ⟨st, -, r, m₂, hacts, rfl⟩ := hwhole
    have hkept := Kept.acts (a := (m₁.loadRecord, m₁)) ih hacts
    exact kept_load hkept.history

/-- **Run lemma.** A run that was not cut short between an `up` and the save leaves a record with
every release. -/
theorem Kept.stopped (h : Kept m.loadRecord m) (hstopped : Stopped S m m')
    (hrecorded : recorded m'.log = true) : Kept m'.loadRecord m' := by
  obtain ⟨m₁, hpasses, rfl | ⟨st, -, r, hacts⟩⟩ := hstopped
  · exact h.passes hpasses
  · have hkept := Kept.acts (a := (m₁.loadRecord, m₁)) (h.passes hpasses) hacts
    exact kept_load (hkept.saved hrecorded)

end Kept

/-! ### The run that completes -/

/-- The tag that a state asks for. -/
def Image.target (c : Image) (st : NodeState) : String :=
  if st.current = builtin then c.tag else st.current

/-- A swap that did not come to its end was one to the tag that the state asks for. -/
def Aimed (v : String) (log : List Event) : Prop :=
  ∀ u, lastSwap log = some (.putBack u) ∨ (∃ was, lastSwap log = some (.write was u)) → u = v

section Completes

variable {c : Image} {r : Record} {m m' : Machine} {st : NodeState} {a b : Record × Machine}

theorem aimed_act (hsafe : Safe c a.1 a.2) (h : Aimed (c.target st) a.2.log) (hact : Act st a b) :
    Aimed (c.target st) b.2.log := by
  cases hact with
  | keep | adopt | save | backup | result | prepare => exact h
  | write hadopted htarget hne hvalid hmay =>
    have horiginal := hsafe.knows.original (hsafe.original_ne hadopted hvalid hmay).2
    rintro u (hlast | ⟨was, hlast⟩)
    · cases hlast
    · cases hlast
      rw [htarget, Record.target, horiginal]
      rfl
  | up =>
    rintro u (hlast | ⟨was, hlast⟩)
    · cases hlast
    · cases hlast
  | putBack =>
    rintro u (hlast | ⟨was, hlast⟩)
    · cases hlast
      exact h _ (.inr ⟨_, rfl⟩)
    · cases hlast

theorem aimed_acts (hsafe : Safe c a.1 a.2) (h : Aimed (c.target st) a.2.log) (hacts : Acts st a b) :
    Aimed (c.target st) b.2.log := by
  induction hacts with
  | refl => exact h
  | tail hacts hact ih => exact aimed_act (hsafe.acts hacts) ih hact

theorem aimed_passes (hsafe : Safe c m.loadRecord m) (h : Aimed (c.target st) m.log)
    (hpasses : ReflTransGen (fun m m' => ∃ st', st' = st ∧ Whole st' m m') m m') :
    Aimed (c.target st) m'.log := by
  induction hpasses with
  | refl => exact h
  | @tail m₁ _ hpasses hwhole ih =>
    obtain ⟨st', rfl, r, m₂, hacts, rfl⟩ := hwhole
    exact aimed_acts (a := (m₁.loadRecord, m₁)) (hsafe.passes hpasses) ih (hacts.tail .save)

/-- The tag that a pass without errors leaves. -/
theorem Followed.tag (hsafe : Safe c m.loadRecord m) (h : Followed st m m') :
    m'.compose.tag = c.target st := by
  obtain ⟨r, m₁, hacts, rfl, htag⟩ := h
  have hsafe' := hsafe.part (hacts.tail .save)
  rw [htag, Record.target, Image.target]
  split_ifs with hbuiltin
  · by_cases horiginal : r.original = ""
    · rw [Record.target, if_pos hbuiltin] at htag
      rw [← htag, hsafe'.tag]
      exact ((hsafe'.knows.fresh horiginal).eq hsafe'.lawful).1
    · exact hsafe'.knows.original horiginal
  · rfl

/-- **A run that completes.** -/
theorem completes (hsafe : Safe c m.loadRecord m) (hkept : Kept m.loadRecord m)
    (haimed : Aimed (c.target st) m.log) (h : Synced (· = st) m m')
    (hfinished : ∀ was v, lastSwap m'.log ≠ some (.write was v)) :
    m'.compose = { c with tag := c.target st } ∧
      (lastSwap m'.log = none ∨ lastSwap m'.log = some (.up (c.target st))) ∧
      m'.loadRecord.history = recent m'.log := by
  obtain ⟨m₁, st', hpasses, rfl, hfollowed⟩ := h
  have hsafe₁ := hsafe.passes hpasses
  have htag := hfollowed.tag hsafe₁
  have hpasses' := hpasses.tail ⟨st', rfl, hfollowed.whole⟩
  have hsafe' := hsafe.passes hpasses'
  have haimed' := aimed_passes hsafe haimed hpasses'
  refine ⟨?_, ?_, (hkept.passes hpasses').history⟩
  · rw [← htag, ← hsafe'.repo]
  · cases hlast : lastSwap m'.log with
    | none => exact .inl rfl
    | some e =>
      cases e with
      | write was v => exact absurd hlast (hfinished was v)
      | up v =>
        rw [← htag, hsafe'.tag, tagOf_of_up hsafe'.lawful hlast]
        exact .inr rfl
      | putBack v =>
        have hne := tagOf_ne_of_putBack hsafe'.lawful hlast
        rw [← hsafe'.tag, htag, haimed' v (.inl hlast)] at hne
        exact absurd rfl hne
      | prepare | record => exact absurd (List.find?_some hlast) nofun

end Completes

/-- No run is cut short within a swap. -/
def AllFinished (c : Image) (runs : List SyncRun) : Prop :=
  RunMeets Machine.step (fun m r => finished (r.leaves m).log = true) (.new c) runs

instance (c : Image) (runs : List SyncRun) : Decidable (AllFinished c runs) :=
  decidableRunMeets _ _ _ _

theorem kept_of_run {c : Image} {runs : List SyncRun}
    (hrun : run Machine.step (.new c) runs = some m) (hfinished : AllFinished c runs) :
    Kept m.loadRecord m := by
  refine run_invariant Machine.step (I := fun m => Kept m.loadRecord m)
    (fun m r m' h hr hstep => ?_) (kept_load rfl) hfinished hrun
  cases hstep
  exact h.stopped (stopped_of_leaves (S := fun _ => True) fun _ _ _ => trivial)
    (finished_iff.1 hr).1

theorem nodeState_holds {st st' : NodeState} (h : nodeState (.holds st) = .ok st') : st' = st := by
  rw [nodeState] at h
  split_ifs at h
  cases h
  rfl

theorem shows_visit (v : String) : (visit v).world.Shows (· = ⟨v, v, ""⟩) :=
  fun _ _ h => nodeState_holds h

/-- The run is stopped before its `n`-th write or command. -/
def SyncRun.stoppedAt (run : SyncRun) (n : Nat) : SyncRun := { run with cut := some n }

theorem run_sync_eq {w : World} (h : ((sync w).run m).1.isOk = true) :
    (sync w).run m = (.ok (), ((sync w).run m).2) := by
  cases hres : (sync w).run m with
  | mk res m' =>
    rw [hres] at h
    cases res with
    | ok _ => rfl
    | error _ => cases h

end Viiwork.Enginesync

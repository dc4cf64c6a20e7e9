import Viiwork.Update.Serial

/-!
# Viiwork.Update.HelperWait

A wait for the helper (`awaitHelper`) is to take back the transition it belongs to, and to leave
the state alone when it has moved on since. It knows its transition by the current release, the
last good one and the pending one (`sameTransition`), so it takes a later transition to the same
three for its own: an activation, a rollback and the same activation again.

`Watched.old` is not in the source. New waits come last, so those that are older than the last
transition saved are the first ones, and `old` is how many they are. No step of the host reads it.
-/

namespace Viiwork.Update

open Viiwork.Lib List

/-! ### The transitions of a process -/

/-- How the save of a transition ends, and what it does under the lock. -/
def Act.transition (p : Process) : Act → Option (Save × (State → Except String (State × Bool)))
  | .activate env req w =>
    match checkActivate p.running p.managed env req with
    | .error _ => none
    | .ok baseline => some (w, fun s => .ok (s.activate req.version baseline, !p.managed))
  | .rollback staged w => some (w, fun s => (s.rollback staged).map (·, !p.managed))
  | .carryOut w => p.verdict.map fun v => (w, v.carryOut p.running p.managed)
  | .expire i w => (p.awaiting[i]?).map fun pair => (w, restorePrior pair.1 pair.2)
  | _ => none

/-- The state that an update puts in `state.json`, if it gets that far. -/
def Store.saved (st : Store) (w : Save) (fn : State → Except String (State × Bool)) :
    Option State :=
  if st.restarting = false ∧ w.Lands then
    (loadState st.disk).toOption.bind fun s => (fn s).toOption.map Prod.fst
  else none

/-- The state that the action saves, when it is a transition. -/
def Host.saves (h : Host) (p : Process) (a : Act) : Option State :=
  (a.transition p).bind fun t => (p.store h.disk).saved t.1 t.2

/-- The waits that the action leaves, new ones apart. -/
def Process.left (p : Process) : Act → List (State × State)
  | .expire i _ => p.awaiting.eraseIdx i
  | _ => p.awaiting

/-- What `state.json` says. -/
def Disk.file (d : Disk) : StateFile := d.state.getD newState.toStateFile

/-- `sameTransition`, of the file. -/
def Same (f : StateFile) (saved : State) : Prop :=
  f.current = saved.current ∧ f.lastGood = saved.lastGood ∧
    f.pending.map Pending.version = saved.pending.map Pending.version

instance (f : StateFile) (saved : State) : Decidable (Same f saved) :=
  inferInstanceAs (Decidable (_ ∧ _ ∧ _))

variable {s : State} {h h' : Host} {p : Process} {a : Act}

theorem Disk.file_of_load {d : Disk} (hs : loadState d = .ok s) : d.file = s.toStateFile := by
  obtain ⟨hd, rfl⟩ | ⟨hd, -, -⟩ := loadState_eq_ok hs
  · simp [file, hd]
  · simp [file, hd]

theorem sameTransition_iff {saved : State} :
    sameTransition s saved = true ↔ Same s.toStateFile saved := by
  simp [sameTransition, Same]

section Update

variable {st : Store} {w : Save} {fn : State → Except String (State × Bool)}

theorem Store.saved_eq_some {next : State} :
    st.saved w fn = some next ↔ st.restarting = false ∧ w.Lands ∧
      ∃ s restart, loadState st.disk = .ok s ∧ fn s = .ok (next, restart) := by
  cases hs : loadState st.disk with
  | error err => simp [saved, hs, Except.toOption]
  | ok s =>
    cases hfn : fn s with
    | error err => simp [saved, hs, hfn, Except.toOption]
    | ok res =>
      obtain ⟨next', restart⟩ := res
      cases restart <;> simp [saved, hs, hfn, Except.toOption, and_assoc]

/-- **An update** leaves in `state.json` what it saves, and what was there if it saves nothing. -/
theorem Store.update_file :
    (st.update w fn).1.disk.file = ((st.saved w fn).map State.toStateFile).getD st.disk.file := by
  rcases st.update_cases w fn with
    ⟨hno, hst, -⟩ | ⟨s, next, restart, hfree, hs, hfn, hdisk, -⟩
  · have hnone : st.saved w fn = none := by
      refine Option.eq_none_iff_forall_ne_some.2 fun next hnext => ?_
      obtain ⟨hfree, -, s, restart, hs, hfn⟩ := saved_eq_some.1 hnext
      obtain ⟨err, herr⟩ := hno hfree s hs
      cases herr.symm.trans hfn
    rw [hst, hnone]
    rfl
  · rw [hdisk]
    by_cases hw : w.Lands
    · rw [saved_eq_some.2 ⟨hfree, hw, s, restart, hs, hfn⟩, saveState_of_lands hw]
      rfl
    · rw [saved, if_neg (by simp [hw]), Disk.file, saveState_state_of_not_lands hw]
      rfl

/-- A step of `FollowCLI` is no transition to a wait. -/
theorem same_moveLauncher {path sum : String} {x : State} :
    Same (st.update w (moveLauncher path sum)).1.disk.file x ↔ Same st.disk.file x := by
  rw [Store.update_file]
  cases hnext : st.saved w (moveLauncher path sum) with
  | none => rfl
  | some next =>
    obtain ⟨-, -, s, restart, hs, hfn⟩ := Store.saved_eq_some.1 hnext
    obtain ⟨l, rfl⟩ := moveLauncher_eq_ok hfn
    rw [Disk.file_of_load hs]
    rfl

end Update

/-! ### One step -/

theorem Process.await_awaiting (p : Process) (res : Except String (State × State)) :
    ∃ fresh, (p.await res).awaiting = p.awaiting ++ fresh := by
  cases res with
  | error err => exact ⟨[], by simp [await]⟩
  | ok pair =>
    by_cases hm : p.managed
    · exact ⟨[pair], by simp [await, hm]⟩
    · exact ⟨[], by simp [await, hm]⟩

/-- A transition, seen from the waits. -/
theorem Host.same_of_update {w : Save} {fn : State → Except String (State × Bool)}
    (ha : a.transition p = some (w, fn)) (hdisk : h'.disk = ((p.store h.disk).update w fn).1.disk)
    (x : State) :
    Same h'.disk.file x ↔
      Same (((h.saves p a).map State.toStateFile).getD h.disk.file) x := by
  rw [hdisk, Store.update_file, saves, ha]
  rfl

/-- **Step lemma.** An action of the process keeps the waits that do not end with it, in their
order and before the new ones. To a wait `state.json` is what a transition has saved, or else what
it was. -/
theorem Host.act_leaves {p' : Process} (hstep : h.act p a = some h') (hp : h.process = some p)
    (hp' : h'.process = some p') :
    (∃ fresh, p'.awaiting = p.left a ++ fresh) ∧
      ∀ x, Same h'.disk.file x ↔
        Same (((h.saves p a).map State.toStateFile).getD h.disk.file) x := by
  -- an action that is refused
  have hself : h' = h → ∃ fresh, p'.awaiting = p.awaiting ++ fresh := by
    rintro rfl
    cases hp.symm.trans hp'
    exact ⟨[], by simp⟩
  cases a with
  | start e => cases hstep
  | stop =>
    cases hstep
    cases hp'
  | activate env req w =>
    rw [act] at hstep
    split at hstep
    · rename_i err hc
      cases hstep
      exact ⟨hself rfl, fun x => by simp [saves, Act.transition, hc]⟩
    · rename_i baseline hc
      cases hstep
      cases hp'
      exact ⟨Process.await_awaiting p _, same_of_update (by rw [Act.transition, hc]) rfl⟩
  | rollback staged w =>
    cases hstep
    cases hp'
    exact ⟨Process.await_awaiting p _, same_of_update rfl rfl⟩
  | look env =>
    rw [act] at hstep
    split at hstep
    · cases hstep
      exact ⟨hself rfl, fun x => Iff.rfl⟩
    · cases hstep
      cases hp'
      exact ⟨⟨[], by simp [Process.left]⟩, fun x => Iff.rfl⟩
  | carryOut w =>
    rw [act] at hstep
    split at hstep
    · cases hstep
    · rename_i v hv
      cases hstep
      cases hp'
      refine ⟨⟨[], by simp [Process.left]⟩, same_of_update ?_ rfl⟩
      rw [Act.transition, hv]
      rfl
  | expire i w =>
    rw [act] at hstep
    split at hstep
    · cases hstep
    · rename_i prior next hi
      cases hstep
      cases hp'
      refine ⟨⟨[], by simp [Process.left]⟩, same_of_update ?_ rfl⟩
      rw [Act.transition, hi]
      rfl
  | watch =>
    rw [act] at hstep
    split at hstep
    · cases hstep
      exact ⟨hself rfl, fun x => Iff.rfl⟩
    · rename_i s hs
      split_ifs at hstep
      · cases hstep
        cases hp'
        exact ⟨⟨[(s.fallBack, s)], rfl⟩, fun x => Iff.rfl⟩
      · cases hstep
        exact ⟨hself rfl, fun x => Iff.rfl⟩
  | followCLI path sum w =>
    cases hstep
    cases hp'
    exact ⟨⟨[], by simp [Process.left]⟩, fun x => same_moveLauncher⟩

/-! ### Waits that are older than the last transition -/

/-- A host, with how many of the waits began before the last transition was saved. -/
structure Watched where
  host : Host := {}
  old : Nat := 0

/-- The waits of `old` after an action that saved no transition. -/
def Act.age (old : Nat) : Act → Nat
  | .expire i _ => if i < old then old - 1 else old
  | _ => old

def Watched.step (w : Watched) (a : Act) : Option Watched :=
  (w.host.step a).map fun h' =>
    { host := h'
      old :=
        match w.host.process with
        | none => 0
        | some p => if (w.host.saves p a).isSome then (p.left a).length else a.age w.old }

/-- No transition saves what a wait that goes on is looking for. -/
def Watched.Distinct (w : Watched) (a : Act) : Prop :=
  ∀ p ∈ w.host.process, ∀ next ∈ w.host.saves p a, ∀ pair ∈ p.left a,
    ¬ Same next.toStateFile pair.2

instance (w : Watched) (a : Act) : Decidable (w.Distinct a) :=
  inferInstanceAs (Decidable (∀ p ∈ w.host.process, _))

/-- An old wait does not find the state it is looking for. -/
def Watched.Passed (w : Watched) : Prop :=
  ∀ p ∈ w.host.process, w.old ≤ p.awaiting.length ∧
    ∀ pair ∈ p.awaiting.take w.old, ¬ Same w.host.disk.file pair.2

/-- The old waits that an action leaves, when it saves no transition. -/
theorem Process.take_left {old : Nat} (a : Act) (hold : old ≤ p.awaiting.length) :
    a.age old ≤ (p.left a).length ∧
      ∀ pair ∈ (p.left a).take (a.age old), pair ∈ p.awaiting.take old := by
  cases a with
  | expire i w =>
    by_cases hi : i < old
    · have hlen : i < p.awaiting.length := hi.trans_le hold
      simp only [Act.age, if_pos hi, left, length_eraseIdx_of_lt hlen]
      refine ⟨by omega, fun pair hpair => ?_⟩
      -- the place is among the old ones, so the rest is not touched
      have htake : (p.awaiting.eraseIdx i).take (old - 1) = (p.awaiting.take old).eraseIdx i := by
        have hi' : i < (p.awaiting.take old).length := by
          rwa [length_take_of_le hold]
        conv_lhs => rw [← take_append_drop old p.awaiting]
        rw [eraseIdx_append_of_lt_length hi', take_left']
        rw [length_eraseIdx_of_lt hi', length_take_of_le hold]
      exact mem_of_mem_eraseIdx (htake ▸ hpair)
    · simp only [Act.age, if_neg hi, left]
      rw [take_eraseIdx_eq_take_of_le _ _ _ (not_lt.1 hi), length_eraseIdx]
      refine ⟨?_, fun _ hpair => hpair⟩
      split_ifs <;> omega
  | _ => exact ⟨hold, fun _ hpair => hpair⟩

theorem Watched.step_passed {w w' : Watched} (hw : w.Passed) (ha : w.Distinct a)
    (hstep : w.step a = some w') : w'.Passed := by
  obtain ⟨h', hhost, rfl⟩ := Option.map_eq_some_iff.1 hstep
  intro p' hp'
  cases hp : w.host.process with
  | none =>
    simp
  | some p =>
    rw [Host.step_of_process hp] at hhost
    obtain ⟨⟨fresh, hwaits⟩, hsame⟩ := Host.act_leaves hhost hp hp'
    simp only [hwaits, length_append, hsame]
    cases hsaves : w.host.saves p a with
    | some next =>
      refine ⟨by simp, fun pair hpair => ?_⟩
      refine ha p hp next hsaves pair ?_
      simpa using hpair
    | none =>
      obtain ⟨hlen, hsub⟩ := Process.take_left a (hw p hp).1
      refine ⟨by simpa using hlen.trans (Nat.le_add_right ..), fun pair hpair => ?_⟩
      refine (hw p hp).2 pair (hsub pair ?_)
      simpa [take_append_of_le_length hlen] using hpair

/-- **Run lemma.** -/
theorem Watched.run_passed {w w' : Watched} {as : List Act} (hw : w.Passed)
    (hmeets : RunMeets Watched.step Watched.Distinct w as)
    (hrun : run Watched.step w as = some w') : w'.Passed :=
  run_invariant Watched.step (fun _ _ _ => step_passed) hw hmeets hrun

/-- An end of a wait that changes the disk has found the state it was looking for. -/
theorem Host.same_of_expire {i : Nat} {save : Save} (hstep : h.step (.expire i save) = some h')
    (hdisk : h'.disk ≠ h.disk) :
    ∃ p pair, h.process = some p ∧ p.awaiting[i]? = some pair ∧ Same h.disk.file pair.2 := by
  cases hp : h.process with
  | none => simp [step, hp] at hstep
  | some p =>
    rw [step_of_process hp, act] at hstep
    cases hi : p.awaiting[i]? with
    | none => rw [hi] at hstep; cases hstep
    | some pair =>
      refine ⟨p, pair, rfl, hi, ?_⟩
      rw [hi] at hstep
      cases hstep
      rcases (p.store h.disk).update_cases save (restorePrior pair.1 pair.2) with
        ⟨-, hst, -⟩ | ⟨s, next, restart, -, hs, hfn, -⟩
      · exact absurd (congrArg Store.disk hst) hdisk
      · have hload : loadState h.disk = .ok s := hs
        rw [Disk.file_of_load hload]
        exact sameTransition_iff.1 (restorePrior_eq_ok hfn).1

/-- **A wait takes back its own transition.** As long as no transition saves the state that a
running wait looks for, a wait that ends changes nothing once another transition has been saved. -/
theorem Watched.run_restores {h : Host} {as : List Act} {w : Watched}
    (hmeets : RunMeets Watched.step Watched.Distinct ⟨h, 0⟩ as)
    (hrun : run Watched.step ⟨h, 0⟩ as = some w) :
    ∀ i save h', w.host.step (.expire i save) = some h' → h'.disk ≠ w.host.disk → w.old ≤ i := by
  intro i save h' hstep hdisk
  have hinit : Watched.Passed ⟨h, 0⟩ := fun p _ => ⟨Nat.zero_le _, by simp⟩
  obtain ⟨p, pair, hp, hi, hsame⟩ := Host.same_of_expire hstep hdisk
  by_contra hold
  refine (run_passed hinit hmeets hrun p hp).2 pair ?_ hsame
  refine mem_of_getElem? (i := i) ?_
  rwa [getElem?_take_of_lt (not_le.1 hold)]

/-- A release is activated and the helper acts on nothing. -/
def unheeded : List Act := [imageOf "v2.5.0", activateOf "v2.6.0"]

/-- The wait takes the activation back. -/
theorem run_restores_unheeded : ∃ w, run Watched.step ⟨{}, 0⟩ unheeded = some w ∧
    ((w.host.step (.expire 0 .done)).map fun h => h.disk.file.current) = some builtin ∧
    w.host.disk.file.current = "v2.6.0" ∧
    ∀ i save h', w.host.step (.expire i save) = some h' → h'.disk ≠ w.host.disk → w.old ≤ i := by
  have hmeets : RunMeets Watched.step Watched.Distinct ⟨{}, 0⟩ unheeded := by decide +kernel
  have hends : (run Watched.step ⟨{}, 0⟩ unheeded).any (fun w =>
      ((w.host.step (.expire 0 .done)).map fun h => h.disk.file.current) = some builtin ∧
      w.host.disk.file.current = "v2.6.0") = true := by decide +kernel
  obtain ⟨w, hrun, hw⟩ := (Option.any_eq_true _ _).1 hends
  rw [decide_eq_true_iff] at hw
  exact ⟨w, hrun, hw.1, hw.2, Watched.run_restores hmeets hrun⟩

/-- The release is activated, rolled back and activated again. -/
def activatedAgain : List Act :=
  [imageOf "v2.5.0", activateOf "v2.6.0", .rollback allStaged .done, activateOf "v2.6.0"]

/-- The wait for the first activation takes the second one back. -/
theorem run_restores_newer : ∃ w h', run Watched.step ⟨{}, 0⟩ activatedAgain = some w ∧
    w.host.step (.expire 0 .done) = some h' ∧ h'.disk ≠ w.host.disk ∧ w.old = 2 ∧
    w.host.disk.file.current = "v2.6.0" ∧ h'.disk.file.current = builtin := by
  have hends : (run Watched.step ⟨{}, 0⟩ activatedAgain).any (fun w =>
      (w.host.step (.expire 0 .done)).any fun h' => h'.disk ≠ w.host.disk ∧ w.old = 2 ∧
        w.host.disk.file.current = "v2.6.0" ∧ h'.disk.file.current = builtin) = true := by
    decide +kernel
  obtain ⟨w, hrun, hw⟩ := (Option.any_eq_true _ _).1 hends
  obtain ⟨h', hstep, hh⟩ := (Option.any_eq_true _ _).1 hw
  exact ⟨w, h', hrun, hstep, of_decide_eq_true hh⟩

end Viiwork.Update

import Viiwork.Supervisor.Budget

/-!
# Viiwork.Supervisor.Grace

The grace of a give-up: while a live process has requests in flight, a give-up that is due
waits up to `RespawnGrace`.

Which observation began the wait is read off the calls and what they returned
(`deferralAfter`), without the ladder's own fields `deferredAt` and `deferCause`; the
invariant `Tracks` says that the fields agree with it. They do as long as no observation
is at the zero time, which in `deferredAt` stands for "none", and no condemnation is
withdrawn.
-/

namespace Viiwork.Supervisor

open List

/-- A give-up that waits: when it was first due, and why. -/
structure Deferral where
  since : Time
  cause : String
  deriving Repr, DecidableEq

namespace Ladder

/-! ### Deferrals of a run -/

/-- The call cancels a deferral: a ready probe of a ladder not condemned, or a restart. -/
def Cancels (l : Ladder) : Call → Prop
  | .observe _ ready _ _ => ready = true ∧ l.condemned = ""
  | .restarted _ => True
  | _ => False

instance (l : Ladder) : DecidablePred l.Cancels
  | .observe _ _ _ _ => inferInstanceAs (Decidable (_ ∧ _))
  | .noteHardFailure => inferInstanceAs (Decidable False)
  | .condemn _ => inferInstanceAs (Decidable False)
  | .markDead _ => inferInstanceAs (Decidable False)
  | .restarted _ => inferInstanceAs (Decidable True)

/-- The deferral that a call finds: the current one, or the one that it begins. -/
def began (l : Ladder) (cur : Option Deferral) : Call → Option Deferral
  | .observe now ready alive _ => cur.or ((l.due now ready alive).map (⟨now, ·⟩))
  | _ => cur

/-- The current deferral after a call. -/
def deferral (l : Ladder) (cur : Option Deferral) (c : Call) : Option Deferral :=
  if l.Cancels c ∨ l.action c ≠ .none then none else l.began cur c

/-- The current deferral after the calls. -/
def deferralAfter (l : Ladder) (cur : Option Deferral) : List Call → Option Deferral
  | [] => cur
  | c :: calls => (l.call c).deferralAfter (l.deferral cur c) calls

theorem deferralAfter_append (l : Ladder) (cur : Option Deferral) (calls calls' : List Call) :
    l.deferralAfter cur (calls ++ calls') =
      (l.after calls).deferralAfter (l.deferralAfter cur calls) calls' := by
  induction calls generalizing l cur with
  | nil => rfl
  | cons c calls ih => exact ih _ _

/-- A deferral begins at an observation at which the give-up is due. -/
def BeginsIn (l : Ladder) (calls : List Call) (d : Deferral) : Prop :=
  ∃ pre ready alive inFlight post,
    calls = pre ++ .observe d.since ready alive inFlight :: post ∧
    (l.after pre).due d.since ready alive = some d.cause

variable {cur : Option Deferral} {d : Deferral} {l : Ladder} {ready alive : Bool} {cause : String}
variable {now : Time} {c : Call} {calls : List Call}

theorem beginsIn_of_began (h : l.began cur c = some d) : cur = some d ∨ l.BeginsIn [c] d := by
  cases c with
  | observe now ready alive inFlight =>
    rcases cur with _ | d'
    · obtain ⟨cause, hdue, rfl⟩ := Option.map_eq_some_iff.1 h
      exact .inr ⟨[], ready, alive, inFlight, [], rfl, hdue⟩
    · exact .inl h
  | noteHardFailure | condemn | markDead | restarted => exact .inl h

theorem beginsIn_of_deferralAfter (h : l.deferralAfter cur calls = some d) :
    cur = some d ∨ l.BeginsIn calls d := by
  induction calls generalizing l cur with
  | nil => exact .inl h
  | cons c calls ih =>
    rcases ih h with hcur | ⟨pre, ready, alive, inFlight, post, rfl, hdue⟩
    · rw [deferral] at hcur
      split_ifs at hcur
      rcases beginsIn_of_began hcur with hcur | ⟨pre, ready, alive, inFlight, post, heq, hdue⟩
      · exact .inl hcur
      · exact .inr ⟨pre, ready, alive, inFlight, post ++ calls, by
          rw [← singleton_append, heq, append_assoc, cons_append], hdue⟩
    · exact .inr ⟨c :: pre, ready, alive, inFlight, post, rfl, hdue⟩

/-- What a call finds after other calls began in one of them, when nothing was current. -/
theorem beginsIn_of_began_after (h : (l.after calls).began (l.deferralAfter none calls) c = some d) :
    l.BeginsIn (calls ++ [c]) d := by
  rcases beginsIn_of_began h with hcur | ⟨pre, ready, alive, inFlight, post, heq, hdue⟩
  · rcases beginsIn_of_deferralAfter hcur with hno | ⟨pre, ready, alive, inFlight, post, rfl, hdue⟩
    · cases hno
    · exact ⟨pre, ready, alive, inFlight, post ++ [c], by simp, hdue⟩
  · exact ⟨calls ++ pre, ready, alive, inFlight, post, by simp [heq], by rwa [after_append]⟩

/-! ### The ladder's fields track the deferral -/

/-- What the fields of a ladder that is not dead say of its current deferral. A give-up
that waits stays due. -/
def Tracks (l : Ladder) : Option Deferral → Prop
  | none => l.deferredAt = 0 ∧ l.deferCause = ""
  | some d => l.deferredAt = d.since ∧ d.since ≠ 0 ∧ l.deferCause = d.cause ∧
      l.state = .unhealthy ∧ (l.condemned ≠ "" ∨ l.cfg.maxFailures ≤ l.strikes) ∧
      0 < l.cfg.respawnGrace.ns

/-- A failed probe keeps the strikes at their limit. -/
theorem strike_spec (l : Ladder) (alive : Bool) :
    let l' := (l.strike alive).2
    l'.state = .unhealthy ∧ l'.condemned = l.condemned ∧ l'.deferredAt = l.deferredAt ∧
      l'.deferCause = l.deferCause ∧
      (l.cfg.maxFailures ≤ l.strikes → l.cfg.maxFailures ≤ l'.strikes) := by
  simp only [strike]
  split_ifs <;> simp
  omega

/-- The ladder that gives up has the deferral it had. -/
theorem struck_spec (l : Ladder) (alive : Bool) :
    let l' := l.struck alive
    l'.condemned = l.condemned ∧ l'.deferredAt = l.deferredAt ∧ l'.deferCause = l.deferCause ∧
      (l.condemned ≠ "" ∨ l.state ≠ .starting → l'.state = .unhealthy) := by
  unfold struck
  split_ifs with hcond hstart
  · simp
  · simp_all
  · obtain ⟨hstate, hc, hat, hcause, -⟩ := strike_spec l alive
    exact ⟨hc, hat, hcause, fun _ => hstate⟩

/-- A waiting give-up is due again at the next failed or condemned observation. -/
theorem Tracks.due (h : l.Tracks (some d)) (now : Time) (alive : Bool)
    (hready : ready = false ∨ l.condemned ≠ "") : ∃ cause, l.due now ready alive = some cause := by
  obtain ⟨-, -, -, hstate, hlimit, -⟩ := h
  by_cases hcond : l.condemned = ""
  · have hrd : ready = false := hready.resolve_right fun h => h hcond
    have hstrikes := (strike_spec l alive).2.2.2.2 (hlimit.resolve_left fun h => h hcond)
    simp [Ladder.due, hstate, hcond, hrd, not_lt.2 hstrikes]
  · simp [Ladder.due, hstate, hcond]

theorem due_dead (h : l.due now ready alive = some cause) : l.state ≠ .dead := by
  intro hdead
  simp [Ladder.due, hdead] at h

/-- Nothing is due at a ready probe that cancels. -/
theorem due_of_ready (hcond : l.condemned = "") (now : Time) (alive : Bool) :
    l.due now true alive = none := by
  simp [Ladder.due, hcond]

/-- When the deferral that a give-up finds began, and the cause the give-up reports. -/
theorem Tracks.began (h : l.Tracks cur) (inFlight : Int)
    (hdue : l.due now ready alive = some cause) :
    ∃ d, l.began cur (.observe now ready alive inFlight) = some d ∧
      ((l.struck alive).defer now ((l.struck alive).reported cause)).deferredAt = d.since ∧
      ((l.struck alive).defer now ((l.struck alive).reported cause)).deferCause = d.cause ∧
      (l.struck alive).reported cause = if cause = causeProbes then d.cause else cause := by
  obtain ⟨-, hat, hdc, -⟩ := struck_spec l alive
  rcases cur with _ | d
  · obtain ⟨hzero, -⟩ := h
    refine ⟨⟨now, cause⟩, by simp [Ladder.began, hdue], ?_⟩
    simp [defer, reported, hat, hzero]
  · obtain ⟨hsince, hne, hcause, -⟩ := h
    refine ⟨d, rfl, ?_⟩
    simp [defer, reported, hat, hdc, hsince, hne, hcause]

/-- The give-up that an observation makes when it does not wait. -/
theorem spend_fields (l : Ladder) (cause : String) :
    (l.spend cause).1 ≠ .none ∧ (l.spend cause).2.deferredAt = 0 ∧
      (l.spend cause).2.deferCause = "" ∧ (l.spend cause).2.cause = cause := by
  simp only [spend]
  split_ifs <;> simp

/-- **What an observation that is due does.** It waits, less than the grace after the
deferral began, or it returns an action and reports the cause. -/
theorem Tracks.observe (h : l.Tracks cur) (inFlight : Int)
    (hdue : l.due now ready alive = some cause) :
    ∃ d, l.began cur (.observe now ready alive inFlight) = some d ∧
      ((alive = true ∧ 0 < l.waitsFor inFlight ∧ 0 < l.cfg.respawnGrace.ns ∧
          now - d.since < l.cfg.respawnGrace.ns ∧
          l.observe now ready alive inFlight =
            (.none, (l.struck alive).defer now ((l.struck alive).reported cause)) ∧
          ((l.struck alive).defer now ((l.struck alive).reported cause)).deferredAt = d.since ∧
          ((l.struck alive).defer now ((l.struck alive).reported cause)).deferCause = d.cause) ∨
        (¬ (alive = true ∧ 0 < l.waitsFor inFlight ∧ 0 < l.cfg.respawnGrace.ns ∧
            now - d.since < l.cfg.respawnGrace.ns) ∧
          l.observe now ready alive inFlight =
            (l.struck alive).spend (if cause = causeProbes then d.cause else cause))) := by
  obtain ⟨d, hd, hat, hdc, hrep⟩ := h.began inFlight hdue
  refine ⟨d, hd, ?_⟩
  have hgive := giveUp_eq (l.struck alive) now cause alive (l.waitsFor inFlight)
  rw [hat, (struck_respawns l alive).2, ← observe_of_due hdue] at hgive
  split_ifs at hgive with hwait
  · exact .inl ⟨hwait.1, hwait.2.1, hwait.2.2.1, hwait.2.2.2, hgive, hat, hdc⟩
  · exact .inr ⟨hwait, hrep ▸ hgive⟩

end Ladder

namespace Call

/-- No observation is at the zero time. -/
def AfterZero (calls : List Call) : Prop := ∀ t ∈ calls.filterMap observedAt, t ≠ 0

variable {calls calls' : List Call}

theorem AfterZero.left (h : AfterZero (calls ++ calls')) : AfterZero calls := by
  intro t ht
  refine h t ?_
  rw [filterMap_append]
  exact mem_append_left _ ht

theorem Condemning.left (h : Condemning (calls ++ calls')) : Condemning calls :=
  fun cause hmem => h cause (mem_append_left _ hmem)

end Call

namespace Ladder

variable {alive ready : Bool} {cur : Option Deferral} {inFlight : Int} {l : Ladder} {d : Deferral}
variable {now : Time} {c : Call}

/-- A deferral that begins or goes on is tracked. -/
theorem Tracks.waits {cause : String} (h : l.Tracks cur) (hnow : now ≠ 0)
    (hdue : l.due now ready alive = some cause)
    (hd : l.began cur (.observe now ready alive inFlight) = some d) (hfly : 0 < l.waitsFor inFlight)
    (hgrace : 0 < l.cfg.respawnGrace.ns)
    (hat : ((l.struck alive).defer now ((l.struck alive).reported cause)).deferredAt = d.since)
    (hdc : ((l.struck alive).defer now ((l.struck alive).reported cause)).deferCause = d.cause) :
    ((l.struck alive).defer now ((l.struck alive).reported cause)).Tracks (some d) := by
  obtain ⟨hc, -, -, hun⟩ := struck_spec l alive
  have hloaded : l.condemned ≠ "" ∨ l.state ≠ .starting := by
    by_contra hno
    simp only [not_or, not_not] at hno
    rw [waitsFor, if_pos hno] at hfly
    exact absurd hfly (lt_irrefl 0)
  have hlimit : l.condemned ≠ "" ∨ l.cfg.maxFailures ≤ (l.struck alive).strikes := by
    by_cases hcond : l.condemned = ""
    · have hns : l.state ≠ .starting := hloaded.resolve_left fun h => h hcond
      right
      simp only [Ladder.due, hcond, hns, due_dead hdue] at hdue
      simp only [struck, hcond, hns]
      split_ifs at hdue ⊢ <;> simp_all
    · exact .inl hcond
  have hsince : d.since ≠ 0 := by
    rcases cur with _ | d'
    · obtain ⟨_, -, rfl⟩ := Option.map_eq_some_iff.1 hd
      exact hnow
    · rw [← Option.some.inj hd]
      exact h.2.1
  have hdefer : ∀ c, ((l.struck alive).defer now c).state = (l.struck alive).state ∧
      ((l.struck alive).defer now c).condemned = (l.struck alive).condemned ∧
      ((l.struck alive).defer now c).strikes = (l.struck alive).strikes := by
    intro c
    unfold defer
    split_ifs <;> simp
  obtain ⟨hst, hcd, hsk⟩ := hdefer ((l.struck alive).reported cause)
  refine ⟨hat, hsince, hdc, by rw [hst, hun hloaded], ?_, ?_⟩
  · rw [hcd, hc, hsk, defer_cfg, (struck_respawns l alive).2]
    exact hlimit
  · rwa [defer_cfg, (struck_respawns l alive).2]

/-- **One call keeps the fields and the deferral together.** -/
theorem Tracks.call (hdead : l.state ≠ .dead) (h : l.Tracks cur) (hzero : Call.AfterZero [c])
    (hcond : Call.Condemning [c]) (hdead' : (l.call c).state ≠ .dead) :
    (l.call c).Tracks (l.deferral cur c) := by
  cases c with
  | observe now ready alive inFlight =>
    have hnow : now ≠ 0 := hzero now (by simp [Call.observedAt])
    cases hdue : l.due now ready alive with
    | some cause =>
      have hcancel : ¬ l.Cancels (.observe now ready alive inFlight) := by
        rintro ⟨rfl, hc⟩
        rw [due_of_ready hc] at hdue
        cases hdue
      obtain ⟨d, hd, ⟨-, hfly, hgrace, -, hobs, hat, hdc⟩ | ⟨-, hobs⟩⟩ :=
        h.observe inFlight hdue
      · rw [deferral, action, hobs, if_neg (by simp [hcancel]), hd, Ladder.call, hobs]
        exact h.waits hnow hdue hd hfly hgrace hat hdc
      · obtain ⟨hact, hat, hdc, -⟩ := spend_fields (l.struck alive)
          (if cause = causeProbes then d.cause else cause)
        rw [deferral, action, hobs, if_pos (.inr hact), Ladder.call, hobs]
        exact ⟨hat, hdc⟩
    | none =>
      have hobs : l.observe now ready alive inFlight = _ := observe_of_not_due hdue
      rw [if_neg hdead] at hobs
      by_cases hrd : ready = true
      · have hc : l.condemned = "" := by
          by_contra hne
          simp [Ladder.due, hdead, hne] at hdue
        rw [deferral, if_pos (.inl ⟨hrd, hc⟩), Ladder.call, hobs, if_pos hrd]
        simp only [Tracks, Ladder.ready, recover, clearTransient]
        split_ifs <;> exact ⟨rfl, rfl⟩
      · -- a waiting give-up would be due, so none waits
        have hcur : cur = none := by
          rcases cur with _ | d
          · rfl
          · obtain ⟨cause, hsome⟩ := h.due now alive (.inl (by simpa using hrd))
            rw [hsome] at hdue
            cases hdue
        subst hcur
        rw [deferral, action, hobs, if_neg (by simp [Cancels, hrd]), Ladder.began, hdue,
          Ladder.call, hobs, if_neg hrd]
        split_ifs
        · exact h
        · obtain ⟨-, -, hat, hdc, -⟩ := strike_spec l alive
          exact ⟨hat.trans h.1, hdc.trans h.2⟩
  | noteHardFailure => rcases cur with _ | d <;> exact h
  | condemn cause =>
    have hne : cause ≠ "" := hcond cause (by simp)
    rw [Ladder.call, condemn, if_pos hdead, deferral, if_neg (by simp [Cancels, action])]
    rcases cur with _ | d
    · exact h
    · obtain ⟨hat, hsince, hdc, hstate, -, hgrace⟩ := h
      exact ⟨hat, hsince, hdc, hstate, .inl hne, hgrace⟩
  | markDead cause => exact absurd rfl hdead'
  | restarted now =>
    rw [Ladder.call, restarted, if_neg hdead, deferral, if_pos (.inl trivial)]
    exact ⟨rfl, rfl⟩

/-- A call that cancels a deferral kills no ladder. -/
theorem Cancels.not_dead (h : l.Cancels c) (hdead : l.state ≠ .dead) :
    (l.call c).state ≠ .dead := by
  cases c with
  | observe now ready alive inFlight =>
    obtain ⟨rfl, hcond⟩ := h
    rw [call, observe_of_not_due (due_of_ready hcond now alive), if_neg hdead, if_pos rfl,
      (ready_healthySince l now hdead).1]
    decide
  | restarted now =>
    rw [call, restarted, if_neg hdead]
    simp [clearTransient]
  | noteHardFailure | condemn | markDead => exact h.elim

theorem tracks_after {cfg : LadderConfig} {start : Time} {calls : List Call}
    (hzero : Call.AfterZero calls) (hcond : Call.Condemning calls) :
    ((new cfg start).after calls).state ≠ .dead →
      ((new cfg start).after calls).Tracks ((new cfg start).deferralAfter none calls) := by
  refine after_invariant (P := fun pre l => l.state ≠ .dead →
    l.Tracks ((new cfg start).deferralAfter none pre)) (fun _ => ⟨rfl, rfl⟩) ?_
  intro pre c post heq ih hdead'
  have hdead : ((new cfg start).after pre).state ≠ .dead :=
    fun hd => hdead' (call_dead hd c).2
  rw [deferralAfter_append]
  refine (ih hdead).call hdead ?_ ?_ hdead'
  · intro t ht
    refine hzero t ?_
    rw [heq, ← singleton_append, filterMap_append, filterMap_append]
    exact mem_append_right _ (mem_append_left _ ht)
  · intro cause hmem
    refine hcond cause ?_
    rw [heq, mem_singleton.1 hmem]
    exact mem_append_right _ mem_cons_self

/-- Only an observation that is due returns an action. -/
theorem due_of_action (hact : l.action (.observe now ready alive inFlight) ≠ .none) :
    ∃ cause, l.due now ready alive = some cause := by
  cases hdue : l.due now ready alive with
  | some cause => exact ⟨cause, rfl⟩
  | none =>
    rw [action, observe_of_not_due hdue] at hact
    exact absurd rfl hact

/-- An observation that returns an action: the grace has passed where there is one to wait
for, and the cause is its own or that of the deferral. -/
theorem Tracks.action (h : l.Tracks cur) {now : Int}
    (hact : l.action (.observe now ready alive inFlight) ≠ .none) :
    ∃ d own, l.began cur (.observe now ready alive inFlight) = some d ∧
      l.due now ready alive = some own ∧
      (l.call (.observe now ready alive inFlight)).cause =
        (if own = causeProbes then d.cause else own) ∧
      (alive = true → 0 < inFlight → (l.state = .starting → l.condemned ≠ "") →
        l.cfg.respawnGrace.ns ≤ now - d.since) := by
  obtain ⟨own, hdue⟩ := due_of_action hact
  obtain ⟨d, hd, ⟨-, -, -, -, hobs, -⟩ | ⟨hwait, hobs⟩⟩ := h.observe inFlight hdue
  · rw [Ladder.action, hobs] at hact
    exact absurd rfl hact
  refine ⟨d, own, hd, hdue, ?_, fun halive hfly hloaded => ?_⟩
  · rw [Ladder.call, hobs]
    exact (spend_fields _ _).2.2.2
  · have hwaits : l.waitsFor inFlight = inFlight :=
      if_neg fun hno => hloaded hno.2 hno.1
    rw [hwaits] at hwait
    rcases cur with _ | d'
    · -- the deferral begins here
      rw [Ladder.began, hdue] at hd
      obtain rfl : (⟨now, own⟩ : Deferral) = d := Option.some.inj hd
      by_contra hlt
      rw [sub_self, not_le] at hlt
      exact hwait ⟨halive, hfly, hlt, by rwa [sub_self]⟩
    · by_contra hlt
      exact hwait ⟨halive, hfly, h.2.2.2.2.2, not_le.1 hlt⟩

/-- An observation that has nothing to wait for returns an action. -/
theorem Tracks.action_of_due (h : l.Tracks cur) {now : Int}
    (hready : ready = false ∨ l.condemned ≠ "")
    (hd : l.began cur (.observe now ready alive inFlight) = some d)
    (hover : alive = false ∨ inFlight ≤ 0 ∨ l.cfg.respawnGrace.ns ≤ now - d.since) :
    l.action (.observe now ready alive inFlight) ≠ .none := by
  have hdue : ∃ own, l.due now ready alive = some own := by
    rcases cur with _ | d'
    · obtain ⟨own, hdue, -⟩ := Option.map_eq_some_iff.1 hd
      exact ⟨own, hdue⟩
    · exact h.due now alive hready
  obtain ⟨own, hdue⟩ := hdue
  obtain ⟨d', hd', ⟨halive, hfly, -, hlt, -⟩ | ⟨-, hobs⟩⟩ := h.observe inFlight hdue
  · exfalso
    obtain rfl : d = d' := Option.some.inj (hd.symm.trans hd')
    rcases hover with hover | hover | hover
    · rw [hover] at halive
      cases halive
    · rw [waitsFor] at hfly
      split_ifs at hfly
      · exact absurd hfly (lt_irrefl 0)
      · exact absurd hfly (not_lt.2 hover)
    · exact absurd hlt (not_lt.2 hover)
  · rw [Ladder.action, hobs]
    exact (spend_fields _ _).1

/-- **The grace of a give-up.** In every use of a ladder with observations after the zero
time and no condemnation withdrawn: an observation of a live process with requests in
flight, outside starting, returns no action before the grace has passed since the
observation that began the current deferral; a failed or condemned observation of a ladder
not dead at which a give-up is due, and the process is dead, nothing is in flight or the
grace has passed, returns one; and after a ready probe (not condemned) or a restart,
nothing is left of the deferral, so that a later give-up waits for the grace from an
observation since then, and reports the cause of one since then. -/
theorem giveUp_grace (cfg : LadderConfig) (start : Time) {calls : List Call}
    (hzero : Call.AfterZero calls) (hcond : Call.Condemning calls) :
    let l₀ := new cfg start
    (∀ pre now ready alive inFlight post,
      calls = pre ++ .observe now ready alive inFlight :: post →
      let l := l₀.after pre
      let c := Call.observe now ready alive inFlight
      (alive = true → 0 < inFlight → (l.state = .starting → l.condemned ≠ "") →
        l.action c ≠ .none →
        ∃ d, l.began (l₀.deferralAfter none pre) c = some d ∧
          cfg.respawnGrace.ns ≤ now - d.since) ∧
      (l.state ≠ .dead → ready = false ∨ l.condemned ≠ "" →
        ∀ d, l.began (l₀.deferralAfter none pre) c = some d →
          alive = false ∨ inFlight ≤ 0 ∨ cfg.respawnGrace.ns ≤ now - d.since →
          l.action c ≠ .none)) ∧
    (∀ pre c mid now ready alive inFlight post,
      calls = pre ++ c :: mid ++ .observe now ready alive inFlight :: post →
      (l₀.after pre).Cancels c → (l₀.after pre).state ≠ .dead →
      (l₀.after (pre ++ [c])).deferredAt = 0 ∧ (l₀.after (pre ++ [c])).deferCause = "" ∧
      let l := l₀.after (pre ++ c :: mid)
      (l.action (.observe now ready alive inFlight) ≠ .none →
        ∃ d own, (l₀.after (pre ++ [c])).BeginsIn
            (mid ++ [.observe now ready alive inFlight]) d ∧
          l.due now ready alive = some own ∧
          (l.call (.observe now ready alive inFlight)).cause =
            (if own = causeProbes then d.cause else own) ∧
          (alive = true → 0 < inFlight → (l.state = .starting → l.condemned ≠ "") →
            cfg.respawnGrace.ns ≤ now - d.since))) := by
  intro l₀
  refine ⟨fun pre now ready alive inFlight post heq => ⟨fun halive hfly hloaded hact => ?_,
    fun hdead hready d hd hover => ?_⟩,
    fun pre c mid now ready alive inFlight post heq hcancel hdead => ?_⟩
  · subst heq
    have hcfg : (l₀.after pre).cfg = cfg := after_cfg l₀ pre
    obtain ⟨own, hdue⟩ := due_of_action hact
    have htracks := tracks_after hzero.left hcond.left (due_dead hdue)
    obtain ⟨d, -, hd, -, -, hgrace⟩ := htracks.action hact
    exact ⟨d, hd, hcfg ▸ hgrace halive hfly hloaded⟩
  · subst heq
    have hcfg : (l₀.after pre).cfg = cfg := after_cfg l₀ pre
    exact (tracks_after hzero.left hcond.left hdead).action_of_due hready hd
      (by rwa [hcfg])
  · subst heq
    have hnone : l₀.deferralAfter none (pre ++ [c]) = none := by
      rw [deferralAfter_append, deferralAfter, deferralAfter, deferral, if_pos (.inl hcancel)]
    have hsplit : pre ++ c :: mid = pre ++ [c] ++ mid := by simp
    have hzero' : Call.AfterZero (pre ++ [c]) := (hsplit ▸ hzero.left).left
    have hcond' : Call.Condemning (pre ++ [c]) := (hsplit ▸ hcond.left).left
    have hlive : (l₀.after (pre ++ [c])).state ≠ .dead := by
      rw [after_append, after_cons, after_nil]
      exact hcancel.not_dead hdead
    have hclear := tracks_after hzero' hcond' hlive
    rw [hnone] at hclear
    refine ⟨hclear.1, hclear.2, fun hact => ?_⟩
    obtain ⟨own, hdue⟩ := due_of_action hact
    have htracks := tracks_after hzero.left hcond.left (due_dead hdue)
    obtain ⟨d, own, hd, hdue, hcause, hgrace⟩ := htracks.action hact
    have hcfg : (l₀.after (pre ++ c :: mid)).cfg = cfg := after_cfg l₀ _
    refine ⟨d, own, ?_, hdue, hcause, hcfg ▸ hgrace⟩
    rw [hsplit, deferralAfter_append, hnone, after_append] at hd
    exact beginsIn_of_began_after hd

/-- Two strikes, a grace of ten nanoseconds. -/
def tenGrace : LadderConfig :=
  ⟨2, ⟨10, by norm_num, by norm_num⟩, 3, nanosecond⟩

/-- A hard failure waits for a request, is given up with it, and after the restart probes
fail while another is in flight. -/
def drained : List Call :=
  [.observe 1 true true 0, .noteHardFailure, .observe 2 false true 1, .observe 11 false true 1,
    .observe 12 false true 1, .restarted 13, .observe 14 true true 0, .observe 15 false true 1,
    .observe 16 false true 1, .observe 25 false true 1, .observe 26 false true 0]

theorem giveUp_grace_drained :
    let l := new tenGrace 0
    l.actions drained = [.none, .none, .none, .none, .respawn, .none, .none, .none, .none, .none,
      .respawn] ∧
      (∃ d, (l.after (drained.take 4)).began (l.deferralAfter none (drained.take 4))
          (.observe 12 false true 1) = some d ∧ tenGrace.respawnGrace.ns ≤ 12 - d.since) ∧
      ∃ d own, (l.after (drained.take 6)).BeginsIn (drained.drop 6) d ∧
        (l.after drained).cause = if own = causeProbes then d.cause else own := by
  have hzero : Call.AfterZero drained := by unfold Call.AfterZero; decide
  have hcond : Call.Condemning drained := by unfold Call.Condemning drained; simp
  have hmain := giveUp_grace tenGrace 0 hzero hcond
  refine ⟨by decide +kernel, ?_, ?_⟩
  · exact (hmain.1 (drained.take 4) 12 false true 1 (drained.drop 5) rfl).1 rfl (by decide)
      (by decide +kernel) (by decide +kernel)
  · obtain ⟨-, -, hact⟩ := hmain.2 (drained.take 5) (.restarted 13) ((drained.drop 6).take 4) 26
      false true 0 [] rfl trivial (by decide +kernel)
    obtain ⟨d, own, hbegins, -, hcause, -⟩ := hact (by decide +kernel)
    exact ⟨d, own, hbegins, hcause⟩

/-- Three uses in which the grace has passed, or nothing is in flight, or the process is
dead, and a give-up that waits is not made: the wait began at the zero time, the
condemnation was withdrawn, the ladder was marked dead. -/
theorem giveUp_overdue :
    let l := new tenGrace 0
    let atZero : List Call := [.observe 0 true true 0, .noteHardFailure, .observe 0 false true 1]
    let withdrawn : List Call := [.observe 1 true true 0, .condemn "not on assigned GPU",
      .observe 2 true true 1, .condemn ""]
    let killed : List Call := [.observe 1 true true 0, .noteHardFailure, .observe 2 false true 1,
      .markDead "no command"]
    (l.deferralAfter none atZero = some ⟨0, causeHardFailure⟩ ∧
        tenGrace.respawnGrace.ns ≤ 10 - 0 ∧
        (l.after atZero).action (.observe 10 false true 1) = .none) ∧
      (l.deferralAfter none withdrawn = some ⟨2, "not on assigned GPU"⟩ ∧
        (l.after withdrawn).action (.observe 3 false true 0) = .none) ∧
      (l.deferralAfter none killed = some ⟨2, causeHardFailure⟩ ∧
        (l.after killed).action (.observe 3 false false 1) = .none) := by
  decide +kernel

end Ladder

end Viiwork.Supervisor

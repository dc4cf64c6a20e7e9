import Viiwork.Route.System

/-!
# Viiwork.Route.Overcommit

**No overcommit.** Whatever the strategies, settings and draws, a backend never
has more requests in flight than slots, and the forwards to a peer that its
report cannot count yet stay within the slots the report leaves free.

Slots change in two ways only, one open slot taken (`Takes`) or one lease's slot
released, so that a bound is an invariant once those two keep it
(`step_slots_invariant`).
-/

namespace Viiwork.Route

open Function

variable {β F : Type} [DecidableEq β]

/-! ### Slots along a step -/

section

variable [Float64 F] {c : Config β} {s s' : State β F} {a : Step β F} {P : Slots β → Prop}

/-- **The slots rule.** What taking an open slot and releasing a slot preserve,
every step preserves. -/
theorem step_slots_invariant (hsound : s.Sound)
    (hrelease : ∀ slots slots' l, P slots → slots.release l = some slots' → P slots')
    (htakes : ∀ env, a.env? = some env → ∀ d req backends slots slots' l, P slots →
      Takes c env d req backends env.reports slots slots' l → P slots')
    (hs : P s.router.slots) (hstep : s.step c a = some s') : P s'.router.slots := by
  refine State.step_router_invariant (P := fun rt => P rt.slots) hsound ?_ ?_ ?_ hs hstep
  · intro env henv d req backends localElig rt rt' l hfound hrt
    cases l with
    | none => rwa [hfound.outcome.slots_eq]
    | some l =>
      have htaken := Takes.mono c env d (Step.reports_subset henv) hfound.outcome.takes
      exact htakes env henv d req backends _ _ l hrt htaken
  · exact fun rt slots l hrel hrt => hrelease _ _ l hrt hrel
  · exact fun rt id now key ha hrt => hrt

end

/-! ### The two bounds along one change of the slots -/

section

variable {slots slots' : Slots β} {l : Lease β}

theorem inFlight_release_le (h : slots.release l = some slots') (b : β) :
    slots'.inFlight b ≤ slots.inFlight b := by
  unfold Slots.release at h
  split at h
  · rename_i b' _
    split at h
    · cases h
    · cases h
      show update slots.inFlight b' (slots.inFlight b' - 1) b ≤ _
      by_cases hb : b = b'
      · subst hb
        rw [update_self]
        omega
      · rw [update_of_ne hb]
  · cases h
    exact le_rfl

theorem reserved_release_le (h : slots.release l = some slots') (key : ResKey) (asOf : Int) :
    reserved slots' key asOf ≤ reserved slots key asOf :=
  (Slots.reservations_release_sublist h key).countP_le

variable {c : Config β} {env : Env β F} {d : Draw F} {req : Request F} {backends : List β}
variable {reports : List Report}

theorem inFlight_takes_le {n : β → Nat} (hslots : env.slots = n)
    (hle : ∀ b, slots.inFlight b ≤ n b)
    (h : Takes c env d req backends reports slots slots' l) (b : β) :
    slots'.inFlight b ≤ n b := by
  cases h with
  | backend b' hopen =>
    have hfree := hopen.free
    unfold free at hfree
    rw [hslots] at hfree
    show update slots.inFlight b' (slots.inFlight b' + 1) b ≤ _
    by_cases hb : b = b'
    · subst hb
      rw [update_self]
      omega
    · rw [update_of_ne hb]
      exact hle b
  | peer rep mc now hrep hnow hopen => exact hle b

omit [DecidableEq β] in
theorem reserved_peerLease (rep : Report) (model : String) (now : Int) (key : ResKey) (asOf : Int) :
    reserved (peerLease slots rep model now).1 key asOf =
      reserved slots key asOf + if key = ⟨rep.node, model⟩ ∧ asOf < now then 1 else 0 := by
  unfold reserved
  show ((update slots.reservations ⟨rep.node, model⟩ _) key).countP _ = _
  by_cases hkey : key = ⟨rep.node, model⟩
  · subst hkey
    rw [update_self, List.countP_append]
    simp
  · rw [update_of_ne hkey, if_neg fun h => hkey h.1, Nat.add_zero]

/-- A forward is granted only where the report leaves a slot for it. -/
theorem reserved_takes_le {rep : Report} {mc : ModelCapacity} {model : String} {n : Int}
    (hrep : ∀ r ∈ reports, r.node = rep.node → r = rep) (hmc : rep.model model = some mc)
    (hn : mc.slots - mc.busy ≤ n) (hle : (reserved slots ⟨rep.node, model⟩ rep.asOf : Int) ≤ n)
    (h : Takes c env d req backends reports slots slots' l) :
    (reserved slots' ⟨rep.node, model⟩ rep.asOf : Int) ≤ n := by
  cases h with
  | backend b hopen => exact hle
  | peer r mc' now hr hnow hopen =>
    rw [reserved_peerLease]
    split
    · rename_i hkey
      obtain ⟨hnode, hmodel⟩ := ResKey.mk.inj hkey.1
      -- The report that granted the forward is the one presented.
      obtain rfl := hrep r hr hnode.symm
      have hfree := hopen.free
      have hentry := hopen.entry
      rw [← hmodel] at hfree hentry
      rw [hmc] at hentry
      cases hentry
      push_cast
      omega
    · exact hle

end

/-! ### Runs -/

/-- The step finds every backend with the slots it always has. -/
def Step.KeepsSlots (n : β → Nat) (a : Step β F) : Prop :=
  ∀ env, a.env? = some env → env.slots = n

/-- The step finds no other report of the peer. -/
def Step.Presents (rep : Report) (a : Step β F) : Prop :=
  ∀ env, a.env? = some env → ∀ r ∈ env.reports, r.node = rep.node → r = rep

/-- The outstanding forwards to a peer for a model that started after `asOf`. -/
def State.forwardsAfter (s : State β F) (key : ResKey) (asOf : Int) : Nat :=
  (s.outstanding.filterMap (Lease.resAt key)).countP fun res => asOf < res.start

/-- What the router counts are the outstanding forwards. -/
theorem State.Sound.forwardsAfter_eq {s : State β F} (h : s.Sound) (key : ResKey) (asOf : Int) :
    s.forwardsAfter key asOf = reserved s.router.slots key asOf := by
  rw [State.forwardsAfter, ← h.balanced.reservations key, Multiset.coe_countP]
  rfl

section

variable [Float64 F] {c : Config β} {s s' : State β F} {steps : List (Step β F)}

theorem run_inFlight_le {n : β → Nat} (hslots : ∀ a ∈ steps, a.KeepsSlots n)
    (hrun : Lib.run (State.step c) State.new steps = some s) (b : β) :
    s.router.slots.inFlight b ≤ n b := by
  have hinv : s.Sound ∧ ∀ b, s.router.slots.inFlight b ≤ n b := by
    refine Lib.run_invariant (State.step c)
      (I := fun s => s.Sound ∧ ∀ b, s.router.slots.inFlight b ≤ n b) ?_ ⟨.new, ?_⟩
      (Lib.runMeets_of_forall _ _ hslots) hrun
    · intro s a s' hs ha hstep
      refine ⟨hs.1.step hstep, ?_⟩
      refine step_slots_invariant (P := fun slots => ∀ b, slots.inFlight b ≤ n b) hs.1 ?_ ?_
        hs.2 hstep
      · exact fun slots slots' l hle hrel b => (inFlight_release_le hrel b).trans (hle b)
      · exact fun env henv d req backends slots slots' l hle ht =>
          inFlight_takes_le (ha env henv) hle ht
    · exact fun b => Int.natCast_nonneg (n b)
  exact hinv.2 b

theorem run_reserved_le {rep : Report} {mc : ModelCapacity} {model : String}
    (hrep : ∀ a ∈ steps, a.Presents rep) (hmc : rep.model model = some mc) (hs : s.Sound)
    (hrun : Lib.run (State.step c) s steps = some s') :
    (reserved s'.router.slots ⟨rep.node, model⟩ rep.asOf : Int) ≤
      max (reserved s.router.slots ⟨rep.node, model⟩ rep.asOf : Int) (mc.slots - mc.busy) := by
  let n := max (reserved s.router.slots ⟨rep.node, model⟩ rep.asOf : Int) (mc.slots - mc.busy)
  have hinv : s'.Sound ∧ (reserved s'.router.slots ⟨rep.node, model⟩ rep.asOf : Int) ≤ n := by
    refine Lib.run_invariant (State.step c)
      (I := fun s => s.Sound ∧ (reserved s.router.slots ⟨rep.node, model⟩ rep.asOf : Int) ≤ n)
      ?_ ⟨hs, le_max_left _ _⟩ (Lib.runMeets_of_forall _ _ hrep) hrun
    intro s a s' hs ha hstep
    refine ⟨hs.1.step hstep, ?_⟩
    refine step_slots_invariant
      (P := fun slots => (reserved slots ⟨rep.node, model⟩ rep.asOf : Int) ≤ n) hs.1 ?_ ?_
      hs.2 hstep
    · exact fun slots slots' l hle hrel =>
        (Int.ofNat_le.2 (reserved_release_le hrel _ _)).trans hle
    · exact fun env henv d req backends slots slots' l hle ht =>
        reserved_takes_le (ha env henv) hmc (le_max_right _ _) hle ht
  exact hinv.2

/-- **No overcommit.** With the backends' slots constant, no backend has more in
flight than slots. And from the moment a peer's report is the one presented, its
forwards started after the report's `AsOf` stay within its free slots, or within
those already outstanding at that moment if they are more. -/
theorem run_no_overcommit {n : β → Nat} {rep : Report} {mc : ModelCapacity} {model : String}
    {pre post : List (Step β F)} (hslots : ∀ a ∈ pre ++ post, a.KeepsSlots n)
    (hrep : ∀ a ∈ post, a.Presents rep) (hmc : rep.model model = some mc)
    (hpre : Lib.run (State.step c) State.new pre = some s)
    (hpost : Lib.run (State.step c) s post = some s') :
    (∀ b, 0 ≤ s'.router.slots.inFlight b ∧ s'.router.slots.inFlight b ≤ n b) ∧
    (s'.forwardsAfter ⟨rep.node, model⟩ rep.asOf : Int) ≤
      max (s.forwardsAfter ⟨rep.node, model⟩ rep.asOf : Int) (mc.slots - mc.busy) := by
  have hsound : s.Sound := State.Sound.new.run hpre
  have hsound' : s'.Sound := hsound.run hpost
  refine ⟨?_, ?_⟩
  · intro b
    refine ⟨?_, run_inFlight_le hslots (by rw [Lib.run_append _ hpre, hpost]) b⟩
    rw [hsound'.balanced.inFlight b]
    exact Int.natCast_nonneg _
  · rw [hsound.forwardsAfter_eq, hsound'.forwardsAfter_eq]
    exact run_reserved_le hrep hmc hsound hpost

end

/-! ### A node that only forwards

One peer, one model, the scored choice on. -/

def forwardingEnv (reports : List Report) (now : Int) : Env Unit ℚ where
  backends _ := none
  healthy _ := false
  slots _ := 0
  addr _ := ""
  reports := reports
  localScore _ := none
  localImages _ := .unknown
  localKVShare _ := none
  draw _ := ⟨now, now, now, now, now, fun _ => 0⟩
  order _ := []

def forwardingConfig : Config Unit where
  self := "a"
  staleAfter := 100
  queueMax := 4
  performance := true
  backendID _ := ""

def peerCapacity (slots busy : Int) : ModelCapacity where
  name := "m"
  slots := slots
  busy := busy
  healthyBackends := 1
  ttftOverheadMs := 10
  prefillMsPer1k := 100

def peerReport (sent slots busy : Int) : Report where
  node := "p"
  apiAddr := "p:80"
  received := sent + 3
  sent := some sent
  rtt := 3
  models := [peerCapacity slots busy]

def forwardAt (rep : Report) (now : Int) : Step Unit ℚ :=
  .pick (forwardingEnv [rep] now) { model := "m", estK := 1 }

theorem forwardAt_keepsSlots (rep : Report) (now : Int) :
    (forwardAt rep now).KeepsSlots fun _ => 0 := by
  intro env henv
  cases henv
  rfl

theorem forwardAt_presents (rep : Report) (now : Int) : (forwardAt rep now).Presents rep := by
  intro env henv r hr _
  cases henv
  exact List.mem_singleton.1 hr

/-- Of two requests after the report, the one free slot takes the first. -/
theorem run_no_overcommit_one_slot :
    ∃ s : State Unit ℚ, Lib.run (State.step forwardingConfig) State.new
        [forwardAt (peerReport 0 2 1) 5, forwardAt (peerReport 0 2 1) 6] = some s ∧
      s.forwardsAfter ⟨"p", "m"⟩ 0 = 1 ∧
      (s.forwardsAfter ⟨"p", "m"⟩ 0 : Int) ≤
        max (State.new.forwardsAfter (β := Unit) (F := ℚ) ⟨"p", "m"⟩ 0 : Int) (2 - 1) := by
  have hrun : (Lib.run (State.step forwardingConfig) State.new
      [forwardAt (peerReport 0 2 1) 5, forwardAt (peerReport 0 2 1) 6]).map
      (fun s => s.forwardsAfter ⟨"p", "m"⟩ 0) = some 1 := by decide +kernel
  obtain ⟨s, hs, hone⟩ := Option.map_eq_some_iff.1 hrun
  refine ⟨s, hs, hone, ?_⟩
  have hslots : ∀ a ∈ [] ++ [forwardAt (peerReport 0 2 1) 5, forwardAt (peerReport 0 2 1) 6],
      a.KeepsSlots fun _ => 0 := by
    simp [forwardAt_keepsSlots]
  have hrep : ∀ a ∈ [forwardAt (peerReport 0 2 1) 5, forwardAt (peerReport 0 2 1) 6],
      a.Presents (peerReport 0 2 1) := by
    simp [forwardAt_presents]
  have hmc : (peerReport 0 2 1).model "m" = some (peerCapacity 2 1) := rfl
  exact (run_no_overcommit hslots hrep hmc rfl hs).2

/-- The bound is not the report's free slots alone. A report with more busy than
slots leaves a negative number free, which even no forward at all exceeds. And a
report asked for at 10 may come after two forwards of 11 and 12 under the report
before it: both started after its `AsOf`, and it leaves one slot free. -/
theorem run_forwards_beyond_free :
    (∃ s : State Unit ℚ, Lib.run (State.step forwardingConfig) State.new
        [forwardAt (peerReport 0 1 2) 11] = some s ∧
      ¬ (s.forwardsAfter ⟨"p", "m"⟩ 0 : Int) ≤ 1 - 2) ∧
    ∃ s : State Unit ℚ, Lib.run (State.step forwardingConfig) State.new
        [forwardAt (peerReport 0 4 0) 11, forwardAt (peerReport 0 4 0) 12,
          forwardAt (peerReport 10 4 3) 14] = some s ∧
      ¬ (s.forwardsAfter ⟨"p", "m"⟩ 10 : Int) ≤ 4 - 3 := by
  have hfull : (Lib.run (State.step forwardingConfig) State.new
      [forwardAt (peerReport 0 1 2) 11]).map (fun s => s.forwardsAfter ⟨"p", "m"⟩ 0) = some 0 := by
    decide +kernel
  have hlate : (Lib.run (State.step forwardingConfig) State.new
      [forwardAt (peerReport 0 4 0) 11, forwardAt (peerReport 0 4 0) 12,
        forwardAt (peerReport 10 4 3) 14]).map
      (fun s => s.forwardsAfter ⟨"p", "m"⟩ 10) = some 2 := by
    decide +kernel
  obtain ⟨s, hs, hnone⟩ := Option.map_eq_some_iff.1 hfull
  obtain ⟨s', hs', htwo⟩ := Option.map_eq_some_iff.1 hlate
  exact ⟨⟨s, hs, by rw [hnone]; decide⟩, s', hs', by rw [htwo]; decide⟩

end Viiwork.Route

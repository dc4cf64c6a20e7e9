import Viiwork.Route.System

/-!
# Viiwork.Route.Leases

**No lease is lost or duplicated by the queue.** The results are read off the
soundness of every reachable state (`State.Sound.run`): what a waiter's log and
place say about the lease it was sent, and what the slots say about the leases
that are held.
-/

namespace Viiwork.Route

variable {β F : Type}

/-! ### Where a waiter's lease is -/

/-- The call returned to its caller. -/
def Phase.Ended : Phase β → Prop
  | .returned _ | .timedOut | .canceled _ => True
  | .waiting | .leaving _ | .draining _ | .releasing _ => False

/-- Where the lease a waiter was sent is: still in its channel, in the hands of
the call that will release it, returned to its caller, or released. -/
inductive Waiter.LeaseAt (wt : Waiter β F) (l : Lease β) : Prop
  | inChannel (h : wt.result = [.lease l]) (hphase : ¬ wt.phase.Ended)
  | inHand (h : wt.phase = .releasing l)
  | returned (h : wt.phase = .returned (.lease l))
  | released (h : wt.phase = .canceled (some l))

namespace Waiter.Sound

variable {wt : Waiter β F}

theorem sent_length_le (h : wt.Sound) : wt.sent.length ≤ 1 := by
  unfold Waiter.Sound Waiter.Completed at h
  split at h
  · rcases h with ⟨-, -, hsent⟩ | ⟨-, res, -, hsent⟩ <;> simp [hsent]
  · rcases h with ⟨-, -, hsent⟩ | ⟨-, res, -, hsent⟩ <;> simp [hsent]
  · obtain ⟨-, res, -, hsent⟩ := h
    simp [hsent]
  · simp [h.2.2]
  · simp [h.2.2]
  · simp [h.2.2]
  · simp [h.2.2]
  · exact h.2.2.2

theorem leaseAt (h : wt.Sound) {l : Lease β} (hl : .lease l ∈ wt.sent) : wt.LeaseAt l := by
  have hcompleted : wt.Completed → wt.result = [.lease l] := by
    rintro ⟨-, res, hresult, hsent⟩
    rw [hsent, List.mem_singleton] at hl
    rw [hresult, hl]
  have hempty : wt.sent ≠ [] := List.ne_nil_of_mem hl
  unfold Waiter.Sound at h
  split at h
  · rename_i hphase
    rcases h with ⟨-, -, hsent⟩ | h
    · exact absurd hsent hempty
    · exact .inChannel (hcompleted h) (by simp [hphase, Phase.Ended])
  · rename_i hphase
    rcases h with ⟨-, -, hsent⟩ | h
    · exact absurd hsent hempty
    · exact .inChannel (hcompleted h) (by simp [hphase, Phase.Ended])
  · rename_i hphase
    exact .inChannel (hcompleted h) (by simp [hphase, Phase.Ended])
  · rename_i res hphase
    rw [h.2.2, List.mem_singleton] at hl
    exact .returned (hl ▸ hphase)
  · exact absurd h.2.2 hempty
  · rename_i l' hphase
    rw [h.2.2, List.mem_singleton] at hl
    cases hl
    exact .inHand hphase
  · rename_i l' hphase
    rw [h.2.2, List.mem_singleton] at hl
    cases hl
    exact .released hphase
  · exact absurd hl (h.2.2.1 l)

end Waiter.Sound

/-! ### Who has the outstanding leases -/

namespace State

/-- The leases the callers have, a cancelled call about to release its own
included. -/
def heldByCallers (s : State β F) : Multiset (Lease β) :=
  ↑s.held + (s.waiters.map fun wt => wt.phase.lease).sum

/-- The leases in the waiters' result channels. -/
def inChannels (s : State β F) : Multiset (Lease β) :=
  (s.waiters.map fun wt => (leasesOf wt.result : Multiset (Lease β))).sum

theorem outstanding_eq (s : State β F) : s.outstanding = s.heldByCallers + s.inChannels := by
  have hsum : (s.waiters.map Waiter.leases).sum =
      s.inChannels + (s.waiters.map fun wt => wt.phase.lease).sum := List.sum_map_add
  rw [outstanding, heldByCallers, hsum, add_assoc, add_comm s.inChannels]

theorem mem_outstanding_of_releasing {s : State β F} {w : Nat} {wt : Waiter β F} {l : Lease β}
    (hw : s.waiters[w]? = some wt) (hphase : wt.phase = .releasing l) : l ∈ s.outstanding := by
  have hlose : l ::ₘ (s.setWaiter w { wt with phase := .timedOut }).outstanding = s.outstanding :=
    outstanding_setWaiter_lose hw
      (by simp [Waiter.leases, hphase, Phase.lease, add_comm, Multiset.singleton_add])
  exact hlose ▸ Multiset.mem_cons_self l _

namespace Sound

variable [DecidableEq β] {s : State β F} {w : Nat} {wt : Waiter β F} {l : Lease β}

/-- A slot in use can be released. -/
theorem release_isSome (h : s.Sound) (hl : l ∈ s.outstanding) :
    ∃ slots, s.router.slots.release l = some slots := by
  obtain ⟨rest, hrest⟩ := Multiset.exists_cons_of_mem hl
  obtain ⟨slots, hslots, -⟩ := (hrest ▸ h.balanced).release
  exact ⟨slots, hslots⟩

variable [Float64 F] (c : Config β)

/-- **No call is stuck.** A waiter that is done and has not returned has a step
to take: its receive does not block and its release does not panic. -/
theorem goes_on (h : s.Sound) (hw : s.waiters[w]? = some wt) (hdone : wt.done = true)
    (hphase : ¬ wt.phase.Ended) :
    ∃ a ∈ [Step.receive w, .leave w, .drain w, .discard w], (s.step c a).isSome = true := by
  have hsound := h.wired.waiter w wt hw
  unfold Waiter.Sound Waiter.Completed at hsound
  rw [hdone] at hsound
  cases hp : wt.phase with
  | waiting =>
    obtain ⟨res, hresult, -⟩ : ∃ res, wt.result = [res] ∧ wt.sent = [res] := by
      simpa [hp] using hsound
    exact ⟨.receive w, by simp, by simp [State.step, hw, hp, hresult]⟩
  | leaving why => exact ⟨.leave w, by simp, by simp [State.step, hw, hp]⟩
  | draining why =>
    obtain ⟨res, hresult, -⟩ : ∃ res, wt.result = [res] ∧ wt.sent = [res] := by
      simpa [hp] using hsound
    exact ⟨.drain w, by simp, by simp [State.step, hw, hp, hresult]⟩
  | releasing l =>
    obtain ⟨slots, hslots⟩ := h.release_isSome (mem_outstanding_of_releasing hw hp)
    exact ⟨.discard w, by simp, by simp [State.step, hw, hp, hslots]⟩
  | returned | timedOut | canceled =>
    rw [hp] at hphase
    exact absurd trivial hphase

end Sound

end State

/-! ### Every reachable state -/

section

variable [DecidableEq β] [Float64 F]

/-- The leases of a state are accounted for. -/
structure State.Accounted (c : Config β) (s : State β F) : Prop where
  /-- A waiter is completed at most once. -/
  once : ∀ (w : Nat) (wt : Waiter β F), s.waiters[w]? = some wt → wt.sent.length ≤ 1
  /-- A lease sent to a waiter is with its call, or was returned or released by it. -/
  leaseAt : ∀ (w : Nat) (wt : Waiter β F), s.waiters[w]? = some wt →
    ∀ l, .lease l ∈ wt.sent → wt.LeaseAt l
  /-- A lease released by a cancelled call is not outstanding. -/
  released : ∀ (w : Nat) (wt : Waiter β F), s.waiters[w]? = some wt →
    ∀ l, wt.phase = .canceled (some l) → l ∉ s.outstanding
  /-- A call whose waiter is done comes to return or release. -/
  goesOn : ∀ (w : Nat) (wt : Waiter β F), s.waiters[w]? = some wt → wt.done = true →
    ¬ wt.phase.Ended →
      ∃ a ∈ [Step.receive w, .leave w, .drain w, .discard w], (s.step c a).isSome = true
  /-- A waiter is in its model's queue, once, exactly while it is not done. -/
  queued : ∀ (w : Nat) (m : String), w ∈ s.queue m ↔
    ∃ wt, s.waiters[w]? = some wt ∧ wt.req.model = m ∧ wt.done = false
  nodup : ∀ m, (s.queue m).Nodup
  /-- The slots in use are those of the leases held or in a channel. -/
  inFlight : ∀ b, s.router.slots.inFlight b =
    s.heldByCallers.countP (Lease.on b) + s.inChannels.countP (Lease.on b)
  reservations : ∀ key, (s.router.slots.reservations key : Multiset Reservation) =
    s.heldByCallers.filterMap (Lease.resAt key) + s.inChannels.filterMap (Lease.resAt key)
  /-- No lease is in two places. -/
  distinct : ((s.heldByCallers + s.inChannels).map Lease.id).Nodup

/-- **Accounting.** In every state the router reaches, no lease is lost or
duplicated. -/
theorem run_accounted {c : Config β} {s : State β F} {steps : List (Step β F)}
    (hrun : Lib.run (State.step c) State.new steps = some s) : s.Accounted c := by
  have h : s.Sound := State.Sound.new.run hrun
  have hbalanced := h.balanced
  rw [State.outstanding_eq] at hbalanced
  refine
    { once := fun w wt hw => (h.wired.waiter w wt hw).sent_length_le
      leaseAt := fun w wt hw l hl => (h.wired.waiter w wt hw).leaseAt hl
      released := fun w wt hw l hl => (h.gone w l ⟨wt, hw, hl⟩).2
      goesOn := fun w wt hw => h.goes_on c hw
      queued := h.wired.queued
      nodup := h.wired.nodup
      inFlight := ?_
      reservations := ?_
      distinct := hbalanced.nodup }
  · intro b
    rw [hbalanced.inFlight b, Multiset.countP_add, Nat.cast_add]
  · intro key
    rw [hbalanced.reservations key, Multiset.filterMap_add]

end

/-! ### A race

One backend with one slot. A queued request's context ends, the slot is freed and
dispatched to it, and only then does its call leave. -/

def oneSlotEnv : Env Unit ℚ where
  backends _ := some ([()], true)
  healthy _ := true
  slots _ := 1
  addr _ := "127.0.0.1:8001"
  reports := []
  localScore _ := none
  localImages _ := .unknown
  localKVShare _ := none
  draw _ := ⟨0, 0, 0, 0, 0, fun _ => 0⟩
  order _ := []

def oneSlotConfig : Config Unit where
  self := "a"
  staleAfter := 100
  queueMax := 4
  performance := false
  backendID _ := "a-0"

/-- The lease dispatched to the cancelled call. -/
def secondLease : Lease Unit where
  id := 1
  target := { isLocal := true, node := "a", backendID := "a-0", addr := "127.0.0.1:8001" }
  took := .backend ()

def cancelRace : List (Step Unit ℚ) :=
  [.pick oneSlotEnv { model := "m", estK := 0 }, .acquire oneSlotEnv { model := "m", estK := 0 },
    .fire 0 .ctx, .release 0, .dispatch oneSlotEnv, .leave 0, .drain 0, .discard 0]

/-- The cancelled call gives the lease back. -/
theorem run_accounted_cancel_race :
    ∃ (s : State Unit ℚ) (wt : Waiter Unit ℚ),
      Lib.run (State.step oneSlotConfig) State.new cancelRace = some s ∧
      s.waiters[0]? = some wt ∧ wt.sent = [.lease secondLease] ∧
      wt.phase = .canceled (some secondLease) ∧ secondLease ∉ s.outstanding := by
  have hrun : ((Lib.run (State.step oneSlotConfig) State.new cancelRace).bind
      fun s => s.waiters[0]?.map fun wt => (wt.sent, wt.phase)) =
      some ([.lease secondLease], .canceled (some secondLease)) := by
    decide +kernel
  obtain ⟨s, hs, hwt⟩ := Option.bind_eq_some_iff.1 hrun
  obtain ⟨wt, hw, heq⟩ := Option.map_eq_some_iff.1 hwt
  obtain ⟨hsent, hphase⟩ := Prod.mk.inj heq
  exact ⟨s, wt, hs, hw, hsent, hphase, (run_accounted hs).released 0 wt hw _ hphase⟩

end Viiwork.Route

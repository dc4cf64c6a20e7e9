import Viiwork.Route.PickSpec
import Viiwork.Route.Acquire

/-!
# Viiwork.Route.Ledger

The abstract side of the slots: the multiset of **outstanding leases**. The
router keeps no such list. It keeps a count for each backend and a list of
reservations for each peer, and `Balanced` says that these are the account of
the outstanding leases: a slot taken adds one lease to it, a slot released takes
that lease away, and nothing else moves it.
-/

namespace Viiwork.Route

open Multiset Function

variable {β F : Type}

/-- The lease's reservation with the peer, if that is what it took. -/
def Lease.resAt (key : ResKey) (l : Lease β) : Option Reservation :=
  match l.took with
  | .backend _ => none
  | .peer k res => if k = key then some res else none

/-- The lease's slot is one of the backend's. -/
def Lease.on (b : β) (l : Lease β) : Prop := l.took = .backend b

namespace Lease

variable {l : Lease β} {key : ResKey} {res : Reservation}

theorem resAt_backend {b : β} (h : l.took = .backend b) (key : ResKey) : l.resAt key = none := by
  simp only [resAt, h]

theorem resAt_peer (h : l.took = .peer key res) : l.resAt key = some res := by
  simp only [resAt, h, if_true]

theorem resAt_peer_ne {key' : ResKey} (h : l.took = .peer key res) (hne : key' ≠ key) :
    l.resAt key' = none := by
  simp only [resAt, h, if_neg (Ne.symm hne)]

end Lease

variable {l : Lease β} {n : Nat}

theorem nodup_cons_of_fresh {leases : Multiset (Lease β)} (hfresh : ∀ l ∈ leases, l.id < n)
    (hnodup : (leases.map Lease.id).Nodup) (hl : l.id = n) :
    ((l ::ₘ leases).map Lease.id).Nodup := by
  rw [map_cons, nodup_cons]
  refine ⟨?_, hnodup⟩
  intro hmem
  obtain ⟨l', hl', hid⟩ := mem_map.1 hmem
  have := hfresh l' hl'
  omega

theorem fresh_cons {leases : Multiset (Lease β)} (hfresh : ∀ l ∈ leases, l.id < n) (hl : l.id = n) :
    ∀ l' ∈ l ::ₘ leases, l'.id < n + 1 := by
  intro l' hl'
  rcases mem_cons.1 hl' with rfl | hl'
  · omega
  · have := hfresh l' hl'
    omega

variable [DecidableEq β]

instance (b : β) : DecidablePred (Lease.on b) := fun l =>
  inferInstanceAs (Decidable (l.took = .backend b))

/-- **Balance.** The in-flight counts and the reservation lists are those of the
leases, and the leases are distinct objects. -/
structure Balanced (slots : Slots β) (leases : Multiset (Lease β)) : Prop where
  inFlight : ∀ b, slots.inFlight b = leases.countP (Lease.on b)
  reservations : ∀ key, (slots.reservations key : Multiset Reservation) =
    leases.filterMap (Lease.resAt key)
  fresh : ∀ l ∈ leases, l.id < slots.nextId
  nodup : (leases.map Lease.id).Nodup

namespace Balanced

variable {slots slots' : Slots β} {leases : Multiset (Lease β)} {l : Lease β}

theorem empty : Balanced (Router.new (β := β)).slots 0 where
  inFlight _ := rfl
  reservations _ := rfl
  fresh _ h := absurd h (notMem_zero _)
  nodup := by simp

theorem takeBackend (h : Balanced slots leases) (c : Config β) (env : Env β F) (b : β) :
    Balanced (takeBackend c env slots b).1 ((Route.takeBackend c env slots b).2 ::ₘ leases) where
  inFlight b' := by
    rw [countP_cons, Nat.cast_add, ← h.inFlight b']
    by_cases hb : b' = b
    · subst hb
      simp [Route.takeBackend, Lease.on]
    · have hne : ¬ Took.backend b = Took.backend b' := fun heq => hb (Took.backend.inj heq).symm
      simp [Route.takeBackend, Lease.on, update_of_ne hb, hne]
  reservations key := by
    rw [filterMap_cons_none _ _ (by rfl)]
    exact h.reservations key
  fresh := fresh_cons h.fresh rfl
  nodup := nodup_cons_of_fresh h.fresh h.nodup rfl

theorem peerLease (h : Balanced slots leases) (rep : Report) (model : String) (now : Int) :
    Balanced (peerLease slots rep model now).1 ((Route.peerLease slots rep model now).2 ::ₘ leases)
    where
  inFlight b := by
    rw [countP_cons_of_neg _ (by simp [Lease.on, Route.peerLease])]
    exact h.inFlight b
  reservations key := by
    by_cases hkey : key = ⟨rep.node, model⟩
    · subst hkey
      have hres : Lease.resAt ⟨rep.node, model⟩ (Route.peerLease slots rep model now).2 =
          some ⟨slots.nextId, now⟩ := by simp [Lease.resAt, Route.peerLease]
      rw [filterMap_cons_some _ _ _ hres, ← h.reservations]
      simp [Route.peerLease, ← coe_add, add_comm]
    · have hres : Lease.resAt key (Route.peerLease slots rep model now).2 = none := by
        simp [Lease.resAt, Route.peerLease, Ne.symm hkey]
      rw [filterMap_cons_none _ _ hres, ← h.reservations]
      simp [Route.peerLease, update_of_ne hkey]
  fresh := fresh_cons h.fresh rfl
  nodup := nodup_cons_of_fresh h.fresh h.nodup rfl

/-- A slot taken adds the lease. -/
theorem takes {c : Config β} {env : Env β F} {d : Draw F} {req : Request F} {backends : List β}
    {reports : List Report} (h : Balanced slots leases)
    (ht : Takes c env d req backends reports slots slots' l) : Balanced slots' (l ::ₘ leases) := by
  cases ht with
  | backend b _ => exact h.takeBackend c env b
  | peer rep mc now _ _ _ => exact h.peerLease rep req.model now

omit [DecidableEq β] in
theorem nodup_of_cons (h : ((l ::ₘ leases).map Lease.id).Nodup) :
    (leases.map Lease.id).Nodup := by
  rw [map_cons, nodup_cons] at h
  exact h.2

theorem release_backend {b : β} (h : Balanced slots (l ::ₘ leases)) (hl : l.took = .backend b) :
    ∃ slots', slots.release l = some slots' ∧ Balanced slots' leases ∧
      slots'.nextId = slots.nextId := by
  have hb := h.inFlight b
  rw [countP_cons_of_pos _ (show l.on b from hl), Nat.cast_succ] at hb
  -- The lease itself is counted, so the count is at least one.
  have hpos : ¬ slots.inFlight b - 1 < 0 := by omega
  unfold Slots.release
  rw [hl]
  dsimp only
  rw [if_neg hpos]
  refine ⟨_, rfl, ⟨?_, ?_, fun l' hl' => h.fresh l' (mem_cons_of_mem hl'),
    nodup_of_cons h.nodup⟩, rfl⟩
  · intro b'
    show update slots.inFlight b (slots.inFlight b - 1) b' = _
    by_cases hb' : b' = b
    · subst hb'
      rw [update_self]
      omega
    · have hoff : ¬ l.on b' := fun hon => hb' (Took.backend.inj (hl.symm.trans hon)).symm
      rw [update_of_ne hb', h.inFlight b', countP_cons_of_neg _ hoff]
  · intro key
    rw [h.reservations key, filterMap_cons_none _ _ (Lease.resAt_backend hl key)]

theorem release_peer {key : ResKey} {res : Reservation} (h : Balanced slots (l ::ₘ leases))
    (hl : l.took = .peer key res) :
    ∃ slots', slots.release l = some slots' ∧ Balanced slots' leases ∧
      slots'.nextId = slots.nextId := by
  unfold Slots.release
  rw [hl]
  refine ⟨_, rfl, ⟨?_, ?_, fun l' hl' => h.fresh l' (mem_cons_of_mem hl'),
    nodup_of_cons h.nodup⟩, rfl⟩
  · intro b
    have hoff : ¬ l.on b := fun hon => Took.noConfusion rfl (heq_of_eq (hl.symm.trans hon))
    rw [h.inFlight b, countP_cons_of_neg _ hoff]
  · intro key'
    show ((update slots.reservations key ((slots.reservations key).erase res) key' :
      List Reservation) : Multiset Reservation) = _
    have hkey := h.reservations key'
    by_cases heq : key' = key
    · subst heq
      rw [filterMap_cons_some _ _ _ (Lease.resAt_peer hl)] at hkey
      rw [update_self, ← coe_erase, hkey, erase_cons_head]
    · rw [filterMap_cons_none _ _ (Lease.resAt_peer_ne hl heq)] at hkey
      rw [update_of_ne heq, hkey]

/-- **Release.** The slot of an outstanding lease can be released, and that takes
the lease away. In particular a backend's count never falls below zero. -/
theorem release (h : Balanced slots (l ::ₘ leases)) :
    ∃ slots', slots.release l = some slots' ∧ Balanced slots' leases ∧
      slots'.nextId = slots.nextId := by
  cases hl : l.took with
  | backend b => exact h.release_backend hl
  | peer key res => exact h.release_peer hl

end Balanced

/-- The lease existed and is not outstanding any more. -/
def Gone (slots : Slots β) (leases : Multiset (Lease β)) (l : Lease β) : Prop :=
  l.id < slots.nextId ∧ l ∉ leases

namespace Gone

variable {slots slots' : Slots β} {leases : Multiset (Lease β)} {l l' : Lease β}

/-- A new lease is another one. -/
theorem takes {c : Config β} {env : Env β F} {d : Draw F} {req : Request F} {backends : List β}
    {reports : List Report} (h : Gone slots leases l')
    (ht : Takes c env d req backends reports slots slots' l) : Gone slots' (l ::ₘ leases) l' := by
  have hids : l.id = slots.nextId ∧ slots'.nextId = slots.nextId + 1 := by
    cases ht <;> exact ⟨rfl, rfl⟩
  refine ⟨?_, ?_⟩
  · have := h.1
    omega
  · intro hmem
    rcases mem_cons.1 hmem with rfl | hmem
    · have := h.1
      omega
    · exact h.2 hmem

omit [DecidableEq β] in
theorem of_cons (h : Gone slots (l ::ₘ leases) l') (hid : slots'.nextId = slots.nextId) :
    Gone slots' leases l' :=
  ⟨hid ▸ h.1, fun hmem => h.2 (mem_cons_of_mem hmem)⟩

/-- A lease taken away is gone: no other lease is the same object. -/
theorem of_balanced (h : Balanced slots (l ::ₘ leases)) (hid : slots'.nextId = slots.nextId) :
    Gone slots' leases l := by
  refine ⟨hid ▸ h.fresh l (mem_cons_self l leases), ?_⟩
  intro hmem
  have hnodup := h.nodup
  rw [map_cons, nodup_cons] at hnodup
  exact hnodup.1 (mem_map_of_mem Lease.id hmem)

end Gone

/-! ### The outstanding leases of a state -/

section Outstanding

omit [DecidableEq β]

/-- The leases among results. -/
def leasesOf (results : List (WaitResult β)) : List (Lease β) :=
  results.filterMap fun
    | .lease l => some l
    | .err _ => none

/-- The lease a waiter received and is about to release. -/
def Phase.lease : Phase β → Multiset (Lease β)
  | .releasing l => {l}
  | _ => 0

/-- The leases in the waiter's hands: in its channel, or received and about to be
released. -/
def Waiter.leases (wt : Waiter β F) : Multiset (Lease β) :=
  ↑(leasesOf wt.result) + wt.phase.lease

/-- Every lease not yet released: held by callers, or on its way to one. -/
def State.outstanding (s : State β F) : Multiset (Lease β) :=
  ↑s.held + (s.waiters.map Waiter.leases).sum

/-- Replacing one entry moves a sum by what the entries differ in. -/
theorem sum_map_set {α M : Type*} [AddCommMonoid M] (f : α → M) (b : α) :
    ∀ {as : List α} {i : Nat} {a : α}, as[i]? = some a →
      ((as.set i b).map f).sum + f a = (as.map f).sum + f b
  | a' :: as, 0, a, h => by
      cases h
      simp only [List.set_cons_zero, List.map_cons, List.sum_cons]
      abel
  | a' :: as, i + 1, a, h => by
      have htail : as[i]? = some a := h
      simp only [List.set_cons_succ, List.map_cons, List.sum_cons, add_assoc]
      rw [sum_map_set f b htail]

namespace State

variable {s : State β F} {w : Nat} {wt wt' : Waiter β F}

@[simp] theorem outstanding_hold (s : State β F) (l : Lease β) :
    (s.hold l).outstanding = l ::ₘ s.outstanding := by
  simp only [outstanding, hold, ← cons_coe, cons_add]

theorem outstanding_enqueue (s : State β F) (hwt : wt.leases = 0) :
    (s.enqueue wt).outstanding = s.outstanding := by
  simp [outstanding, enqueue, hwt]

variable (hw : s.waiters[w]? = some wt)
include hw

/-- A waiter changed: the outstanding leases change by its own. -/
theorem outstanding_setWaiter (wt' : Waiter β F) :
    (s.setWaiter w wt').outstanding + wt.leases = s.outstanding + wt'.leases := by
  rw [outstanding, outstanding, add_assoc, add_assoc]
  exact congrArg _ (sum_map_set Waiter.leases wt' hw)

/-- A waiter that keeps its leases leaves the outstanding ones alone. -/
theorem outstanding_setWaiter_of_eq (h : wt'.leases = wt.leases) :
    (s.setWaiter w wt').outstanding = s.outstanding := by
  have hset := outstanding_setWaiter hw wt'
  rw [h] at hset
  exact add_right_cancel hset

variable {l : Lease β}

/-- A waiter that gains a lease adds it. -/
theorem outstanding_setWaiter_gain (h : wt'.leases = l ::ₘ wt.leases) :
    (s.setWaiter w wt').outstanding = l ::ₘ s.outstanding := by
  have hset := outstanding_setWaiter hw wt'
  rw [h, add_cons, ← cons_add] at hset
  exact add_right_cancel hset

/-- A waiter that loses a lease takes it away. -/
theorem outstanding_setWaiter_lose (h : wt.leases = l ::ₘ wt'.leases) :
    l ::ₘ (s.setWaiter w wt').outstanding = s.outstanding := by
  have hset := outstanding_setWaiter hw wt'
  rw [h, add_cons, ← cons_add] at hset
  exact add_right_cancel hset

end State

end Outstanding

end Viiwork.Route

import Viiwork.Lib.Run

/-!
# Viiwork.Supervisor.LoadGate

The load gate (`loadgate.go`): one backend of the node loads at a time, in the order in
which the load tickets were enqueued.

Tickets are numbered as they are enqueued. `enqueue` and `release` run under the gate's
mutex and are one step each. A `wait` ends in one of two ways: it finds its channel closed,
or its context has ended and it releases the ticket, whether or not the ticket was granted
in the meantime; the release is the step.
-/

namespace Viiwork.Supervisor

open Viiwork.Lib List

structure LoadGate where
  holder : Option Nat
  queue : List Nat
  /-- The tickets whose channel is closed, in the order of closing. -/
  granted : List Nat
  /-- The tickets that were released or left the queue. -/
  done : List Nat
  /-- How many tickets there are. -/
  tickets : Nat
  deriving Repr, DecidableEq

namespace LoadGate

/-- `newLoadGate`. -/
def new : LoadGate := ⟨none, [], [], [], 0⟩

def grantLocked (g : LoadGate) : LoadGate :=
  match g.holder, g.queue with
  | none, t :: rest => { g with holder := some t, queue := rest, granted := g.granted ++ [t] }
  | _, _ => g

/-- `enqueue`; the new ticket is `g.tickets`. -/
def enqueue (g : LoadGate) : LoadGate :=
  { g with queue := g.queue ++ [g.tickets], tickets := g.tickets + 1 }.grantLocked

def release (g : LoadGate) (t : Nat) : LoadGate :=
  if t ∈ g.done then g
  else
    let g := { g with done := t :: g.done }
    if g.holder = some t then { g with holder := none }.grantLocked
    else { g with queue := g.queue.erase t }

/-- What callers do with the gate and its tickets. -/
inductive Act
  | enqueue
  /-- `wait` returns nil. -/
  | waited (t : Nat)
  /-- `wait` returns its context's error. -/
  | cancelled (t : Nat)
  | release (t : Nat)
  deriving Repr, DecidableEq

def step (g : LoadGate) : Act → Option LoadGate
  | .enqueue => some g.enqueue
  | .waited t => if t ∈ g.granted then some g else none
  | .cancelled t | .release t => if t < g.tickets then some (g.release t) else none

/-! ### The invariant -/

/-- **Every ticket is in one place.** Granted tickets come before queued ones, both in the
order of their numbers; what is neither holding nor queued is done. -/
structure Placed (g : LoadGate) : Prop where
  /-- Granted, then queued: in enqueue order, nothing twice. -/
  order : (g.granted ++ g.queue).Pairwise (· < ·)
  bound : ∀ t ∈ g.granted ++ g.queue, t < g.tickets
  /-- A granted ticket that is not done holds the gate, and only such a one. -/
  holding : ∀ t, g.holder = some t ↔ t ∈ g.granted ∧ t ∉ g.done
  queued : ∀ t ∈ g.queue, t ∉ g.done
  /-- Who was passed over has left. -/
  left : ∀ t < g.tickets, t ∈ g.granted ++ g.queue ∨ t ∈ g.done
  doneBound : ∀ t ∈ g.done, t < g.tickets

/-- The invariant between steps: the gate is not free while a ticket is queued. -/
structure Sound (g : LoadGate) : Prop extends Placed g where
  free : g.holder = none → g.queue = []

theorem sound_new : new.Sound where
  order := .nil
  bound := by simp [new]
  holding := by simp [new]
  queued := by simp [new]
  left := by simp [new]
  doneBound := by simp [new]
  free _ := rfl

variable {g g' : LoadGate} {t : Nat} {a : Act}

/-- A grant closes the gap. -/
theorem Placed.grantLocked (h : g.Placed) : g.grantLocked.Sound := by
  unfold LoadGate.grantLocked
  split
  · next t rest hholder hqueue =>
      have hsame : g.granted ++ [t] ++ rest = g.granted ++ g.queue := by simp [hqueue]
      refine ⟨⟨?_, ?_, fun u => ?_, fun u hu => ?_, ?_, h.doneBound⟩, fun hno => ?_⟩
      · rw [hsame]
        exact h.order
      · rw [hsame]
        exact h.bound
      · -- nobody held the gate, so every granted ticket was done
        have hnone : ∀ v, v ∈ g.granted → v ∈ g.done := by
          intro v hv
          by_contra hnd
          have := (h.holding v).2 ⟨hv, hnd⟩
          rw [hholder] at this
          cases this
        have ht : t ∉ g.done := h.queued t (by simp [hqueue])
        constructor
        · intro heq
          cases heq
          exact ⟨by simp, ht⟩
        · rintro ⟨hu, hnd⟩
          rcases mem_append.1 hu with hu | hu
          · exact absurd (hnone u hu) hnd
          · rw [mem_singleton.1 hu]
      · exact h.queued u (by simp [hqueue, hu])
      · rw [hsame]
        exact h.left
      · cases hno
  · next hno =>
      refine ⟨h, fun hfree => ?_⟩
      cases hq : g.queue with
      | nil => rfl
      | cons t rest => exact absurd hq (hno t rest hfree)

theorem Sound.enqueue (h : g.Sound) : g.enqueue.Sound := by
  refine Placed.grantLocked ⟨?_, ?_, h.holding, ?_, ?_, ?_⟩
  · show (g.granted ++ (g.queue ++ [g.tickets])).Pairwise (· < ·)
    rw [← append_assoc, pairwise_append]
    refine ⟨h.order, pairwise_singleton _ _, fun t ht u hu => ?_⟩
    rw [mem_singleton.1 hu]
    exact h.bound t ht
  · intro t ht
    show t < g.tickets + 1
    rw [← append_assoc] at ht
    rcases mem_append.1 ht with ht | ht
    · exact (h.bound t ht).trans (Nat.lt_succ_self _)
    · rw [mem_singleton.1 ht]
      exact Nat.lt_succ_self _
  · intro t ht
    rcases mem_append.1 ht with ht | ht
    · exact h.queued t ht
    · rw [mem_singleton.1 ht]
      exact fun hd => absurd (h.doneBound _ hd) (lt_irrefl _)
  · intro t (ht : t < g.tickets + 1)
    show t ∈ g.granted ++ (g.queue ++ [g.tickets]) ∨ t ∈ g.done
    rw [← append_assoc, mem_append]
    rcases Nat.lt_succ_iff_lt_or_eq.1 ht with ht | rfl
    · exact (h.left t ht).imp_left .inl
    · exact .inl (.inr mem_cons_self)
  · exact fun t ht => (h.doneBound t ht).trans (Nat.lt_succ_self _)

/-- Whoever releases, nothing else changes place. -/
theorem Sound.release (h : g.Sound) (ht : t < g.tickets) : (g.release t).Sound := by
  have hnodup : (g.granted ++ g.queue).Nodup := h.order.imp fun hlt => hlt.ne
  have hqnodup : g.queue.Nodup := (nodup_append.1 hnodup).2.1
  have hdoneBound : ∀ u ∈ t :: g.done, u < g.tickets := by
    intro u hu
    rcases mem_cons.1 hu with rfl | hu
    · exact ht
    · exact h.doneBound u hu
  simp only [LoadGate.release]
  split_ifs with hdone hheld
  · exact h
  · -- the holder leaves: it is granted, so not queued
    have hgranted : t ∈ g.granted := ((h.holding t).1 hheld).1
    refine Placed.grantLocked ⟨h.order, h.bound, fun u => ?_, fun u hu => ?_, fun u hu => ?_,
      hdoneBound⟩
    · constructor
      · intro heq
        cases heq
      · rintro ⟨hu, hnd⟩
        rw [mem_cons, not_or] at hnd
        have hsame := (h.holding u).2 ⟨hu, hnd.2⟩
        rw [hheld] at hsame
        exact absurd (Option.some.inj hsame).symm hnd.1
    · have hne : u ≠ t := by
        rintro rfl
        exact (nodup_append.1 hnodup).2.2 u hgranted u hu rfl
      rw [mem_cons, not_or]
      exact ⟨hne, h.queued u hu⟩
    · exact (h.left u hu).imp_right (mem_cons_of_mem t)
  · -- a queued ticket leaves, or one that was never in the queue again
    have hngranted : t ∉ g.granted := fun hg => hheld ((h.holding t).2 ⟨hg, hdone⟩)
    refine ⟨⟨?_, ?_, fun u => ?_, fun u hu => ?_, fun u hu => ?_, hdoneBound⟩, fun hfree => ?_⟩
    · exact h.order.sublist (List.Sublist.append_left erase_sublist _)
    · intro u hu
      refine h.bound u ?_
      rcases mem_append.1 hu with hu | hu
      · exact mem_append_left _ hu
      · exact mem_append_right _ (mem_of_mem_erase hu)
    · rw [mem_cons, not_or]
      constructor
      · intro heq
        obtain ⟨hu, hnd⟩ := (h.holding u).1 heq
        exact ⟨hu, fun hut => hngranted (hut ▸ hu), hnd⟩
      · rintro ⟨hu, -, hnd⟩
        exact (h.holding u).2 ⟨hu, hnd⟩
    · obtain ⟨hne, hmem⟩ := (List.Nodup.mem_erase_iff hqnodup).1 hu
      rw [mem_cons, not_or]
      exact ⟨hne, h.queued u hmem⟩
    · by_cases hut : u = t
      · exact .inr (hut ▸ mem_cons_self)
      · refine (h.left u hu).imp (fun hu => ?_) (mem_cons_of_mem t)
        rcases mem_append.1 hu with hu | hu
        · exact mem_append_left _ hu
        · exact mem_append_right _ ((mem_erase_of_ne hut).2 hu)
    · show g.queue.erase t = []
      rw [h.free hfree]
      rfl

theorem step_eq_some (h : g.step a = some g') :
    (a = .enqueue ∧ g' = g.enqueue) ∨ (∃ t ∈ g.granted, a = .waited t ∧ g' = g) ∨
      ∃ t < g.tickets, (a = .cancelled t ∨ a = .release t) ∧ g' = g.release t := by
  cases a with
  | enqueue => exact .inl ⟨rfl, (Option.some.inj h).symm⟩
  | waited t =>
    rw [step] at h
    split_ifs at h with ht
    exact .inr (.inl ⟨t, ht, rfl, (Option.some.inj h).symm⟩)
  | cancelled t =>
    rw [step] at h
    split_ifs at h with ht
    exact .inr (.inr ⟨t, ht, .inl rfl, (Option.some.inj h).symm⟩)
  | release t =>
    rw [step] at h
    split_ifs at h with ht
    exact .inr (.inr ⟨t, ht, .inr rfl, (Option.some.inj h).symm⟩)

theorem Sound.step (h : g.Sound) (hstep : g.step a = some g') : g'.Sound := by
  rcases step_eq_some hstep with ⟨-, rfl⟩ | ⟨t, -, -, rfl⟩ | ⟨t, ht, -, rfl⟩
  · exact h.enqueue
  · exact h
  · exact h.release ht

theorem Sound.run {acts : List Act} (h : g.Sound) (hrun : run LoadGate.step g acts = some g') :
    g'.Sound :=
  run_invariant LoadGate.step (P := fun _ _ => True) (fun _ _ _ hg _ hs => hg.step hs) h
    (runMeets_true LoadGate.step acts g) hrun

/-! ### Who left is not granted -/

/-- The ticket is done without having been granted. -/
def LeftEarly (t : Nat) (g : LoadGate) : Prop := t ∈ g.done ∧ t ∉ g.granted

/-- Only a queued ticket is granted. -/
theorem mem_granted_grantLocked (h : t ∈ g.grantLocked.granted) : t ∈ g.granted ∨ t ∈ g.queue := by
  unfold grantLocked at h
  split at h
  · next u rest _ hqueue =>
      rcases mem_append.1 h with h | h
      · exact .inl h
      · exact .inr (by rw [hqueue, mem_singleton.1 h]; exact mem_cons_self)
  · exact .inl h

@[simp] theorem done_grantLocked (g : LoadGate) : g.grantLocked.done = g.done := by
  unfold grantLocked
  split <;> rfl

theorem Sound.leftEarly_step (h : g.Sound) (hleft : LeftEarly t g) (hstep : g.step a = some g') :
    LeftEarly t g' := by
  obtain ⟨hdone, hngranted⟩ := hleft
  have hnqueue : t ∉ g.queue := fun hq => h.queued t hq hdone
  rcases step_eq_some hstep with ⟨-, rfl⟩ | ⟨u, -, -, rfl⟩ | ⟨u, hu, -, rfl⟩
  · refine ⟨by simpa [LoadGate.enqueue] using hdone, fun hg => ?_⟩
    rcases mem_granted_grantLocked hg with hg | hg
    · exact hngranted hg
    · rcases mem_append.1 hg with hg | hg
      · exact hnqueue hg
      · exact absurd (h.doneBound t hdone) (by simp [mem_singleton.1 hg])
  · exact ⟨hdone, hngranted⟩
  · simp only [LoadGate.release]
    split_ifs
    · exact ⟨hdone, hngranted⟩
    · refine ⟨by simp [hdone], fun hg => ?_⟩
      rcases mem_granted_grantLocked hg with hg | hg
      · exact hngranted hg
      · exact hnqueue hg
    · exact ⟨mem_cons_of_mem u hdone, hngranted⟩

/-- **The load gate.** In every interleaving of enqueues, waits, cancelled waits and
releases: at most one granted ticket is not done, and it is the holder; a ticket that is not
done holds the gate or is in the queue exactly once; the gate is free only with an empty
queue; tickets are granted in the order they were enqueued, each once, and of those before
a granted one, every other was granted or has left; and a ticket that left early is never
granted afterwards. -/
theorem gate_exclusive_and_fair {acts : List Act} {g : LoadGate}
    (hrun : run LoadGate.step new acts = some g) :
    (∀ t, t ∈ g.granted ∧ t ∉ g.done ↔ g.holder = some t) ∧
      (∀ t < g.tickets, t ∉ g.done →
        (g.holder = some t ∧ g.queue.count t = 0) ∨ (g.holder ≠ some t ∧ g.queue.count t = 1)) ∧
      (g.holder = none → g.queue = []) ∧
      g.granted.Pairwise (· < ·) ∧
      (∀ t ∈ g.granted, ∀ u < t, u ∈ g.granted ∨ u ∈ g.done) ∧
      ∀ t, LeftEarly t g → ∀ acts' g', run LoadGate.step g acts' = some g' → t ∉ g'.granted := by
  have h := sound_new.run hrun
  obtain ⟨hgranted, hqueue, hbefore⟩ := pairwise_append.1 h.order
  have hqnodup : g.queue.Nodup := hqueue.imp fun hlt => hlt.ne
  refine ⟨fun t => (h.holding t).symm, fun t ht hnd => ?_, h.free, hgranted, fun t ht u hu => ?_,
    fun t hleft acts' g' hrun' => ?_⟩
  · rcases h.left t ht with hmem | hdone
    · rcases mem_append.1 hmem with hmem | hmem
      · refine .inl ⟨(h.holding t).2 ⟨hmem, hnd⟩, count_eq_zero.2 fun hq => ?_⟩
        exact lt_irrefl t (hbefore t hmem t hq)
      · refine .inr ⟨fun hheld => ?_, count_eq_one_of_mem hqnodup hmem⟩
        exact lt_irrefl t (hbefore t ((h.holding t).1 hheld).1 t hmem)
    · exact absurd hdone hnd
  · have htb := h.bound t (mem_append_left _ ht)
    rcases h.left u (hu.trans htb) with hmem | hdone
    · rcases mem_append.1 hmem with hmem | hmem
      · exact .inl hmem
      · exact absurd (hbefore t ht u hmem) (not_lt.2 hu.le)
    · exact .inr hdone
  · have hboth := run_invariant LoadGate.step (I := fun g => g.Sound ∧ LeftEarly t g)
      (P := fun _ _ => True) (fun _ _ _ hI _ hs => ⟨hI.1.step hs, hI.1.leftEarly_step hI.2 hs⟩)
      ⟨h, hleft⟩ (runMeets_true LoadGate.step acts' g) hrun'
    exact hboth.2.2

/-- Three tickets; the second is cancelled while queued, the third, granted when the first
is released twice, is cancelled as it is granted. -/
theorem gate_exclusive_and_fair_three :
    ∃ g, run LoadGate.step new [.enqueue, .enqueue, .enqueue, .waited 0, .cancelled 1,
        .release 0, .release 0, .cancelled 2, .enqueue] = some g ∧
      g.granted = [0, 2, 3] ∧ (3 ∈ g.granted ∧ 3 ∉ g.done ↔ g.holder = some 3) ∧
      (∀ t ∈ g.granted, ∀ u < t, u ∈ g.granted ∨ u ∈ g.done) := by
  obtain ⟨g, hg⟩ : ∃ g, run LoadGate.step new [.enqueue, .enqueue, .enqueue, .waited 0,
      .cancelled 1, .release 0, .release 0, .cancelled 2, .enqueue] = some g := ⟨_, rfl⟩
  have hmain := gate_exclusive_and_fair hg
  refine ⟨g, hg, ?_, hmain.1 3, hmain.2.2.2.2.1⟩
  cases hg
  rfl

end LoadGate

end Viiwork.Supervisor

import Viiwork.Route.Dispatch

/-!
# Viiwork.Route.Wiring

**Wiring**: each waiter's channel agrees with where its call is, and the queues
hold exactly the waiters that are not done.

The race between a waiter's timer or context and its dispatch is decided by the
`done` flag, which is read and set under the mutex: a waiter that leaves first is
out of the queue and is never completed, and one that was completed first has its
result in the channel when it leaves.
-/

namespace Viiwork.Route

open List

variable {β F : Type}

/-! ### Wiring -/

/-- The waiter has been completed, with its result still in the channel. -/
def Waiter.Completed (wt : Waiter β F) : Prop :=
  wt.done = true ∧ ∃ res, wt.result = [res] ∧ wt.sent = [res]

/-- The waiter's flag and channel agree with where its call is. -/
def Waiter.Sound (wt : Waiter β F) : Prop :=
  match wt.phase with
  | .waiting | .leaving _ =>
    (wt.done = false ∧ wt.result = [] ∧ wt.sent = []) ∨ wt.Completed
  | .draining _ => wt.Completed
  | .returned res => wt.done = true ∧ wt.result = [] ∧ wt.sent = [res]
  | .timedOut => wt.done = true ∧ wt.result = [] ∧ wt.sent = []
  | .releasing l | .canceled (some l) =>
    wt.done = true ∧ wt.result = [] ∧ wt.sent = [.lease l]
  | .canceled none =>
    wt.done = true ∧ wt.result = [] ∧ (∀ l, .lease l ∉ wt.sent) ∧ wt.sent.length ≤ 1

/-- The waiters are sound, and the queues hold exactly those not done. -/
structure State.Wired (s : State β F) : Prop where
  waiter : ∀ (w : Nat) (wt : Waiter β F), s.waiters[w]? = some wt → wt.Sound
  queued : ∀ w m, w ∈ s.queue m ↔
    ∃ wt, s.waiters[w]? = some wt ∧ wt.req.model = m ∧ wt.done = false
  nodup : ∀ m, (s.queue m).Nodup

namespace State

variable {s : State β F} {w w₁ : Nat} {wt wt₁ : Waiter β F}

theorem getElem?_setWaiter_self (hw : s.waiters[w]? = some wt) (wt' : Waiter β F) :
    (s.setWaiter w wt').waiters[w]? = some wt' :=
  getElem?_set_self (List.getElem?_eq_some_iff.1 hw).1

theorem getElem?_setWaiter_ne (s : State β F) (wt' : Waiter β F) (h : w ≠ w₁) :
    (s.setWaiter w wt').waiters[w₁]? = s.waiters[w₁]? :=
  getElem?_set_ne h

/-- A waiter after the change is the new one or was there before. -/
theorem getElem?_setWaiter_cases {wt' : Waiter β F} (hw : s.waiters[w]? = some wt)
    (h : (s.setWaiter w wt').waiters[w₁]? = some wt₁) :
    (w = w₁ ∧ wt₁ = wt') ∨ (w ≠ w₁ ∧ s.waiters[w₁]? = some wt₁) := by
  by_cases heq : w = w₁
  · subst heq
    rw [getElem?_setWaiter_self hw] at h
    exact .inl ⟨rfl, (Option.some.inj h).symm⟩
  · rw [getElem?_setWaiter_ne s wt' heq] at h
    exact .inr ⟨heq, h⟩

theorem getElem?_enqueue_self (s : State β F) (wt : Waiter β F) :
    (s.enqueue wt).waiters[s.waiters.length]? = some wt :=
  getElem?_concat_length

theorem getElem?_enqueue_ne (s : State β F) (wt : Waiter β F) (h : w₁ ≠ s.waiters.length) :
    (s.enqueue wt).waiters[w₁]? = s.waiters[w₁]? := by
  show (s.waiters ++ [wt])[w₁]? = _
  rcases Nat.lt_or_gt_of_ne h with hlt | hgt
  · exact getElem?_append_left hlt
  · rw [getElem?_eq_none (by simp; omega), getElem?_eq_none (by omega)]

end State

namespace State.Wired

variable {s : State β F} {w : Nat} {wt wt' : Waiter β F}

theorem new : (State.new (β := β) (F := F)).Wired where
  waiter := by simp [State.new]
  queued := by simp [State.new, State.queue]
  nodup := by simp [State.new, State.queue]

variable (h : s.Wired)
include h

/-- Wiring is about the waiters and the queues alone. -/
theorem congr {s' : State β F} (hwaiters : s'.waiters = s.waiters) (hqueues : s'.queues = s.queues) :
    s'.Wired := by
  obtain ⟨rt, queues, waiters, held⟩ := s'
  subst hwaiters hqueues
  exact ⟨h.waiter, h.queued, h.nodup⟩

section

variable (hw : s.waiters[w]? = some wt)
include hw

theorem waiter_setWaiter (hsound : wt'.Sound) :
    ∀ (w₁ : Nat) (wt₁ : Waiter β F), (s.setWaiter w wt').waiters[w₁]? = some wt₁ → wt₁.Sound := by
  intro w₁ wt₁ hw₁
  rcases getElem?_setWaiter_cases hw hw₁ with ⟨-, rfl⟩ | ⟨-, hw₁⟩
  · exact hsound
  · exact h.waiter w₁ wt₁ hw₁

/-- A waiter moves on without touching its flag. -/
theorem setWaiter (hsound : wt'.Sound) (hmodel : wt'.req.model = wt.req.model)
    (hdone : wt'.done = wt.done) :
    (s.setWaiter w wt').Wired where
  waiter := h.waiter_setWaiter hw hsound
  queued w₁ m := by
    rw [State.queue_setWaiter, h.queued]
    by_cases heq : w = w₁
    · subst heq
      simp only [hw, getElem?_setWaiter_self hw, Option.some.injEq, exists_eq_left', hmodel, hdone]
    · rw [getElem?_setWaiter_ne s wt' heq]
  nodup := h.nodup

/-- A queued waiter is known, of that model and not done. -/
theorem of_mem {m : String} (hmem : w ∈ s.queue m) : wt.req.model = m ∧ wt.done = false := by
  obtain ⟨wt₁, hw₁, hwt₁⟩ := (h.queued w m).1 hmem
  rw [hw] at hw₁
  cases hw₁
  exact hwt₁

/-- A waiter is done and out of its queue. -/
theorem finish (hsound : wt'.Sound) (hdone : wt'.done = true) :
    ((s.setWaiter w wt').removeWaiter w wt.req.model).Wired where
  waiter := h.waiter_setWaiter hw hsound
  queued w₁ m := by
    rw [State.queue_removeWaiter, State.queue_setWaiter, State.queue_setWaiter]
    show _ ↔ ∃ wt₁, (s.setWaiter w wt').waiters[w₁]? = some wt₁ ∧ _
    by_cases heq : w = w₁
    · -- Its own entry is gone, and its record is done.
      subst heq
      have hnot : w ∉ (if m = wt.req.model then (s.queue wt.req.model).erase w else s.queue m) := by
        split
        · exact (h.nodup _).not_mem_erase
        · rename_i hm
          exact fun hmem => hm (h.of_mem hw hmem).1.symm
      simp only [hnot, getElem?_setWaiter_self hw, Option.some.injEq, exists_eq_left', hdone,
        Bool.true_eq_false, and_false]
    · rw [getElem?_setWaiter_ne s wt' heq, ← h.queued]
      split
      · rename_i hm
        rw [hm, mem_erase_of_ne (Ne.symm heq)]
      · rfl
  nodup m := by
    rw [State.queue_removeWaiter, State.queue_setWaiter, State.queue_setWaiter]
    split
    · exact (h.nodup _).erase w
    · exact h.nodup m

end

theorem lt_of_mem {m : String} (hmem : w ∈ s.queue m) : w < s.waiters.length := by
  obtain ⟨wt, hw, -⟩ := (h.queued w m).1 hmem
  exact (List.getElem?_eq_some_iff.1 hw).1

/-- A new waiter joins its queue. -/
theorem enqueue (hsound : wt.Sound) (hdone : wt.done = false) :
    (s.enqueue wt).Wired where
  waiter w₁ wt₁ hw₁ := by
    by_cases heq : w₁ = s.waiters.length
    · rw [heq, getElem?_enqueue_self] at hw₁
      cases hw₁
      exact hsound
    · rw [getElem?_enqueue_ne s wt heq] at hw₁
      exact h.waiter w₁ wt₁ hw₁
  queued w₁ m := by
    rw [State.queue_enqueue]
    by_cases heq : w₁ = s.waiters.length
    · subst heq
      have hnot : s.waiters.length ∉ s.queue m := fun hmem => lt_irrefl _ (h.lt_of_mem hmem)
      simp only [getElem?_enqueue_self, Option.some.injEq, exists_eq_left', hdone, and_true]
      split
      · rename_i hm
        simp [hm]
      · rename_i hm
        exact iff_of_false hnot (Ne.symm hm)
    · rw [getElem?_enqueue_ne s wt heq, ← h.queued]
      split
      · simp [heq]
      · rfl
  nodup m := by
    rw [State.queue_enqueue]
    split
    · refine (h.nodup m).append (nodup_singleton _) ?_
      intro w₁ hmem hnew
      rw [mem_singleton] at hnew
      exact lt_irrefl _ (hnew ▸ h.lt_of_mem hmem)
    · exact h.nodup m

end State.Wired

/-! ### The steps of a waiter -/

namespace Waiter.Sound

variable {wt : Waiter β F} {res : WaitResult β} {rest : List (WaitResult β)}

/-- A waiter that is not done still waits or is about to leave, with an empty
channel. -/
theorem of_not_done (h : wt.Sound) (hdone : wt.done = false) :
    (wt.phase = .waiting ∨ ∃ why, wt.phase = .leaving why) ∧ wt.result = [] ∧ wt.sent = [] := by
  unfold Waiter.Sound Waiter.Completed at h
  rw [hdone] at h
  cases hphase : wt.phase with
  | waiting | leaving => simpa [hphase] using h
  | canceled released => cases released <;> simp [hphase] at h
  | draining | returned | timedOut | releasing => simp [hphase] at h

/-- A waiter with a result that still waits or has just left was completed with
it. -/
theorem of_result (h : wt.Sound)
    (hphase : wt.phase = .waiting ∨ ∃ why, wt.phase = .draining why)
    (hresult : wt.result = res :: rest) : wt.done = true ∧ rest = [] ∧ wt.sent = [res] := by
  have hcompleted : wt.Completed := by
    unfold Waiter.Sound at h
    rcases hphase with hphase | ⟨why, hphase⟩
    · rw [hphase] at h
      rcases h with ⟨-, hnil, -⟩ | h
      · rw [hresult] at hnil
        cases hnil
      · exact h
    · rwa [hphase] at h
  obtain ⟨hdone, res', hres', hsent⟩ := hcompleted
  rw [hresult] at hres'
  cases hres'
  exact ⟨hdone, rfl, hsent⟩

/-- Completing a waiter that is not done. -/
theorem complete (h : wt.Sound) (hdone : wt.done = false) (res : WaitResult β) :
    ({ wt with done := true, result := wt.result ++ [res], sent := wt.sent ++ [res] } :
      Waiter β F).Sound := by
  obtain ⟨hphase, hresult, hsent⟩ := h.of_not_done hdone
  unfold Waiter.Sound Waiter.Completed
  rcases hphase with hphase | ⟨why, hphase⟩ <;> simp [hphase, hresult, hsent]

end Waiter.Sound

/-- A queued waiter's turn keeps the wiring. -/
theorem State.Wired.attempt [DecidableEq β] [Float64 F] {s : State β F} {w : Nat}
    {wt : Waiter β F} {m : String} (h : s.Wired) (hw : s.waiters[w]? = some wt)
    (hmem : w ∈ s.queue m) (c : Config β) (env : Env β F) (d : Draw F) (reports : List Report) :
    (Route.attempt c env d reports w wt s).1.Wired := by
  have hdone := (h.of_mem hw hmem).2
  have hcomplete : ∀ rt res, ((s.setRouter rt).complete w wt res).Wired := fun rt res =>
    State.Wired.finish (s := s.setRouter rt) (h.congr rfl rfl) hw
      ((h.waiter w wt hw).complete hdone res) rfl
  rcases attempt_cases c env d reports w wt s with
    ⟨l, a, slots, memo, -, -, heq⟩ | ⟨e, memo, heq⟩ | ⟨v, memo, -, heq⟩
  · exact heq ▸ hcomplete _ _
  · exact heq ▸ hcomplete _ _
  · rw [heq]
    exact h.congr rfl rfl

end Viiwork.Route

import Viiwork.Route.PickSpec
import Viiwork.Route.Queue

/-!
# Viiwork.Route.Dispatch

Induction over a dispatch. A dispatch is a sequence of **attempts**, each for a
waiter that is still in the scanned queue: an attempt takes only its own waiter
out, and a queue holds no waiter twice. So what every attempt for a queued waiter
preserves, a dispatch preserves (`dispatch_invariant`).
-/

namespace Viiwork.Route

variable {β F : Type}

/-! ### Queues -/

namespace State

@[simp] theorem queue_setWaiter (s : State β F) (w : Nat) (wt : Waiter β F) (m : String) :
    (s.setWaiter w wt).queue m = s.queue m := rfl

theorem queue_removeWaiter (s : State β F) (w : Nat) (model m : String) :
    (s.removeWaiter w model).queue m =
      if m = model then (s.queue model).erase w else s.queue m := by
  have hne : m ≠ model → compare model m ≠ .eq :=
    fun hm h => hm (compare_eq_iff_eq.1 h).symm
  unfold removeWaiter
  by_cases hnil : (s.queue model).erase w = []
  · simp only [hnil, if_true]
    show (s.queues.erase model).getD m [] = _
    by_cases hm : m = model
    · rw [if_pos hm, hm, Std.ExtTreeMap.getD_erase_self]
    · rw [if_neg hm, Std.ExtTreeMap.getD_erase, if_neg (hne hm), queue]
  · simp only [if_neg hnil]
    show (s.queues.insert model ((s.queue model).erase w)).getD m [] = _
    by_cases hm : m = model
    · rw [if_pos hm, hm, Std.ExtTreeMap.getD_insert_self]
    · rw [if_neg hm, Std.ExtTreeMap.getD_insert, if_neg (hne hm), queue]

theorem queue_enqueue (s : State β F) (wt : Waiter β F) (m : String) :
    (s.enqueue wt).queue m =
      if m = wt.req.model then s.queue m ++ [s.waiters.length] else s.queue m := by
  simp only [queue, enqueue]
  by_cases hm : m = wt.req.model
  · subst hm
    rw [if_pos rfl, Std.ExtTreeMap.getD_insert_self]
  · have hne : compare wt.req.model m ≠ .eq := fun h => hm (compare_eq_iff_eq.1 h).symm
    rw [if_neg hm, Std.ExtTreeMap.getD_insert, if_neg hne]

theorem queue_complete (s : State β F) (w : Nat) (wt : Waiter β F) (res : WaitResult β)
    (m : String) :
    (s.complete w wt res).queue m =
      if m = wt.req.model then (s.queue wt.req.model).erase w else s.queue m := by
  rw [complete, queue_removeWaiter, queue_setWaiter, queue_setWaiter]

end State

/-! ### One attempt -/

section

variable [DecidableEq β] [Float64 F] (c : Config β) (env : Env β F) (d : Draw F)
variable (reports : List Report) (w : Nat) (wt : Waiter β F) (s : State β F)

/-- **Attempt.** A waiter's turn takes one open slot and completes it with the
lease, or leaves the slots alone and completes it with an error, or only the
memory changes. -/
theorem attempt_cases :
    (∃ l a slots memo, checkRequest c env d wt.req reports = .ok a ∧
      Takes c env d a.req a.backends reports s.router.slots slots l ∧
      attempt c env d reports w wt s =
        ((s.setRouter ⟨slots, memo⟩).complete w wt (.lease l), .completed)) ∨
    (∃ e memo, attempt c env d reports w wt s =
      ((s.setRouter ⟨s.router.slots, memo⟩).complete w wt (.err e), .completed)) ∨
    ∃ v memo, v ≠ .completed ∧
      attempt c env d reports w wt s = (s.setRouter ⟨s.router.slots, memo⟩, v) := by
  unfold attempt
  have hcases := pickWithReports_cases c env d reports wt.req s.router
  generalize pickWithReports c env d wt.req reports s.router = out at hcases ⊢
  obtain ⟨⟨slots, memo⟩, res⟩ := out
  rcases hcases with ⟨e, rfl, rfl⟩ | ⟨l, a, rfl, hcheck, htakes⟩
  · cases e with
    | noFreeSlot => exact .inr (.inr ⟨.full, memo, nofun, rfl⟩)
    | panic => exact .inr (.inr ⟨.panicked, memo, nofun, rfl⟩)
    | modelNotFound | hostNotServing | noImageInput => exact .inr (.inl ⟨_, memo, rfl⟩)
  · exact .inl ⟨l, a, slots, memo, hcheck, htakes, rfl⟩

/-- The router after a waiter's turn is the one its pick leaves. -/
theorem attempt_router :
    (attempt c env d reports w wt s).1.router =
      (pickWithReports c env d wt.req reports s.router).1 := by
  unfold attempt
  generalize pickWithReports c env d wt.req reports s.router = out
  obtain ⟨rt, res⟩ := out
  rcases res with e | l
  · cases e <;> rfl
  · rfl

/-- Another waiter stays where it is. -/
theorem mem_queue_attempt {w' : Nat} {m : String} (hne : w' ≠ w) (hmem : w' ∈ s.queue m) :
    w' ∈ (attempt c env d reports w wt s).1.queue m := by
  have hcomplete : ∀ rt res, w' ∈ ((s.setRouter rt).complete w wt res).queue m := by
    intro rt res
    rw [State.queue_complete]
    split
    · rename_i hm
      exact (List.mem_erase_of_ne hne).2 (hm ▸ hmem)
    · exact hmem
  rcases attempt_cases c env d reports w wt s with
    ⟨l, a, slots, memo, -, -, heq⟩ | ⟨e, memo, heq⟩ | ⟨v, memo, -, heq⟩
  · exact heq ▸ hcomplete _ _
  · exact heq ▸ hcomplete _ _
  · exact heq ▸ hmem

end

/-! ### The rule -/

variable [DecidableEq β] [Float64 F] {c : Config β} {env : Env β F}

/-- What a dispatch needs of a property of state and flags: queues hold no waiter
twice, the flags a new scan resets do not matter, and an attempt for a queued
waiter keeps it. -/
structure KeptByAttempts (c : Config β) (env : Env β F) (P : State β F × Scan → Prop) : Prop where
  nodup : ∀ s sc, P (s, sc) → ∀ m, (s.queue m).Nodup
  reset : ∀ s sc, P (s, sc) → P (s, { sc with unpinnedFull := false, imagesFull := false })
  attempt : ∀ s sc d w wt m, P (s, sc) → s.waiters[w]? = some wt → w ∈ s.queue m →
    P ((attempt c env d env.reports w wt s).1,
      sc.note wt.req (Route.attempt c env d env.reports w wt s).2)

namespace KeptByAttempts

variable {P : State β F × Scan → Prop}

/-- The scan of a copy: the waiters not yet reached are still in the queue. -/
theorem scan (hP : KeptByAttempts c env P) {m : String} {ws : List Nat} {acc : State β F × Scan}
    (hacc : P acc) (hnodup : ws.Nodup) (hqueued : ∀ w ∈ ws, w ∈ acc.1.queue m) :
    P (ws.foldl (scanWaiter c env env.reports) acc) := by
  induction ws generalizing acc with
  | nil => exact hacc
  | cons w ws ih =>
    obtain ⟨hw, hws⟩ := List.nodup_cons.1 hnodup
    have hrest : ∀ w' ∈ ws, w' ∈ acc.1.queue m :=
      fun w' hw' => hqueued w' (List.mem_cons_of_mem _ hw')
    rw [List.foldl_cons]
    cases hwt : acc.1.waiters[w]? with
    | none =>
      rw [show scanWaiter c env env.reports acc w = acc by simp only [scanWaiter, hwt]]
      exact ih hacc hws hrest
    | some wt =>
      by_cases hskip : acc.2.panicked = true ∨ acc.2.skips wt.req = true
      · rw [show scanWaiter c env env.reports acc w = acc by
          simp only [scanWaiter, hwt, if_pos hskip]]
        exact ih hacc hws hrest
      · rw [show scanWaiter c env env.reports acc w =
            ((Route.attempt c env (env.draw acc.2.picks) env.reports w wt acc.1).1,
              acc.2.note wt.req
                (Route.attempt c env (env.draw acc.2.picks) env.reports w wt acc.1).2) by
          simp only [scanWaiter, hwt, if_neg hskip]]
        -- The attempt takes `w` out of the queue, and `w` is not in the rest.
        refine ih (hP.attempt _ _ _ w wt m hacc hwt (hqueued w List.mem_cons_self)) hws ?_
        intro w' hw'
        have hne : w' ≠ w := fun heq => hw (heq ▸ hw')
        exact mem_queue_attempt _ _ _ _ _ _ _ hne (hrest w' hw')

theorem pass (hP : KeptByAttempts c env P) (pass : Nat) {s : State β F} {sc : Scan}
    (h : P (s, { sc with progressed := false })) :
    P (dispatchPass c env env.reports pass (s, sc)) := by
  refine List.foldlRecOn (motive := P) _ _ h ?_
  intro acc hacc m _
  exact hP.scan (hP.reset _ _ hacc) (hP.nodup _ _ hacc m) fun w hw => hw

end KeptByAttempts

/-- What every pass preserves, the loop preserves. -/
theorem dispatchLoop_invariant {P : State β F × Scan → Prop}
    (hpass : ∀ pass acc, P acc → P (dispatchPass c env env.reports pass acc)) (fuel : Nat) :
    ∀ (pass : Nat) (acc : State β F × Scan), P acc →
      P (dispatchLoop c env env.reports fuel pass acc) := by
  induction fuel with
  | zero => exact fun _ _ h => h
  | succ fuel ih =>
    intro pass acc hacc
    unfold dispatchLoop
    dsimp only
    split
    · exact ih _ _ (hpass pass acc hacc)
    · exact hpass pass acc hacc

/-- **The dispatch rule.** What every attempt for a queued waiter preserves, a
dispatch preserves. -/
theorem dispatch_invariant {P : State β F → Prop} (hnodup : ∀ s, P s → ∀ m, (s.queue m).Nodup)
    (hattempt : ∀ s d w wt m, P s → s.waiters[w]? = some wt → w ∈ s.queue m →
      P (attempt c env d env.reports w wt s).1)
    {s : State β F} (hs : P s) : P (dispatch c env s) := by
  have hP : KeptByAttempts c env fun acc => P acc.1 :=
    ⟨fun s _ => hnodup s, fun _ _ h => h, fun s _ d w wt m => hattempt s d w wt m⟩
  unfold dispatch
  split
  · exact hs
  · exact dispatchLoop_invariant (P := fun acc => P acc.1) (fun pass _ hacc => hP.pass pass hacc)
      _ _ _ hs

end Viiwork.Route

import Viiwork.Route.Ledger
import Viiwork.Route.Wiring

/-!
# Viiwork.Route.System

What holds in every state the router reaches, whatever interleaves: the waiters
are **wired** (`Wired`), the slots are the account of the outstanding leases
(`Balanced`), and a lease that a cancelled call gave back is gone. Each step keeps
all three, and so does each run.
-/

namespace Viiwork.Route

variable {β F : Type}

theorem Step.reports_subset {a : Step β F} {env : Env β F} (h : a.env? = some env) :
    ∀ rep ∈ a.reports, rep ∈ env.reports := by
  intro rep hrep
  cases a with
  | pick env' req | acquire env' req =>
    cases h
    simp only [Step.reports] at hrep
    split at hrep
    · cases hrep
    · exact hrep
  | dispatch env' =>
    cases h
    exact hrep
  | receive | fire | leave | drain | discard | release | refused => cases hrep

/-! ### Soundness -/

/-- The waiter's call was cancelled after a lease was assigned, and gave it back. -/
def State.Discarded (s : State β F) (w : Nat) (l : Lease β) : Prop :=
  ∃ wt, s.waiters[w]? = some wt ∧ wt.phase = .canceled (some l)

structure State.Sound [DecidableEq β] (s : State β F) : Prop where
  wired : s.Wired
  balanced : Balanced s.router.slots s.outstanding
  gone : ∀ w l, s.Discarded w l → Gone s.router.slots s.outstanding l

namespace State

variable {s s' : State β F} {w w₁ : Nat} {wt wt' : Waiter β F} {l : Lease β}

theorem Discarded.of_setWaiter (hw : s.waiters[w]? = some wt)
    (hphase : ∀ l, wt'.phase ≠ .canceled (some l)) (h : (s.setWaiter w wt').Discarded w₁ l) :
    s.Discarded w₁ l := by
  obtain ⟨wt₁, hw₁, hl⟩ := h
  rcases getElem?_setWaiter_cases hw hw₁ with ⟨-, rfl⟩ | ⟨-, hw₁⟩
  · exact absurd hl (hphase l)
  · exact ⟨wt₁, hw₁, hl⟩

theorem Discarded.of_enqueue (hphase : wt.phase = .waiting) (h : (s.enqueue wt).Discarded w₁ l) :
    s.Discarded w₁ l := by
  obtain ⟨wt₁, hw₁, hl⟩ := h
  by_cases heq : w₁ = s.waiters.length
  · rw [heq, getElem?_enqueue_self] at hw₁
    cases hw₁
    rw [hphase] at hl
    cases hl
  · rw [getElem?_enqueue_ne s wt heq] at hw₁
    exact ⟨wt₁, hw₁, hl⟩

namespace Sound

variable [DecidableEq β]

theorem new : (State.new (β := β) (F := F)).Sound where
  wired := .new
  balanced := by
    rw [show (State.new (β := β) (F := F)).outstanding = 0 by simp [outstanding, State.new]]
    exact .empty
  gone w l h := by
    obtain ⟨wt, hw, -⟩ := h
    simp [State.new] at hw

/-- A step that moves no slot and no lease. -/
theorem of_move (h : s.Sound) (hwired : s'.Wired) (hslots : s'.router.slots = s.router.slots)
    (hout : s'.outstanding = s.outstanding) (hdisc : ∀ w l, s'.Discarded w l → s.Discarded w l) :
    s'.Sound where
  wired := hwired
  balanced := by
    rw [hslots, hout]
    exact h.balanced
  gone w l hl := by
    rw [hslots, hout]
    exact h.gone w l (hdisc w l hl)

/-- A step that takes one slot for one new lease. -/
theorem of_take {c : Config β} {env : Env β F} {d : Draw F} {req : Request F} {backends : List β}
    {reports : List Report} (h : s.Sound) (hwired : s'.Wired)
    (htakes : Takes c env d req backends reports s.router.slots s'.router.slots l)
    (hout : s'.outstanding = l ::ₘ s.outstanding)
    (hdisc : ∀ w l, s'.Discarded w l → s.Discarded w l) : s'.Sound where
  wired := hwired
  balanced := by
    rw [hout]
    exact h.balanced.takes htakes
  gone w l hl := by
    rw [hout]
    exact (h.gone w l (hdisc w l hl)).takes htakes

end Sound

end State

namespace State

variable {s : State β F} {w : Nat} {wt wt' : Waiter β F} {res : WaitResult β}

theorem Wired.receive (h : s.Wired) (res : WaitResult β) : (s.receive res).Wired := by
  cases res with
  | lease l => exact h.congr rfl rfl
  | err e => exact h

/-- A result leaves the waiter's channel and reaches its caller. -/
theorem outstanding_receive (hw : s.waiters[w]? = some wt)
    (hleases : wt.leases = ↑(leasesOf [res]) + wt'.leases) :
    ((s.setWaiter w wt').receive res).outstanding = s.outstanding := by
  cases res with
  | lease l =>
    show ((s.setWaiter w wt').hold l).outstanding = _
    rw [outstanding_hold]
    exact outstanding_setWaiter_lose hw hleases
  | err e =>
    refine outstanding_setWaiter_of_eq hw ?_
    rw [hleases]
    exact (zero_add _).symm

theorem Discarded.of_receive {l : Lease β} {w₁ : Nat} (h : (s.receive res).Discarded w₁ l) :
    s.Discarded w₁ l := by
  cases res <;> exact h

theorem receive_slots (s : State β F) (res : WaitResult β) :
    (s.receive res).router = s.router := by
  cases res <;> rfl

/-- A completed waiter has one result more in its hands. -/
theorem outstanding_complete {rt : Router β} (hw : s.waiters[w]? = some wt) (l : Lease β) :
    ((s.setRouter rt).complete w wt (.lease l)).outstanding = l ::ₘ s.outstanding := by
  refine outstanding_setWaiter_gain (s := s.setRouter rt) hw ?_
  simp only [Waiter.leases, leasesOf, List.filterMap_append, List.filterMap_cons,
    List.filterMap_nil, ← Multiset.coe_add, Multiset.coe_singleton]
  rw [add_comm _ ({l} : Multiset (Lease β)), add_assoc, Multiset.singleton_add]

/-! ### What a pick and an acquire can do -/

section

variable [DecidableEq β] [Float64 F] (c : Config β) (s : State β F) (env : Env β F)
variable (req : Request F)

/-- A pick changes the memory only, or takes one open slot for its caller. -/
theorem pick_state :
    (∃ memo, (s.pick c env req).1 = s.setRouter ⟨s.router.slots, memo⟩) ∨
    ∃ l req' backends slots memo,
      Takes c env (env.draw 0) req' backends env.reports s.router.slots slots l ∧
      (s.pick c env req).1 = (s.setRouter ⟨slots, memo⟩).hold l := by
  have hcases := pick_cases c env (env.draw 0) req s.router
  unfold State.pick
  generalize Route.pick c env (env.draw 0) req s.router = out at hcases ⊢
  obtain ⟨⟨slots, memo⟩, res⟩ := out
  rcases hcases with ⟨e, rfl, rfl⟩ | ⟨l, req', backends, rfl, htakes⟩
  · exact .inl ⟨memo, rfl⟩
  · exact .inr ⟨l, req', backends, slots, memo, htakes, rfl⟩

/-- An acquire is a pick, after which the request may join its queue. -/
theorem acquire_state :
    (s.acquire c env req).1 = (s.pick c env req).1 ∨
    (s.acquire c env req).1 = (s.pick c env req).1.enqueue { req := queuedReq req } := by
  unfold State.acquire
  split
  · rename_i heq
    exact .inl (by rw [heq])
  · rename_i s₁ e heq
    rw [heq]
    split
    · exact .inl rfl
    split
    · exact .inl rfl
    split
    · exact .inl rfl
    · exact .inr rfl

end

/-! ### Every step keeps soundness -/

namespace Sound

variable [DecidableEq β] {rest : List (WaitResult β)} {why : Why} {s' : State β F} {l : Lease β}
variable {slots : Slots β} (h : s.Sound)
include h

section

variable (hw : s.waiters[w]? = some wt)
include hw

/-- A completed waiter's call returns its result. -/
theorem returns (hphase : wt.phase.lease = 0) (hdone : wt.done = true) (hresult : wt.result = [res])
    (hsent : wt.sent = [res]) :
    ((s.setWaiter w { wt with result := [], phase := .returned res }).receive res).Sound := by
  have hsound : ({ wt with result := [], phase := .returned res } : Waiter β F).Sound :=
    ⟨hdone, rfl, hsent⟩
  refine h.of_move ((h.wired.setWaiter hw hsound rfl rfl).receive res) ?_ ?_ ?_
  · rw [receive_slots]
    rfl
  · refine outstanding_receive hw ?_
    simp only [Waiter.leases, hresult, hphase]
    rfl
  · exact fun _ _ hl => hl.of_receive.of_setWaiter hw (by simp)

/-- A waiter moves on with the leases it has. -/
theorem moves (hsound : wt'.Sound) (hmodel : wt'.req.model = wt.req.model)
    (hdone : wt'.done = wt.done) (hleases : wt'.leases = wt.leases)
    (hphase : ∀ l, wt'.phase ≠ .canceled (some l)) : (s.setWaiter w wt').Sound :=
  h.of_move (h.wired.setWaiter hw hsound hmodel hdone) rfl (outstanding_setWaiter_of_eq hw hleases)
    fun _ _ hl => hl.of_setWaiter hw hphase

theorem receive (hphase : wt.phase = .waiting) (hresult : wt.result = res :: rest) :
    ((s.setWaiter w { wt with result := rest, phase := .returned res }).receive res).Sound := by
  obtain ⟨hdone, rfl, hsent⟩ := (h.wired.waiter w wt hw).of_result (.inl hphase) hresult
  exact h.returns hw (by rw [hphase]; rfl) hdone hresult hsent

theorem fire (hphase : wt.phase = .waiting) (why : Why) :
    (s.setWaiter w { wt with phase := .leaving why }).Sound := by
  have hsound := h.wired.waiter w wt hw
  unfold Waiter.Sound at hsound
  rw [hphase] at hsound
  have hsound' : ({ wt with phase := .leaving why } : Waiter β F).Sound := hsound
  exact h.moves hw hsound' rfl rfl (by simp [Waiter.leases, hphase, Phase.lease]) (by simp)

/-- The race is decided here: a waiter that is not done quits its queue, and one
that is done has its result in the channel. -/
theorem leave (hphase : wt.phase = .leaving why) : (s.leave w wt why).Sound := by
  have hsound := h.wired.waiter w wt hw
  unfold State.leave
  split
  · rename_i hdone
    have hcompleted : ({ wt with phase := .draining why } : Waiter β F).Sound := by
      unfold Waiter.Sound at hsound
      rw [hphase] at hsound
      rcases hsound with ⟨hnot, -⟩ | hcompleted
      · rw [hdone] at hnot
        cases hnot
      · exact hcompleted
    exact h.moves hw hcompleted rfl rfl (by simp [Waiter.leases, hphase, Phase.lease]) (by simp)
  · -- First out: nothing was sent, and dispatch will not find the waiter again.
    rename_i hdone
    obtain ⟨-, hresult, hsent⟩ := hsound.of_not_done (Bool.eq_false_iff.2 hdone)
    have hgiven : ({ wt with done := true, phase := givenUp why } : Waiter β F).Sound := by
      cases why with
      | timeout => exact ⟨rfl, hresult, hsent⟩
      | ctx => exact ⟨rfl, hresult, by simp [hsent], by simp [hsent]⟩
    refine h.of_move (h.wired.finish hw hgiven rfl) rfl ?_ fun _ _ hl =>
      Discarded.of_setWaiter hw (by cases why <;> simp [givenUp]) hl
    refine outstanding_setWaiter_of_eq hw ?_
    cases why <;> simp [Waiter.leases, hphase, Phase.lease, givenUp]

theorem drain (hphase : wt.phase = .draining why) (hresult : wt.result = res :: rest) :
    (s.drain w wt res rest why).Sound := by
  obtain ⟨hdone, rfl, hsent⟩ := (h.wired.waiter w wt hw).of_result (.inr ⟨_, hphase⟩) hresult
  cases why with
  | timeout => exact h.returns hw (by rw [hphase]; rfl) hdone hresult hsent
  | ctx =>
    cases res with
    | lease l =>
      have hsound : ({ wt with result := [], phase := .releasing l } : Waiter β F).Sound :=
        ⟨hdone, rfl, hsent⟩
      exact h.moves hw hsound rfl rfl
        (by simp [Waiter.leases, hresult, hphase, Phase.lease, leasesOf]) (by simp)
    | err e =>
      have hsound : ({ wt with result := [], phase := .canceled none } : Waiter β F).Sound :=
        ⟨hdone, rfl, by simp [hsent], by simp [hsent]⟩
      exact h.moves hw hsound rfl rfl
        (by simp [Waiter.leases, hresult, hphase, Phase.lease, leasesOf]) (by simp)

end

section

variable (hrelease : s.router.slots.release l = some slots)
include hrelease

/-- A step that gives back the slot of one lease. -/
theorem of_release (hwired : s'.Wired) (hslots : s'.router.slots = slots)
    (hout : l ::ₘ s'.outstanding = s.outstanding)
    (hdisc : ∀ w l', s'.Discarded w l' → l' = l ∨ s.Discarded w l') : s'.Sound := by
  have hbalanced := h.balanced
  rw [← hout] at hbalanced
  obtain ⟨slots', hrelease', hbal, hid⟩ := hbalanced.release
  rw [hrelease] at hrelease'
  cases hrelease'
  subst hslots
  refine ⟨hwired, hbal, ?_⟩
  intro w l' hl'
  rcases hdisc w l' hl' with rfl | hl'
  · exact .of_balanced hbalanced hid
  · exact .of_cons (hout ▸ h.gone w l' hl') hid

theorem discard (hw : s.waiters[w]? = some wt) (hphase : wt.phase = .releasing l) :
    ((s.setSlots slots).setWaiter w { wt with phase := .canceled (some l) }).Sound := by
  have hsound := h.wired.waiter w wt hw
  unfold Waiter.Sound at hsound
  rw [hphase] at hsound
  have hsound' : ({ wt with phase := .canceled (some l) } : Waiter β F).Sound := hsound
  have hwired := h.wired.setWaiter hw hsound' rfl rfl
  refine h.of_release hrelease (hwired.congr rfl rfl) rfl ?_ ?_
  · refine outstanding_setWaiter_lose (s := s.setSlots slots) hw ?_
    simp [Waiter.leases, hphase, Phase.lease, add_comm, Multiset.singleton_add]
  · intro w₁ l' hl'
    obtain ⟨wt₁, hw₁, hl₁⟩ := hl'
    rcases getElem?_setWaiter_cases (s := s.setSlots slots) hw hw₁ with ⟨-, rfl⟩ | ⟨-, hw₁⟩
    · cases hl₁
      exact .inl rfl
    · exact .inr ⟨wt₁, hw₁, hl₁⟩

theorem release {id : Nat} (hheld : s.held? id = some l) :
    ({ s.setSlots slots with held := s.held.erase l } : State β F).Sound := by
  refine h.of_release hrelease (h.wired.congr rfl rfl) rfl ?_
    fun _ _ hl' => .inr hl'
  have hmem : l ∈ (s.held : Multiset (Lease β)) := List.mem_of_find?_eq_some hheld
  show l ::ₘ (↑(s.held.erase l) + _) = _
  rw [← Multiset.coe_erase, ← Multiset.cons_add, Multiset.cons_erase hmem]
  rfl

end

theorem refused (l : Lease β) (now : Int) : (s.refused l now).Sound := by
  unfold State.refused
  split
  · exact h
  · exact h.of_move (h.wired.congr rfl rfl) rfl rfl fun _ _ hl => hl

variable [Float64 F] {c : Config β}

theorem attempt (env : Env β F) (d : Draw F) {m : String} (hw : s.waiters[w]? = some wt)
    (hmem : w ∈ s.queue m) : (Route.attempt c env d env.reports w wt s).1.Sound := by
  have hdone := (h.wired.of_mem hw hmem).2
  have hsound := h.wired.waiter w wt hw
  have hwired : ∀ rt res, ((s.setRouter rt).complete w wt res).Wired := fun rt res =>
    Wired.finish (s := s.setRouter rt) (h.wired.congr rfl rfl) hw
      (hsound.complete hdone res) rfl
  have hdisc : ∀ rt res w₁ l, ((s.setRouter rt).complete w wt res).Discarded w₁ l →
      s.Discarded w₁ l := by
    intro rt res w₁ l hl
    refine Discarded.of_setWaiter (s := s.setRouter rt) hw ?_ hl
    intro l'
    rcases (hsound.of_not_done hdone).1 with hphase | ⟨why, hphase⟩ <;> simp [hphase]
  rcases attempt_cases c env d env.reports w wt s with
    ⟨l, a, slots, memo, -, htakes, heq⟩ | ⟨e, memo, heq⟩ | ⟨v, memo, -, heq⟩
  · rw [heq]
    exact h.of_take (hwired _ _) htakes (outstanding_complete hw l) (hdisc _ _)
  · rw [heq]
    refine h.of_move (hwired _ _) rfl ?_ (hdisc _ _)
    refine outstanding_setWaiter_of_eq (s := s.setRouter ⟨s.router.slots, memo⟩) hw ?_
    simp [Waiter.leases, leasesOf]
  · rw [heq]
    exact h.of_move (h.wired.congr rfl rfl) rfl rfl fun _ _ hl => hl

theorem dispatch (env : Env β F) : (Route.dispatch c env s).Sound :=
  dispatch_invariant (P := Sound) (fun _ hs => hs.wired.nodup)
    (fun _ d _ _ _ hs hw hmem => hs.attempt env d hw hmem) h

theorem pick (env : Env β F) (req : Request F) : (s.pick c env req).1.Sound := by
  rcases pick_state c s env req with ⟨memo, heq⟩ | ⟨l, req', backends, slots, memo, htakes, heq⟩
  · rw [heq]
    exact h.of_move (h.wired.congr rfl rfl) rfl rfl fun _ _ hl => hl
  · rw [heq]
    exact h.of_take (h.wired.congr rfl rfl) htakes (outstanding_hold _ l) fun _ _ hl => hl

theorem acquire (env : Env β F) (req : Request F) : (s.acquire c env req).1.Sound := by
  have hpick := h.pick (c := c) env req
  rcases acquire_state c s env req with heq | heq
  · rwa [heq]
  · rw [heq]
    exact hpick.of_move (hpick.wired.enqueue (.inl ⟨rfl, rfl, rfl⟩) rfl) rfl
      (outstanding_enqueue _ rfl) fun _ _ hl => hl.of_enqueue rfl

/-- **Step.** Every step keeps soundness. -/
theorem step {a : Step β F} (hstep : s.step c a = some s') : s'.Sound := by
  cases steps_of_step hstep with
  | pick env req => exact h.pick env req
  | acquire env req => exact h.acquire env req
  | dispatch env => exact h.dispatch env
  | receive hw hphase hresult => exact h.receive hw hphase hresult
  | fire why hw hphase => exact h.fire hw hphase why
  | leave hw hphase => exact h.leave hw hphase
  | drain hw hphase hresult => exact h.drain hw hphase hresult
  | discard hw hphase hrelease => exact h.discard hrelease hw hphase
  | release hheld hrelease => exact h.release hrelease hheld
  | refused now _ => exact h.refused _ now
  | notHeld => exact h

/-- **Run.** Every reachable state is sound. -/
theorem run {steps : List (Step β F)} (hrun : Lib.run (State.step c) s steps = some s') :
    s'.Sound :=
  Lib.run_invariant (State.step c) (fun _ _ _ h _ hstep => h.step hstep) h
    (Lib.runMeets_true _ steps s) hrun

end Sound

/-! ### The router along a step -/

theorem pick_router [DecidableEq β] [Float64 F] (c : Config β) (s : State β F) (env : Env β F)
    (req : Request F) :
    (s.pick c env req).1.router = (Route.pick c env (env.draw 0) req s.router).1 := by
  unfold State.pick
  generalize Route.pick c env (env.draw 0) req s.router = out
  obtain ⟨rt, res⟩ := out
  cases res <;> rfl

/-- **The router rule.** What finding a slot, releasing one and marking a refusal
preserve, every step preserves. -/
theorem step_router_invariant [DecidableEq β] [Float64 F] {c : Config β} {s' : State β F}
    {a : Step β F} {P : Router β → Prop} (hsound : s.Sound)
    (hfound : ∀ env, a.env? = some env → ∀ d req backends localElig rt rt' l,
      Found c env d req backends localElig a.reports rt rt' l → P rt → P rt')
    (hrelease : ∀ rt slots l, rt.slots.release l = some slots → P rt → P ⟨slots, rt.memo⟩)
    (hrefused : ∀ rt id now key, a = .refused id now → P rt →
      P ⟨rt.slots, { rt.memo with refused := Function.update rt.memo.refused key (some now) }⟩)
    (hs : P s.router) (hstep : s.step c a = some s') : P s'.router := by
  have hpicked : ∀ env d req rt, a.env? = some env → P rt →
      P (pickWithReports c env d req a.reports rt).1 := by
    intro env d req rt henv hrt
    rcases pickWithReports_found c env d a.reports req rt with ⟨e, -, heq⟩ | ⟨a', -, hf⟩
    · rwa [heq]
    · exact hfound env henv _ _ _ _ _ _ _ hf hrt
  have hpick : ∀ env req, a.env? = some env →
      a.reports = (if req.forwarded then [] else env.reports) →
      P (s.pick c env req).1.router := by
    intro env req henv hreports
    have h := hpicked env (env.draw 0) req s.router henv hs
    rw [hreports] at h
    rw [pick_router]
    exact h
  cases steps_of_step hstep with
  | pick env req => exact hpick env req rfl rfl
  | acquire env req =>
    have h := hpick env req rfl rfl
    rcases acquire_state c s env req with heq | heq
    · rwa [heq]
    · rw [heq]
      exact h
  | dispatch env =>
    refine (dispatch_invariant (P := fun s => s.Sound ∧ P s.router)
      (fun _ h => h.1.wired.nodup) ?_ ⟨hsound, hs⟩).2
    intro s₁ d w wt m h hw hmem
    refine ⟨h.1.attempt env d hw hmem, ?_⟩
    rw [attempt_router]
    exact hpicked env d wt.req s₁.router rfl h.2
  | receive =>
    rename_i res rest _ _ _
    cases res <;> exact hs
  | fire | notHeld => exact hs
  | leave =>
    unfold State.leave
    split <;> exact hs
  | @drain w wt why res rest =>
    cases why with
    | timeout | ctx => cases res <;> exact hs
  | discard _ _ hrel | release _ hrel => exact hrelease _ _ _ hrel hs
  | @refused id l now =>
    unfold State.refused
    split
    · exact hs
    · exact hrefused _ id now _ rfl hs

/-! ### A dispatch comes to an end -/

/-- The waiters that are not done. -/
def undone (s : State β F) : Nat := s.waiters.countP fun wt => !wt.done

theorem undone_setWaiter (hw : s.waiters[w]? = some wt) (hdone : wt.done = false)
    (hdone' : wt'.done = true) : (s.setWaiter w wt').undone + 1 = s.undone := by
  obtain ⟨hlt, hget⟩ := List.getElem?_eq_some_iff.1 hw
  have hpos : 0 < s.undone :=
    List.countP_pos_iff.2 ⟨wt, hget ▸ List.getElem_mem hlt, by simp [hdone]⟩
  unfold undone at hpos ⊢
  rw [setWaiter, List.countP_set hlt]
  simp only [hget, hdone, hdone']
  simp
  omega

variable [DecidableEq β] [Float64 F] {c : Config β}

/-- A pass that hands something out completes a waiter. -/
theorem undone_dispatchPass (h : s.Wired) (env : Env β F) (pass : Nat) (sc : Scan) :
    (dispatchPass c env env.reports pass (s, sc)).1.Wired ∧
      (dispatchPass c env env.reports pass (s, sc)).1.undone +
        (if (dispatchPass c env env.reports pass (s, sc)).2.progressed then 1 else 0) ≤
          s.undone := by
  have hkept : KeptByAttempts c env fun acc =>
      acc.1.Wired ∧ acc.1.undone + (if acc.2.progressed then 1 else 0) ≤ s.undone := by
    refine ⟨fun _ _ hs => hs.1.nodup, fun _ _ hs => hs, ?_⟩
    rintro s₁ sc₁ d w wt m ⟨hs, hle⟩ hw hmem
    dsimp only at hs hle
    refine ⟨hs.attempt hw hmem c env d env.reports, ?_⟩
    have hcomplete : ∀ rt res, ((s₁.setRouter rt).complete w wt res).undone + 1 = s₁.undone :=
      fun rt res => undone_setWaiter (s := s₁.setRouter rt) hw (hs.of_mem hw hmem).2 rfl
    rcases attempt_cases c env d env.reports w wt s₁ with
      ⟨l, a, slots, memo, -, -, heq⟩ | ⟨e, memo, heq⟩ | ⟨v, memo, hv, heq⟩
    · rw [heq]
      have := hcomplete ⟨slots, memo⟩ (.lease l)
      simp only [Scan.note, if_true]
      omega
    · rw [heq]
      have := hcomplete ⟨s₁.router.slots, memo⟩ (.err e)
      simp only [Scan.note, if_true]
      omega
    · rw [heq]
      have hflag : (sc₁.note wt.req v).progressed = sc₁.progressed := by
        cases v with
        | completed => exact absurd rfl hv
        | panicked => rfl
        | full =>
          simp only [Scan.note]
          split
          · split <;> rfl
          · rfl
      rw [hflag]
      exact hle
  exact hkept.pass pass ⟨h, le_rfl⟩

theorem dispatchLoop_settles (env : Env β F) (fuel : Nat) :
    ∀ (pass : Nat) (acc : State β F × Scan), acc.1.Wired → acc.1.undone < fuel →
      (dispatchLoop c env env.reports fuel pass acc).2.progressed = false ∨
        (dispatchLoop c env env.reports fuel pass acc).2.panicked = true := by
  induction fuel with
  | zero => exact fun _ _ _ hlt => absurd hlt (Nat.not_lt_zero _)
  | succ fuel ih =>
    intro pass ⟨s, sc⟩ hs hlt
    dsimp only at hs hlt
    obtain ⟨hs', hle⟩ := undone_dispatchPass (c := c) hs env pass sc
    unfold dispatchLoop
    dsimp only
    split
    · -- A pass with progress leaves one waiter fewer for the rest of the fuel.
      rename_i hgo
      rw [if_pos hgo.1] at hle
      exact ih _ _ hs' (by omega)
    · rename_i hstop
      by_contra hnot
      rw [not_or, Bool.not_eq_false, Bool.not_eq_true] at hnot
      exact hstop hnot

/-- **The fuel suffices.** The last pass of a dispatch handed nothing out, or a
pick panicked. -/
theorem Wired.dispatchAll_settles (h : s.Wired) (env : Env β F) :
    (dispatchAll c env s).2.progressed = false ∨ (dispatchAll c env s).2.panicked = true := by
  refine dispatchLoop_settles env _ 0 (s, {}) h ?_
  have : s.undone ≤ s.waiters.length := List.countP_le_length
  show s.undone < s.waiters.length + 1
  omega

end State

end Viiwork.Route

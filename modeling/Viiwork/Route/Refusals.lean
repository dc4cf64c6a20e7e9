import Viiwork.Route.Occupancy
import Viiwork.Route.Overcommit

/-!
# Viiwork.Route.Refusals

**A refusing peer is not asked again on old evidence.** A peer that refuses at `t`
for a model is marked; only a report as of a later moment clears the mark, and
while the mark stands the peer has no free slot for the model.

The invariant is the mark alone (`MarkedSince`). It rests on what a pick can do to
the marks (`Cleared`) and on the marks under which a peer was found free
(`PeerFound`), so no strategy is looked at here.
-/

namespace Viiwork.Route

variable {β F : Type} [DecidableEq β]

/-! ### A marked peer -/

/-- The peer refused the model at `t` or later. -/
def MarkedSince (key : ResKey) (t : Int) (marks : ResKey → Option Int) : Prop :=
  ∃ at_, marks key = some at_ ∧ t ≤ at_

section

variable {key : ResKey} {t : Int} {marks marks' : ResKey → Option Int} {reports : List Report}

theorem MarkedSince.cleared (h : MarkedSince key t marks)
    (hold : ∀ rep ∈ reports, rep.node = key.node → rep.asOf ≤ t)
    (hcleared : Cleared reports marks marks') : MarkedSince key t marks' := by
  obtain ⟨at_, hmark, hle⟩ := h
  rcases hcleared key with heq | ⟨-, at', rep, hmark', hrep, hnode, hafter⟩
  · exact ⟨at_, heq.trans hmark, hle⟩
  · rw [hmark] at hmark'
    cases hmark'
    have := hold rep hrep hnode
    omega

theorem MarkedSince.update (h : MarkedSince key t marks) {now : Int} (hnow : t ≤ now)
    (key' : ResKey) : MarkedSince key t (Function.update marks key' (some now)) := by
  by_cases hkey : key = key'
  · subst hkey
    exact ⟨now, Function.update_self .., hnow⟩
  · obtain ⟨at_, hmark, hle⟩ := h
    exact ⟨at_, (Function.update_of_ne hkey ..).trans hmark, hle⟩

variable {c : Config β} {req : Request F} {slots : Slots β} {memo : Memo} {now : Int}
variable {rep : Report}

omit [DecidableEq β] in
/-- A marked peer is not found on old evidence. -/
theorem MarkedSince.not_found (h : MarkedSince ⟨rep.node, req.model⟩ t memo.refused)
    (hold : ∀ r ∈ reports, r.node = rep.node → r.asOf ≤ t) :
    ¬PeerFound c req reports slots memo now rep := by
  rintro ⟨hrep, memo', hcleared, hfree⟩
  obtain ⟨at_, hmark, hle⟩ := h.cleared hold hcleared
  have hrefused : refusedBy memo' rep req.model = true := by
    have := hold rep hrep rfl
    simp only [refusedBy, hmark, decide_eq_true_eq]
    omega
  rw [(freeOf_pos_iff.1 hfree).2] at hrefused
  cases hrefused

end

/-! ### The forwards of a marked peer along a step -/

/-- The outstanding forwards to a peer for a model. -/
def State.forwards (s : State β F) (key : ResKey) : Multiset Reservation :=
  s.outstanding.filterMap (Lease.resAt key)

/-- The step's reports of the peer are as of `t` at the latest, and the clock a
further refusal reads is not behind `t`. -/
def Step.OldEvidence (key : ResKey) (t : Int) (a : Step β F) : Prop :=
  (∀ rep ∈ a.reports, rep.node = key.node → rep.asOf ≤ t) ∧
    ∀ id now, a = .refused id now → t ≤ now

section

variable {slots slots' : Slots β} {l : Lease β} {key : ResKey}

theorem reservations_release_le (h : slots.release l = some slots') (key : ResKey) :
    (slots'.reservations key : Multiset Reservation) ≤ slots.reservations key :=
  (Slots.reservations_release_sublist h key).subperm

variable {c : Config β} {env : Env β F} {d : Draw F} {req : Request F} {backends : List β}
variable {localElig : Bool} {reports : List Report} {rt rt' : Router β} {l? : Option (Lease β)}

/-- No strategy takes a slot of a marked peer. -/
theorem Found.reservations_eq {t : Int}
    (h : Found c env d req backends localElig reports rt rt' l?)
    (hmarked : MarkedSince key t rt.memo.refused)
    (hold : ∀ rep ∈ reports, rep.node = key.node → rep.asOf ≤ t) :
    rt'.slots.reservations key = rt.slots.reservations key := by
  cases h with
  | nothing | backend => rfl
  | peer rep now memo hcleared hnow hfound =>
    refine Function.update_of_ne ?_ ..
    rintro rfl
    exact hmarked.not_found hold hfound

end

section

variable [Float64 F] {c : Config β} {s s' : State β F} {key : ResKey} {t : Int} {a : Step β F}

theorem MarkedSince.step (hsound : s.Sound) (h : MarkedSince key t s.router.memo.refused)
    (hold : a.OldEvidence key t) (hstep : s.step c a = some s') :
    MarkedSince key t s'.router.memo.refused := by
  refine State.step_router_invariant (P := fun rt => MarkedSince key t rt.memo.refused)
    hsound ?_ ?_ ?_ h hstep
  · exact fun env henv d req backends localElig rt rt' l hfound hrt =>
      hrt.cleared hold.1 hfound.cleared
  · exact fun rt slots l hrel hrt => hrt
  · exact fun rt id now key' ha hrt => hrt.update (hold.2 id now ha) key'

theorem reservations_step_le (hsound : s.Sound) (h : MarkedSince key t s.router.memo.refused)
    (hold : a.OldEvidence key t) (hstep : s.step c a = some s') :
    (s'.router.slots.reservations key : Multiset Reservation) ≤
      s.router.slots.reservations key := by
  refine (State.step_router_invariant
    (P := fun rt => MarkedSince key t rt.memo.refused ∧
      (rt.slots.reservations key : Multiset Reservation) ≤ s.router.slots.reservations key)
    hsound ?_ ?_ ?_ ⟨h, le_rfl⟩ hstep).2
  · intro env henv d req backends localElig rt rt' l hfound ⟨hmarked, hle⟩
    refine ⟨hmarked.cleared hold.1 hfound.cleared, ?_⟩
    rwa [hfound.reservations_eq hmarked hold.1]
  · intro rt slots l hrel ⟨hmarked, hle⟩
    exact ⟨hmarked, (reservations_release_le hrel key).trans hle⟩
  · intro rt id now key' ha ⟨hmarked, hle⟩
    exact ⟨hmarked.update (hold.2 id now ha) key', hle⟩

end

/-! ### Runs after a refusal -/

section

variable [Float64 F] {c : Config β} {s s₁ s₂ s₃ : State β F} {key : ResKey} {t : Int}

theorem MarkedSince.run {steps : List (Step β F)} (hsound : s.Sound)
    (h : MarkedSince key t s.router.memo.refused) (hold : ∀ a ∈ steps, a.OldEvidence key t)
    (hrun : Lib.run (State.step c) s steps = some s₁) :
    s₁.Sound ∧ MarkedSince key t s₁.router.memo.refused :=
  Lib.run_invariant (State.step c)
    (I := fun s => s.Sound ∧ MarkedSince key t s.router.memo.refused)
    (fun _ _ _ hs ha hstep => ⟨hs.1.step hstep, hs.2.step hs.1 ha hstep⟩)
    ⟨hsound, h⟩ (Lib.runMeets_of_forall _ _ hold) hrun

/-- **A refusing peer waits for new evidence.** After a lease of a peer for a model
is refused at `t`, no step adds a forward to that peer for that model while its
reports are as of `t` at the latest. What the refusal itself changes is seen for
this peer and this model alone. -/
theorem run_refused_not_asked_again {pre post : List (Step β F)} {a : Step β F} {id : Nat}
    {l : Lease β} {res : Reservation} (hpre : Lib.run (State.step c) State.new pre = some s)
    (hheld : s.held? id = some l) (htook : l.took = .peer key res)
    (hrefused : s.step c (.refused id t) = some s₁)
    (hold : ∀ a' ∈ post ++ [a], a'.OldEvidence key t)
    (hpost : Lib.run (State.step c) s₁ post = some s₂) (hstep : s₂.step c a = some s₃) :
    s₃.forwards key ≤ s₂.forwards key ∧
    (∀ (req : Request F) (rep : Report) (now : Int), (⟨rep.node, req.model⟩ : ResKey) ≠ key →
      (peerFree c req rep now s₁.router.slots s₁.router.memo).2 =
        (peerFree c req rep now s.router.slots s.router.memo).2) ∧
    s₁.router.slots = s.router.slots := by
  have hs₁ : s₁ = s.refused l t := by
    simp only [State.step, hheld] at hrefused
    exact (Option.some.inj hrefused).symm
  have hrouter : s₁.router = ⟨s.router.slots,
      { s.router.memo with refused := Function.update s.router.memo.refused key (some t) }⟩ := by
    rw [hs₁, State.refused, htook]
  refine ⟨?_, ?_, by rw [hrouter]⟩
  · have hmarked : MarkedSince key t s₁.router.memo.refused := by
      rw [hrouter]
      exact ⟨t, Function.update_self .., le_rfl⟩
    have hsound₁ := (State.Sound.new.run hpre).step hrefused
    obtain ⟨hsound₂, hmarked₂⟩ := hmarked.run hsound₁
      (fun a' ha' => hold a' (List.mem_append_left _ ha')) hpost
    have hlast := hold a (List.mem_append_right _ List.mem_cons_self)
    rw [State.forwards, State.forwards, ← (hsound₂.step hstep).balanced.reservations key,
      ← hsound₂.balanced.reservations key]
    exact reservations_step_le hsound₂ hmarked₂ hlast hstep
  · intro req rep now hne
    rw [hrouter]
    refine peerFree_congr ?_
    simp only [refusedBy, Function.update_of_ne hne]

end

/-- The peer of two free slots refuses at 7. The report it was picked by still shows
a slot at 9, and the request is not forwarded. -/
theorem run_refused_not_asked_again_two_slots :
    ∃ s₂ s₃ : State Unit ℚ,
      Lib.run (State.step forwardingConfig) State.new
        [forwardAt (peerReport 0 2 0) 5, .refused 0 7, forwardAt (peerReport 0 2 0) 8] = some s₂ ∧
      s₂.step forwardingConfig (forwardAt (peerReport 0 2 0) 9) = some s₃ ∧
      s₃.forwards ⟨"p", "m"⟩ ≤ s₂.forwards ⟨"p", "m"⟩ := by
  have hpicked : (Lib.run (State.step forwardingConfig) (State.new (β := Unit) (F := ℚ))
      [forwardAt (peerReport 0 2 0) 5]).map (fun s => (s.held? 0).map Lease.took) =
      some (some (.peer ⟨"p", "m"⟩ ⟨0, 5⟩)) := by
    decide +kernel
  obtain ⟨s, hs, hlease⟩ := Option.map_eq_some_iff.1 hpicked
  obtain ⟨l, hheld, htook⟩ := Option.map_eq_some_iff.1 hlease
  have hrefused : s.step forwardingConfig (.refused 0 7) = some (s.refused l 7) := by
    simp only [State.step, hheld]
  have hold : ∀ now, (forwardAt (peerReport 0 2 0) now).OldEvidence ⟨"p", "m"⟩ 7 := by
    intro now
    refine ⟨?_, fun id now' h => by cases h⟩
    intro rep hrep _
    obtain rfl := List.mem_singleton.1 hrep
    decide
  obtain ⟨s₂, hs₂⟩ : ∃ s₂, (s.refused l 7).step forwardingConfig
      (forwardAt (peerReport 0 2 0) 8) = some s₂ := ⟨_, rfl⟩
  obtain ⟨s₃, hs₃⟩ : ∃ s₃, s₂.step forwardingConfig (forwardAt (peerReport 0 2 0) 9) = some s₃ :=
    ⟨_, rfl⟩
  have hpost : Lib.run (State.step forwardingConfig) (s.refused l 7)
      [forwardAt (peerReport 0 2 0) 8] = some s₂ := by
    simp only [Lib.run, hs₂]
  refine ⟨s₂, s₃, ?_, hs₃, ?_⟩
  · have hrest : Lib.run (State.step forwardingConfig) s
        [.refused 0 7, forwardAt (peerReport 0 2 0) 8] = some s₂ := by
      simp only [Lib.run, hrefused, hs₂]
    rw [← hrest]
    exact Lib.run_append _ hs
  · exact (run_refused_not_asked_again hs hheld htook hrefused
      (by simp [hold]) hpost hs₃).1

end Viiwork.Route

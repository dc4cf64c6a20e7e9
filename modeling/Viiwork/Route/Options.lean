import Viiwork.Route.Finite
import Viiwork.Route.Occupancy
import Viiwork.Route.Overcommit

/-!
# Viiwork.Route.Options

**Routing options never cost a request its slot.** Whether a pick ends without a
free slot depends on the request's model, pin, exclusions and image and on the
occupancy evidence. Two picks that agree on these (`SameOccupancy`) and differ in
everything else, the scored choice on or off, preferences, sessions, published
scores, `kv_share` groups, round trips, remembered sessions, draws, agree on
whether there is a slot.
-/

namespace Viiwork.Route

open List

variable {β F : Type}

/-! ### The same evidence -/

/-- What a model's entry says of occupancy. -/
def ModelCapacity.occupancy (mc : ModelCapacity) : Int × Int × Int × Option Bool :=
  (mc.slots, mc.busy, mc.healthyBackends, mc.images)

/-- The two reports differ at most in scores, `kv_share` and round trip. -/
structure SameEvidence (rep rep' : Report) : Prop where
  node : rep'.node = rep.node
  received : rep'.received = rep.received
  sent : rep'.sent = rep.sent
  entries : ∀ model, (rep'.model model).map ModelCapacity.occupancy =
    (rep.model model).map ModelCapacity.occupancy

/-- The two picks agree on what the request asks for and on the occupancy. -/
structure SameOccupancy (c c' : Config β) (env env' : Env β F) (req req' : Request F)
    (reports reports' : List Report) (rt rt' : Router β) : Prop where
  self : c'.self = c.self
  staleAfter : c'.staleAfter = c.staleAfter
  backendID : c'.backendID = c.backendID
  backends : env'.backends = env.backends
  healthy : env'.healthy = env.healthy
  slots : env'.slots = env.slots
  localImages : env'.localImages = env.localImages
  model : req'.model = req.model
  host : req'.host = req.host
  exclude : req'.exclude = req.exclude
  forwarded : req'.forwarded = req.forwarded
  images : req'.images = req.images
  imgWant : req'.imgWant = req.imgWant
  reports : List.Forall₂ SameEvidence reports reports'
  inFlight : rt'.slots.inFlight = rt.slots.inFlight
  reservations : rt'.slots.reservations = rt.slots.reservations
  refused : rt'.memo.refused = rt.memo.refused

theorem any_congr_forall₂ {α : Type} {R : α → α → Prop} {xs ys : List α} {f g : α → Bool}
    (h : List.Forall₂ R xs ys) (hfg : ∀ x y, R x y → g y = f x) : ys.any g = xs.any f := by
  induction h with
  | nil => rfl
  | cons hxy _ ih => rw [any_cons, any_cons, ih, hfg _ _ hxy]

theorem filterMap_congr_forall₂ {α γ : Type} {R : α → α → Prop} {xs ys : List α}
    {f g : α → Option γ} (h : List.Forall₂ R xs ys) (hfg : ∀ x y, R x y → g y = f x) :
    ys.filterMap g = xs.filterMap f := by
  induction h with
  | nil => rfl
  | cons hxy _ ih => rw [filterMap_cons, filterMap_cons, ih, hfg _ _ hxy]

namespace SameEvidence

variable {rep rep' : Report}

theorem asOf (h : SameEvidence rep rep') : rep'.asOf = rep.asOf := by
  rw [Report.asOf, Report.asOf, h.sent, h.received]

theorem fresh (h : SameEvidence rep rep') (now staleAfter : Int) :
    rep'.fresh now staleAfter = rep.fresh now staleAfter := by
  rw [Report.fresh, Report.fresh, h.received]

/-- The entries for a model are both absent, or agree on the occupancy. -/
theorem entry (h : SameEvidence rep rep') (model : String) :
    rep.model model = none ∧ rep'.model model = none ∨
      ∃ mc mc', rep.model model = some mc ∧ rep'.model model = some mc' ∧ mc'.slots = mc.slots ∧
        mc'.busy = mc.busy ∧ mc'.healthyBackends = mc.healthyBackends ∧ mc'.images = mc.images := by
  have hentries := h.entries model
  cases hmc : rep.model model with
  | none =>
    rw [hmc] at hentries
    exact .inl ⟨rfl, by simpa using hentries⟩
  | some mc =>
    rw [hmc] at hentries
    obtain ⟨mc', hmc', heq⟩ := Option.map_eq_some_iff.1 hentries
    exact .inr ⟨mc, mc', rfl, hmc', by simpa [ModelCapacity.occupancy] using heq⟩

end SameEvidence

namespace SameOccupancy

variable {c c' : Config β} {env env' : Env β F} {req req' : Request F}
variable {reports reports' : List Report} {rt rt' : Router β}
variable (h : SameOccupancy c c' env env' req req' reports reports' rt rt')
include h

/-- A peer answers with the same free slots. -/
theorem freeOf_eq {rep rep' : Report} (hrep : SameEvidence rep rep') (now : Int) :
    freeOf (peerFree c' req' rep' now rt'.slots rt'.memo).2 =
      freeOf (peerFree c req rep now rt.slots rt.memo).2 := by
  have hreserved : ∀ key asOf, reserved rt'.slots key asOf = reserved rt.slots key asOf := by
    intro key asOf
    rw [reserved, reserved, h.reservations]
  rw [peerFree_eq, peerFree_eq, peerAnswer, peerAnswer, refusedBy, refusedBy, hrep.node, h.self,
    hrep.fresh, h.staleAfter, h.model, h.host, h.exclude, h.imgWant, h.refused, hrep.asOf]
  split
  · rfl
  rcases hrep.entry req.model with
    ⟨hnone, hnone'⟩ | ⟨mc, mc', hmc, hmc', hslots, hbusy, hhealthy, himages⟩
  · rw [hnone, hnone', Option.bind_none, Option.bind_none]
  · rw [hmc, hmc', Option.bind_some, Option.bind_some, hhealthy, himages, hslots, hbusy, hreserved]
    split <;> rfl

theorem localHasFree_eq (backends : List β) :
    localHasFree c' env' req' backends rt'.slots = localHasFree c env req backends rt.slots := by
  unfold localHasFree usable free
  rw [h.healthy, h.exclude, h.backendID, h.slots, h.inFlight]

omit h in
/-- The same room, for the same hosts. -/
theorem hasRoom_eq (a a' : Admitted β F)
    (h : SameOccupancy c c' env env' a.req a'.req reports reports' rt rt')
    (hbackends : a'.backends = a.backends) (helig : a'.localElig = a.localElig) (now : Int) :
    hasRoom c' env' a' reports' now rt' = hasRoom c env a reports now rt := by
  have hpeers : peerHasFree c' a'.req reports' now rt'.slots rt'.memo =
      peerHasFree c a.req reports now rt.slots rt.memo := by
    refine any_congr_forall₂ h.reports ?_
    intro rep rep' hrep
    rw [h.freeOf_eq hrep]
  unfold hasRoom Admitted.localOpen
  rw [hpeers, hbackends, helig, h.host, h.self, h.localHasFree_eq]

theorem checkServed_eq (localOK : Bool) :
    checkServed c' req' localOK reports' = checkServed c req localOK reports := by
  have hlisted : ∀ rep rep', SameEvidence rep rep' →
      listedBy c' req' rep' = listedBy c req rep := by
    intro rep rep' hrep
    unfold listedBy
    rw [hrep.node, h.self, h.model]
    rcases hrep.entry req.model with ⟨hnone, hnone'⟩ | ⟨mc, mc', hmc, hmc', -⟩
    · rw [hnone, hnone']
    · rw [hmc, hmc']
      rfl
  have hany := any_congr_forall₂ h.reports hlisted
  have hpinned : (reports'.any fun rep => listedBy c' req' rep && rep.node == req'.host) =
      reports.any fun rep => listedBy c req rep && rep.node == req.host := by
    refine any_congr_forall₂ h.reports ?_
    intro rep rep' hrep
    rw [hlisted rep rep' hrep, hrep.node, h.host]
  unfold checkServed
  rw [hany, hpinned, h.host, h.self]

theorem imageAnswers_eq (localHealthy : Bool) (now : Int) :
    imageAnswers c' env' req' localHealthy reports' now =
      imageAnswers c env req localHealthy reports now := by
  unfold imageAnswers
  rw [h.host, h.self, h.model, h.localImages, h.staleAfter]
  congr 1
  split
  · rfl
  refine filterMap_congr_forall₂ h.reports ?_
  intro rep rep' hrep
  rw [hrep.node, hrep.fresh]
  split
  · rfl
  rcases hrep.entry req.model with
    ⟨hnone, hnone'⟩ | ⟨mc, mc', hmc, hmc', -, -, hhealthy, himages⟩
  · rw [hnone, hnone']
  · rw [hmc, hmc']
    dsimp only
    rw [hhealthy, himages]

end SameOccupancy

/-- The hosts that answer are the same at every clock reading. -/
theorem Steady.imageAnswers_eq {c : Config β} {env : Env β F} {d : Draw F} {req : Request F}
    {reports : List Report} {now t : Int} (h : Steady c reports req.host now d)
    (ht : t ∈ d.readings) (localHealthy : Bool) :
    imageAnswers c env req localHealthy reports t =
      imageAnswers c env req localHealthy reports now := by
  unfold imageAnswers
  congr 1
  split
  · rfl
  refine filterMap_congr ?_
  intro rep hrep
  by_cases hpin : req.host = "" ∨ rep.node = req.host
  · rw [h rep hrep hpin t ht]
  · have hskip : req.host ≠ "" ∧ rep.node ≠ req.host := not_or.1 hpin
    simp [hskip]

section Pick

variable {c c' : Config β} {env env' : Env β F} {d d' : Draw F} {req req' : Request F}
variable {reports reports' : List Report} {rt rt' : Router β} {now : Int}

section

variable (h : SameOccupancy c c' env env' req req' reports reports' rt rt')
variable (hsteady : Steady c reports req.host now d) (hsteady' : Steady c' reports' req'.host now d')
include h hsteady hsteady'

theorem SameOccupancy.wantedClass_eq :
    wantedClass c' env' d' req' reports' = wantedClass c env d req reports := by
  have hreading : ∀ d : Draw F, d.imagesAt ∈ d.readings := fun d => by simp [Draw.readings]
  unfold wantedClass imageClass Env.localOf anyHealthy
  rw [hsteady.imageAnswers_eq (hreading d), hsteady'.imageAnswers_eq (hreading d'),
    h.imageAnswers_eq, h.backends, h.healthy, h.model]

/-- The checks admit the same hosts. -/
theorem SameOccupancy.checkRequest_eq :
    checkRequest c' env' d' req' reports' = (checkRequest c env d req reports).map fun a =>
      ⟨{ req' with imgWant := a.req.imgWant }, a.backends, a.localElig⟩ := by
  have hbackends : env'.backends req'.model = env.backends req.model := by
    rw [h.backends, h.model]
  have hlocalOf : env'.localOf req'.model = env.localOf req.model := by
    rw [Env.localOf, Env.localOf, hbackends]
  have hserved := h.checkServed_eq (env.backends req.model).isSome
  have hwanted := h.wantedClass_eq hsteady hsteady'
  have himages : env'.localImages req'.model = env.localImages req.model := by
    rw [h.localImages, h.model]
  have hcases := checkRequest_cases c' env' d' req' reports'
  rw [hbackends, hlocalOf, hserved, hwanted, h.images, h.forwarded, himages] at hcases
  -- the same check fails on both sides, or none
  rcases checkRequest_cases c env d req reports with
    ⟨e, hs, heq⟩ | ⟨hs, ⟨hplain, heq⟩ | ⟨himage, ⟨e, hw, heq⟩ | ⟨want, hw, heq⟩⟩⟩
  · simpa [heq, hs, Except.map] using hcases
  · rw [heq, Except.map, ← h.imgWant]
    simpa [hs, hplain] using hcases
  · simpa [heq, hs, himage, hw, Except.map] using hcases
  · rw [heq, Except.map, h.images, h.forwarded]
    simpa [hs, himage, hw] using hcases

/-- The checks and the room give the same answer. -/
theorem SameOccupancy.full_iff :
    (∃ a, checkRequest c' env' d' req' reports' = .ok a ∧
      hasRoom c' env' a reports' now rt' = false) ↔
    ∃ a, checkRequest c env d req reports = .ok a ∧ hasRoom c env a reports now rt = false := by
  rw [h.checkRequest_eq hsteady hsteady']
  cases hcheck : checkRequest c env d req reports with
  | error e => simp [Except.map]
  | ok a =>
    obtain ⟨hreq, -⟩ := checkRequest_ok hcheck
    have hsame : SameOccupancy c c' env env' a.req { req' with imgWant := a.req.imgWant }
        reports reports' rt rt' := by
      rw [hreq]
      exact { h with imgWant := rfl }
    have hroom : hasRoom c' env' ⟨{ req' with imgWant := a.req.imgWant }, a.backends, a.localElig⟩
        reports' now rt' = hasRoom c env a reports now rt :=
      hasRoom_eq a ⟨{ req' with imgWant := a.req.imgWant }, a.backends, a.localElig⟩ hsame
        rfl rfl now
    simp [Except.map, hroom]

end

variable [DecidableEq β] [Float64 F]

/-- Finite scores never panic. -/
theorem pickWithReports_no_panic {Num Price : F → Prop} (harith : FiniteArith Num Price)
    (hin : FiniteInputs Num env d req reports) :
    (pickWithReports c env d req reports rt).2 ≠ .error .panic := by
  cases hcheck : checkRequest c env d req reports with
  | error e =>
    rw [pickWithReports, hcheck]
    rintro ⟨⟩
    rcases checkRequest_error hcheck with he | he | he <;> cases he
  | ok a =>
    have hin' : FiniteInputs Num env d a.req reports := by
      rw [(checkRequest_ok hcheck).1]
      exact { hin with }
    rw [pickWithReports_of_check c env d reports hcheck]
    exact tryPick_no_panic fun rt => pickPerformance_no_panic harith hin' rt

variable (c env d req reports rt now)

/-- **Options never cost a slot.** There is no free slot exactly when the checks
pass and there is no room, a lease is on a host with room, the same occupancy gives
the same answer whatever the options are, and finite scores do not panic. -/
theorem pick_decided_by_occupancy (hone : OnePerNode reports) (hself : c.self ≠ "")
    (hfwd : req.forwarded = false) (hsteady : Steady c reports req.host now d) :
    ((pickWithReports c env d req reports rt).2 = .error .noFreeSlot ↔
      ∃ a, checkRequest c env d req reports = .ok a ∧
        hasRoom c env a reports now rt = false) ∧
    (∀ l, (pickWithReports c env d req reports rt).2 = .ok l →
      ∃ a, checkRequest c env d req reports = .ok a ∧ OnFreeHost c env a reports now rt l) ∧
    (∀ (c' : Config β) (env' : Env β F) (d' : Draw F) (req' : Request F)
        (reports' : List Report) (rt' : Router β),
      SameOccupancy c c' env env' req req' reports reports' rt rt' →
      Steady c' reports' req'.host now d' →
      ((pickWithReports c' env' d' req' reports' rt').2 = .error .noFreeSlot ↔
        (pickWithReports c env d req reports rt).2 = .error .noFreeSlot)) ∧
    ∀ Num Price : F → Prop, FiniteArith Num Price → FiniteInputs Num env d req reports →
      (pickWithReports c env d req reports rt).2 ≠ .error .panic := by
  refine ⟨pickWithReports_noFreeSlot_iff hone hfwd hself hsteady, fun l => pickWithReports_onFreeHost hone hsteady, ?_, ?_⟩
  · intro c' env' d' req' reports' rt' hsame hsteady'
    have hone' : OnePerNode reports' := by
      have hnodes : reports'.map Report.node = reports.map Report.node := by
        refine (forall₂_eq_eq_eq ▸ ?_ : reports.map _ = reports'.map _).symm
        exact forall₂_map_left_iff.2 (forall₂_map_right_iff.2
          (hsame.reports.imp fun _ _ h => h.node.symm))
      rw [OnePerNode, hnodes]
      exact hone
    rw [pickWithReports_noFreeSlot_iff hone hfwd hself hsteady,
      pickWithReports_noFreeSlot_iff hone' (by rw [hsame.forwarded]; exact hfwd)
      (by rw [hsame.self]; exact hself) hsteady']
    exact hsame.full_iff hsteady hsteady'
  · intro Num Price harith hin
    exact pickWithReports_no_panic harith hin

end Pick

/-! ### One peer -/

/-- A pick whose clock reads `preferAt` for the preferences and `peerAt` for the
peers. -/
def drawAt (preferAt peerAt : Int) : Draw ℚ :=
  ⟨preferAt, preferAt, preferAt, preferAt, peerAt, fun _ => 0⟩

/-- A full peer is full for a request with a preference and a session too. -/
theorem pick_decided_by_occupancy_full_peer :
    (pickWithReports forwardingConfig (forwardingEnv [peerReport 0 1 1] 5) (drawAt 5 5)
      { model := "m", prefer := ["p"], sessionKey := 7, estK := 2 } [peerReport 0 1 1]
      Router.new).2 = .error .noFreeSlot ∧
    (pickWithReports { forwardingConfig with performance := false }
      (forwardingEnv [peerReport 0 1 1] 5) (drawAt 5 5) { model := "m", estK := 0 }
      [peerReport 0 1 1] Router.new).2 = .error .noFreeSlot := by
  have hsteady : ∀ c : Config Unit, Steady c [peerReport 0 1 1] "" 5 (drawAt 5 5) := by
    intro c rep _ _ t ht
    have : t = 5 := by simpa [drawAt, Draw.readings] using ht
    rw [this]
  obtain ⟨hiff, -, hsame, -⟩ := pick_decided_by_occupancy forwardingConfig
    (forwardingEnv [peerReport 0 1 1] 5) (drawAt 5 5)
    { model := "m", prefer := ["p"], sessionKey := 7, estK := 2 } [peerReport 0 1 1] Router.new 5
    (by simp [OnePerNode]) (by decide) rfl (hsteady _)
  have hfull := hiff.2 ⟨⟨{ model := "m", prefer := ["p"], sessionKey := 7, estK := 2 }, [], false⟩,
    by rfl, by decide +kernel⟩
  refine ⟨hfull, (hsame { forwardingConfig with performance := false } _ (drawAt 5 5)
    { model := "m", estK := 0 } _ _ ?_ (hsteady _)).2 hfull⟩
  constructor <;> try rfl
  exact .cons ⟨rfl, rfl, rfl, fun _ => rfl⟩ .nil

/-- A router whose every peer refused every model at `at_`. -/
def refusingRouter (at_ : Int) : Router Unit :=
  { slots := Router.new.slots
    memo := { (Router.new (β := Unit)).memo with refused := fun _ => some at_ } }

/-- The three conditions are needed.

The clock reads 102 and then 103, when the peer's report goes stale: the request
with a preference asks the peer at the second reading and is refused, the one
without at the first and is served.

Two reports of one peer, the older refused at 7: the scored choice clears the mark
for the younger report, and then the older one has a free slot.

A node without a name does not ask its peers for an unpinned request, unless the
scored choice is on. -/
theorem pick_option_costs_slot :
    ((pickWithReports { forwardingConfig with performance := false }
        (forwardingEnv [peerReport 0 1 0] 0) (drawAt 102 103)
        { model := "m", prefer := ["q"], estK := 1 } [peerReport 0 1 0] Router.new).2 =
          .error .noFreeSlot ∧
      (pickWithReports { forwardingConfig with performance := false }
        (forwardingEnv [peerReport 0 1 0] 0) (drawAt 102 102)
        { model := "m", estK := 1 } [peerReport 0 1 0] Router.new).2.toOption.isSome = true) ∧
    ((pickWithReports { forwardingConfig with performance := false } (forwardingEnv [] 0)
        (drawAt 20 20) { model := "m", estK := 1 } [peerReport 5 1 0, peerReport 10 1 1]
        (refusingRouter 7)).2 = .error .noFreeSlot ∧
      (pickWithReports forwardingConfig (forwardingEnv [] 0) (drawAt 20 20)
        { model := "m", estK := 1 } [peerReport 5 1 0, peerReport 10 1 1]
        (refusingRouter 7)).2.toOption.isSome = true) ∧
    ((pickWithReports { forwardingConfig with self := "", performance := false }
        (forwardingEnv [] 0) (drawAt 5 5) { model := "m", estK := 1 } [peerReport 0 1 0]
        Router.new).2 = .error .noFreeSlot ∧
      (pickWithReports { forwardingConfig with self := "" } (forwardingEnv [] 0) (drawAt 5 5)
        { model := "m", estK := 1 } [peerReport 0 1 0] Router.new).2.toOption.isSome = true) := by
  refine ⟨⟨?_, by decide +kernel⟩, ⟨?_, by decide +kernel⟩, ⟨?_, by decide +kernel⟩⟩ <;> rfl

end Viiwork.Route

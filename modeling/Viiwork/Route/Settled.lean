import Viiwork.Route.Fifo
import Viiwork.Route.Options

/-!
# Viiwork.Route.Settled

**When a dispatch returns**, every waiter still queued would find no free slot if
it were asked now, as `dispatchLocked` intends: no slot and no definite error is
left for it. The flags that skip waiters are sound for this in all cases but one.
A refused unpinned waiter without an image makes the scan skip every unpinned one
behind it, also one with an image that no host reads, which would be told so.

A pass that hands out nothing leaves the waiters as they are and no more room than
before (`Idle`), so that what was refused in it is refused at its end. The clock is
taken to be steady over the call: a report that goes stale in between answers the
earlier and the later question differently.
-/

namespace Viiwork.Route

open List

variable {β F : Type}

/-! ### A steady call -/

/-- One report for each node, and none goes stale during the call. -/
structure SteadyCall (c : Config β) (env : Env β F) (now : Int) : Prop where
  one : OnePerNode env.reports
  named : c.self ≠ ""
  draws : ∀ k, Steady c env.reports "" now (env.draw k)

/-- The checks pass and there is no room. -/
def Stuck (c : Config β) (env : Env β F) (d : Draw F) (now : Int) (req : Request F)
    (rt : Router β) : Prop :=
  ∃ a, checkRequest c env d req env.reports = .ok a ∧ hasRoom c env a env.reports now rt = false

section Steady

variable {c : Config β} {env : Env β F} {d d' : Draw F} {req : Request F} {now : Int}
variable {reports : List Report}

theorem Steady.pin (h : Steady c reports "" now d) (host : String) :
    Steady c reports host now d :=
  fun rep hrep _ => h rep hrep (.inl rfl)

theorem Steady.checkRequest_eq (h : Steady c reports req.host now d)
    (h' : Steady c reports req.host now d') :
    checkRequest c env d' req reports = checkRequest c env d req reports := by
  have hreading : ∀ d : Draw F, d.imagesAt ∈ d.readings := fun d => by simp [Draw.readings]
  have hclass : ∀ localHealthy, imageClass c env req localHealthy reports d'.imagesAt =
      imageClass c env req localHealthy reports d.imagesAt := by
    intro localHealthy
    unfold imageClass
    rw [h.imageAnswers_eq (hreading d), h'.imageAnswers_eq (hreading d')]
  unfold checkRequest
  simp only [hclass]

variable [DecidableEq β] [Float64 F] {rt rt' : Router β}

/-- A pick of the call is refused exactly when the request is stuck. -/
theorem SteadyCall.full_iff (h : SteadyCall c env now) (hd : Steady c env.reports "" now d)
    (hd' : Steady c env.reports "" now d') (hfwd : req.forwarded = false) :
    (pickWithReports c env d' req env.reports rt).2 = .error .noFreeSlot ↔
      Stuck c env d now req rt := by
  rw [pickWithReports_noFreeSlot_iff h.one hfwd h.named (hd'.pin _),
    (hd.pin req.host).checkRequest_eq (hd'.pin req.host)]
  rfl

omit [DecidableEq β] [Float64 F] in
theorem Stuck.fuller (h : Stuck c env d now req rt) (hone : OnePerNode env.reports)
    (hfuller : Fuller env.reports rt rt') : Stuck c env d now req rt' := by
  obtain ⟨a, hcheck, hnone⟩ := h
  refine ⟨a, hcheck, Bool.eq_false_iff.2 fun hroom => ?_⟩
  rw [hfuller.hasRoom hone le_rfl hroom] at hnone
  cases hnone

end Steady

/-! ### The question a skipped waiter would ask -/

/-- Two unpinned queued requests of a model, the second with an image if the first
has one. -/
structure Behind (reqA reqB : Request F) : Prop where
  model : reqB.model = reqA.model
  unpinned : reqA.host = ""
  unpinned' : reqB.host = ""
  queued : queuedReq reqA = reqA
  queued' : queuedReq reqB = reqB
  images : reqA.images = true → reqB.images = true

section Questions

variable {c : Config β} {env : Env β F} {d : Draw F} {reqA reqB : Request F} {now : Int}
variable {rt : Router β} {reports : List Report} (h : Behind reqA reqB)
include h

theorem Behind.checkServed_eq (localOK : Bool) :
    checkServed c reqB localOK reports = checkServed c reqA localOK reports := by
  unfold checkServed listedBy
  rw [h.model, h.unpinned, h.unpinned']

theorem Behind.wantedClass_eq :
    wantedClass c env d reqB reports = wantedClass c env d reqA reports := by
  unfold wantedClass imageClass imageAnswers
  rw [h.model, h.unpinned, h.unpinned']

/-- A plain request is admitted if one with an image behind it fails for its image. -/
theorem Behind.served (himage : reqA.images = false)
    (herr : checkRequest c env d reqB reports = .error .noImageInput) (d' : Draw F) :
    ∃ a, checkRequest c env d' reqA reports = .ok a := by
  have hserved : checkServed c reqA (env.backends reqA.model).isSome reports = .ok () := by
    rcases checkRequest_cases c env d reqB reports with ⟨e, hserved, heq⟩ | ⟨hserved, -⟩
    · rw [heq] at herr
      cases herr
      rcases checkServed_error hserved with he | he <;> cases he
    · rwa [h.model, h.checkServed_eq] at hserved
  rcases checkRequest_cases c env d' reqA reports with ⟨e, herr', -⟩ | ⟨-, ⟨-, heq⟩ | ⟨himg, -⟩⟩
  · rw [hserved] at herr'
    cases herr'
  · exact ⟨_, heq⟩
  · rw [himage] at himg
    cases himg.1

/-- What the checks admit the request behind to, they admit the one ahead to. -/
theorem Behind.admitted {a b : Admitted β F} (ha : checkRequest c env d reqA reports = .ok a)
    (hb : checkRequest c env d reqB reports = .ok b) :
    (b.localElig = true → a.localElig = true) ∧
      (a.req.imgWant = .any ∨ a.req.imgWant = b.req.imgWant) := by
  obtain ⟨-, -, hany⟩ := of_queued h.queued
  obtain ⟨-, hfwd, -⟩ := of_queued h.queued'
  rcases checkRequest_cases c env d reqA reports with
    ⟨e, -, heq⟩ | ⟨-, ⟨-, heq⟩ | ⟨himage, ⟨e, -, heq⟩ | ⟨want, hwant, heq⟩⟩⟩ <;>
  rcases checkRequest_cases c env d reqB reports with
    ⟨e', -, heq'⟩ | ⟨-, ⟨hplain', heq'⟩ | ⟨-, ⟨e', -, heq'⟩ | ⟨want', hwant', heq'⟩⟩⟩ <;>
  rw [heq] at ha <;> rw [heq'] at hb <;> cases ha <;> cases hb
  · exact ⟨by rw [h.model]; exact id, .inl hany⟩
  · refine ⟨fun helig => ?_, .inl hany⟩
    rw [h.model] at helig
    exact (Bool.and_eq_true_iff.1 helig).1
  · exact absurd ⟨h.images himage.1, hfwd⟩ hplain'
  · rw [h.wantedClass_eq, hwant] at hwant'
    cases hwant'
    exact ⟨by rw [h.model]; exact id, .inr rfl⟩

/-- Room for the request behind is room for the one ahead. -/
theorem Behind.hasRoom {a b : Admitted β F} (ha : checkRequest c env d reqA reports = .ok a)
    (hb : checkRequest c env d reqB reports = .ok b)
    (hroom : Route.hasRoom c env b reports now rt = true) :
    Route.hasRoom c env a reports now rt = true := by
  obtain ⟨helig, hwant⟩ := h.admitted ha hb
  obtain ⟨hreqA, hbackendsA⟩ := checkRequest_ok ha
  obtain ⟨hreqB, hbackendsB⟩ := checkRequest_ok hb
  obtain ⟨hexclude, -, -⟩ := of_queued h.queued
  obtain ⟨hexclude', -, -⟩ := of_queued h.queued'
  have hmodel : b.req.model = a.req.model := by rw [hreqA, hreqB]; exact h.model
  have hhostA : a.req.host = "" := by rw [hreqA]; exact h.unpinned
  have hhostB : b.req.host = "" := by rw [hreqB]; exact h.unpinned'
  have hnone : a.req.exclude = b.req.exclude := by
    rw [hreqA, hreqB]
    exact hexclude.trans hexclude'.symm
  rw [hasRoom_iff] at hroom ⊢
  rcases hroom with ⟨hlocal, k, hopen⟩ | ⟨rep, hrep, ⟨mc, hopen⟩, hmark⟩
  · refine .inl ⟨?_, k, ?_, ?_, hopen.free⟩
    · rw [Admitted.localOpen_of_unpinned hhostB] at hlocal
      rw [Admitted.localOpen_of_unpinned hhostA]
      exact helig hlocal
    · rw [hbackendsA, ← h.model, ← hbackendsB]
      exact hopen.mem
    · have husable := hopen.usable
      unfold usable at husable ⊢
      rwa [hnone]
  · refine .inr ⟨rep, hrep, ⟨mc, ?_⟩, by rwa [← hmodel]⟩
    refine ⟨hopen.other, hopen.fresh, hmodel ▸ hopen.entry, hopen.healthy, .inl hhostA, ?_, ?_, ?_⟩
    · rw [hnone]
      exact hopen.notTried
    · rcases hwant with hany | hsame
      · exact .inl hany
      · rw [hsame]
        exact hopen.image
    · rw [← hmodel]
      exact hopen.free

/-- **Skipping.** Behind a stuck request, one that asks for no less is stuck, unless
it has an image that no host reads. -/
theorem Stuck.behind (hstuck : Stuck c env d now reqA rt)
    (hread : reqA.images = false → reqB.images = true →
      checkRequest c env d reqB env.reports ≠ .error .noImageInput) :
    Stuck c env d now reqB rt := by
  obtain ⟨a, ha, hnone⟩ := hstuck
  have hok : ∃ b, checkRequest c env d reqB env.reports = .ok b := by
    rcases checkRequest_cases c env d reqB env.reports with
      ⟨e, hserved, -⟩ | ⟨-, ⟨-, heq⟩ | ⟨himage, ⟨e, hwant, heq⟩ | ⟨want, -, heq⟩⟩⟩
    · -- The one ahead would not be served either.
      rcases checkRequest_cases c env d reqA env.reports with ⟨e', -, heq'⟩ | ⟨hserved', -⟩
      · rw [heq'] at ha
        cases ha
      · rw [h.model, h.checkServed_eq, hserved'] at hserved
        cases hserved
    · exact ⟨_, heq⟩
    · obtain rfl := imageClass_error hwant
      by_cases himgA : reqA.images = true
      · -- The one ahead asked the same hosts.
        obtain ⟨-, hfwd, -⟩ := of_queued h.queued
        rcases checkRequest_cases c env d reqA env.reports with
          ⟨e', -, heq'⟩ | ⟨-, ⟨hplain, -⟩ | ⟨-, ⟨e', -, heq'⟩ | ⟨want', hwant', -⟩⟩⟩
        · rw [heq'] at ha
          cases ha
        · exact absurd ⟨himgA, hfwd⟩ hplain
        · rw [heq'] at ha
          cases ha
        · rw [h.wantedClass_eq, hwant'] at hwant
          cases hwant
      · exact absurd heq (hread (Bool.eq_false_iff.2 himgA) himage.1)
    · exact ⟨_, heq⟩
  obtain ⟨b, hb⟩ := hok
  refine ⟨b, hb, Bool.eq_false_iff.2 fun hroom => ?_⟩
  rw [h.hasRoom ha hb hroom] at hnone
  cases hnone

end Questions

/-! ### A pass that hands out nothing -/

/-- No unpinned waiter without an image is ahead of one with an image that no host
reads. -/
def State.NoneHidden (c : Config β) (env : Env β F) (d : Draw F) (s : State β F) : Prop :=
  ∀ m a b wtA wtB, [a, b].Sublist (s.queue m) → s.waiters[a]? = some wtA →
    s.waiters[b]? = some wtB → wtA.req.host = "" → wtA.req.images = false →
    wtB.req.host = "" → wtB.req.images = true →
    checkRequest c env d wtB.req env.reports ≠ .error .noImageInput

/-- Only the router changed, and has no more room. -/
structure Idle (env : Env β F) (s₀ s : State β F) : Prop where
  waiters : s.waiters = s₀.waiters
  queues : s.queues = s₀.queues
  fuller : Fuller env.reports s₀.router s.router

/-- The scan came past the waiters of `pre`: all are stuck, and a flag that is up
was set by one of them. -/
structure Refusals (c : Config β) (env : Env β F) (d : Draw F) (now : Int) (s₀ : State β F)
    (pre : List Nat) (acc : State β F × Scan) : Prop where
  idle : Idle env s₀ acc.1
  stuck : ∀ w ∈ pre, ∀ wt, s₀.waiters[w]? = some wt → Stuck c env d now wt.req acc.1.router
  unpinnedFull : acc.2.unpinnedFull = true → ∃ w ∈ pre, ∃ wt, s₀.waiters[w]? = some wt ∧
    wt.req.host = "" ∧ wt.req.images = false
  imagesFull : acc.2.imagesFull = true → ∃ w ∈ pre, ∃ wt, s₀.waiters[w]? = some wt ∧
    wt.req.host = "" ∧ wt.req.images = true

section Pass

variable {c : Config β} {env : Env β F} {d : Draw F} {now : Int}
variable {s₀ s : State β F} {m : String} {pre rest : List Nat} {w : Nat} {wt : Waiter β F}
variable {acc : State β F × Scan}

theorem Idle.refl (env : Env β F) (s : State β F) : Idle env s s := ⟨rfl, rfl, .refl _ _⟩

theorem Idle.queue (h : Idle env s₀ s) (m : String) : s.queue m = s₀.queue m := by
  rw [State.queue, State.queue, h.queues]

theorem Idle.setRouter (h : Idle env s₀ s) {rt : Router β}
    (hfuller : Fuller env.reports s.router rt) : Idle env s₀ (s.setRouter rt) :=
  ⟨h.waiters, h.queues, h.fuller.trans hfuller⟩

/-- What a scan was stopped or moved by stays. -/
theorem scanWaiter_flags [DecidableEq β] [Float64 F] (acc : State β F × Scan) (w : Nat)
    (h : acc.2.progressed = true ∨ acc.2.panicked = true) :
    (scanWaiter c env env.reports acc w).2.progressed = true ∨
      (scanWaiter c env env.reports acc w).2.panicked = true :=
  scanWaiter_rule c env env.reports w
    (P := fun acc => acc.2.progressed = true ∨ acc.2.panicked = true) h
    fun wt _ v _ _ => h.imp (acc.2.note_progressed wt.req v) (acc.2.note_flags wt.req v).1

/-- All waiters of these queues are stuck, unless something was handed out. -/
def QueuesStuck (c : Config β) (env : Env β F) (d : Draw F) (now : Int) (s₀ : State β F)
    (ms : List String) (acc : State β F × Scan) : Prop :=
  (acc.2.progressed = true ∨ acc.2.panicked = true) ∨
    Idle env s₀ acc.1 ∧ ∀ m ∈ ms, ∀ w ∈ s₀.queue m, ∀ wt, s₀.waiters[w]? = some wt →
      Stuck c env d now wt.req acc.1.router

theorem mem_arrange {order keys : List String} {k : String} (h : k ∈ keys) :
    k ∈ arrange order keys := by
  unfold arrange
  by_cases hk : k ∈ order
  · exact mem_append_left _ (mem_dedup.2 (mem_filter.2 ⟨hk, by simpa using h⟩))
  · exact mem_append_right _ (mem_filter.2 ⟨h, by simpa using hk⟩)

theorem State.mem_keys_of_queue (h : w ∈ s.queue m) : m ∈ s.queues.keys := by
  by_contra hm
  rw [Std.ExtTreeMap.mem_keys] at hm
  rw [State.queue, Std.ExtTreeMap.getD_eq_fallback hm] at h
  cases h

variable (hwired : s₀.Wired) (hform : s₀.QueuedForm)
include hwired hform

/-- The waiter is behind every one the scan came past. -/
theorem behind_of_queue (hqueue : pre ++ w :: rest = s₀.queue m) (hw : s₀.waiters[w]? = some wt)
    {a : Nat} {wtA : Waiter β F} (ha : a ∈ pre) (hA : s₀.waiters[a]? = some wtA)
    (hhostA : wtA.req.host = "") (hhost : wt.req.host = "")
    (himages : wtA.req.images = true → wt.req.images = true) : Behind wtA.req wt.req := by
  have hmemA : a ∈ s₀.queue m := hqueue ▸ mem_append_left _ ha
  have hmem : w ∈ s₀.queue m := hqueue ▸ mem_append_right _ mem_cons_self
  have hmodel := (hwired.of_mem hw hmem).1.trans (hwired.of_mem hA hmemA).1.symm
  exact ⟨hmodel, hhostA, hhost, hform a wtA hA, hform w wt hw, himages⟩

variable (hhidden : s₀.NoneHidden c env d)
include hhidden

/-- A skipped waiter is stuck. -/
theorem Refusals.stuck_of_skips (h : Refusals c env d now s₀ pre acc)
    (hqueue : pre ++ w :: rest = s₀.queue m) (hw : s₀.waiters[w]? = some wt)
    (hskips : acc.2.skips wt.req = true) : Stuck c env d now wt.req acc.1.router := by
  obtain ⟨hhost, hflag⟩ := (Scan.skips_iff _ _).1 hskips
  rcases hflag with hflag | ⟨hflag, himage⟩
  · obtain ⟨a, ha, wtA, hA, hhostA, himgA⟩ := h.unpinnedFull hflag
    have hbehind := behind_of_queue hwired hform hqueue hw ha hA hhostA hhost (by simp [himgA])
    refine (h.stuck a ha wtA hA).behind hbehind fun _ himage => ?_
    have hahead : [a, w].Sublist (s₀.queue m) := by
      rw [← hqueue]
      exact (singleton_sublist.2 ha).append (singleton_sublist.2 mem_cons_self)
    exact hhidden m a w wtA wt hahead hA hw hhostA himgA hhost himage
  · obtain ⟨a, ha, wtA, hA, hhostA, himgA⟩ := h.imagesFull hflag
    have hbehind := behind_of_queue hwired hform hqueue hw ha hA hhostA hhost fun _ => himage
    refine (h.stuck a ha wtA hA).behind hbehind fun hplain => ?_
    rw [himgA] at hplain
    cases hplain

variable [DecidableEq β] [Float64 F] (hcall : SteadyCall c env now)
variable (hd : Steady c env.reports "" now d)
include hcall hd

/-- Past one more waiter, unless something was handed out. -/
theorem Refusals.scanWaiter (h : Refusals c env d now s₀ pre acc)
    (hqueue : pre ++ w :: rest = s₀.queue m) :
    ((scanWaiter c env env.reports acc w).2.progressed = true ∨
      (scanWaiter c env env.reports acc w).2.panicked = true) ∨
      Refusals c env d now s₀ (pre ++ [w]) (scanWaiter c env env.reports acc w) := by
  have hmem : w ∈ s₀.queue m := hqueue ▸ mem_append_right _ mem_cons_self
  obtain ⟨wt, hw, -⟩ := (hwired.queued w m).1 hmem
  have hw' : acc.1.waiters[w]? = some wt := by rw [h.idle.waiters]; exact hw
  -- One more stuck waiter, with the flags it may have set.
  have hadd : ∀ rt, Fuller env.reports acc.1.router rt → Stuck c env d now wt.req rt →
      ∀ w' ∈ pre ++ [w], ∀ wt', s₀.waiters[w']? = some wt' → Stuck c env d now wt'.req rt := by
    intro rt hfuller hstuck w' hw' wt' hwt'
    rcases mem_append.1 hw' with hpre | hlast
    · exact (h.stuck w' hpre wt' hwt').fuller hcall.one hfuller
    · rw [mem_singleton.1 hlast, hw] at hwt'
      cases hwt'
      exact hstuck
  have hmore : ∀ {P : Nat → Prop}, (∃ a ∈ pre, P a) → ∃ a ∈ pre ++ [w], P a :=
    fun ⟨a, ha, hP⟩ => ⟨a, mem_append_left _ ha, hP⟩
  rcases scanWaiter_cases c env env.reports w wt acc hw' with
    ⟨hskip, heq⟩ | ⟨-, s', v, hturn, heq⟩
  · rw [heq]
    rcases hskip with hpanicked | hskips
    · exact .inl (.inr hpanicked)
    · have hstuck := h.stuck_of_skips hwired hform hhidden hqueue hw hskips
      exact .inr ⟨h.idle, hadd _ (.refl _ _) hstuck, fun hflag => hmore (h.unpinnedFull hflag),
        fun hflag => hmore (h.imagesFull hflag)⟩
  · rw [heq]
    cases hturn with
    | lease | failed => exact .inl (.inl rfl)
    | panicked => exact .inl (.inr rfl)
    | full hpick =>
      have hfuller := pickWithReports_fuller c env (env.draw acc.2.picks) wt.req env.reports
        acc.1.router
      have hstuck := (hcall.full_iff hd (hcall.draws acc.2.picks)
        (of_queued (hform w wt hw)).2.1).1 hpick
      refine .inr ⟨h.idle.setRouter hfuller, hadd _ hfuller (hstuck.fuller hcall.one hfuller),
        fun hflag => ?_, fun hflag => ?_⟩
      · rcases Scan.unpinnedFull_note hflag with hflag | hreq
        · exact hmore (h.unpinnedFull hflag)
        · exact ⟨w, by simp, wt, hw, hreq⟩
      · rcases Scan.imagesFull_note hflag with hflag | hreq
        · exact hmore (h.imagesFull hflag)
        · exact ⟨w, by simp, wt, hw, hreq⟩

theorem QueuesStuck.scanQueue {ms : List String} (h : QueuesStuck c env d now s₀ ms acc)
    (m : String) :
    QueuesStuck c env d now s₀ (ms ++ [m]) (scanQueue c env env.reports acc m) := by
  unfold Route.scanQueue
  rcases h with hover | ⟨hidle, hstuck⟩
  · refine .inl (List.foldlRecOn (motive := fun acc : State β F × Scan =>
      acc.2.progressed = true ∨ acc.2.panicked = true) _ _ hover ?_)
    exact fun acc hacc w _ => scanWaiter_flags acc w hacc
  · let P : List Nat → State β F × Scan → Prop := fun pre acc' =>
      (acc'.2.progressed = true ∨ acc'.2.panicked = true) ∨
        Refusals c env d now s₀ pre acc' ∧ Fuller env.reports acc.1.router acc'.1.router
    have hscan : P (s₀.queue m) ((s₀.queue m).foldl (scanWaiter c env env.reports)
        (acc.1, { acc.2 with unpinnedFull := false, imagesFull := false })) := by
      refine Lib.foldl_prefix ?_ (.inr ⟨⟨hidle, by simp, by simp, by simp⟩, .refl _ _⟩)
      rintro pre w rest acc' hqueue (hover | ⟨href, hfuller⟩)
      · exact .inl (scanWaiter_flags acc' w hover)
      · have hscan := href.scanWaiter hwired hform hhidden hcall hd hqueue
        refine hscan.imp_right fun href' => ⟨href', ?_⟩
        exact scanWaiter_rule c env env.reports w
          (P := fun acc' => Fuller env.reports acc.1.router acc'.1.router) hfuller
          fun _ _ _ _ hturn => hfuller.trans (hturn.router ▸ pickWithReports_fuller ..)
    rw [hidle.queue]
    rcases hscan with hover | ⟨href, hfuller⟩
    · exact .inl hover
    · refine .inr ⟨href.idle, ?_⟩
      intro m' hm' w hw wt hwt
      rcases mem_append.1 hm' with hm' | hm'
      · exact (hstuck m' hm' w hw wt hwt).fuller hcall.one hfuller
      · rw [mem_singleton.1 hm'] at hw
        exact href.stuck w hw wt hwt

/-- **The last pass.** After a pass that hands out nothing every waiter still queued
is stuck. -/
theorem dispatchPass_stuck {pass : Nat} {sc : Scan}
    (hacc : dispatchPass c env env.reports pass (s₀, sc) = acc) (hidle : acc.2.progressed = false)
    (hpanic : acc.2.panicked = false) (hw : acc.1.waiters[w]? = some wt) (hmem : w ∈ acc.1.queue m) :
    Stuck c env d now wt.req acc.1.router := by
  have hpass : QueuesStuck c env d now s₀ (arrange (env.order pass) s₀.queues.keys)
      (dispatchPass c env env.reports pass (s₀, sc)) :=
    Lib.foldl_prefix (f := Route.scanQueue c env env.reports)
      (fun ms m' rest acc' _ h => h.scanQueue hwired hform hhidden hcall hd m')
      (.inr ⟨.refl _ _, by simp⟩)
  rw [hacc] at hpass
  rcases hpass with (hp | hp) | ⟨hsame, hstuck⟩
  · rw [hidle] at hp
    cases hp
  · rw [hpanic] at hp
    cases hp
  · rw [hsame.queue] at hmem
    rw [hsame.waiters] at hw
    exact hstuck m (mem_arrange (State.mem_keys_of_queue hmem)) w hmem wt hw

end Pass

/-! ### The whole dispatch -/

/-- Every waiter still queued would find no free slot. -/
def Settled [DecidableEq β] [Float64 F] (c : Config β) (env : Env β F) (d : Draw F)
    (s : State β F) : Prop :=
  ∀ m w wt, w ∈ s.queue m → s.waiters[w]? = some wt →
    (pickWithReports c env d wt.req env.reports s.router).2 = .error .noFreeSlot

section Dispatch

variable [DecidableEq β] [Float64 F] {c : Config β} {env : Env β F} {d : Draw F} {now : Int}
variable {s s' : State β F} {reports : List Report} {w : Nat} {wt : Waiter β F} {v : Verdict}
variable {m : String}

theorem Turn.queue_sublist (h : Turn c env d reports w wt s (s', v)) (m : String) :
    (s'.queue m).Sublist (s.queue m) := by
  have hcomplete : ∀ rt res, (((s.setRouter rt).complete w wt res).queue m).Sublist (s.queue m) := by
    intro rt res
    rw [State.queue_complete]
    split
    · rename_i hm
      subst hm
      exact erase_sublist
    · exact List.Sublist.refl _
  cases h with
  | lease | failed => exact hcomplete _ _
  | full | panicked => exact List.Sublist.refl _

/-- A waiter still queued after another's turn, or its own, is as before. -/
theorem Turn.getElem?_queued {w' : Nat} {wt' : Waiter β F} (h : Turn c env d reports w wt s (s', v))
    (hwired : s'.Wired) (hw : s.waiters[w]? = some wt) (hmem : w' ∈ s'.queue m)
    (hw' : s'.waiters[w']? = some wt') : s.waiters[w']? = some wt' := by
  by_cases hne : w' = w
  · subst hne
    have hdone := (hwired.of_mem hw' hmem).2
    have hcompleted : ∀ rt res, ((s.setRouter rt).complete w' wt res).waiters[w']? = some wt' →
        s.waiters[w']? = some wt' := by
      intro rt res hset
      have hself := State.getElem?_setWaiter_self (s := s.setRouter rt) hw
        { wt with done := true, result := wt.result ++ [res], sent := wt.sent ++ [res] }
      rw [show ((s.setRouter rt).complete w' wt res).waiters[w']? = _ from hself] at hset
      cases hset
      cases hdone
    cases h with
    | lease | failed => exact hcompleted _ _ hw'
    | full | panicked => exact hw'
  · rwa [h.getElem?_ne hne] at hw'

theorem State.NoneHidden.attempt {d' : Draw F} (h : s.NoneHidden c env d) (hwired : s.Wired)
    (hw : s.waiters[w]? = some wt) (hmem : w ∈ s.queue m) :
    (Route.attempt c env d' env.reports w wt s).1.NoneHidden c env d := by
  have hturn := attempt_turn c env d' env.reports w wt s
  have hwired' := hwired.attempt hw hmem c env d' env.reports
  generalize Route.attempt c env d' env.reports w wt s = out at hturn hwired'
  obtain ⟨s', v⟩ := out
  intro m' a b wtA wtB hahead hA hB
  exact h m' a b wtA wtB (hahead.trans (hturn.queue_sublist m'))
    (hturn.getElem?_queued hwired' hw (hahead.subset (by simp)) hA)
    (hturn.getElem?_queued hwired' hw (hahead.subset (by simp)) hB)

/-- A loop with fuel ends with a pass. -/
theorem dispatchLoop_last {P : State β F × Scan → Prop}
    (hpass : ∀ pass acc, P acc → P (dispatchPass c env env.reports pass acc)) (fuel : Nat) :
    ∀ (pass : Nat) (acc : State β F × Scan), P acc → ∃ pass' acc', P acc' ∧
      dispatchLoop c env env.reports (fuel + 1) pass acc =
        dispatchPass c env env.reports pass' acc' := by
  induction fuel with
  | zero =>
    intro pass acc hacc
    refine ⟨pass, acc, hacc, ?_⟩
    unfold dispatchLoop
    dsimp only
    split <;> rfl
  | succ fuel ih =>
    intro pass acc hacc
    unfold dispatchLoop
    dsimp only
    split
    · exact ih (pass + 1) _ (hpass pass acc hacc)
    · exact ⟨pass, acc, hacc, rfl⟩

/-- **Settled.** With no image request hidden behind a plain one, a dispatch that
returns leaves every waiter without a slot and without a definite error. -/
theorem State.NoneHidden.settled (hhidden : s.NoneHidden c env d) (hcall : SteadyCall c env now)
    (hd : Steady c env.reports "" now d) (hwired : s.Wired) (hform : s.QueuedForm)
    (hpanic : (dispatchAll c env s).2.panicked = false) :
    Settled c env d (Route.dispatch c env s) := by
  intro m w wt hmem hw
  unfold Route.dispatch at hmem hw ⊢
  split at hmem
  · -- No queue, no waiter.
    rename_i hempty
    rw [State.queue, Std.ExtTreeMap.isEmpty_iff.1 hempty, Std.ExtTreeMap.getD_empty] at hmem
    cases hmem
  rename_i hsome
  rw [if_neg hsome] at hw ⊢
  have hidle := (hwired.dispatchAll_settles env).resolve_right (by rw [hpanic]; simp)
  let P : State β F × Scan → Prop := fun acc =>
    acc.1.Wired ∧ acc.1.QueuedForm ∧ acc.1.NoneHidden c env d
  have hkept : KeptByAttempts c env P := by
    refine ⟨fun _ _ h => h.1.nodup, fun _ _ h => h, ?_⟩
    rintro s₁ sc d' w₁ wt₁ m₁ ⟨hwired₁, hform₁, hhidden₁⟩ hw₁ hmem₁
    exact ⟨hwired₁.attempt hw₁ hmem₁ c env d' env.reports, hform₁.attempt hw₁ env d' env.reports,
      hhidden₁.attempt hwired₁ hw₁ hmem₁⟩
  obtain ⟨pass, ⟨s₀, sc⟩, ⟨hwired₀, hform₀, hhidden₀⟩, hlast⟩ :=
    dispatchLoop_last (P := P) (fun pass _ h => hkept.pass pass h) s.waiters.length 0 (s, {})
      ⟨hwired, hform, hhidden⟩
  have hstuck := dispatchPass_stuck hwired₀ hform₀ hhidden₀ hcall hd hlast.symm hidle hpanic hw hmem
  have hform' : (dispatchAll c env s).1.QueuedForm := by
    show (dispatchLoop c env env.reports (s.waiters.length + 1) 0 (s, {})).1.QueuedForm
    rw [hlast]
    exact (hkept.pass pass ⟨hwired₀, hform₀, hhidden₀⟩).2.1
  exact (hcall.full_iff hd hd (of_queued (hform' w wt hw)).2.1).2 hstuck

end Dispatch

/-! ### A router without room -/

/-- No slot free and every peer marked as of `t`. -/
def fullRouter (env : Env β F) (t : Int) : Router β where
  slots := { (Router.new : Router β).slots with inFlight := fun b => env.slots b }
  memo := { (Router.new : Router β).memo with refused := fun _ => some t }

section Full

variable {c : Config β} {env : Env β F} {d : Draw F} {now t : Int} {rt : Router β}

section

variable (ht : ∀ rep ∈ env.reports, rep.asOf ≤ t)
include ht

theorem hasRoom_fullRouter (a : Admitted β F) :
    hasRoom c env a env.reports now (fullRouter env t) = false := by
  refine Bool.eq_false_iff.2 fun hroom => ?_
  rcases hasRoom_iff.1 hroom with ⟨-, b, hopen⟩ | ⟨rep, hrep, -, hmark⟩
  · have hfree := hopen.free
    simp [free, fullRouter] at hfree
  · have := ht rep hrep
    simp only [refusedBy, fullRouter, decide_eq_false_iff_not] at hmark
    omega

variable [DecidableEq β] [Float64 F] {s : State β F}

/-- From a full router on, a pick fails without a panic. -/
theorem pick_of_full (hcall : SteadyCall c env now)
    (hfuller : Fuller env.reports (fullRouter env t) rt) {req : Request F}
    (hfwd : req.forwarded = false) (d : Draw F) :
    (∃ e, e.definite = true ∧ checkRequest c env d req env.reports = .error e ∧
      (pickWithReports c env d req env.reports rt).2 = .error e) ∨
    (∃ a, checkRequest c env d req env.reports = .ok a) ∧
      (pickWithReports c env d req env.reports rt).2 = .error .noFreeSlot := by
  have hnone : ∀ a now', hasRoom c env a env.reports now' rt = false := by
    intro a now'
    refine Bool.eq_false_iff.2 fun hroom => ?_
    have := hfuller.hasRoom hcall.one le_rfl hroom
    rw [hasRoom_fullRouter ht] at this
    cases this
  cases hres : (pickWithReports c env d req env.reports rt).2 with
  | ok l =>
    obtain ⟨a, -, t', -, hroom⟩ := pickWithReports_hasRoom hcall.one hres
    cases (hnone a t').symm.trans hroom
  | error e =>
    rcases pickWithReports_error hcall.one hfwd (fun _ => hcall.named) hres with
      hcheck | ⟨a, hcheck, ⟨rfl, -⟩ | ⟨-, hroom⟩⟩
    · refine .inl ⟨e, ?_, hcheck, rfl⟩
      rcases checkRequest_error hcheck with rfl | rfl | rfl <;> rfl
    · exact .inr ⟨⟨a, hcheck⟩, rfl⟩
    · cases (hnone a d.scoredAt).symm.trans hroom

/-- A plain unpinned waiter that is served at all stays where it is. -/
theorem dispatch_full_keeps (hcall : SteadyCall c env now) (hwired : s.Wired) (hform : s.QueuedForm)
    (hrouter : s.router = fullRouter env t) {w : Nat} {wt : Waiter β F}
    (hw : s.waiters[w]? = some wt)
    (hcheck : ∀ d, ∃ a, checkRequest c env d wt.req env.reports = .ok a) :
    (dispatchAll c env s).2.panicked = false ∧ (Route.dispatch c env s).waiters[w]? = some wt := by
  let P : State β F × Scan → Prop := fun acc => (acc.1.Wired ∧ acc.1.QueuedForm) ∧
    Fuller env.reports (fullRouter env t) acc.1.router ∧ acc.2.panicked = false ∧
    acc.1.waiters[w]? = some wt
  have hkept : KeptByAttempts c env P := by
    refine ⟨fun _ _ h => h.1.1.nodup, fun _ _ h => h, ?_⟩
    rintro s₁ sc d w₁ wt₁ m ⟨⟨hwired₁, hform₁⟩, hfuller, hpanic, hkeep⟩ hw₁ hmem
    have hfwd := (of_queued (hform₁ w₁ wt₁ hw₁)).2.1
    have hpick := pick_of_full ht hcall hfuller hfwd d
    have hturn := attempt_turn c env d env.reports w₁ wt₁ s₁
    refine ⟨⟨hwired₁.attempt hw₁ hmem c env d env.reports,
      hform₁.attempt hw₁ env d env.reports⟩, ?_⟩
    generalize Route.attempt c env d env.reports w₁ wt₁ s₁ = out at hturn
    obtain ⟨s₂, v⟩ := out
    refine ⟨hfuller.trans (hturn.router ▸ pickWithReports_fuller ..), ?_, ?_⟩
    · refine Scan.note_not_panicked hpanic ?_
      rintro rfl
      cases hturn with
      | panicked herr =>
        rw [herr] at hpick
        rcases hpick with ⟨e, he, -, heq⟩ | ⟨-, heq⟩
        · cases heq
          cases he
        · cases heq
    · by_cases hne : w = w₁
      · -- Its own turn: served, and so refused.
        subst hne
        rw [hkeep] at hw₁
        cases hw₁
        obtain ⟨a, ha⟩ := hcheck d
        have hfull : (pickWithReports c env d wt.req env.reports s₁.router).2 =
            .error .noFreeSlot := by
          rcases hpick with ⟨e, -, herr, -⟩ | ⟨-, hfull⟩
          · rw [ha] at herr
            cases herr
          · exact hfull
        cases hturn with
        | full | panicked => exact hkeep
        | lease l hl =>
          rw [hfull] at hl
          cases hl
        | failed e he herr =>
          rw [hfull] at herr
          cases herr
          cases he
      · exact (hturn.getElem?_ne hne).trans hkeep
  have hstart : P (s, {}) := ⟨⟨hwired, hform⟩, hrouter ▸ .refl _ _, rfl, hw⟩
  have hend : P (dispatchAll c env s) :=
    dispatchLoop_invariant (fun pass acc hacc => hkept.pass pass hacc) _ _ _ hstart
  refine ⟨hend.2.2.1, ?_⟩
  unfold Route.dispatch
  split
  · exact hw
  · exact hend.2.2.2

end

end Full

/-! ### Exactly when -/

section

variable [DecidableEq β] [Float64 F] {c : Config β} {env : Env β F} {d : Draw F} {now : Int}
variable {s : State β F}

end

/-- The peer is full and its model reads no image. -/
def blindReport (sent : Int) : Report :=
  { peerReport sent 0 0 with models := [{ peerCapacity 0 0 with images := some false }] }

theorem forwardingEnv_steadyCall {reports : List Report} (hone : OnePerNode reports) (now : Int) :
    SteadyCall forwardingConfig (forwardingEnv reports now) now := by
  refine ⟨hone, by decide, ?_⟩
  intro k rep _ _ t ht
  have : t = now := by simpa [forwardingEnv, Draw.readings] using ht
  rw [this]

end Viiwork.Route

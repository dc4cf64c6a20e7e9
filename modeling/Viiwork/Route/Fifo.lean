import Viiwork.Route.Occupancy
import Viiwork.Route.Overcommit

/-!
# Viiwork.Route.Fifo

**First come, first served.** In one dispatch, no waiter gets a slot past one that
is ahead of it and asks for no more.

What keeps the order differs. Between unpinned waiters it is the flags: a refused
waiter makes the scan skip those behind it. Between waiters pinned to one host it
is the slots: every one of them is asked, and within a dispatch slots are only
taken (`Fuller`) and reports only age, so what was refused to the first is not
found by the second. The induction over the dispatch is one for both, over what
holds from the first waiter's refusal to the second's turn (`Blocks`).
-/

namespace Viiwork.Route

open List

variable {β F : Type}

/-! ### Slots only fill up -/

/-- A report only ages. -/
theorem Report.fresh_of_le {rep : Report} {now now' staleAfter : Int} (hle : now ≤ now')
    (h : rep.fresh now' staleAfter = true) : rep.fresh now staleAfter = true := by
  simp only [Report.fresh, decide_eq_true_eq] at h ⊢
  omega

/-- From `rt` to `rt'` slots were taken and outdated marks cleared. -/
structure Fuller (reports : List Report) (rt rt' : Router β) : Prop where
  inFlight : ∀ b, rt.slots.inFlight b ≤ rt'.slots.inFlight b
  reserved : ∀ key asOf, reserved rt.slots key asOf ≤ reserved rt'.slots key asOf
  cleared : Cleared reports rt.memo.refused rt'.memo.refused

namespace Fuller

variable {reports : List Report} {rt rt' rt'' : Router β}

theorem refl (reports : List Report) (rt : Router β) : Fuller reports rt rt :=
  ⟨fun _ => le_rfl, fun _ _ => le_rfl, .refl _ _⟩

theorem trans (h : Fuller reports rt rt') (h' : Fuller reports rt' rt'') :
    Fuller reports rt rt'' :=
  ⟨fun b => (h.inFlight b).trans (h'.inFlight b),
    fun key asOf => (h.reserved key asOf).trans (h'.reserved key asOf),
    h.cleared.trans h'.cleared⟩

/-- Who finds room later would have found it earlier. -/
theorem hasRoom (h : Fuller reports rt rt') (hone : OnePerNode reports) {c : Config β}
    {env : Env β F} {a : Admitted β F} {now now' : Int} (hle : now ≤ now')
    (hroom : Route.hasRoom c env a reports now' rt' = true) :
    Route.hasRoom c env a reports now rt = true := by
  rw [hasRoom_iff] at hroom ⊢
  rcases hroom with ⟨hlocal, b, hopen⟩ | ⟨rep, hrep, ⟨mc, hopen⟩, hmark⟩
  · have hfree := hopen.free
    have := h.inFlight b
    unfold free at hfree
    exact .inl ⟨hlocal, b, hopen.mem, hopen.usable, by unfold free; omega⟩
  · refine .inr ⟨rep, hrep, ⟨mc, { hopen with fresh := ?_, free := ?_ }⟩, ?_⟩
    · exact Report.fresh_of_le hle hopen.fresh
    · have hfree := hopen.free
      have := h.reserved ⟨rep.node, a.req.model⟩ rep.asOf
      omega
    · rwa [h.cleared.refusedBy_eq hone hrep] at hmark

end Fuller

variable {req : Request F}

theorem Found.fuller [DecidableEq β] {c : Config β} {env : Env β F} {d : Draw F} {backends : List β}
    {localElig : Bool} {reports : List Report} {rt rt' : Router β} {l : Option (Lease β)}
    (h : Found c env d req backends localElig reports rt rt' l) : Fuller reports rt rt' := by
  refine ⟨?_, ?_, h.cleared⟩
  · intro b
    cases h with
    | nothing | peer => exact le_rfl
    | backend b' memo hcleared helig hopen =>
      show _ ≤ Function.update rt.slots.inFlight b' (rt.slots.inFlight b' + 1) b
      by_cases hb : b = b'
      · subst hb
        rw [Function.update_self]
        omega
      · rw [Function.update_of_ne hb]
  · intro key asOf
    cases h with
    | nothing | backend => exact le_rfl
    | peer rep now memo hcleared hnow hfound =>
      rw [reserved_peerLease]
      exact Nat.le_add_right _ _

theorem pickWithReports_fuller [DecidableEq β] [Float64 F] (c : Config β) (env : Env β F)
    (d : Draw F) (req : Request F) (reports : List Report) (rt : Router β) :
    Fuller reports rt (pickWithReports c env d req reports rt).1 := by
  rcases pickWithReports_found c env d reports req rt with ⟨e, -, heq⟩ | ⟨a, -, hfound⟩
  · rw [heq]
    exact .refl _ _
  · exact hfound.fuller

/-! ### Two requests pinned to one host -/

/-- No clock reading of a pick is behind one of an earlier pick. -/
def Env.ClockForward (env : Env β F) : Prop :=
  ∀ i j, i < j → ∀ t ∈ (env.draw i).readings, ∀ t' ∈ (env.draw j).readings, t ≤ t'

/-- A queued request excludes nothing, was not forwarded and has no image class yet. -/
theorem of_queued (h : queuedReq req = req) :
    req.exclude = [] ∧ req.forwarded = false ∧ req.imgWant = .any :=
  ⟨(congrArg Request.exclude h).symm, (congrArg Request.forwarded h).symm,
    (congrArg Request.imgWant h).symm⟩

/-- The two queued requests ask the same pinned host the same. -/
structure SamePin (req req' : Request F) : Prop where
  pinned : req.host ≠ ""
  model : req'.model = req.model
  host : req'.host = req.host
  images : req'.images = req.images
  queued : queuedReq req = req
  queued' : queuedReq req' = req'

section Pinned

variable {c : Config β} {env : Env β F} {d d' : Draw F} {req req' : Request F}
variable {reports : List Report} {rt rt' : Router β} {a a' : Admitted β F} {now : Int}

/-- Where the later request has room, the host answered the earlier one with the
class the later one was given. -/
theorem SamePin.yes_iff (h : SamePin req req') (hone : OnePerNode reports)
    (hle : d.imagesAt ≤ now) {want : ImageClass} (hwant : wantedClass c env d' req' reports = .ok want)
    (ha' : a'.req = { req' with imgWant := want })
    (hroom : hasRoom c env a' reports now rt = true) :
    .yes ∈ imageAnswers c env req ((env.backends req.model).isSome &&
      anyHealthy env (env.localOf req.model).1) reports d.imagesAt ↔ want = .yes := by
  have hclass := imageClass_ok hwant
  rw [mem_imageAnswers, h.host, h.model] at hclass
  rw [mem_imageAnswers]
  rcases hasRoom_iff.1 hroom with ⟨hlocal, -⟩ | ⟨rep, hrep, ⟨mc, hopen⟩, -⟩
  · -- This node answers both, whatever the time.
    have hhost : req.host = c.self := by
      simpa [Admitted.localOpen, ha', h.host, h.pinned] using (Bool.and_eq_true_iff.1 hlocal).2
    simp only [hhost, ne_eq, not_true_eq_false, false_and, or_false] at hclass ⊢
    rcases hclass with ⟨rfl, hyes⟩ | ⟨rfl, hno⟩
    · exact iff_of_true hyes rfl
    · exact iff_of_false hno (by decide)
  · have hpin : rep.node = req.host := by
      simpa [ha', h.host, h.pinned] using hopen.pin
    have hhost : req.host ≠ c.self := hpin ▸ hopen.other
    have hentry : rep.model req.model = some mc := by
      simpa [ha', h.model] using hopen.entry
    have himage : classOf mc.images = want := by
      have := hopen.image
      rw [ha'] at this
      rcases hclass with ⟨rfl, -⟩ | ⟨rfl, -⟩ <;> simpa using this
    rw [← himage]
    constructor
    · rintro (⟨-, hself, -⟩ | ⟨-, rep', hrep', -, hpin', -, mc', hentry', -, hyes⟩)
      · exact absurd (hself.resolve_left h.pinned) hhost
      · -- The pinned host has one report.
        have hnode : rep'.node = rep.node := (hpin'.resolve_left h.pinned).trans hpin.symm
        obtain rfl := hone.eq hrep hrep' hnode
        rw [hentry] at hentry'
        cases hentry'
        exact hyes
    · intro hyes
      exact .inr ⟨hhost, rep, hrep, hopen.other, .inr hpin, Report.fresh_of_le hle hopen.fresh, mc,
        hentry, hopen.healthy, hyes⟩

/-- The earlier request was admitted to the same hosts. -/
theorem SamePin.admitted_eq (h : SamePin req req') (hone : OnePerNode reports)
    (hle : d.imagesAt ≤ now) (hcheck : checkRequest c env d req reports = .ok a)
    (hcheck' : checkRequest c env d' req' reports = .ok a')
    (hroom : hasRoom c env a' reports now rt = true) :
    a'.req.imgWant = a.req.imgWant ∧ a'.localElig = a.localElig := by
  obtain ⟨-, hfwd, hany⟩ := of_queued h.queued
  obtain ⟨-, hfwd', hany'⟩ := of_queued h.queued'
  rcases checkRequest_cases c env d req reports with
    ⟨e, -, heq⟩ | ⟨-, ⟨hplain, heq⟩ | ⟨himage, ⟨e, -, heq⟩ | ⟨want, hwant, heq⟩⟩⟩ <;>
  rcases checkRequest_cases c env d' req' reports with
    ⟨e', -, heq'⟩ | ⟨-, ⟨hplain', heq'⟩ | ⟨himage', ⟨e', -, heq'⟩ | ⟨want', hwant', heq'⟩⟩⟩ <;>
  rw [heq] at hcheck <;> rw [heq'] at hcheck' <;> cases hcheck <;> cases hcheck'
  · exact ⟨hany'.trans hany.symm, by rw [h.model]⟩
  · exact absurd ⟨h.images ▸ himage'.1, hfwd⟩ hplain
  · exact absurd ⟨h.images.trans himage.1, hfwd'⟩ hplain'
  · have hyes := h.yes_iff hone hle hwant' rfl hroom
    have heq : want' = want := by
      rcases imageClass_ok hwant with ⟨rfl, hmem⟩ | ⟨rfl, hmem⟩
      · exact hyes.1 hmem
      · rcases imageClass_ok hwant' with ⟨rfl, -⟩ | ⟨rfl, -⟩
        · exact absurd (hyes.2 rfl) hmem
        · rfl
    subst heq
    exact ⟨rfl, by rw [h.model]⟩

/-- Room is a matter of what the checks read. -/
theorem hasRoom_admitted_congr (hmodel : a'.req.model = a.req.model)
    (hhost : a'.req.host = a.req.host) (hexclude : a'.req.exclude = a.req.exclude)
    (hwant : a'.req.imgWant = a.req.imgWant) (hbackends : a'.backends = a.backends)
    (helig : a'.localElig = a.localElig) (now : Int) (rt : Router β) :
    hasRoom c env a' reports now rt = hasRoom c env a reports now rt := by
  unfold hasRoom Admitted.localOpen localHasFree usable peerHasFree peerFree
  rw [hmodel, hhost, hexclude, hwant, hbackends, helig]

/-- **The second of two pinned requests.** What the first did not find, the second
does not find later. -/
theorem SamePin.not_served [DecidableEq β] [Float64 F] (h : SamePin req req')
    (hone : OnePerNode reports) (hclock : ∀ t ∈ d.readings, ∀ t' ∈ d'.readings, t ≤ t')
    (hfull : (pickWithReports c env d req reports rt).2 = .error .noFreeSlot)
    (hfuller : Fuller reports rt rt') (l : Lease β) :
    (pickWithReports c env d' req' reports rt').2 ≠ .ok l := by
  intro hok
  obtain ⟨a', hcheck', t, ht, hroom⟩ := pickWithReports_hasRoom hone hok
  obtain ⟨hexclude, hfwd, -⟩ := of_queued h.queued
  obtain ⟨hexclude', -, -⟩ := of_queued h.queued'
  obtain ⟨a, hcheck, hnone⟩ :=
    pickWithReports_full hone hfwd (fun hself => hself ▸ h.pinned) hfull
  obtain ⟨hwant, helig⟩ := h.admitted_eq hone
    (hclock d.imagesAt (by simp [Draw.readings]) t ht) hcheck hcheck' hroom
  obtain ⟨hreq, hbackends⟩ := checkRequest_ok hcheck
  obtain ⟨hreq', hbackends'⟩ := checkRequest_ok hcheck'
  have hearlier : hasRoom c env a' reports d.peerAt rt = true :=
    hfuller.hasRoom hone (hclock d.peerAt (by simp [Draw.readings]) t ht) hroom
  have hsame : hasRoom c env a' reports d.peerAt rt = hasRoom c env a reports d.peerAt rt := by
    refine hasRoom_admitted_congr ?_ ?_ ?_ hwant ?_ helig _ _
    · rw [hreq, hreq']
      exact h.model
    · rw [hreq, hreq']
      exact h.host
    · rw [hreq, hreq']
      exact hexclude'.trans hexclude.symm
    · rw [hbackends, hbackends', h.model]
  rw [hsame, hnone] at hearlier
  cases hearlier

end Pinned

/-! ### One waiter's turn -/

/-- An error that waiting does not mend. -/
def PickErr.definite : PickErr → Bool
  | .modelNotFound | .hostNotServing | .noImageInput => true
  | .noFreeSlot | .panic => false

/-- A lease or a definite error. -/
def WaitResult.isAnswer : WaitResult β → Bool
  | .lease _ => true
  | .err e => e.definite

section Turns

variable [DecidableEq β] [Float64 F]

/-- What a waiter's turn can come to, by what its pick returns. -/
inductive Turn (c : Config β) (env : Env β F) (d : Draw F) (reports : List Report) (w : Nat)
    (wt : Waiter β F) (s : State β F) : State β F × Verdict → Prop
  | lease (l : Lease β) (hpick : (pickWithReports c env d wt.req reports s.router).2 = .ok l) :
      Turn c env d reports w wt s
        ((s.setRouter (pickWithReports c env d wt.req reports s.router).1).complete w wt (.lease l),
          .completed)
  | failed (e : PickErr) (he : e.definite = true)
      (hpick : (pickWithReports c env d wt.req reports s.router).2 = .error e) :
      Turn c env d reports w wt s
        ((s.setRouter (pickWithReports c env d wt.req reports s.router).1).complete w wt (.err e),
          .completed)
  | full (hpick : (pickWithReports c env d wt.req reports s.router).2 = .error .noFreeSlot) :
      Turn c env d reports w wt s
        (s.setRouter (pickWithReports c env d wt.req reports s.router).1, .full)
  | panicked (hpick : (pickWithReports c env d wt.req reports s.router).2 = .error .panic) :
      Turn c env d reports w wt s
        (s.setRouter (pickWithReports c env d wt.req reports s.router).1, .panicked)

variable (c : Config β) (env : Env β F) (d : Draw F) (reports : List Report) (w : Nat)
variable (wt : Waiter β F) (s : State β F)

theorem attempt_turn :
    Turn c env d reports w wt s (attempt c env d reports w wt s) := by
  unfold attempt
  rw [← @Prod.mk.eta _ _ (pickWithReports c env d wt.req reports s.router)]
  cases hres : (pickWithReports c env d wt.req reports s.router).2 with
  | ok l => exact .lease l hres
  | error e =>
    cases e with
    | noFreeSlot => exact .full hres
    | panic => exact .panicked hres
    | modelNotFound | hostNotServing | noImageInput => exact .failed _ rfl hres

/-- The scan skips the waiter, or it has its turn. -/
theorem scanWaiter_cases (acc : State β F × Scan) (hw : acc.1.waiters[w]? = some wt) :
    (acc.2.panicked = true ∨ acc.2.skips wt.req = true) ∧
      scanWaiter c env reports acc w = acc ∨
    ¬(acc.2.panicked = true ∨ acc.2.skips wt.req = true) ∧
      ∃ s v, Turn c env (env.draw acc.2.picks) reports w wt acc.1 (s, v) ∧
        scanWaiter c env reports acc w = (s, acc.2.note wt.req v) := by
  by_cases hskip : acc.2.panicked = true ∨ acc.2.skips wt.req = true
  · exact .inl ⟨hskip, by simp only [scanWaiter, hw, if_pos hskip]⟩
  · refine .inr ⟨hskip, (attempt c env (env.draw acc.2.picks) reports w wt acc.1).1,
      (attempt c env (env.draw acc.2.picks) reports w wt acc.1).2, attempt_turn .., ?_⟩
    simp only [scanWaiter, hw, if_neg hskip]

/-- What holds of a scan, and after a turn, holds after the next waiter. -/
theorem scanWaiter_rule {P : State β F × Scan → Prop} {acc : State β F × Scan} (hacc : P acc)
    (hturn : ∀ wt s v, acc.1.waiters[w]? = some wt →
      Turn c env (env.draw acc.2.picks) reports w wt acc.1 (s, v) → P (s, acc.2.note wt.req v)) :
    P (scanWaiter c env reports acc w) := by
  cases hw : acc.1.waiters[w]? with
  | none =>
    rw [show scanWaiter c env reports acc w = acc by simp only [scanWaiter, hw]]
    exact hacc
  | some wt =>
    rcases scanWaiter_cases c env reports w wt acc hw with ⟨-, heq⟩ | ⟨-, s', v, h, heq⟩
    · rw [heq]
      exact hacc
    · rw [heq]
      exact hturn wt s' v hw h

end Turns

/-! ### Two waiters of one queue -/

/-- Both wait, `a` ahead of `b`. -/
structure Waiting (m : String) (a b : Nat) (wtA wtB : Waiter β F) (s : State β F) : Prop where
  first : s.waiters[a]? = some wtA
  second : s.waiters[b]? = some wtB
  ahead : [a, b].Sublist (s.queue m)

/-- The waiter was completed with such a result. -/
def Ended (Ends : WaitResult β → Prop) (w : Nat) (s : State β F) : Prop :=
  ∃ wt res, s.waiters[w]? = some wt ∧ wt.done = true ∧ wt.sent = [res] ∧ Ends res

/-- The waiter was completed with a lease or a definite error. -/
def Answered (w : Nat) (s : State β F) : Prop := Ended (fun res => res.isAnswer = true) w s

/-- Between two scans: both wait, or the first is answered, or the second ended
with what it may end with while the first waits. -/
def Ordered (Ends : WaitResult β → Prop) (m : String) (a b : Nat) (wtA wtB : Waiter β F)
    (s : State β F) : Prop :=
  Waiting m a b wtA wtB s ∨ Answered a s ∨ Ended Ends b s

/-- A scan with `rest` still to come: it is ahead of both waiters, or past the first
with the second blocked, or one of them is done. -/
inductive InOrder (Ends : WaitResult β → Prop) (m : String) (a b : Nat) (wtA wtB : Waiter β F)
    (Blocked : State β F × Scan → Prop) (rest : List Nat) (acc : State β F × Scan) : Prop
  | before (hwait : Waiting m a b wtA wtB acc.1) (hrest : [a, b].Sublist rest)
  | blocked (hwait : Waiting m a b wtA wtB acc.1) (ha : a ∉ rest) (hb : b ∈ rest → Blocked acc)
  | answered (h : Answered a acc.1) (ha : a ∉ rest)
  | ended (h : Ended Ends b acc.1) (hb : b ∉ rest)

section Scans

variable [DecidableEq β] [Float64 F]

/-- What holds from the first waiter's refusal on, until the second's turn, which
then can only end in some ways. -/
structure Blocks (c : Config β) (env : Env β F) (Ends : WaitResult β → Prop)
    (reqA reqB : Request F) (Blocked : State β F × Scan → Prop) : Prop where
  skipped : ∀ acc, acc.2.panicked = true ∨ acc.2.skips reqA = true → Blocked acc
  refused : ∀ (s : State β F) (sc : Scan), (pickWithReports c env (env.draw sc.picks) reqA env.reports s.router).2 =
      .error .noFreeSlot →
    Blocked (s.setRouter (pickWithReports c env (env.draw sc.picks) reqA env.reports s.router).1,
      sc.note reqA .full)
  turn : ∀ s sc w wt s' v, Turn c env (env.draw sc.picks) env.reports w wt s (s', v) →
    Blocked (s, sc) → Blocked (s', sc.note wt.req v)
  second : ∀ (s : State β F) (sc : Scan), Blocked (s, sc) →
    ¬(sc.panicked = true ∨ sc.skips reqB = true) →
    (∀ l, (pickWithReports c env (env.draw sc.picks) reqB env.reports s.router).2 = .ok l →
      Ends (.lease l)) ∧
    ∀ e, e.definite = true →
      (pickWithReports c env (env.draw sc.picks) reqB env.reports s.router).2 = .error e →
      Ends (.err e)

variable {c : Config β} {env : Env β F} {d : Draw F} {reports : List Report}
variable {w w' a b : Nat} {wt wtA wtB : Waiter β F} {s s' : State β F} {v : Verdict} {m : String}
variable {Ends : WaitResult β → Prop}

theorem Turn.getElem?_ne (h : Turn c env d reports w wt s (s', v)) (hne : w' ≠ w) :
    s'.waiters[w']? = s.waiters[w']? := by
  cases h with
  | lease | failed => exact State.getElem?_setWaiter_ne _ _ (Ne.symm hne)
  | full | panicked => rfl

theorem Turn.ahead (h : Turn c env d reports w wt s (s', v)) (ha : a ≠ w) (hb : b ≠ w)
    (hahead : [a, b].Sublist (s.queue m)) : [a, b].Sublist (s'.queue m) := by
  have hcomplete : ∀ rt res, [a, b].Sublist (((s.setRouter rt).complete w wt res).queue m) := by
    intro rt res
    rw [State.queue_complete]
    split
    · rename_i hm
      subst hm
      have herase : [a, b].erase w = [a, b] := erase_of_not_mem (by simp [ha.symm, hb.symm])
      rw [← herase]
      exact hahead.erase w
    · exact hahead
  cases h with
  | lease | failed => exact hcomplete _ _
  | full | panicked => exact hahead

omit [DecidableEq β] [Float64 F] in
/-- A waiter with nothing sent yet is completed. -/
theorem ended_complete (hw : s.waiters[w]? = some wt) (hsent : wt.sent = []) (rt : Router β)
    {res : WaitResult β} (hres : Ends res) : Ended Ends w ((s.setRouter rt).complete w wt res) :=
  ⟨_, res, State.getElem?_setWaiter_self (s := s.setRouter rt) hw _, rfl, by simp [hsent], hres⟩

variable {Blocked : State β F × Scan → Prop} {acc : State β F × Scan} {rest : List Nat} {sc : Scan}

/-- The turn of the first waiter: it is answered, or it blocks the second. -/
theorem InOrder.first (hB : Blocks c env Ends wtA.req wtB.req Blocked) (hsent : wtA.sent = [])
    (hwait : Waiting m a b wtA wtB s) (ha : a ∉ rest) :
    InOrder Ends m a b wtA wtB Blocked rest (scanWaiter c env env.reports (s, sc) a) := by
  rcases scanWaiter_cases c env env.reports a wtA (s, sc) hwait.first with
    ⟨hskip, heq⟩ | ⟨-, s', v, hturn, heq⟩
  · rw [heq]
    exact .blocked hwait ha fun _ => hB.skipped _ hskip
  · rw [heq]
    cases hturn with
    | lease l hpick => exact .answered (ended_complete hwait.first hsent _ rfl) ha
    | failed e he hpick => exact .answered (ended_complete hwait.first hsent _ he) ha
    | full hpick =>
      exact .blocked ⟨hwait.first, hwait.second, hwait.ahead⟩ ha fun _ => hB.refused s sc hpick
    | panicked hpick =>
      exact .blocked ⟨hwait.first, hwait.second, hwait.ahead⟩ ha
        fun _ => hB.skipped _ (.inl rfl)

/-- The turn of the blocked second waiter: if it ends, then as it may. -/
theorem InOrder.second (hB : Blocks c env Ends wtA.req wtB.req Blocked) (hsent : wtB.sent = [])
    (hwait : Waiting m a b wtA wtB s) (hblocked : Blocked (s, sc)) (ha : a ∉ rest) (hb : b ∉ rest) :
    InOrder Ends m a b wtA wtB Blocked rest (scanWaiter c env env.reports (s, sc) b) := by
  rcases scanWaiter_cases c env env.reports b wtB (s, sc) hwait.second with
    ⟨-, heq⟩ | ⟨hturns, s', v, hturn, heq⟩
  · rw [heq]
    exact .blocked hwait ha fun h => absurd h hb
  · rw [heq]
    cases hturn with
    | lease l hpick =>
      exact .ended (ended_complete hwait.second hsent _
        ((hB.second s sc hblocked hturns).1 l hpick)) hb
    | failed e he hpick =>
      exact .ended (ended_complete hwait.second hsent _
        ((hB.second s sc hblocked hturns).2 e he hpick)) hb
    | full | panicked =>
      exact .blocked ⟨hwait.first, hwait.second, hwait.ahead⟩ ha fun h => absurd h hb

/-- A waiter is untouched by another's turn. -/
theorem getElem?_scanWaiter_ne (acc : State β F × Scan) (hne : a ≠ w) :
    (scanWaiter c env env.reports acc w).1.waiters[a]? = acc.1.waiters[a]? :=
  scanWaiter_rule c env env.reports w (P := fun acc' => acc'.1.waiters[a]? = acc.1.waiters[a]?)
    rfl fun _ _ _ _ hturn => hturn.getElem?_ne hne

theorem Waiting.scanWaiter (h : Waiting m a b wtA wtB acc.1) (ha : a ≠ w) (hb : b ≠ w) :
    Waiting m a b wtA wtB (Route.scanWaiter c env env.reports acc w).1 :=
  ⟨(getElem?_scanWaiter_ne acc ha).trans h.first, (getElem?_scanWaiter_ne acc hb).trans h.second,
    scanWaiter_rule c env env.reports w (P := fun acc' => [a, b].Sublist (acc'.1.queue m))
      h.ahead fun _ _ _ _ hturn => hturn.ahead ha hb h.ahead⟩

theorem Blocks.scanWaiter {reqA reqB : Request F} (hB : Blocks c env Ends reqA reqB Blocked)
    (h : Blocked acc) (w : Nat) : Blocked (Route.scanWaiter c env env.reports acc w) :=
  scanWaiter_rule c env env.reports w h fun wt s' v _ hturn => hB.turn _ _ w wt s' v hturn h

/-- **A scan keeps the order.** The induction is over the waiters still to come. -/
theorem InOrder.scan (hB : Blocks c env Ends wtA.req wtB.req Blocked) (hsentA : wtA.sent = [])
    (hsentB : wtB.sent = []) {ws : List Nat} (hnodup : ws.Nodup)
    (h : InOrder Ends m a b wtA wtB Blocked ws acc) :
    InOrder Ends m a b wtA wtB Blocked [] (ws.foldl (scanWaiter c env env.reports) acc) := by
  induction ws generalizing acc with
  | nil => exact h
  | cons w ws ih =>
    obtain ⟨hw, hws⟩ := nodup_cons.1 hnodup
    rw [foldl_cons]
    refine ih hws ?_
    cases h with
    | before hwait hrest =>
      by_cases ha : a = w
      · subst ha
        exact .first hB hsentA hwait hw
      · have hahead : [a, b].Sublist ws := hrest.of_cons_of_ne ha
        have hb : b ≠ w := fun hb => hw (hb ▸ hahead.subset (by simp))
        exact .before (hwait.scanWaiter ha hb) hahead
    | blocked hwait harest hblocked =>
      rw [mem_cons, not_or] at harest
      by_cases hb : b = w
      · subst hb
        exact .second hB hsentB hwait (hblocked mem_cons_self) harest.2 hw
      · refine .blocked (hwait.scanWaiter harest.1 hb) harest.2 fun hmem => ?_
        exact hB.scanWaiter (hblocked (mem_cons_of_mem _ hmem)) w
    | answered hans harest =>
      rw [mem_cons, not_or] at harest
      obtain ⟨wt, res, hwt, hrec⟩ := hans
      exact .answered ⟨wt, res, (getElem?_scanWaiter_ne acc harest.1).trans hwt, hrec⟩ harest.2
    | ended hend hbrest =>
      rw [mem_cons, not_or] at hbrest
      obtain ⟨wt, res, hwt, hrec⟩ := hend
      exact .ended ⟨wt, res, (getElem?_scanWaiter_ne acc hbrest.1).trans hwt, hrec⟩ hbrest.2

omit [DecidableEq β] [Float64 F] in
theorem InOrder.ordered (h : InOrder Ends m a b wtA wtB Blocked [] acc) :
    Ordered Ends m a b wtA wtB acc.1 := by
  cases h with
  | before hwait _ | blocked hwait _ _ => exact .inl hwait
  | answered hans _ => exact .inr (.inl hans)
  | ended hend _ => exact .inr (.inr hend)

omit [DecidableEq β] [Float64 F] in
theorem Ordered.start (hwired : s.Wired) (hmodelA : wtA.req.model = m)
    (hmodelB : wtB.req.model = m) (h : Ordered Ends m a b wtA wtB s) (m' : String) (sc : Scan) :
    InOrder Ends m a b wtA wtB Blocked (s.queue m') (s, sc) := by
  have hdone : ∀ w wt, s.waiters[w]? = some wt → wt.done = true → w ∉ s.queue m' := by
    intro w wt hw hdone hmem
    rw [(hwired.of_mem hw hmem).2] at hdone
    cases hdone
  rcases h with hwait | ⟨wt, res, hw, hd, hsent⟩ | ⟨wt, res, hw, hd, hsent⟩
  · by_cases hm : m' = m
    · subst hm
      exact .before hwait hwait.ahead
    · -- The scan of another model's queue meets neither.
      refine .blocked hwait (fun hmem => ?_) fun hmem => ?_
      · exact hm ((hwired.of_mem hwait.first hmem).1.symm.trans hmodelA)
      · exact absurd ((hwired.of_mem hwait.second hmem).1.symm.trans hmodelB) hm
  · exact .answered ⟨wt, res, hw, hd, hsent⟩ (hdone a wt hw hd)
  · exact .ended ⟨wt, res, hw, hd, hsent⟩ (hdone b wt hw hd)

variable (c env) in
theorem wired_keptByAttempts :
    KeptByAttempts c env fun acc : State β F × Scan => acc.1.Wired :=
  ⟨fun _ _ h => h.nodup, fun _ _ h => h,
    fun _ _ d _ _ _ h hw hmem => h.attempt hw hmem c env d env.reports⟩

/-- **A dispatch keeps the order.** -/
theorem Ordered.dispatch (hwired : s.Wired) (hB : Blocks c env Ends wtA.req wtB.req Blocked)
    (hwait : Waiting m a b wtA wtB s) : Ordered Ends m a b wtA wtB (Route.dispatch c env s) := by
  obtain ⟨hmodelA, hdoneA⟩ := hwired.of_mem hwait.first (hwait.ahead.subset (by simp))
  obtain ⟨hmodelB, hdoneB⟩ := hwired.of_mem hwait.second (hwait.ahead.subset (by simp))
  have hsentA := ((hwired.waiter a wtA hwait.first).of_not_done hdoneA).2.2
  have hsentB := ((hwired.waiter b wtB hwait.second).of_not_done hdoneB).2.2
  have hscan : ∀ (acc : State β F × Scan) m', acc.1.Wired ∧ Ordered Ends m a b wtA wtB acc.1 →
      (scanQueue c env env.reports acc m').1.Wired ∧
        Ordered Ends m a b wtA wtB (scanQueue c env env.reports acc m').1 := by
    intro acc m' ⟨hw, hord⟩
    exact ⟨(wired_keptByAttempts c env).scan hw (hw.nodup m') fun _ h => h,
      ((hord.start hw hmodelA hmodelB m' _).scan hB hsentA hsentB (hw.nodup m')).ordered⟩
  unfold Route.dispatch
  split
  · exact .inl hwait
  · refine (dispatchLoop_invariant
      (P := fun acc => acc.1.Wired ∧ Ordered Ends m a b wtA wtB acc.1) ?_ _ _ _ ⟨hwired, .inl hwait⟩).2
    intro pass acc hacc
    exact foldlRecOn (motive := fun acc : State β F × Scan =>
      acc.1.Wired ∧ Ordered Ends m a b wtA wtB acc.1) _ _ hacc fun acc hacc m' _ => hscan acc m' hacc

end Scans

/-! ### What blocks the second waiter -/

namespace Scan

variable (sc : Scan) (req : Request F) (v : Verdict)

/-- **The flags after a turn.** -/
theorem note_eq : sc.note req v =
    { unpinnedFull := sc.unpinnedFull || decide (v = .full ∧ req.host = "" ∧ req.images = false)
      imagesFull := sc.imagesFull || decide (v = .full ∧ req.host = "" ∧ req.images = true)
      progressed := sc.progressed || decide (v = .completed)
      panicked := sc.panicked || decide (v = .panicked)
      picks := sc.picks + 1 } := by
  cases v with
  | completed | panicked => simp [note]
  | full =>
    by_cases hhost : req.host = ""
    · cases himage : req.images <;> simp [note, hhost, himage]
    · simp [note, hhost]

@[simp] theorem note_picks : (sc.note req v).picks = sc.picks + 1 := by
  rw [note_eq]

/-- A flag that is up stays up. -/
theorem note_flags :
    (sc.panicked = true → (sc.note req v).panicked = true) ∧
    (sc.unpinnedFull = true → (sc.note req v).unpinnedFull = true) ∧
    (sc.imagesFull = true → (sc.note req v).imagesFull = true) := by
  simp +contextual [note_eq]

variable {sc req v} in
theorem note_not_panicked (h : sc.panicked = false) (hv : v ≠ .panicked) :
    (sc.note req v).panicked = false := by
  simp [note_eq, h, hv]

theorem note_progressed (h : sc.progressed = true) : (sc.note req v).progressed = true := by
  simp [note_eq, h]

variable {sc req} in
/-- A refusal raises the flag of its own kind only. -/
theorem unpinnedFull_note (h : (sc.note req .full).unpinnedFull = true) :
    sc.unpinnedFull = true ∨ req.host = "" ∧ req.images = false := by
  simpa [note_eq] using h

variable {sc req} in
theorem imagesFull_note (h : (sc.note req .full).imagesFull = true) :
    sc.imagesFull = true ∨ req.host = "" ∧ req.images = true := by
  simpa [note_eq] using h

theorem skips_iff : sc.skips req = true ↔
    req.host = "" ∧ (sc.unpinnedFull = true ∨ sc.imagesFull = true ∧ req.images = true) := by
  simp [skips]

end Scan

section Blocked

variable [DecidableEq β] [Float64 F] {c : Config β} {env : Env β F} {reqA reqB : Request F}

/-- Unpinned waiters: the flag of the first's refusal skips the second, which does
not end at all. -/
theorem blocks_unpinned (hhostA : reqA.host = "") (hhostB : reqB.host = "")
    (himages : reqA.images = true → reqB.images = true) :
    Blocks c env (fun _ => False) reqA reqB fun acc =>
      acc.2.panicked = true ∨ acc.2.skips reqB = true where
  skipped acc h := by
    refine h.imp_right fun hskip => ?_
    rw [Scan.skips_iff] at hskip ⊢
    exact ⟨hhostB, hskip.2.imp_right fun h => ⟨h.1, himages h.2⟩⟩
  refused s sc _ := by
    refine .inr ((Scan.skips_iff _ _).2 ⟨hhostB, ?_⟩)
    simp only [Scan.note, if_pos hhostA]
    split
    · rename_i himgA
      exact .inr ⟨rfl, himages himgA⟩
    · exact .inl rfl
  turn s sc w wt s' v _ h := by
    obtain ⟨hpanicked, hunpinned, himgs⟩ := sc.note_flags wt.req v
    refine h.imp hpanicked fun hskip => ?_
    rw [Scan.skips_iff] at hskip ⊢
    exact ⟨hhostB, hskip.2.imp hunpinned fun h => ⟨himgs h.1, h.2⟩⟩
  second s sc h hturns := absurd h hturns

theorem Turn.router {d : Draw F} {reports : List Report} {w : Nat} {wt : Waiter β F}
    {s s' : State β F} {v : Verdict} (h : Turn c env d reports w wt s (s', v)) :
    s'.router = (pickWithReports c env d wt.req reports s.router).1 := by
  cases h <;> rfl

/-- Waiters pinned to one host: what the first was refused is not there later. -/
theorem blocks_pinned (hpin : SamePin reqA reqB) (hone : OnePerNode env.reports)
    (hclock : env.ClockForward) :
    Blocks c env (fun res => ∀ l, res ≠ .lease l) reqA reqB fun acc => acc.2.panicked = true ∨
      ∃ k rt, k < acc.2.picks ∧ Fuller env.reports rt acc.1.router ∧
        (pickWithReports c env (env.draw k) reqA env.reports rt).2 = .error .noFreeSlot where
  skipped acc h := by
    refine .inl (h.resolve_right fun hskip => ?_)
    exact hpin.pinned ((Scan.skips_iff _ _).1 hskip).1
  refused s sc hfull :=
    .inr ⟨sc.picks, s.router, by simp, pickWithReports_fuller .., hfull⟩
  turn s sc w wt s' v hturn h := by
    refine h.imp (sc.note_flags wt.req v).1 ?_
    rintro ⟨k, rt, hk, hfuller, hfull⟩
    have hlater : k < (sc.note wt.req v).picks := by
      rw [Scan.note_picks]
      exact Nat.lt_succ_of_lt hk
    refine ⟨k, rt, hlater, hfuller.trans ?_, hfull⟩
    show Fuller env.reports s.router s'.router
    rw [hturn.router]
    exact pickWithReports_fuller ..
  second s sc h hturns := by
    obtain ⟨k, rt, hk, hfuller, hfull⟩ := h.resolve_left fun hp => hturns (.inl hp)
    refine ⟨fun l hl => ?_, fun e he herr l => nofun⟩
    exact absurd hl (hpin.not_served hone (hclock k sc.picks hk) hfull hfuller l)

end Blocked

/-! ### Queued requests -/

/-- Every waiter keeps its request as `Acquire` queued it. -/
def State.QueuedForm (s : State β F) : Prop :=
  ∀ (w : Nat) (wt : Waiter β F), s.waiters[w]? = some wt → queuedReq wt.req = wt.req

namespace State.QueuedForm

variable {s s' : State β F} {w : Nat} {wt wt' : Waiter β F}

theorem new : (State.new (β := β) (F := F)).QueuedForm := by
  intro w wt hw
  simp [State.new] at hw

theorem setWaiter (h : s.QueuedForm) (hw : s.waiters[w]? = some wt) (hreq : wt'.req = wt.req) :
    (s.setWaiter w wt').QueuedForm := by
  intro w₁ wt₁ hw₁
  rcases getElem?_setWaiter_cases hw hw₁ with ⟨-, rfl⟩ | ⟨-, hw₁⟩
  · rw [hreq]
    exact h w wt hw
  · exact h w₁ wt₁ hw₁

theorem receive (h : s.QueuedForm) (res : WaitResult β) : (s.receive res).QueuedForm := by
  cases res <;> exact h

variable [DecidableEq β] [Float64 F] {c : Config β}

theorem attempt (h : s.QueuedForm) (hw : s.waiters[w]? = some wt) (env : Env β F) (d : Draw F)
    (reports : List Report) : (Route.attempt c env d reports w wt s).1.QueuedForm := by
  have hturn := attempt_turn c env d reports w wt s
  generalize Route.attempt c env d reports w wt s = out at hturn
  cases hturn with
  | lease | failed => exact setWaiter (s := s.setRouter _) h hw rfl
  | full | panicked => exact h

theorem step {a : Step β F} (hsound : s.Sound) (h : s.QueuedForm)
    (hstep : s.step c a = some s') : s'.QueuedForm := by
  have hpick : ∀ env req, (s.pick c env req).1.QueuedForm := by
    intro env req
    rcases pick_state c s env req with ⟨memo, heq⟩ | ⟨l, req', backends, slots, memo, -, heq⟩ <;>
    · rw [heq]
      exact h
  cases steps_of_step hstep with
  | pick env req => exact hpick env req
  | acquire env req =>
    rcases acquire_state c s env req with heq | heq
    · rw [heq]
      exact hpick env req
    · rw [heq]
      intro w₁ wt₁ hw₁
      by_cases hnew : w₁ = (s.pick c env req).1.waiters.length
      · rw [hnew, getElem?_enqueue_self] at hw₁
        cases hw₁
        rfl
      · rw [getElem?_enqueue_ne _ _ hnew] at hw₁
        exact hpick env req w₁ wt₁ hw₁
  | dispatch env =>
    refine (dispatch_invariant (P := fun s => s.Wired ∧ s.QueuedForm) (fun _ hs => hs.1.nodup)
      ?_ ⟨hsound.wired, h⟩).2
    exact fun s d w wt m hs hw hmem =>
      ⟨hs.1.attempt hw hmem c env d env.reports, hs.2.attempt hw env d env.reports⟩
  | receive hw =>
    refine receive ?_ _
    exact h.setWaiter hw rfl
  | fire why hw | discard hw => exact h.setWaiter hw rfl
  | leave hw =>
    unfold State.leave
    split
    · exact h.setWaiter hw rfl
    · exact h.setWaiter hw rfl
  | @drain w wt why res rest hw =>
    cases why with
    | timeout =>
      refine receive ?_ res
      exact h.setWaiter hw rfl
    | ctx => cases res <;> exact h.setWaiter hw rfl
  | release | notHeld => exact h
  | refused =>
    unfold State.refused
    split <;> exact h

/-- Every reachable state is wired and keeps its requests as they were queued. -/
theorem run {steps : List (Step β F)} (hrun : Lib.run (State.step c) State.new steps = some s) :
    s.Wired ∧ s.QueuedForm := by
  have hinv : s.Sound ∧ s.QueuedForm :=
    Lib.run_invariant (State.step c) (I := fun s => s.Sound ∧ s.QueuedForm)
      (fun _ _ _ h _ hstep => ⟨h.1.step hstep, h.2.step h.1 hstep⟩) ⟨.new, .new⟩
      (Lib.runMeets_true _ steps _) hrun
  exact ⟨hinv.1.wired, hinv.2⟩

end State.QueuedForm

/-! ### First come, first served -/

section

variable [DecidableEq β] [Float64 F] {c : Config β} {env : Env β F} {s : State β F} {m : String}
variable {a b : Nat} {wtA wtB : Waiter β F}

/-- Behind an unpinned waiter, one that asks for no less waits as long. -/
theorem Waiting.dispatch (hwired : s.Wired) (hwait : Waiting m a b wtA wtB s)
    (hhostA : wtA.req.host = "") (hhostB : wtB.req.host = "")
    (himages : wtA.req.images = true → wtB.req.images = true) :
    Waiting m a b wtA wtB (Route.dispatch c env s) ∨ Answered a (Route.dispatch c env s) := by
  have hord : Ordered (fun _ => False) m a b wtA wtB (Route.dispatch c env s) :=
    .dispatch hwired (blocks_unpinned hhostA hhostB himages) hwait
  rcases hord with hwait' | hans | ⟨_, _, -, -, -, hfalse⟩
  · exact .inl hwait'
  · exact .inr hans
  · exact hfalse.elim

/-- **First come, first served.** In one dispatch a waiter gets a lease only if
every waiter ahead of it that asks for no more is answered: among the unpinned
ones, those with an image only if this one has one; among those pinned to one
host, those with the same image flag. -/
theorem dispatch_fifo (hwired : s.Wired) (hform : s.QueuedForm)
    (hahead : [a, b].Sublist (s.queue m)) (hA : s.waiters[a]? = some wtA)
    (hB : s.waiters[b]? = some wtB) {wt : Waiter β F} {l : Lease β}
    (hserved : (dispatch c env s).waiters[b]? = some wt) (hl : .lease l ∈ wt.sent) :
    (wtA.req.host = "" → wtB.req.host = "" → (wtA.req.images = true → wtB.req.images = true) →
      Answered a (dispatch c env s)) ∧
    (OnePerNode env.reports → env.ClockForward → wtA.req.host ≠ "" →
      wtB.req.host = wtA.req.host → wtB.req.images = wtA.req.images →
      Answered a (dispatch c env s)) := by
  have hwait : Waiting m a b wtA wtB s := ⟨hA, hB, hahead⟩
  obtain ⟨hmodelA, -⟩ := hwired.of_mem hA (hahead.subset (by simp))
  obtain ⟨hmodelB, hdone⟩ := hwired.of_mem hB (hahead.subset (by simp))
  have hsent := ((hwired.waiter b wtB hB).of_not_done hdone).2.2
  have hnotWaiting : ¬Waiting m a b wtA wtB (dispatch c env s) := by
    intro hwait'
    rw [hwait'.second] at hserved
    cases hserved
    rw [hsent] at hl
    cases hl
  refine ⟨fun hhostA hhostB himages => ?_, fun hone hclock hpinned hhost himages => ?_⟩
  · exact (hwait.dispatch hwired hhostA hhostB himages).resolve_left hnotWaiting
  · have hpin : SamePin wtA.req wtB.req :=
      ⟨hpinned, hmodelB.trans hmodelA.symm, hhost, himages, hform a wtA hA, hform b wtB hB⟩
    have hord : Ordered (fun res => ∀ l, res ≠ .lease l) m a b wtA wtB (dispatch c env s) :=
      .dispatch hwired (blocks_pinned hpin hone hclock) hwait
    rcases hord with hwait' | hans | ⟨wt', res, hw', -, hres, hnone⟩
    · exact absurd hwait' hnotWaiting
    · exact hans
    · rw [hw'] at hserved
      cases hserved
      rw [hres, mem_singleton] at hl
      exact absurd hl.symm (hnone l)

end

/-- An `Acquire` that finds the one peer full. -/
def queueAt (host : String) (now : Int) : Step Unit ℚ :=
  .acquire (forwardingEnv [peerReport 0 0 0] now) { model := "m", host, estK := 1 }

def forwardLease (id : Nat) (now : Int) : Lease Unit where
  id := id
  target := { isLocal := false, node := "p", addr := "p:80" }
  took := .peer ⟨"p", "m"⟩ ⟨id, now⟩

/-- Two unpinned waiters, two pinned to the peer, and a report of four slots. -/
theorem dispatch_fifo_four_waiters :
    ∃ s : State Unit ℚ, Lib.run (State.step forwardingConfig) State.new
        [queueAt "" 5, queueAt "" 6, queueAt "p" 7, queueAt "p" 8] = some s ∧
      Answered 0 (dispatch forwardingConfig (forwardingEnv [peerReport 10 4 0] 14) s) ∧
      Answered 2 (dispatch forwardingConfig (forwardingEnv [peerReport 10 4 0] 14) s) := by
  let env := forwardingEnv [peerReport 10 4 0] 14
  let steps := [queueAt "" 5, queueAt "" 6, queueAt "p" 7, queueAt "p" 8]
  have hqueued : (Lib.run (State.step forwardingConfig) State.new steps).map
      (fun s => (s.queue "m",
        [0, 1, 2, 3].map fun w => s.waiters[w]?.map fun wt => (wt.req.host, wt.req.images))) =
      some ([0, 1, 2, 3],
        [some ("", false), some ("", false), some ("p", false), some ("p", false)]) := by
    decide +kernel
  have hserved : (Lib.run (State.step forwardingConfig) State.new steps).map
      (fun s => [1, 3].map fun w =>
        (dispatch forwardingConfig env s).waiters[w]?.map Waiter.sent) =
      some [some [.lease (forwardLease 1 14)], some [.lease (forwardLease 3 14)]] := by
    decide +kernel
  obtain ⟨s, hrun, hs⟩ := Option.map_eq_some_iff.1 hqueued
  rw [hrun] at hserved
  simp only [map_cons, map_nil, Prod.mk.injEq, List.cons.injEq, and_true,
    Option.map_some, Option.some.injEq, Option.map_eq_some_iff] at hs hserved
  obtain ⟨hqueue, ⟨wt₀, h₀, hhost₀, himg₀⟩, ⟨wt₁, h₁, hhost₁, himg₁⟩, ⟨wt₂, h₂, hhost₂, himg₂⟩,
    wt₃, h₃, hhost₃, himg₃⟩ := hs
  obtain ⟨⟨wt₁', h₁', hsent₁⟩, wt₃', h₃', hsent₃⟩ := hserved
  obtain ⟨hwired, hform⟩ := State.QueuedForm.run hrun
  have hone : OnePerNode env.reports := nodup_singleton _
  have hclock : env.ClockForward := by
    intro i j _ t ht t' ht'
    have ht : t = 14 := by simpa [env, forwardingEnv, Draw.readings] using ht
    have ht' : t' = 14 := by simpa [env, forwardingEnv, Draw.readings] using ht'
    omega
  refine ⟨s, hrun, ?_, ?_⟩
  · exact (dispatch_fifo (m := "m") hwired hform (by rw [hqueue]; decide) h₀ h₁ h₁'
      (by rw [hsent₁]; exact mem_singleton_self _)).1 hhost₀ hhost₁ (by simp [himg₀])
  · exact (dispatch_fifo (m := "m") hwired hform (by rw [hqueue]; decide) h₂ h₃ h₃'
      (by rw [hsent₃]; exact mem_singleton_self _)).2 hone hclock (by simp [hhost₂])
      (hhost₃.trans hhost₂.symm) (himg₃.trans himg₂.symm)

end Viiwork.Route

import Viiwork.Route.PickSpec

/-!
# Viiwork.Route.Occupancy

Whether a pick finds a slot is a matter of **occupancy** alone: `hasRoom` says
that this node, where the request may use it, or a peer it may use has a free
slot, and reads neither scores nor sessions nor preferences.

`pickWithReports` has five strategies in sequence. `PickSpec` says that what any
of them takes was free; here is the converse, that the last two look everywhere,
and that the scored choice, which can end the pick, ends it only with a lease.

Two facts about the outside are needed. The members' reports are one for each
node, as the poller keeps them: with two reports of one node, a scan that clears a
mark for the younger one changes the next scan's answer for the older. And a pick
reads the clock up to four times, so a report may go stale between two strategies
(`Steady` says that none does).
-/

namespace Viiwork.Route

open List

variable {β F : Type}

/-! ### A scan with the marks of its start -/

/-- One report for each node. -/
def OnePerNode (reports : List Report) : Prop := (reports.map Report.node).Nodup

section Scans

variable {c : Config β} {req : Request F} {slots : Slots β} {now : Int} {reports : List Report}
variable {memo memo' : Memo} {rep : Report}

theorem peerFree_congr (h : refusedBy memo' rep req.model = refusedBy memo rep req.model) :
    (peerFree c req rep now slots memo').2 = (peerFree c req rep now slots memo).2 := by
  rw [peerFree_eq, peerFree_eq, h]

theorem OnePerNode.eq (h : OnePerNode reports) {rep' : Report} (hrep : rep ∈ reports)
    (hrep' : rep' ∈ reports) (hnode : rep'.node = rep.node) : rep' = rep :=
  inj_on_of_nodup_map h hrep' hrep hnode

/-- Clearing outdated marks changes no answer. -/
theorem Cleared.refusedBy_eq (hone : OnePerNode reports)
    (hcleared : Cleared reports memo.refused memo'.refused) (hrep : rep ∈ reports) (model : String) :
    refusedBy memo' rep model = refusedBy memo rep model := by
  unfold refusedBy
  rcases hcleared ⟨rep.node, model⟩ with heq | ⟨hnone, at_, rep', hmark, hrep', hnode, hafter⟩
  · rw [heq]
  · obtain rfl := hone.eq hrep hrep' hnode
    rw [hnone, hmark]
    simp [hafter]

variable (c req slots now) in
/-- A scan asks every peer as if first. -/
theorem scanPeers_eq (hone : OnePerNode reports)
    (note : σ → Report → Option (ModelCapacity × Int) → σ) (memo : Memo) (s : σ) :
    (scanPeers c req now slots note reports memo s).2 =
      reports.foldl (fun s rep => note s rep (peerFree c req rep now slots memo).2) s := by
  -- The induction is over what is still to be asked, from marks the scan has cleared.
  have hrest : ∀ rest memo' s, (∀ rep ∈ rest, rep ∈ reports) →
      Cleared reports memo.refused memo'.refused →
      (scanPeers c req now slots note rest memo' s).2 =
        rest.foldl (fun s rep => note s rep (peerFree c req rep now slots memo).2) s := by
    intro rest
    induction rest with
    | nil => exact fun _ _ _ _ => rfl
    | cons rep rest ih =>
      intro memo' s hsub hcleared
      have hrep := hsub rep mem_cons_self
      have hanswer : (peerFree c req rep now slots memo').2 =
          (peerFree c req rep now slots memo).2 :=
        peerFree_congr (hcleared.refusedBy_eq hone hrep req.model)
      have hstep := ih (peerFree c req rep now slots memo').1
        (note s rep (peerFree c req rep now slots memo').2)
        (fun r hr => hsub r (mem_cons_of_mem _ hr))
        (hcleared.trans (peerFree_cleared c req slots now hrep memo'))
      rw [hanswer] at hstep
      rw [foldl_cons, ← hstep, ← hanswer]
      rfl
  exact hrest reports memo s (fun _ h => h) (.refl _ _)

/-- A peer that was found free is free at the start. -/
theorem PeerFound.free (hone : OnePerNode reports)
    (h : PeerFound c req reports slots memo now rep) :
    0 < freeOf (peerFree c req rep now slots memo).2 := by
  obtain ⟨hrep, memo', hcleared, hfree⟩ := h
  rwa [peerFree_congr (hcleared.refusedBy_eq hone hrep req.model)] at hfree

end Scans

/-! ### Room -/

/-- Some peer has a free slot for the request. -/
def peerHasFree (c : Config β) (req : Request F) (reports : List Report) (now : Int)
    (slots : Slots β) (memo : Memo) : Bool :=
  reports.any fun rep => decide (0 < freeOf (peerFree c req rep now slots memo).2)

/-- This node, where the request may use it, or a peer has a free slot. -/
def hasRoom (c : Config β) (env : Env β F) (a : Admitted β F) (reports : List Report) (now : Int)
    (rt : Router β) : Bool :=
  (a.localOpen c && localHasFree c env a.req a.backends rt.slots) ||
    peerHasFree c a.req reports now rt.slots rt.memo

variable {c : Config β} {req : Request F} {reports : List Report} {now : Int} {slots : Slots β}
  {env : Env β F} {backends : List β} {a : Admitted β F} {rt : Router β}

theorem peerHasFree_iff {memo : Memo} :
    peerHasFree c req reports now slots memo = true ↔
      ∃ rep ∈ reports, 0 < freeOf (peerFree c req rep now slots memo).2 := by
  simp [peerHasFree]

theorem localHasFree_iff : localHasFree c env req backends slots = true ↔
      ∃ b, BackendOpen c env req backends slots b := by
  simp only [localHasFree, any_eq_true, Bool.and_eq_true, decide_eq_true_eq]
  exact exists_congr fun b => ⟨fun h => ⟨h.1, h.2.1, h.2.2⟩, fun h => ⟨h.mem, h.usable, h.free⟩⟩

/-- Room is an open backend of this node, or an open peer whose last refusal is
outdated. -/
theorem hasRoom_iff : hasRoom c env a reports now rt = true ↔
      (a.localOpen c = true ∧ ∃ b, BackendOpen c env a.req a.backends rt.slots b) ∨
      ∃ rep ∈ reports, (∃ mc, PeerOpen c a.req rt.slots now rep mc) ∧
        refusedBy rt.memo rep a.req.model = false := by
  rw [hasRoom, Bool.or_eq_true, Bool.and_eq_true, localHasFree_iff, peerHasFree_iff]
  exact or_congr_right (exists_congr fun rep => and_congr_right fun _ => freeOf_pos_iff)

theorem BackendOpen.localHasFree {b : β} (h : BackendOpen c env req backends slots b) :
    localHasFree c env req backends slots = true :=
  localHasFree_iff.2 ⟨b, h⟩

/-! ### The strategies look everywhere -/

section Local

variable {c : Config β} {env : Env β F} {req : Request F}

/-- The scan of `pickLocal` ends empty only if no backend has room. -/
theorem foldl_note_tied (c : Config β) (env : Env β F) (req : Request F) (slots : Slots β)
    (backends : List β) (s : LocalScan β) (hs : s.tied = [] → s.best = 0) :
    (backends.foldl (LocalScan.note c env req slots) s).tied = [] ↔
      s.tied = [] ∧ localHasFree c env req backends slots = false := by
  induction backends generalizing s with
  | nil => simp [localHasFree]
  | cons b backends ih =>
    -- A usable backend with a free slot makes the scan hold something.
    have hstep : ((s.note c env req slots b).tied = [] ↔
        s.tied = [] ∧ (usable c env req b && decide (0 < free env slots b)) = false) ∧
        ((s.note c env req slots b).tied = [] → (s.note c env req slots b).best = 0) := by
      unfold LocalScan.note
      by_cases hskip : usable c env req b = false ∨ free env slots b ≤ 0
      · rw [if_pos hskip]
        refine ⟨⟨fun h => ⟨h, ?_⟩, fun h => h.1⟩, hs⟩
        rcases hskip with hu | hf
        · simp [hu]
        · simp [not_lt.2 hf]
      · rw [if_neg hskip]
        simp only [not_or, Bool.not_eq_false, not_le] at hskip
        have hroom : (usable c env req b && decide (0 < free env slots b)) = true := by
          simp [hskip.1, hskip.2]
        rw [hroom]
        dsimp only
        split
        · rename_i hless
          have hne : s.tied ≠ [] := fun h => by
            have := hs h
            omega
          simp [hne]
        · split <;> simp
    rw [foldl_cons, ih _ hstep.2, hstep.1]
    simp [localHasFree, and_assoc]

variable {backends : List β} {rt : Router β}

theorem chooseLocal_none_iff :
    (chooseLocal c env req backends rt).2 = none ↔
      localHasFree c env req backends rt.slots = false := by
  have hscan := foldl_note_tied c env req rt.slots backends {} fun _ => rfl
  unfold chooseLocal
  dsimp only
  generalize backends.foldl (LocalScan.note c env req rt.slots) {} = s at hscan ⊢
  split
  · rename_i hnil
    simpa using hscan.1 hnil
  · rename_i hne
    have hroom : localHasFree c env req backends rt.slots = true := by
      by_contra hfalse
      exact hne (hscan.2 ⟨rfl, Bool.eq_false_iff.2 hfalse⟩)
    have hlt : rt.memo.localRR req.model % s.tied.length < s.tied.length :=
      Nat.mod_lt _ (length_pos_iff.2 hne)
    split
    · simp [hroom]
    · simp [hroom, getElem?_eq_getElem hlt]

theorem pickLocal_none_iff [DecidableEq β] :
    (pickLocal c env req backends rt).2 = none ↔
      localHasFree c env req backends rt.slots = false := by
  rw [← chooseLocal_none_iff]
  unfold pickLocal
  split
  · rename_i hchoose
    simp [hchoose]
  · rename_i hchoose
    simp [hchoose, grant]

end Local

section Peers

variable {c : Config β} {d : Draw F} {req : Request F} {reports : List Report} {rt : Router β}

/-- The scan of `pickPeer` ends empty only if no answer had room. -/
theorem foldl_notePeer_tied (answer : Report → Int) (reports : List Report) (s : PeerScan)
    (hs : s.tied = [] → s.best = 0) :
    (reports.foldl (fun s rep => s.note rep (answer rep)) s).tied = [] ↔
      s.tied = [] ∧ ∀ rep ∈ reports, answer rep ≤ 0 := by
  induction reports generalizing s with
  | nil => simp
  | cons rep reports ih =>
    have hstep : ((s.note rep (answer rep)).tied = [] ↔ s.tied = [] ∧ answer rep ≤ 0) ∧
        ((s.note rep (answer rep)).tied = [] → (s.note rep (answer rep)).best = 0) := by
      unfold PeerScan.note
      split
      · rename_i hskip
        refine ⟨⟨fun h => ⟨h, ?_⟩, fun h => h.1⟩, hs⟩
        have := hs h
        omega
      rename_i hroom
      split
      · refine ⟨⟨nofun, fun h => ?_⟩, nofun⟩
        omega
      -- As many free slots as the best so far, so something is held already.
      rename_i hbest
      have hne : s.tied ≠ [] := fun h => by
        have := hs h
        omega
      split
      · simp [hne]
      · simp [hne]
    rw [foldl_cons, ih _ hstep.2, hstep.1]
    simp [and_assoc]

theorem pickPeer_none_iff (hone : OnePerNode reports) :
    (pickPeer c d req reports rt).2 = none ↔
      peerHasFree c req reports d.peerAt rt.slots rt.memo = false := by
  have hscan := foldl_notePeer_tied
    (fun rep => freeOf (peerFree c req rep d.peerAt rt.slots rt.memo).2) reports {} fun _ => rfl
  have hnone : peerHasFree c req reports d.peerAt rt.slots rt.memo = false ↔
      ∀ rep ∈ reports, freeOf (peerFree c req rep d.peerAt rt.slots rt.memo).2 ≤ 0 := by
    simp [peerHasFree]
  have heq := scanPeers_eq c req rt.slots d.peerAt hone (fun s rep pf => s.note rep (freeOf pf))
    rt.memo ({} : PeerScan)
  rw [hnone]
  unfold pickPeer
  dsimp only
  rw [← heq] at hscan
  split
  · rename_i hnil
    simpa using (hscan.1 hnil).2
  · rename_i hne
    have hroom : ¬∀ rep ∈ reports, freeOf (peerFree c req rep d.peerAt rt.slots rt.memo).2 ≤ 0 :=
      fun h => hne (hscan.2 ⟨rfl, h⟩)
    split
    · rename_i hget
      have hlt := Nat.mod_lt ((scanPeers c req d.peerAt rt.slots
        (fun s rep pf => PeerScan.note s rep (freeOf pf)) reports rt.memo {}).1.peerRR req.model)
        (length_pos_iff.2 hne)
      rw [getElem?_eq_getElem hlt] at hget
      cases hget
    · simpa [grant] using hroom

end Peers

/-! ### The whole pick -/

section Errors

variable {c : Config β} {env : Env β F} {d : Draw F} {reports : List Report} {rt rt' : Router β}
variable {a : Admitted β F} {e : PickErr} {now : Int}

/-- Clearing outdated marks makes no room. -/
theorem hasRoom_congr (hone : OnePerNode reports) (hslots : rt'.slots = rt.slots)
    (hcleared : Cleared reports rt.memo.refused rt'.memo.refused) :
    hasRoom c env a reports now rt' = hasRoom c env a reports now rt := by
  have hpeers : peerHasFree c a.req reports now rt'.slots rt'.memo =
      peerHasFree c a.req reports now rt.slots rt.memo := by
    rw [Bool.eq_iff_iff, peerHasFree_iff, peerHasFree_iff]
    refine exists_congr fun rep => and_congr_right fun hrep => ?_
    rw [hslots, peerFree_congr (hcleared.refusedBy_eq hone hrep a.req.model)]
  unfold hasRoom
  rw [hpeers, hslots]

/-- What an error of a strategy sequence says of the router it started from. -/
def ErrorSpec (c : Config β) (env : Env β F) (d : Draw F) (reports : List Report)
    (a : Admitted β F) (rt : Router β) (e : PickErr) : Prop :=
  e = .noFreeSlot ∧ hasRoom c env a reports d.peerAt rt = false ∨
  e = .panic ∧ hasRoom c env a reports d.scoredAt rt = true

theorem tryPick_error {on : Bool} {pick : Router β → Router β × Option (Lease β)}
    {next : Router β → Router β × Except PickErr (Lease β)}
    (h : (tryPick on pick next rt).2 = .error e) :
    (on = false ∧ (next rt).2 = .error e) ∨
      ∃ rt', on = true ∧ pick rt = (rt', none) ∧ (next rt').2 = .error e := by
  unfold tryPick at h
  split at h
  · rename_i hon
    split at h
    · cases h
    · rename_i rt' hpick
      exact .inr ⟨rt', hon, hpick, h⟩
  · rename_i hoff
    exact .inl ⟨Bool.eq_false_iff.2 hoff, h⟩

/-- A request pinned to this node is not sent to a peer. -/
theorem peerHasFree_of_self {req : Request F} {slots : Slots β} {memo : Memo}
    (hhost : req.host = c.self) (hself : c.self ≠ "") :
    peerHasFree c req reports now slots memo = false := by
  refine Bool.eq_false_iff.2 fun h => ?_
  obtain ⟨rep, -, hfree⟩ := peerHasFree_iff.1 h
  obtain ⟨mc, hopen⟩ := freeOf_open hfree
  rcases hopen.pin with hnone | hpin
  · exact hself (hhost ▸ hnone)
  · exact hopen.other (hpin.trans hhost)

variable [DecidableEq β] (hone : OnePerNode reports)
include hone

/-- A strategy that found nothing leaves the error of the next one to stand. -/
theorem ErrorSpec.of_found {localElig : Bool}
    (hfound : Found c env d a.req a.backends localElig reports rt rt' none)
    (h : ErrorSpec c env d reports a rt' e) : ErrorSpec c env d reports a rt e := by
  have hroom : ∀ now, hasRoom c env a reports now rt' = hasRoom c env a reports now rt :=
    fun _ => hasRoom_congr hone hfound.outcome.slots_eq hfound.cleared
  unfold ErrorSpec at h ⊢
  rwa [hroom, hroom] at h

variable (hself : a.req.host = c.self → c.self ≠ "") (hfwd : a.req.forwarded = false)
include hself hfwd

/-- This node first, then the peers: an error says that neither had room. -/
theorem pickLocalFirst_error (h : (pickLocalFirst c env d a reports rt).2 = .error e) :
    ErrorSpec c env d reports a rt e := by
  -- What is left after this node: `e` is the last error, and no peer has room.
  have hpeers : ∀ rt', (tryPick (!a.req.forwarded && a.req.host != c.self)
      (pickPeer c d a.req reports) (fun rt => (rt, .error .noFreeSlot)) rt').2 = .error e →
      e = .noFreeSlot ∧ peerHasFree c a.req reports d.peerAt rt'.slots rt'.memo = false := by
    intro rt' h
    rcases tryPick_error h with ⟨hoff, herr⟩ | ⟨rt'', -, hpick, herr⟩
    · cases herr
      have hhost : a.req.host = c.self := by simpa [hfwd] using hoff
      exact ⟨rfl, peerHasFree_of_self hhost (hself hhost)⟩
    · cases herr
      exact ⟨rfl, (pickPeer_none_iff hone).1 (by rw [hpick])⟩
  unfold pickLocalFirst at h
  rcases tryPick_error h with ⟨hoff, herr⟩ | ⟨rt', hon, hpick, herr⟩
  · obtain ⟨he, hfull⟩ := hpeers rt herr
    refine .inl ⟨he, ?_⟩
    have hclosed : a.localOpen c = false := hoff
    simp [hasRoom, hclosed, hfull]
  · obtain ⟨he, hfull⟩ := hpeers rt' herr
    have hfound := pickLocal_found c env a.req a.backends d reports rt hon
    rw [hpick] at hfound
    refine ErrorSpec.of_found hone hfound (.inl ⟨he, ?_⟩)
    have hlocal : localHasFree c env a.req a.backends rt.slots = false :=
      pickLocal_none_iff.1 (by rw [hpick])
    have hslots : rt'.slots = rt.slots := hfound.outcome.slots_eq
    rw [hasRoom, hfull, hslots, hlocal]
    simp

omit hself hfwd in
/-- A scored pick that is handled ends with a lease, or panics with a host at hand. -/
theorem pickScored_handled [Float64 F] (hhost : a.req.host = "")
    {res : Except PickErr (Option (Lease β))}
    (h : pickScored c env d a.req a.backends a.localElig reports rt = (rt', some res)) :
    (∃ l, res = .ok (some l)) ∨
      res = .error .panic ∧ hasRoom c env a reports d.scoredAt rt = true := by
  have hheld := (scanScored_held c env d a.req a.backends reports a.localElig rt).1
  unfold pickScored at h
  dsimp only at h
  split at h
  · cases h
  rename_i hcands
  split at h
  · -- No candidate was chosen, but there is one.
    cases h
    refine .inr ⟨rfl, ?_⟩
    obtain ⟨cand, hcand⟩ := exists_mem_of_ne_nil _ (not_or.1 hcands).2
    obtain ⟨hlocal, hpeer⟩ := hheld cand hcand
    unfold hasRoom
    cases hrep : cand.rep with
    | none =>
      obtain ⟨helig, hfree⟩ := hlocal hrep
      rw [Admitted.localOpen_of_unpinned hhost, helig, hfree]
      rfl
    | some rep =>
      have hfound := hpeer rep hrep
      rw [peerHasFree_iff.2 ⟨rep, hfound.1, hfound.free hone⟩, Bool.or_true]
  · rename_i cand hchoose
    obtain ⟨hlocal, -⟩ := hheld cand (chooseScored_mem hchoose)
    split at h
    · rename_i hrep
      cases h
      -- The candidate is this node, which has a free slot.
      obtain ⟨l, hl⟩ : ∃ l, (pickLocal c env a.req a.backends
          { slots := rt.slots, memo := (scanPeers c a.req d.scoredAt rt.slots ScoredScan.note
            reports rt.memo (ScoredScan.start c env a.req a.backends a.localElig
              rt.slots)).1 }).2 = some l := by
        rw [← Option.ne_none_iff_exists']
        intro hnone
        rw [pickLocal_none_iff] at hnone
        rw [(hlocal hrep).2] at hnone
        cases hnone
      exact .inl ⟨l, by rw [hl]⟩
    · cases h
      exact .inl ⟨_, rfl⟩

theorem pickPerformance_error [Float64 F] (h : (pickPerformance c env d a reports rt).2 = .error e) :
    ErrorSpec c env d reports a rt e := by
  unfold pickPerformance at h
  split at h
  · rename_i hon
    split at h
    · cases h
    · rename_i heq
      rcases pickScored_handled hone hon.2.2 heq with ⟨l, hl⟩ | ⟨hl, -⟩ <;> cases hl
    · rename_i heq
      cases h
      rcases pickScored_handled hone hon.2.2 heq with ⟨l, hl⟩ | ⟨hl, hroom⟩
      · cases hl
      · cases hl
        exact .inr ⟨rfl, hroom⟩
    · rename_i rt' heq
      have hscored := pickScored_found c env d a.req a.backends reports a.localElig rt
      rw [heq] at hscored
      refine ErrorSpec.of_found hone hscored ?_
      rcases tryPick_error h with ⟨-, herr⟩ | ⟨rt'', -, hpick, herr⟩
      · exact pickLocalFirst_error hone hself hfwd herr
      · have hsession := pickSession_found c env d a.req a.backends reports a.localElig rt'
        rw [hpick] at hsession
        exact ErrorSpec.of_found hone hsession (pickLocalFirst_error hone hself hfwd herr)
  · exact pickLocalFirst_error hone hself hfwd h

theorem strategies_error [Float64 F] (h : (strategies c env d reports a rt).2 = .error e) :
    ErrorSpec c env d reports a rt e := by
  rcases tryPick_error h with ⟨-, herr⟩ | ⟨rt', -, hpick, herr⟩
  · exact pickPerformance_error hone hself hfwd herr
  · have hprefer := pickPreferred_found c env d a.req a.backends reports a.localElig a.req.prefer rt
    rw [hpick] at hprefer
    exact ErrorSpec.of_found hone hprefer (pickPerformance_error hone hself hfwd herr)

end Errors

/-! ### One moment -/

/-- No report that the request may be sent by goes stale between `now` and a clock
reading of the pick. -/
def Steady (c : Config β) (reports : List Report) (host : String) (now : Int) (d : Draw F) : Prop :=
  ∀ rep ∈ reports, (host = "" ∨ rep.node = host) → ∀ t ∈ d.readings,
    rep.fresh t c.staleAfter = rep.fresh now c.staleAfter

section Moment

variable {c : Config β} {env : Env β F} {d : Draw F} {req : Request F} {reports : List Report}
variable {now t : Int} {rep : Report} {a : Admitted β F}

/-- A pinned request sees no free slot elsewhere. -/
theorem freeOf_of_pinned {slots : Slots β} {memo : Memo}
    (hpin : ¬(req.host = "" ∨ rep.node = req.host)) :
    ¬0 < freeOf (peerFree c req rep t slots memo).2 := by
  intro hfree
  obtain ⟨mc, hopen⟩ := freeOf_open hfree
  exact hpin hopen.pin

theorem Steady.free_iff (h : Steady c reports req.host now d) (hrep : rep ∈ reports)
    (ht : t ∈ d.readings) (slots : Slots β) (memo : Memo) :
    0 < freeOf (peerFree c req rep t slots memo).2 ↔
      0 < freeOf (peerFree c req rep now slots memo).2 := by
  by_cases hpin : req.host = "" ∨ rep.node = req.host
  · have hfresh := h rep hrep hpin t ht
    unfold peerFree
    rw [hfresh]
  · exact iff_of_false (freeOf_of_pinned hpin) (freeOf_of_pinned hpin)

theorem Steady.hasRoom_eq (h : Steady c reports a.req.host now d) (ht : t ∈ d.readings)
    (rt : Router β) : hasRoom c env a reports t rt = hasRoom c env a reports now rt := by
  have hpeers : peerHasFree c a.req reports t rt.slots rt.memo =
      peerHasFree c a.req reports now rt.slots rt.memo := by
    rw [Bool.eq_iff_iff, peerHasFree_iff, peerHasFree_iff]
    exact exists_congr fun rep => and_congr_right fun hrep => h.free_iff hrep ht _ _
  rw [hasRoom, hasRoom, hpeers]

variable {e : PickErr} {localHealthy : Bool}

theorem checkServed_error {localOK : Bool} (h : checkServed c req localOK reports = .error e) :
    e = .modelNotFound ∨ e = .hostNotServing := by
  unfold checkServed at h
  split at h
  · cases h
    exact .inl rfl
  split at h
  · cases h
  split at h
  · split at h
    · cases h
    · cases h
      exact .inr rfl
  · split at h
    · cases h
    · cases h
      exact .inr rfl

theorem imageClass_error (h : imageClass c env req localHealthy reports t = .error e) :
    e = .noImageInput := by
  unfold imageClass at h
  dsimp only at h
  split at h
  · cases h
  split at h
  · cases h
  · cases h
    rfl

/-- A host that answers: this node with a healthy backend, or a peer's fresh entry. -/
theorem mem_imageAnswers {x : ImageClass} :
    x ∈ imageAnswers c env req localHealthy reports t ↔
      (localHealthy = true ∧ (req.host = "" ∨ req.host = c.self) ∧
        env.localImages req.model = x) ∨
      req.host ≠ c.self ∧ ∃ rep ∈ reports, rep.node ≠ c.self ∧
        (req.host = "" ∨ rep.node = req.host) ∧ rep.fresh t c.staleAfter = true ∧
        ∃ mc, rep.model req.model = some mc ∧ 0 < mc.healthyBackends ∧ classOf mc.images = x := by
  unfold imageAnswers
  rw [mem_append]
  refine or_congr ?_ ?_
  · split
    · rename_i hlocal
      rw [mem_singleton]
      exact ⟨fun h => ⟨hlocal.1, hlocal.2, h.symm⟩, fun h => h.2.2.symm⟩
    · rename_i hlocal
      simp only [not_mem_nil, false_iff]
      exact fun h => hlocal ⟨h.1, h.2.1⟩
  · by_cases hhost : req.host = c.self
    · simp [hhost]
    · rw [if_neg hhost, mem_filterMap]
      simp only [hhost, ne_eq, not_false_eq_true, true_and]
      refine exists_congr fun rep => and_congr_right fun _ => ?_
      by_cases hskip : rep.node = c.self ∨ (req.host ≠ "" ∧ rep.node ≠ req.host) ∨
          rep.fresh t c.staleAfter = false
      · rw [if_pos hskip]
        refine iff_of_false (by simp) ?_
        rintro ⟨hother, hpin, hfresh, -⟩
        rcases hskip with hself | hpinned | hstale
        · exact hother hself
        · rcases hpin with hpin | hpin
          · exact hpinned.1 hpin
          · exact hpinned.2 hpin
        · rw [hfresh] at hstale
          cases hstale
      · rw [if_neg hskip]
        simp only [not_or, not_and_or, not_not, Bool.not_eq_false] at hskip
        obtain ⟨hother, hpin, hfresh⟩ := hskip
        cases hmc : rep.model req.model with
        | none => simp
        | some mc => simp [hother, hpin, hfresh]

theorem imageClass_ok {want : ImageClass}
    (h : imageClass c env req localHealthy reports t = .ok want) :
    want = .yes ∧ .yes ∈ imageAnswers c env req localHealthy reports t ∨
      want = .unknown ∧ .yes ∉ imageAnswers c env req localHealthy reports t := by
  unfold imageClass at h
  dsimp only at h
  split at h
  · rename_i hyes
    cases h
    exact .inl ⟨rfl, hyes⟩
  rename_i hnot
  split at h
  · cases h
    exact .inr ⟨rfl, hnot⟩
  · cases h

/-- What this node has of the model: its backends, and whether it admits requests. -/
def Env.localOf (env : Env β F) (model : String) : List β × Bool :=
  (env.backends model).getD ([], false)

variable (c env d req reports) in
/-- The image class the request is given. -/
def wantedClass : Except PickErr ImageClass :=
  imageClass c env req ((env.backends req.model).isSome &&
    anyHealthy env (env.localOf req.model).1) reports d.imagesAt

variable (c env d req reports) in
/-- **The checks.** Served, and with an image a class of hosts to use. -/
theorem checkRequest_cases :
    (∃ e, checkServed c req (env.backends req.model).isSome reports = .error e ∧
      checkRequest c env d req reports = .error e) ∨
    checkServed c req (env.backends req.model).isSome reports = .ok () ∧
      (¬(req.images = true ∧ req.forwarded = false) ∧
          checkRequest c env d req reports =
            .ok ⟨req, (env.localOf req.model).1,
              (env.backends req.model).isSome && (env.localOf req.model).2⟩ ∨
        (req.images = true ∧ req.forwarded = false) ∧
          ((∃ e, wantedClass c env d req reports = .error e ∧
              checkRequest c env d req reports = .error e) ∨
            ∃ want, wantedClass c env d req reports = .ok want ∧
              checkRequest c env d req reports =
                .ok ⟨{ req with imgWant := want }, (env.localOf req.model).1,
                  ((env.backends req.model).isSome && (env.localOf req.model).2) &&
                    env.localImages req.model == want⟩)) := by
  unfold checkRequest
  dsimp only
  cases hserved : checkServed c req (env.backends req.model).isSome reports with
  | error e => exact .inl ⟨e, rfl, rfl⟩
  | ok u =>
    refine .inr ⟨rfl, ?_⟩
    by_cases himages : req.images = true ∧ req.forwarded = false
    · refine .inr ⟨himages, ?_⟩
      have hwanted : wantedClass c env d req reports = imageClass c env req
          ((env.backends req.model).isSome &&
            anyHealthy env ((env.backends req.model).getD ([], false)).1)
          reports d.imagesAt := rfl
      rw [if_pos himages, ← hwanted]
      cases wantedClass c env d req reports with
      | error e => exact .inl ⟨e, rfl, rfl⟩
      | ok want => exact .inr ⟨want, rfl, rfl⟩
    · refine .inl ⟨himages, ?_⟩
      rw [if_neg himages]
      rfl

/-- The checks fill in the image class and nothing else. -/
theorem checkRequest_ok (h : checkRequest c env d req reports = .ok a) :
    a.req = { req with imgWant := a.req.imgWant } ∧ a.backends = (env.localOf req.model).1 := by
  rcases checkRequest_cases c env d req reports with
    ⟨e, -, heq⟩ | ⟨-, ⟨-, heq⟩ | ⟨-, ⟨e, -, heq⟩ | ⟨want, -, heq⟩⟩⟩ <;>
  · rw [heq] at h
    cases h <;> exact ⟨rfl, rfl⟩

theorem Steady.admitted (h : Steady c reports req.host now d)
    (hcheck : checkRequest c env d req reports = .ok a) : Steady c reports a.req.host now d := by
  rw [(checkRequest_ok hcheck).1]
  exact h

/-- The checks fail with a definite error. -/
theorem checkRequest_error (h : checkRequest c env d req reports = .error e) :
    e = .modelNotFound ∨ e = .hostNotServing ∨ e = .noImageInput := by
  rcases checkRequest_cases c env d req reports with
    ⟨e', herr, heq⟩ | ⟨-, ⟨-, heq⟩ | ⟨-, ⟨e', herr, heq⟩ | ⟨want, -, heq⟩⟩⟩
  · rw [heq] at h
    cases h
    rcases checkServed_error herr with he | he
    · exact .inl he
    · exact .inr (.inl he)
  · rw [heq] at h
    cases h
  · rw [heq] at h
    cases h
    exact .inr (.inr (imageClass_error herr))
  · rw [heq] at h
    cases h

end Moment

/-! ### A pick is a matter of occupancy -/

/-- The lease is on a host with a free slot that the request may use. -/
inductive OnFreeHost (c : Config β) (env : Env β F) (a : Admitted β F) (reports : List Report)
    (now : Int) (rt : Router β) (l : Lease β) : Prop
  | backend (b : β) (htook : l.took = .backend b) (hlocal : a.localOpen c = true)
      (hopen : BackendOpen c env a.req a.backends rt.slots b)
  | peer (rep : Report) (res : Reservation) (htook : l.took = .peer ⟨rep.node, a.req.model⟩ res)
      (hrep : rep ∈ reports) (hfree : 0 < freeOf (peerFree c a.req rep now rt.slots rt.memo).2)

theorem OnFreeHost.hasRoom {l : Lease β} (h : OnFreeHost c env a reports now rt l) :
    hasRoom c env a reports now rt = true := by
  unfold Route.hasRoom
  cases h with
  | backend b htook hlocal hopen => rw [hlocal, hopen.localHasFree, Bool.and_true, Bool.true_or]
  | peer rep res htook hrep hfree => rw [peerHasFree_iff.2 ⟨rep, hrep, hfree⟩, Bool.or_true]

section Pick

variable [DecidableEq β] [Float64 F] {c : Config β} {env : Env β F} {d : Draw F} {req : Request F}
variable {reports : List Report} {rt : Router β} {now : Int} {l : Lease β}
variable (hone : OnePerNode reports)
include hone

/-- A pick that succeeds has a lease on a host with a free slot at a clock reading. -/
theorem pickWithReports_ok (h : (pickWithReports c env d req reports rt).2 = .ok l) :
    ∃ a, checkRequest c env d req reports = .ok a ∧
      ∃ t ∈ d.readings, OnFreeHost c env a reports t rt l := by
  rcases pickWithReports_found c env d reports req rt with ⟨e, -, heq⟩ | ⟨a, hcheck, hfound⟩
  · rw [heq] at h
    cases h
  · refine ⟨a, hcheck, ?_⟩
    rw [h] at hfound
    generalize (pickWithReports c env d req reports rt).1 = rt' at hfound
    cases hfound with
    | backend b memo hcleared helig hopen =>
      exact ⟨d.peerAt, by simp [Draw.readings], .backend b rfl helig hopen⟩
    | peer rep t memo hcleared ht hpeer =>
      exact ⟨t, ht, .peer rep _ rfl hpeer.1 (hpeer.free hone)⟩

/-- A pick that finds a slot had room at one of its clock readings. -/
theorem pickWithReports_hasRoom (h : (pickWithReports c env d req reports rt).2 = .ok l) :
    ∃ a, checkRequest c env d req reports = .ok a ∧
      ∃ t ∈ d.readings, hasRoom c env a reports t rt = true := by
  obtain ⟨a, hcheck, t, ht, hon⟩ := pickWithReports_ok hone h
  exact ⟨a, hcheck, t, ht, hon.hasRoom⟩

/-- A lease is on a host that had a free slot. -/
theorem pickWithReports_onFreeHost (hsteady : Steady c reports req.host now d)
    (h : (pickWithReports c env d req reports rt).2 = .ok l) :
    ∃ a, checkRequest c env d req reports = .ok a ∧ OnFreeHost c env a reports now rt l := by
  obtain ⟨a, hcheck, t, ht, hon⟩ := pickWithReports_ok hone h
  refine ⟨a, hcheck, ?_⟩
  cases hon with
  | backend b htook hlocal hopen => exact .backend b htook hlocal hopen
  | peer rep res htook hrep hfree =>
    exact .peer rep res htook hrep ((hsteady.admitted hcheck).free_iff hrep ht _ _ |>.1 hfree)

variable (hfwd : req.forwarded = false)
include hfwd

/-- A pick fails in the checks, or its error says whether there was room. -/
theorem pickWithReports_error (hself : req.host = c.self → c.self ≠ "") {e : PickErr}
    (h : (pickWithReports c env d req reports rt).2 = .error e) :
    checkRequest c env d req reports = .error e ∨
      ∃ a, checkRequest c env d req reports = .ok a ∧ ErrorSpec c env d reports a rt e := by
  cases hcheck : checkRequest c env d req reports with
  | error e' =>
    rw [pickWithReports, hcheck] at h
    cases h
    exact .inl rfl
  | ok a =>
    have hreq := (checkRequest_ok hcheck).1
    have hself' : a.req.host = c.self → c.self ≠ "" := by rw [hreq]; exact hself
    rw [pickWithReports_of_check c env d reports hcheck] at h
    exact .inr ⟨a, rfl, strategies_error hone hself' (by rw [hreq]; exact hfwd) h⟩

/-- A pick that ends without a free slot had no room at its last clock reading. -/
theorem pickWithReports_full (hself : req.host = c.self → c.self ≠ "")
    (h : (pickWithReports c env d req reports rt).2 = .error .noFreeSlot) :
    ∃ a, checkRequest c env d req reports = .ok a ∧
      hasRoom c env a reports d.peerAt rt = false := by
  rcases pickWithReports_error hone hfwd hself h with hcheck | ⟨a, hcheck, ⟨-, hfull⟩ | ⟨he, -⟩⟩
  · rcases checkRequest_error hcheck with he | he | he <;> cases he
  · exact ⟨a, hcheck, hfull⟩
  · cases he

/-- **Occupancy.** A pick of a request that was not forwarded ends without a free
slot exactly when the checks pass and there is no room. -/
theorem pickWithReports_noFreeSlot_iff (hself : c.self ≠ "")
    (hsteady : Steady c reports req.host now d) :
    (pickWithReports c env d req reports rt).2 = .error .noFreeSlot ↔
      ∃ a, checkRequest c env d req reports = .ok a ∧
        hasRoom c env a reports now rt = false := by
  constructor
  · intro h
    obtain ⟨a, hcheck, hfull⟩ := pickWithReports_full hone hfwd (fun _ => hself) h
    rw [(hsteady.admitted hcheck).hasRoom_eq (by simp [Draw.readings])] at hfull
    exact ⟨a, hcheck, hfull⟩
  · rintro ⟨a, hcheck, hfull⟩
    cases hres : (pickWithReports c env d req reports rt).2 with
    | error e =>
      rcases pickWithReports_error hone hfwd (fun _ => hself) hres with
        hcheck' | ⟨a', hcheck', ⟨rfl, -⟩ | ⟨-, hroom⟩⟩
      · cases hcheck.symm.trans hcheck'
      · rfl
      · cases hcheck.symm.trans hcheck'
        rw [(hsteady.admitted hcheck).hasRoom_eq (by simp [Draw.readings])] at hroom
        cases hfull.symm.trans hroom
    | ok l =>
      obtain ⟨a', hcheck', hon⟩ := pickWithReports_onFreeHost hone hsteady hres
      cases hcheck.symm.trans hcheck'
      cases hfull.symm.trans hon.hasRoom

end Pick

end Viiwork.Route

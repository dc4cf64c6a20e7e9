import Viiwork.Route.Router

/-!
# Viiwork.Route.PickSpec

What a pick can do to the slots, said once: it either leaves them alone or
**takes** exactly one free slot (`Takes`), whichever of the strategies found it.

Every strategy is a scan followed by a choice. The scan keeps the invariant that
what it holds on to had a free slot when it was asked (`BackendOpen`,
`PeerFound`), the choice returns something the scan held, and the slots do not
change in between, so the slot is still free when it is taken. Of the memory, a
scan changes only the refusal marks, and those only by clearing one that a report
outdates (`Cleared`).
-/

namespace Viiwork.Route

open List

variable {β F : Type}

/-! ### Open hosts -/

/-- The request may use the backend, and it has a free slot. -/
structure BackendOpen (c : Config β) (env : Env β F) (req : Request F) (backends : List β)
    (slots : Slots β) (b : β) : Prop where
  mem : b ∈ backends
  usable : usable c env req b = true
  free : 0 < free env slots b

/-- The request may use the peer, and by its report and this router's own forwards
it has a free slot. -/
structure PeerOpen (c : Config β) (req : Request F) (slots : Slots β) (now : Int)
    (rep : Report) (mc : ModelCapacity) : Prop where
  other : rep.node ≠ c.self
  fresh : rep.fresh now c.staleAfter = true
  entry : rep.model req.model = some mc
  healthy : 0 < mc.healthyBackends
  pin : req.host = "" ∨ rep.node = req.host
  notTried : req.exclude.contains ("peer:" ++ rep.node) = false
  image : req.imgWant = .any ∨ classOf mc.images = req.imgWant
  free : 0 < mc.slots - mc.busy - reserved slots ⟨rep.node, req.model⟩ rep.asOf

/-- **Takes.** From `slots`, one open slot is taken by the lease. -/
inductive Takes [DecidableEq β] (c : Config β) (env : Env β F) (d : Draw F) (req : Request F)
    (backends : List β) (reports : List Report) (slots : Slots β) : Slots β → Lease β → Prop
  | backend (b : β) (hopen : BackendOpen c env req backends slots b) :
      Takes c env d req backends reports slots
        (takeBackend c env slots b).1 (takeBackend c env slots b).2
  | peer (rep : Report) (mc : ModelCapacity) (now : Int) (hrep : rep ∈ reports)
      (hnow : now ∈ d.readings) (hopen : PeerOpen c req slots now rep mc) :
      Takes c env d req backends reports slots
        (peerLease slots rep req.model now).1 (peerLease slots rep req.model now).2

/-- The outcome of a strategy: no lease and the same slots, or one slot taken. -/
inductive Outcome [DecidableEq β] (c : Config β) (env : Env β F) (d : Draw F) (req : Request F)
    (backends : List β) (reports : List Report) (slots : Slots β) :
    Slots β → Option (Lease β) → Prop
  | nothing : Outcome c env d req backends reports slots slots none
  | took {slots' : Slots β} {l : Lease β}
      (h : Takes c env d req backends reports slots slots' l) :
      Outcome c env d req backends reports slots slots' (some l)

namespace Outcome

variable [DecidableEq β] {c : Config β} {env : Env β F} {d : Draw F} {req : Request F}
variable {backends : List β} {reports : List Report} {slots slots' : Slots β} {l : Lease β}

theorem slots_eq (h : Outcome c env d req backends reports slots slots' none) :
    slots' = slots := by
  cases h
  rfl

theorem takes (h : Outcome c env d req backends reports slots slots' (some l)) :
    Takes c env d req backends reports slots slots' l := by
  cases h
  assumption

end Outcome

/-- **Cleared.** The refusal marks are the same, but for some that a report as of a
later moment has cleared. -/
def Cleared (reports : List Report) (marks marks' : ResKey → Option Int) : Prop :=
  ∀ key, marks' key = marks key ∨ marks' key = none ∧ ∃ at_ rep,
    marks key = some at_ ∧ rep ∈ reports ∧ rep.node = key.node ∧ at_ < rep.asOf

namespace Cleared

variable {reports : List Report} {marks marks' marks'' : ResKey → Option Int}

theorem refl (reports : List Report) (marks : ResKey → Option Int) :
    Cleared reports marks marks := fun _ => .inl rfl

theorem trans (h : Cleared reports marks marks') (h' : Cleared reports marks' marks'') :
    Cleared reports marks marks'' := by
  intro key
  rcases h key with heq | hgone
  · rcases h' key with heq' | ⟨hnone, hby⟩
    · exact .inl (heq'.trans heq)
    · exact .inr ⟨hnone, heq ▸ hby⟩
  · -- A cleared mark stays cleared.
    rcases h' key with heq' | ⟨hnone, at_, rep, hsome, -⟩
    · exact .inr ⟨heq'.trans hgone.1, hgone.2⟩
    · rw [hgone.1] at hsome
      cases hsome

end Cleared

/-- The report's peer answered that it has a free slot, with the marks as the pick
had left them by then. -/
def PeerFound (c : Config β) (req : Request F) (reports : List Report) (slots : Slots β)
    (memo : Memo) (now : Int) (rep : Report) : Prop :=
  rep ∈ reports ∧ ∃ memo', Cleared reports memo.refused memo'.refused ∧
    0 < freeOf (peerFree c req rep now slots memo').2

/-- **Found.** The whole outcome of a strategy from the router `rt`: no lease and
the same slots, or one slot of a host that had one. This node is used only where
the request may use it. -/
inductive Found [DecidableEq β] (c : Config β) (env : Env β F) (d : Draw F) (req : Request F)
    (backends : List β) (localElig : Bool) (reports : List Report) (rt : Router β) :
    Router β → Option (Lease β) → Prop
  | nothing (memo : Memo) (hcleared : Cleared reports rt.memo.refused memo.refused) :
      Found c env d req backends localElig reports rt ⟨rt.slots, memo⟩ none
  | backend (b : β) (memo : Memo) (hcleared : Cleared reports rt.memo.refused memo.refused)
      (helig : localElig = true) (hopen : BackendOpen c env req backends rt.slots b) :
      Found c env d req backends localElig reports rt
        ⟨(takeBackend c env rt.slots b).1, memo⟩ (some (takeBackend c env rt.slots b).2)
  | peer (rep : Report) (now : Int) (memo : Memo)
      (hcleared : Cleared reports rt.memo.refused memo.refused) (hnow : now ∈ d.readings)
      (hfound : PeerFound c req reports rt.slots rt.memo now rep) :
      Found c env d req backends localElig reports rt
        ⟨(peerLease rt.slots rep req.model now).1, memo⟩
        (some (peerLease rt.slots rep req.model now).2)

/-! ### The local pick -/

section Local

variable (c : Config β) (env : Env β F) (req : Request F) (backends : List β)

/-- What the scan holds on to is open. -/
structure LocalScan.Open (slots : Slots β) (s : LocalScan β) : Prop where
  tied : ∀ b ∈ s.tied, BackendOpen c env req backends slots b
  home : ∀ b top, s.home = some (b, top) → BackendOpen c env req backends slots b

variable {c env req backends} {b : β} {slots : Slots β}

theorem LocalScan.noteHome_open {key h : UInt64} {b' : β} {top : UInt64}
    {home : Option (β × UInt64)} (hb : BackendOpen c env req backends slots b)
    (hhome : ∀ b top, home = some (b, top) → BackendOpen c env req backends slots b)
    (hnote : noteHome key h b home = some (b', top)) : BackendOpen c env req backends slots b' := by
  unfold noteHome at hnote
  split at hnote
  · exact hhome _ _ hnote
  · split at hnote
    · cases hnote
      exact hb
    · split at hnote
      · cases hnote
        exact hb
      · cases hnote
        exact hhome _ _ rfl

theorem LocalScan.Open.note {s : LocalScan β} (hs : s.Open c env req backends slots)
    (hmem : b ∈ backends) : (s.note c env req slots b).Open c env req backends slots := by
  unfold LocalScan.note
  split
  · exact hs
  · rename_i hskip
    simp only [not_or, Bool.not_eq_false, not_le] at hskip
    have hb : BackendOpen c env req backends slots b := ⟨hmem, hskip.1, hskip.2⟩
    have hhome : ∀ b' top, noteHome req.sessionKey (rendezvous req.sessionKey (c.backendID b)) b
        s.home = some (b', top) → BackendOpen c env req backends slots b' :=
      fun _ _ => noteHome_open hb hs.home
    dsimp only
    split
    · exact ⟨hs.tied, hhome⟩
    · split
      · refine ⟨?_, hhome⟩
        intro x hx
        rw [mem_singleton] at hx
        rwa [hx]
      · refine ⟨?_, hhome⟩
        intro x hx
        rcases mem_append.1 hx with hx | hx
        · exact hs.tied x hx
        · rw [mem_singleton] at hx
          rwa [hx]

theorem chooseLocal_open {rt : Router β} {memo : Memo}
    (h : chooseLocal c env req backends rt = (memo, some b)) :
    BackendOpen c env req backends rt.slots b := by
  have hscan : (backends.foldl (LocalScan.note c env req rt.slots) {}).Open
      c env req backends rt.slots :=
    List.foldlRecOn backends _ ⟨by simp, by simp⟩ fun s hs b hb => hs.note hb
  unfold chooseLocal at h
  dsimp only at h
  split at h
  · cases h
  · split at h
    · rename_i hhome
      cases h
      exact hscan.home _ _ hhome
    · obtain ⟨-, h⟩ := Prod.mk.inj h
      exact hscan.tied b (mem_of_getElem? h)

variable (c env req backends)

theorem chooseLocal_refused (rt : Router β) :
    (chooseLocal c env req backends rt).1.refused = rt.memo.refused := by
  unfold chooseLocal
  dsimp only
  split
  · rfl
  · split <;> rfl

theorem pickLocal_found [DecidableEq β] (d : Draw F) {localElig : Bool} (reports : List Report)
    (rt : Router β) (helig : localElig = true) :
    Found c env d req backends localElig reports rt
      (pickLocal c env req backends rt).1 (pickLocal c env req backends rt).2 := by
  have hrefused := chooseLocal_refused c env req backends rt
  unfold pickLocal
  split
  · rename_i memo hchoose
    rw [hchoose] at hrefused
    exact .nothing memo fun key => .inl (congrFun hrefused key)
  · rename_i memo b hchoose
    rw [hchoose] at hrefused
    exact .backend b memo (fun key => .inl (congrFun hrefused key)) helig
      (chooseLocal_open hchoose)

end Local

/-! ### Peers -/

section Peers

/-- The peer's last refusal of the model is not outdated by the report. -/
def refusedBy (memo : Memo) (rep : Report) (model : String) : Bool :=
  match memo.refused ⟨rep.node, model⟩ with
  | some at_ => decide (rep.asOf ≤ at_)
  | none => false

/-- A peer's answer, given whether its last refusal stands. -/
def peerAnswer (c : Config β) (req : Request F) (rep : Report) (now : Int) (slots : Slots β)
    (refused : Bool) : Option (ModelCapacity × Int) :=
  if rep.node = c.self ∨ rep.fresh now c.staleAfter = false then none
  else (rep.model req.model).bind fun mc =>
    if mc.healthyBackends ≤ 0 then none
    else some (mc,
      if ((req.host ≠ "" ∧ rep.node ≠ req.host) ∨ req.exclude.contains ("peer:" ++ rep.node)) ∨
          (req.imgWant ≠ .any ∧ classOf mc.images ≠ req.imgWant) ∨ refused then 0
      else mc.slots - mc.busy - reserved slots ⟨rep.node, req.model⟩ rep.asOf)

variable {c : Config β} {req : Request F} {slots : Slots β} {now : Int}
variable {rep : Report}

/-- Of the memory, a peer's answer depends on its refusal mark alone. -/
theorem peerFree_eq {memo : Memo} : (peerFree c req rep now slots memo).2 =
    peerAnswer c req rep now slots (refusedBy memo rep req.model) := by
  unfold peerFree peerAnswer refusedBy
  split
  · rfl
  cases rep.model req.model with
  | none => rfl
  | some mc =>
    dsimp only [Option.bind_some]
    split
    · rfl
    split
    · rename_i hpin
      rw [if_pos (by tauto)]
    split
    · rename_i himage
      rw [if_pos (by tauto)]
    rename_i hpin himage
    cases memo.refused ⟨rep.node, req.model⟩ with
    | none => simp only [hpin, himage, Bool.false_eq_true, or_self, if_false]
    | some at_ =>
      simp only [hpin, himage, decide_eq_true_eq, false_or]
      split <;> rfl

/-- A peer has a free slot when it is open and its last refusal is outdated. -/
theorem freeOf_pos_iff {memo : Memo} : 0 < freeOf (peerFree c req rep now slots memo).2 ↔
    (∃ mc, PeerOpen c req slots now rep mc) ∧ refusedBy memo rep req.model = false := by
  rw [peerFree_eq]
  constructor
  · intro h
    unfold peerAnswer at h
    split at h
    · exact absurd h (lt_irrefl 0)
    rename_i hserves
    cases hentry : rep.model req.model with
    | none =>
      rw [hentry] at h
      exact absurd h (lt_irrefl 0)
    | some mc =>
      rw [hentry, Option.bind_some] at h
      split at h
      · exact absurd h (lt_irrefl 0)
      rename_i hhealthy
      dsimp only [freeOf] at h
      split at h
      · exact absurd h (lt_irrefl 0)
      rename_i hfree
      simp only [not_or, not_and_or, not_not, Bool.not_eq_false, Bool.not_eq_true] at hserves hfree
      exact ⟨⟨mc, hserves.1, hserves.2, hentry, not_le.1 hhealthy, hfree.1.1, hfree.1.2,
        hfree.2.1, h⟩, hfree.2.2⟩
  · rintro ⟨⟨mc, hopen⟩, hrefused⟩
    have hnot : ¬(((req.host ≠ "" ∧ rep.node ≠ req.host) ∨
          req.exclude.contains ("peer:" ++ rep.node)) ∨
          (req.imgWant ≠ .any ∧ classOf mc.images ≠ req.imgWant) ∨
          refusedBy memo rep req.model = true) := by
      rw [hopen.notTried, hrefused]
      have := hopen.pin
      have := hopen.image
      tauto
    rw [peerAnswer, if_neg (by simp [hopen.other, hopen.fresh]), hopen.entry, Option.bind_some,
      if_neg (not_le.2 hopen.healthy), freeOf, if_neg hnot]
    exact hopen.free

theorem freeOf_open {memo : Memo} (h : 0 < freeOf (peerFree c req rep now slots memo).2) :
    ∃ mc, PeerOpen c req slots now rep mc :=
  (freeOf_pos_iff.1 h).1

theorem PeerFound.takes_open {reports : List Report} {memo : Memo}
    (h : PeerFound c req reports slots memo now rep) : ∃ mc, PeerOpen c req slots now rep mc := by
  obtain ⟨-, memo', -, hfree⟩ := h
  exact freeOf_open hfree

theorem PeerFound.of_cleared {reports : List Report} {memo memo' : Memo}
    (hcleared : Cleared reports memo.refused memo'.refused)
    (h : PeerFound c req reports slots memo' now rep) :
    PeerFound c req reports slots memo now rep := by
  obtain ⟨hrep, memo'', hcleared', hfree⟩ := h
  exact ⟨hrep, memo'', hcleared.trans hcleared', hfree⟩

variable (c req slots now)

theorem peerFree_cleared {reports : List Report} (hrep : rep ∈ reports) (memo : Memo) :
    Cleared reports memo.refused (peerFree c req rep now slots memo).1.refused := by
  have hsame := Cleared.refl reports memo.refused
  unfold peerFree
  split
  · exact hsame
  split
  · exact hsame
  split
  · exact hsame
  split
  · exact hsame
  split
  · exact hsame
  dsimp only
  split
  · exact hsame
  rename_i at_ hmark
  split
  · exact hsame
  · -- The report is as of a later moment than the refusal.
    rename_i hafter
    intro key
    by_cases hkey : key = ⟨rep.node, req.model⟩
    · subst hkey
      exact .inr ⟨Function.update_self .., at_, rep, hmark, hrep, rfl, not_le.1 hafter⟩
    · exact .inl (Function.update_of_ne hkey ..)

/-- **Scan rule.** What holds of the start and is kept by each answer, given with
marks that the scan has at most cleared, holds of the scan. -/
theorem scanPeers_invariant {σ : Type} (note : σ → Report → Option (ModelCapacity × Int) → σ)
    {reports : List Report} (memo : Memo) {s : σ} (P : σ → Prop) (hs : P s)
    (hnote : ∀ s rep memo', P s → rep ∈ reports → Cleared reports memo.refused memo'.refused →
      P (note s rep (peerFree c req rep now slots memo').2)) :
    P (scanPeers c req now slots note reports memo s).2 ∧
      Cleared reports memo.refused (scanPeers c req now slots note reports memo s).1.refused := by
  refine List.foldlRecOn (motive := fun acc : Memo × σ =>
    P acc.2 ∧ Cleared reports memo.refused acc.1.refused) reports _ ⟨hs, .refl _ _⟩ ?_
  intro acc hacc rep hrep
  exact ⟨hnote acc.2 rep acc.1 hacc.1 hrep hacc.2, hacc.2.trans (peerFree_cleared c req slots now hrep acc.1)⟩

variable {c req slots now}
variable {reports : List Report} {memo memo' : Memo}

theorem PeerScan.note_found {s : PeerScan}
    (hs : ∀ r ∈ s.tied, PeerFound c req reports slots memo now r) (hrep : rep ∈ reports)
    (hcleared : Cleared reports memo.refused memo'.refused) :
    ∀ r ∈ (s.note rep (freeOf (peerFree c req rep now slots memo').2)).tied,
      PeerFound c req reports slots memo now r := by
  unfold PeerScan.note
  split
  · exact hs
  rename_i hfree
  have hfound : PeerFound c req reports slots memo now rep :=
    ⟨hrep, memo', hcleared, not_le.1 (not_or.1 hfree).1⟩
  split
  · intro r hr
    rw [mem_singleton] at hr
    exact hr ▸ hfound
  split
  · intro r hr
    rcases mem_append.1 hr with hr | hr
    · exact hs r hr
    · rw [mem_singleton] at hr
      exact hr ▸ hfound
  · exact hs

@[simp] theorem SessionScan.start_pick (c : Config β) (env : Env β F) (req : Request F)
    (backends : List β) (localEligible : Bool) (slots : Slots β) :
    (SessionScan.start c env req backends localEligible slots).pick = none := by
  unfold SessionScan.start
  split <;> rfl

variable {localEligible : Bool}

theorem SessionScan.start_isLocal {env : Env β F} {backends : List β}
    (h : (SessionScan.start c env req backends localEligible slots).isLocal = true) :
    localEligible = true := by
  unfold SessionScan.start at h
  split at h
  · rename_i hlocal
    exact hlocal.1
  · cases h

/-- What the scan of a session holds on to: this node only where the request may
use it, or a report whose peer had a free slot. -/
structure SessionScan.Held (c : Config β) (req : Request F) (reports : List Report)
    (slots : Slots β) (memo : Memo) (now : Int) (localEligible : Bool) (s : SessionScan) :
    Prop where
  isLocal : s.isLocal = true → localEligible = true
  pick : ∀ r, s.pick = some r → PeerFound c req reports slots memo now r

theorem SessionScan.Held.note {s : SessionScan}
    (hs : s.Held c req reports slots memo now localEligible) (hrep : rep ∈ reports)
    (hcleared : Cleared reports memo.refused memo'.refused) :
    (s.note req.sessionKey rep (freeOf (peerFree c req rep now slots memo').2)).Held
      c req reports slots memo now localEligible := by
  unfold SessionScan.note
  split
  · exact hs
  rename_i hfree
  split
  · refine ⟨nofun, ?_⟩
    intro r hr
    cases hr
    exact ⟨hrep, memo', hcleared, not_le.1 hfree⟩
  · exact hs

end Peers

/-! ### The scored choice -/

section Scored

variable [Float64 F] {cand : ScoredCand F} {preds : List (ScoredCand F × F)} {self : String}
variable {w : Option (WarmPair F)} {key : UInt64} {out : Option (ScoredCand F)} {c : Config β}
variable {req : Request F} {s : ScoredScan F}

theorem mem_of_mem_predict {estK medOv medRate : F} {cands : List (ScoredCand F)}
    {q : ScoredCand F × F} (h : q ∈ predict self estK w medOv medRate cands) : q.1 ∈ cands := by
  obtain ⟨cand, hcand, rfl⟩ := mem_map.1 h
  exact hcand

/-- A band member, unless every candidate is above the limit. -/
theorem bandSession_cases {limit : F} (h : bandSession self key limit preds = out) :
    (out = none ∧ ∀ q ∈ preds, Float64.lt limit q.2 = true) ∨ ∃ q ∈ preds, out = some q.1 := by
  subst h
  unfold bandSession
  induction preds using List.reverseRecOn with
  | nil => exact .inl ⟨rfl, by simp⟩
  | append_singleton preds q ih =>
    rw [foldl_append, foldl_cons, foldl_nil]
    split
    · rename_i habove
      refine ih.imp (fun h => ⟨h.1, ?_⟩) fun ⟨q', hq', h⟩ => ⟨q', mem_append_left _ hq', h⟩
      rw [forall_mem_append, forall_mem_singleton]
      exact ⟨h.2, habove⟩
    · right
      dsimp only
      split
      · exact ⟨q, by simp, rfl⟩
      · rename_i hacc
        split
        · exact ⟨q, by simp, rfl⟩
        · rw [hacc] at ih
          obtain ⟨hnone, -⟩ | ⟨q', hq', h⟩ := ih
          · cases hnone
          · exact ⟨q', mem_append_left _ hq', h⟩

/-- A candidate with a weight, or what was held if there is none. -/
theorem drawWeighted_cases {x : F} {held : Option (ScoredCand F)}
    {weights : List (ScoredCand F × F)} (h : drawWeighted x held weights = out) :
    (out = held ∧ ∀ q ∈ weights, Float64.isZero q.2 = true) ∨
      ∃ q ∈ weights, Float64.isZero q.2 = false ∧ out = some q.1 := by
  induction weights generalizing x held with
  | nil => exact .inl ⟨h.symm, by simp⟩
  | cons q rest ih =>
    unfold drawWeighted at h
    split at h
    · rename_i hzero
      refine (ih h).imp (fun h => ⟨h.1, ?_⟩) fun ⟨q', hq', h⟩ => ⟨q', mem_cons_of_mem _ hq', h⟩
      exact forall_mem_cons.2 ⟨hzero, h.2⟩
    · rename_i hweighs
      rw [Bool.not_eq_true] at hweighs
      right
      split at h
      · exact ⟨q, mem_cons_self, hweighs, h.symm⟩
      · obtain ⟨hheld, -⟩ | ⟨q', hq', h⟩ := ih h
        · exact ⟨q, mem_cons_self, hweighs, hheld⟩
        · exact ⟨q', mem_cons_of_mem _ hq', h⟩

theorem chooseBand_mem {r : F} (h : chooseBand self key r preds = some cand) :
    ∃ q ∈ preds, q.1 = cand := by
  unfold chooseBand at h
  dsimp only at h
  split at h
  · obtain ⟨hnone, -⟩ | ⟨q, hq, hcand⟩ := bandSession_cases h
    · cases hnone
    · exact ⟨q, hq, (Option.some.inj hcand).symm⟩
  split at h
  · split at h
    · cases h
      exact ⟨_, mem_cons_self, rfl⟩
    · obtain ⟨hnone, -⟩ | ⟨q', hq', -, hcand⟩ := drawWeighted_cases h
      · cases hnone
      · obtain ⟨q, hq, rfl⟩ := mem_map.1 hq'
        exact ⟨q, hq, (Option.some.inj hcand).symm⟩
  · cases h

theorem chooseLearning_mem {r : F} {learning : List (ScoredCand F)}
    (h : chooseLearning r learning = some cand) : cand ∈ learning := by
  unfold chooseLearning at h
  dsimp only at h
  split at h
  · cases h
  · exact mem_of_getElem? h

/-- The scored choice is one of the candidates. -/
theorem chooseScored_mem {d : Draw F} (h : chooseScored c d req w s = some cand) :
    cand ∈ s.cands := by
  have hband : ∀ {r medOv medRate}, chooseBand c.self req.sessionKey r
      (predict c.self req.estK w medOv medRate s.cands) = some cand → cand ∈ s.cands := by
    intro r medOv medRate hband
    obtain ⟨q, hq, rfl⟩ := chooseBand_mem hband
    exact mem_of_mem_predict hq
  unfold chooseScored at h
  obtain ⟨medOv, -, h⟩ := Option.bind_eq_some_iff.1 h
  obtain ⟨medRate, -, h⟩ := Option.bind_eq_some_iff.1 h
  dsimp only at h
  split at h
  · split at h
    · exact (mem_filter.1 (chooseLearning_mem h)).1
    · exact hband h
  · exact hband h

/-- What the scan of the scored choice holds on to. -/
def ScoredScan.Held (c : Config β) (env : Env β F) (req : Request F) (backends : List β)
    (localEligible : Bool) (reports : List Report) (slots : Slots β) (memo : Memo) (now : Int)
    (s : ScoredScan F) : Prop :=
  ∀ cand ∈ s.cands,
    (cand.rep = none → localEligible = true ∧ localHasFree c env req backends slots = true) ∧
    ∀ r, cand.rep = some r → PeerFound c req reports slots memo now r

theorem ScoredScan.Held.note {env : Env β F} {backends : List β} {localEligible : Bool}
    {slots : Slots β} {now : Int} {reports : List Report} {memo memo' : Memo} {rep : Report}
    (hs : s.Held c env req backends localEligible reports slots memo now) (hrep : rep ∈ reports)
    (hcleared : Cleared reports memo.refused memo'.refused) :
    (s.note rep (peerFree c req rep now slots memo').2).Held
      c env req backends localEligible reports slots memo now := by
  unfold ScoredScan.note
  split
  · exact hs
  rename_i mc f hpf
  dsimp only
  split
  · exact hs
  · rename_i hfree
    intro cand hcand
    rcases mem_append.1 hcand with hcand | hcand
    · exact hs cand hcand
    · rw [mem_singleton] at hcand
      subst hcand
      refine ⟨nofun, ?_⟩
      intro r hr
      cases hr
      refine ⟨hrep, memo', hcleared, ?_⟩
      rw [hpf]
      exact not_le.1 (not_or.1 hfree).1

theorem ScoredScan.Held.start (c : Config β) (env : Env β F) (req : Request F)
    (backends : List β) (localEligible : Bool) (reports : List Report) (slots : Slots β)
    (memo : Memo) (now : Int) :
    (ScoredScan.start c env req backends localEligible slots).Held
      c env req backends localEligible reports slots memo now := by
  intro cand hcand
  unfold ScoredScan.start at hcand
  dsimp only at hcand
  split at hcand
  · rename_i hlocal
    rw [mem_singleton] at hcand
    subst hcand
    exact ⟨fun _ => hlocal, nofun⟩
  · cases hcand

end Scored

/-! ### The strategies -/

section Strategies

variable [DecidableEq β] {c : Config β} {env : Env β F} {d : Draw F} {req : Request F}
variable {backends : List β} {reports : List Report}

namespace Found

variable {localElig : Bool} {rt rt' rt'' : Router β} {l : Option (Lease β)}

theorem outcome (h : Found c env d req backends localElig reports rt rt' l) :
    Outcome c env d req backends reports rt.slots rt'.slots l := by
  cases h with
  | nothing memo hcleared => exact .nothing
  | backend b memo hcleared helig hopen => exact .took (.backend b hopen)
  | peer rep now memo hcleared hnow hfound =>
    obtain ⟨mc, hopen⟩ := hfound.takes_open
    exact .took (.peer rep mc now hfound.1 hnow hopen)

theorem cleared (h : Found c env d req backends localElig reports rt rt' l) :
    Cleared reports rt.memo.refused rt'.memo.refused := by
  cases h <;> assumption

/-- After a strategy without a lease, what the next one finds. -/
theorem next (h : Found c env d req backends localElig reports rt rt' none)
    (hnext : Found c env d req backends localElig reports rt' rt'' l) :
    Found c env d req backends localElig reports rt rt'' l := by
  have hcleared := h.cleared
  obtain ⟨slots, memo⟩ := rt'
  obtain rfl : slots = rt.slots := h.outcome.slots_eq
  cases hnext with
  | nothing memo' hcleared' => exact .nothing memo' (hcleared.trans hcleared')
  | backend b memo' hcleared' helig hopen =>
    exact .backend b memo' (hcleared.trans hcleared') helig hopen
  | peer rep now memo' hcleared' hnow hfound =>
    exact .peer rep now memo' (hcleared.trans hcleared') hnow (hfound.of_cleared hcleared)

/-- Of the memory, only the marks matter. -/
theorem congr_memo {memo : Memo} (h : Found c env d req backends localElig reports rt rt' l)
    (hmarks : memo.refused = rt'.memo.refused) :
    Found c env d req backends localElig reports rt ⟨rt'.slots, memo⟩ l := by
  cases h with
  | nothing memo' hcleared => exact .nothing memo (hmarks ▸ hcleared)
  | backend b memo' hcleared helig hopen => exact .backend b memo (hmarks ▸ hcleared) helig hopen
  | peer rep now memo' hcleared hnow hfound =>
    exact .peer rep now memo (hmarks ▸ hcleared) hnow hfound

end Found

omit [DecidableEq β] in
/-- A peer that is asked alone and has a free slot is found. -/
theorem PeerFound.of_asked {rep : Report} {now : Int} {rt : Router β} (hrep : rep ∈ reports)
    (hfree : 0 < freeOf (peerFree c req rep now rt.slots rt.memo).2) :
    PeerFound c req reports rt.slots rt.memo now rep :=
  ⟨hrep, rt.memo, .refl _ _, hfree⟩

variable (c env d req backends reports)

theorem pickPeer_found (localElig : Bool) (rt : Router β) :
    Found c env d req backends localElig reports rt
      (pickPeer c d req reports rt).1 (pickPeer c d req reports rt).2 := by
  obtain ⟨hscan, hcleared⟩ := scanPeers_invariant c req rt.slots d.peerAt
    (fun s rep pf => s.note rep (freeOf pf)) rt.memo
    (fun s : PeerScan => ∀ r ∈ s.tied, PeerFound c req reports rt.slots rt.memo d.peerAt r)
    (s := {}) (by simp) fun s rep memo hs hrep => PeerScan.note_found hs hrep
  unfold pickPeer
  dsimp only
  split
  · exact .nothing _ hcleared
  split
  · exact .nothing _ hcleared
  · rename_i rep hget
    exact .peer rep d.peerAt _ hcleared (by simp [Draw.readings])
      (hscan rep (mem_of_getElem? hget))

variable (localEligible : Bool)

theorem pickPreferred_found (names : List String) (rt : Router β) :
    Found c env d req backends localEligible reports rt
      (pickPreferred c env d req backends localEligible reports names rt).1
      (pickPreferred c env d req backends localEligible reports names rt).2 := by
  induction names generalizing rt with
  | nil => exact .nothing rt.memo (.refl _ _)
  | cons name names ih =>
    unfold pickPreferred
    split
    · split
      · -- This node is named: its own pick, or on with the same slots.
        rename_i helig
        have hlocal := pickLocal_found c env req backends d reports rt helig
        split
        · rename_i hpick
          rwa [hpick] at hlocal
        · rename_i hpick
          rw [hpick] at hlocal
          exact hlocal.next (ih _)
      · exact ih rt
    · split
      · exact ih rt
      · rename_i rep hfind
        have hrep := mem_of_find?_eq_some hfind
        have hcleared := peerFree_cleared c req rt.slots d.preferAt hrep rt.memo
        dsimp only
        split
        · rename_i hfree
          exact .peer rep d.preferAt _ hcleared (by simp [Draw.readings])
            (.of_asked hrep hfree)
        · exact Found.next (.nothing _ hcleared) (ih _)

/-- A warm host's slot, or none and the same slots. -/
theorem pickWarm_found (names : List String) (rt : Router β) :
    Found c env d req backends localEligible reports rt
      (pickWarm c env d req backends localEligible reports names rt).1
      (pickWarm c env d req backends localEligible reports names rt).2.join := by
  induction names generalizing rt with
  | nil => exact .nothing rt.memo (.refl _ _)
  | cons name names ih =>
    unfold pickWarm
    split
    · exact ih rt
    split
    · split
      · rename_i hlocal
        exact pickLocal_found c env req backends d reports rt hlocal.1
      · exact ih rt
    · split
      · exact ih rt
      · rename_i rep hfind
        have hrep := mem_of_find?_eq_some hfind
        have hcleared := peerFree_cleared c req rt.slots d.sessionAt hrep rt.memo
        dsimp only
        split
        · rename_i hfree
          exact .peer rep d.sessionAt _ hcleared (by simp [Draw.readings])
            (.of_asked hrep hfree)
        · exact Found.next (.nothing _ hcleared) (ih _)

theorem pickSession_found [Float64 F] (rt : Router β) :
    Found c env d req backends localEligible reports rt
      (pickSession c env d req backends localEligible reports rt).1
      (pickSession c env d req backends localEligible reports rt).2 := by
  unfold pickSession
  dsimp only
  have hwarm := pickWarm_found c env d req backends reports localEligible
    (warmHosts (warm c env req (anyHealthy env backends) reports d.sessionAt rt.memo)) rt
  split
  · rename_i hpick
    rwa [hpick] at hwarm
  rename_i rt' hpick
  rw [hpick] at hwarm
  refine Found.next hwarm ?_
  obtain ⟨hscan, hcleared⟩ := scanPeers_invariant c req rt'.slots d.sessionAt
    (fun s rep pf => s.note req.sessionKey rep (freeOf pf)) rt'.memo
    (SessionScan.Held c req reports rt'.slots rt'.memo d.sessionAt localEligible)
    (s := SessionScan.start c env req backends localEligible rt'.slots)
    ⟨SessionScan.start_isLocal, by simp⟩ fun s rep memo hs hrep => hs.note hrep
  split
  · rename_i hlocal
    exact Found.next (.nothing _ hcleared)
      (pickLocal_found c env req backends d reports _ (hscan.isLocal hlocal))
  split
  · rename_i rep hsome
    exact .peer rep d.sessionAt _ hcleared (by simp [Draw.readings]) (hscan.pick rep hsome)
  · exact .nothing _ hcleared

/-- The lease a scored pick answers with, if any. -/
def scoredLease : Option (Except PickErr (Option (Lease β))) → Option (Lease β)
  | some (.ok l) => l
  | _ => none

omit [DecidableEq β] in
theorem scanScored_held [Float64 F] (rt : Router β) :
    (scanPeers c req d.scoredAt rt.slots ScoredScan.note reports rt.memo
      (ScoredScan.start c env req backends localEligible rt.slots)).2.Held
        c env req backends localEligible reports rt.slots rt.memo d.scoredAt ∧
    Cleared reports rt.memo.refused
      (scanPeers c req d.scoredAt rt.slots ScoredScan.note reports rt.memo
        (ScoredScan.start c env req backends localEligible rt.slots)).1.refused :=
  scanPeers_invariant c req rt.slots d.scoredAt ScoredScan.note rt.memo
    (ScoredScan.Held c env req backends localEligible reports rt.slots rt.memo d.scoredAt)
    (.start c env req backends localEligible reports rt.slots rt.memo d.scoredAt)
    fun _ _ _ hs hrep => hs.note hrep

theorem pickScored_found [Float64 F] (rt : Router β) :
    Found c env d req backends localEligible reports rt
      (pickScored c env d req backends localEligible reports rt).1
      (scoredLease (pickScored c env d req backends localEligible reports rt).2) := by
  obtain ⟨hscan, hcleared⟩ := scanScored_held c env d req backends reports localEligible rt
  unfold pickScored
  dsimp only
  split
  · exact .nothing _ hcleared
  split
  · exact .nothing _ hcleared
  rename_i cand hchoose
  obtain ⟨hlocal, hpeer⟩ := hscan cand (chooseScored_mem hchoose)
  split
  · rename_i hrep
    exact Found.next (.nothing _ hcleared)
      (pickLocal_found c env req backends d reports _ (hlocal hrep).1)
  · rename_i rep hrep
    exact .peer rep d.scoredAt _ hcleared (by simp [Draw.readings]) (hpeer rep hrep)

/-! ### The whole pick -/

variable {c env d req backends reports}

theorem tryPick_found {localElig on : Bool} {pick : Router β → Router β × Option (Lease β)}
    {next : Router β → Router β × Except PickErr (Lease β)}
    (hpick : on = true → ∀ rt, Found c env d req backends localElig reports rt
      (pick rt).1 (pick rt).2)
    (hnext : ∀ rt, Found c env d req backends localElig reports rt
      (next rt).1 (next rt).2.toOption) (rt : Router β) :
    Found c env d req backends localElig reports rt
      (tryPick on pick next rt).1 (tryPick on pick next rt).2.toOption := by
  unfold tryPick
  split
  · rename_i hon
    have h := hpick hon rt
    split
    · rename_i heq
      rwa [heq] at h
    · rename_i rt' heq
      rw [heq] at h
      exact h.next (hnext rt')
  · exact hnext rt

variable (c env d reports)

/-- This node may take the request: it is eligible, and no other host is pinned. -/
def Admitted.localOpen (c : Config β) (a : Admitted β F) : Bool :=
  a.localElig && (a.req.host == "" || a.req.host == c.self)

variable {a : Admitted β F}

omit [DecidableEq β] in
theorem Admitted.localOpen_of_unpinned {c : Config β} (hhost : a.req.host = "") :
    a.localOpen c = a.localElig := by
  simp [localOpen, hhost]

theorem pickLocalFirst_found (a : Admitted β F) (rt : Router β) :
    Found c env d a.req a.backends (a.localOpen c) reports rt
      (pickLocalFirst c env d a reports rt).1 (pickLocalFirst c env d a reports rt).2.toOption :=
  tryPick_found (fun hon rt => pickLocal_found c env a.req a.backends d reports rt hon)
    (tryPick_found (fun _ => pickPeer_found c env d a.req a.backends reports _)
      fun rt => .nothing rt.memo (.refl _ _)) rt

theorem pickPerformance_found [Float64 F] (a : Admitted β F) (rt : Router β) :
    Found c env d a.req a.backends (a.localOpen c) reports rt
      (pickPerformance c env d a reports rt).1
      (pickPerformance c env d a reports rt).2.toOption := by
  unfold pickPerformance
  split
  · rename_i hon
    have hopen := Admitted.localOpen_of_unpinned (c := c) hon.2.2
    have hscored : Found c env d a.req a.backends (a.localOpen c) reports rt
        (pickScored c env d a.req a.backends a.localElig reports rt).1
        (scoredLease (pickScored c env d a.req a.backends a.localElig reports rt).2) := by
      rw [hopen]
      exact pickScored_found c env d a.req a.backends reports a.localElig rt
    split
    · rename_i heq
      rwa [heq] at hscored
    · rename_i heq
      rwa [heq] at hscored
    · rename_i heq
      rwa [heq] at hscored
    · rename_i rt' heq
      rw [heq] at hscored
      refine Found.next hscored (tryPick_found (fun _ rt => ?_)
        (pickLocalFirst_found c env d reports a) rt')
      rw [hopen]
      exact pickSession_found c env d a.req a.backends reports a.localElig rt
  · exact pickLocalFirst_found c env d reports a rt

/-- The strategies in turn, as `pickWithReports` tries them on an admitted
request. -/
def strategies [Float64 F] (c : Config β) (env : Env β F) (d : Draw F) (reports : List Report)
    (a : Admitted β F) : Router β → Router β × Except PickErr (Lease β) :=
  tryPick (a.req.prefer != [] && !a.req.forwarded && a.req.host == "")
    (pickPreferred c env d a.req a.backends a.localElig reports a.req.prefer)
    (pickPerformance c env d a reports)

theorem strategies_found [Float64 F] (a : Admitted β F) (rt : Router β) :
    Found c env d a.req a.backends (a.localOpen c) reports rt
      (strategies c env d reports a rt).1 (strategies c env d reports a rt).2.toOption := by
  refine tryPick_found (fun hon rt => ?_) (pickPerformance_found c env d reports a) rt
  have hhost : a.req.host = "" := by
    simp only [Bool.and_eq_true, beq_iff_eq] at hon
    exact hon.2
  rw [Admitted.localOpen_of_unpinned hhost]
  exact pickPreferred_found c env d a.req a.backends reports a.localElig a.req.prefer rt

theorem pickWithReports_of_check [Float64 F] (hcheck : checkRequest c env d req reports = .ok a)
    (rt : Router β) :
    pickWithReports c env d req reports rt =
      (⟨(strategies c env d reports a rt).1.slots,
        noteSession c env a.req (strategies c env d reports a rt).2.toOption reports
          (strategies c env d reports a rt).1.memo⟩, (strategies c env d reports a rt).2) := by
  rw [pickWithReports, hcheck]
  rfl

omit [DecidableEq β] in
@[simp] theorem noteSession_refused (req : Request F) (lease : Option (Lease β)) (memo : Memo) :
    (noteSession c env req lease reports memo).refused = memo.refused := by
  unfold noteSession
  split
  · rfl
  · split <;> rfl

/-- A pick fails in the checks and changes nothing, or is what the strategies found;
the session's memory, noted last, holds neither slots nor marks. -/
theorem pickWithReports_found [Float64 F] (req : Request F) (rt : Router β) :
    (∃ e, checkRequest c env d req reports = .error e ∧
      pickWithReports c env d req reports rt = (rt, .error e)) ∨
    ∃ a, checkRequest c env d req reports = .ok a ∧
      Found c env d a.req a.backends (a.localOpen c) reports rt
        (pickWithReports c env d req reports rt).1
        (pickWithReports c env d req reports rt).2.toOption := by
  cases hcheck : checkRequest c env d req reports with
  | error e => exact .inl ⟨e, rfl, by rw [pickWithReports, hcheck]⟩
  | ok a =>
    refine .inr ⟨a, rfl, ?_⟩
    rw [pickWithReports_of_check c env d reports hcheck]
    exact (strategies_found c env d reports a rt).congr_memo (noteSession_refused ..)

/-- **Pick.** A pick that fails leaves the slots alone; one that succeeds takes
exactly one open slot. -/
theorem pickWithReports_cases [Float64 F] (req : Request F) (rt : Router β) :
    (∃ e, (pickWithReports c env d req reports rt).2 = .error e ∧
      (pickWithReports c env d req reports rt).1.slots = rt.slots) ∨
    ∃ l a, (pickWithReports c env d req reports rt).2 = .ok l ∧
      checkRequest c env d req reports = .ok a ∧
      Takes c env d a.req a.backends reports rt.slots
        (pickWithReports c env d req reports rt).1.slots l := by
  rcases pickWithReports_found c env d reports req rt with ⟨e, -, heq⟩ | ⟨a, hcheck, hfound⟩
  · exact .inl ⟨e, by rw [heq], by rw [heq]⟩
  · have h := hfound.outcome
    cases hres : (pickWithReports c env d req reports rt).2 with
    | error e =>
      rw [hres] at h
      exact .inl ⟨e, rfl, h.slots_eq⟩
    | ok l =>
      rw [hres] at h
      exact .inr ⟨l, a, rfl, hcheck, h.takes⟩

theorem Takes.mono {reports reports' : List Report} {slots slots' : Slots β} {l : Lease β}
    (hsub : ∀ rep ∈ reports, rep ∈ reports') (h : Takes c env d req backends reports slots slots' l) :
    Takes c env d req backends reports' slots slots' l := by
  cases h with
  | backend b hopen => exact .backend b hopen
  | peer rep mc now hrep hnow hopen => exact .peer rep mc now (hsub rep hrep) hnow hopen

/-- The same with the reports of the section, which a forwarded request does not
see. -/
theorem pick_cases [Float64 F] (req : Request F) (rt : Router β) :
    (∃ e, (pick c env d req rt).2 = .error e ∧ (pick c env d req rt).1.slots = rt.slots) ∨
    ∃ l req' backends, (pick c env d req rt).2 = .ok l ∧
      Takes c env d req' backends env.reports rt.slots (pick c env d req rt).1.slots l := by
  rcases pickWithReports_cases c env d (if req.forwarded then [] else env.reports) req rt with
    h | ⟨l, a, hres, -, htakes⟩
  · exact .inl h
  · refine .inr ⟨l, a.req, a.backends, hres, htakes.mono c env d ?_⟩
    intro rep hrep
    split at hrep
    · cases hrep
    · exact hrep

end Strategies

end Viiwork.Route

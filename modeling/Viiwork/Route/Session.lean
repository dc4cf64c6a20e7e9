import Viiwork.Lib.Argmax
import Viiwork.Route.Occupancy
import Viiwork.Route.Overcommit

/-!
# Viiwork.Route.Session

**Rendezvous.** Before any score exists and with nothing known to be warm, a session
goes to the host with a free slot of the highest rendezvous value, which is the
first of `SessionRank`. The scan of `pickSession` is an argmax (`List.argmax`), so
that what a session's host depends on is the set of free hosts alone.
-/

namespace Viiwork.Route

open List

variable {β F : Type}

/-! ### The ranking -/

/-- The rendezvous value as a number. -/
def score (key : UInt64) (name : String) : Nat := (rendezvous key name).toNat

section Ranking

variable {key : UInt64} {a b : String} {names : List String}

theorem score_lt_iff : score key a < score key b ↔ rendezvous key a < rendezvous key b :=
  UInt64.lt_iff_toNat_lt.symm

theorem ranksBefore_iff :
    RanksBefore key a b ↔ score key b < score key a ∨ score key b = score key a ∧ a ≤ b := by
  rw [RanksBefore, ← score_lt_iff, score, score, UInt64.toNat_inj]

instance (key : UInt64) : Std.Total (RanksBefore key) where
  total a b := by
    rw [ranksBefore_iff, ranksBefore_iff]
    rcases lt_trichotomy (score key a) (score key b) with hlt | heq | hgt
    · exact .inr (.inl hlt)
    · exact (le_total a b).imp (fun h => .inr ⟨heq.symm, h⟩) fun h => .inr ⟨heq, h⟩
    · exact .inl (.inl hgt)

instance (key : UInt64) : IsTrans String (RanksBefore key) where
  trans a b c hab hbc := by
    rw [ranksBefore_iff] at hab hbc ⊢
    rcases hab with hab | ⟨hab, hle⟩ <;> rcases hbc with hbc | ⟨hbc, hle'⟩
    · exact .inl (hbc.trans hab)
    · exact .inl (hbc.trans_lt hab)
    · exact .inl (hbc.trans_eq hab)
    · exact .inr ⟨hbc.trans hab, hle.trans hle'⟩

theorem RanksBefore.score_le (h : RanksBefore key a b) : score key b ≤ score key a := by
  rcases ranksBefore_iff.1 h with h | h
  · exact h.le
  · exact h.1.le

/-- The first of the ranking is the name of the highest value. -/
theorem head?_sessionRank (h : Lib.ScoresDiffer (score key) names) :
    (sessionRank key names).head? = names.argmax (score key) :=
  h.head?_insertionSort fun _ _ => RanksBefore.score_le

theorem RanksBefore.antisymm (h : RanksBefore key a b) (h' : RanksBefore key b a) : a = b := by
  rw [ranksBefore_iff] at h h'
  rcases h with h | ⟨heq, hle⟩ <;> rcases h' with h' | ⟨heq', hle'⟩
  · omega
  · omega
  · omega
  · exact le_antisymm hle hle'

/-- The first of the ranking with a property ranks before all others that have it. -/
theorem find?_sessionRank_iff {p : String → Bool} :
    (sessionRank key names).find? p = some a ↔
      a ∈ names ∧ p a = true ∧ ∀ x ∈ names, p x = true → RanksBefore key a x := by
  have hmem : ∀ x, x ∈ sessionRank key names ↔ x ∈ names := fun x => mem_insertionSort _
  have hfirst : ∀ n, (sessionRank key names).find? p = some n →
      n ∈ names ∧ p n = true ∧ ∀ x ∈ names, p x = true → RanksBefore key n x := by
    intro n hn
    refine ⟨(hmem n).1 (mem_of_find?_eq_some hn), List.find?_some hn, ?_⟩
    intro x hx hpx
    obtain ⟨-, as, bs, hsplit, hbefore⟩ := List.find?_eq_some_iff_append.1 hn
    have hsorted : (sessionRank key names).Pairwise (RanksBefore key) :=
      pairwise_insertionSort _ _
    rw [← hmem, hsplit] at hx
    rw [hsplit] at hsorted
    rcases mem_append.1 hx with hx | hx
    · have hnot := hbefore x hx
      rw [hpx] at hnot
      cases hnot
    · rcases mem_cons.1 hx with rfl | hx
      · exact (Std.Total.total (r := RanksBefore key) x x).elim id id
      · exact rel_of_pairwise_cons (pairwise_append.1 hsorted).2.1 hx
  constructor
  · exact hfirst a
  · rintro ⟨ha, hpa, hbest⟩
    obtain ⟨n, hn⟩ : ∃ n, (sessionRank key names).find? p = some n :=
      Option.isSome_iff_exists.1 (List.find?_isSome.2 ⟨a, (hmem a).2 ha, hpa⟩)
    obtain ⟨hmemn, hpn, hbestn⟩ := hfirst n hn
    rw [hn, (hbest n hmemn hpn).antisymm (hbestn a ha hpa)]

end Ranking

/-! ### The scan is an argmax -/

/-- The host the scan holds on to; `own` is this node. -/
def SessionScan.choice (own : String) (s : SessionScan) : Option String :=
  if s.isLocal then some own else s.pick.map Report.node

/-- The scan holds the host of the highest value among those it has seen. -/
structure SessionScan.Agrees (own : String) (key : UInt64) (seen : List String)
    (s : SessionScan) : Prop where
  best : s.choice own = seen.argmax (score key)
  top : ∀ x, s.choice own = some x → s.top = rendezvous key x

namespace SessionScan

variable {own : String} {key : UInt64} {seen : List String} {s : SessionScan}

theorem choice_eq_none_iff (own : String) : s.choice own = none ↔ s.isLocal = false ∧ s.pick = none := by
  unfold choice
  cases s.isLocal <;> simp

theorem Agrees.note (h : s.Agrees own key seen) (rep : Report) (f : Int) :
    (s.note key rep f).Agrees own key (seen ++ if 0 < f then [rep.node] else []) := by
  unfold SessionScan.note
  by_cases hf : f ≤ 0
  · rw [if_pos hf, if_neg (not_lt.2 hf), append_nil]
    exact h
  · rw [if_neg hf, if_pos (not_le.1 hf)]
    have hconcat := argmax_concat (score key) rep.node seen
    rw [← h.best] at hconcat
    cases hchoice : s.choice own with
    | none =>
      rw [if_pos (.inl ((choice_eq_none_iff own).1 hchoice))]
      rw [hchoice] at hconcat
      exact ⟨hconcat.symm, fun x hx => by cases hx; rfl⟩
    | some x =>
      have hsome : ¬(s.isLocal = false ∧ s.pick = none) := by
        rw [← choice_eq_none_iff own, hchoice]
        nofun
      rw [hchoice] at hconcat
      simp only [hsome, false_or, h.top x hchoice]
      by_cases hlt : rendezvous key x < rendezvous key rep.node
      · rw [if_pos hlt]
        simp only [if_pos (score_lt_iff.2 hlt)] at hconcat
        exact ⟨hconcat.symm, fun y hy => by cases hy; rfl⟩
      · rw [if_neg hlt]
        simp only [if_neg fun h => hlt (score_lt_iff.1 h)] at hconcat
        exact ⟨hchoice.trans hconcat.symm, h.top⟩

/-- The scan over all reports. -/
theorem Agrees.foldl (h : s.Agrees own key seen) (answer : Report → Int) (reports : List Report) :
    (reports.foldl (fun s rep => s.note key rep (answer rep)) s).Agrees own key
      (seen ++ (reports.filter fun rep => decide (0 < answer rep)).map Report.node) := by
  induction reports generalizing s seen with
  | nil => simpa using h
  | cons rep reports ih =>
    rw [foldl_cons]
    have hrest := ih (h.note rep (answer rep))
    by_cases hf : 0 < answer rep
    · simpa [hf, filter_cons] using hrest
    · simpa [hf, filter_cons] using hrest

end SessionScan

/-! ### A session's host -/

/-- One call of `pickSession` on some entry node: what it reads. -/
structure SessionPick (β F : Type) where
  c : Config β
  env : Env β F
  d : Draw F
  req : Request F
  backends : List β
  localEligible : Bool
  reports : List Report
  rt : Router β

namespace SessionPick

/-- The hosts with a free slot: this node, where it may be used, and the peers. -/
def freeHosts (p : SessionPick β F) : List String :=
  (if p.localEligible ∧ localHasFree p.c p.env p.req p.backends p.rt.slots then [p.c.self]
    else []) ++
  (p.reports.filter fun rep => decide (0 < freeOf
    (peerFree p.c p.req rep p.d.sessionAt p.rt.slots p.rt.memo).2)).map Report.node

variable [DecidableEq β] [Float64 F]

/-- The host the call chooses. -/
def host (p : SessionPick β F) : Option String :=
  (pickSession p.c p.env p.d p.req p.backends p.localEligible p.reports p.rt).2.map
    fun l => l.target.node

/-- The members' reports are one for each node, nothing is known to be warm, and the
free hosts' rendezvous values differ. -/
structure Cold (p : SessionPick β F) : Prop where
  one : OnePerNode p.reports
  noWarm : warm p.c p.env p.req (anyHealthy p.env p.backends) p.reports p.d.sessionAt
    p.rt.memo = none
  differ : Lib.ScoresDiffer (score p.req.sessionKey) p.freeHosts

omit [Float64 F] in
theorem pickLocal_node {c : Config β} {env : Env β F} {req : Request F} {backends : List β}
    {rt : Router β} (h : localHasFree c env req backends rt.slots = true) :
    (pickLocal c env req backends rt).2.map (fun l => l.target.node) = some c.self := by
  unfold pickLocal
  split
  · rename_i hchoose
    have hnone : localHasFree c env req backends rt.slots = false :=
      chooseLocal_none_iff.1 (by rw [hchoose])
    rw [h] at hnone
    cases hnone
  · rfl

variable {p : SessionPick β F}

omit [DecidableEq β] [Float64 F] in
/-- This node is among the free hosts only for a free slot of its own. -/
theorem localHasFree_of_mem (h : p.c.self ∈ p.freeHosts) :
    localHasFree p.c p.env p.req p.backends p.rt.slots = true := by
  rcases mem_append.1 h with hown | hpeer
  · split at hown
    · rename_i hroom
      exact hroom.2
    · cases hown
  · obtain ⟨rep, hrep, hself⟩ := mem_map.1 hpeer
    obtain ⟨mc, hopen⟩ := freeOf_open (of_decide_eq_true (mem_filter.1 hrep).2)
    exact absurd hself hopen.other

omit [DecidableEq β] [Float64 F] in
/-- The scan of the call, once nothing is warm. -/
theorem scan_agrees (hone : OnePerNode p.reports) :
    (scanPeers p.c p.req p.d.sessionAt p.rt.slots
      (fun s rep pf => s.note p.req.sessionKey rep (freeOf pf)) p.reports p.rt.memo
      (SessionScan.start p.c p.env p.req p.backends p.localEligible p.rt.slots)).2.Agrees
        p.c.self p.req.sessionKey p.freeHosts := by
  rw [scanPeers_eq p.c p.req p.rt.slots p.d.sessionAt hone]
  refine SessionScan.Agrees.foldl ?_ _ _
  unfold SessionScan.start
  split
  · exact ⟨rfl, fun x hx => by cases hx; rfl⟩
  · exact ⟨rfl, fun x hx => by cases hx⟩

/-- The call chooses the free host of the highest value. -/
theorem Cold.host_eq (h : p.Cold) : p.host = p.freeHosts.argmax (score p.req.sessionKey) := by
  have hagrees := scan_agrees (p := p) h.one
  unfold host pickSession
  rw [h.noWarm]
  dsimp only [warmHosts, pickWarm]
  generalize scanPeers p.c p.req p.d.sessionAt p.rt.slots _ p.reports p.rt.memo _ = out
    at hagrees ⊢
  obtain ⟨memo, s⟩ := out
  rw [← hagrees.best]
  have hbest := hagrees.best
  unfold SessionScan.choice at hbest ⊢
  dsimp only at hbest ⊢
  split
  · rename_i hlocal
    rw [if_pos hlocal] at hbest
    exact pickLocal_node (localHasFree_of_mem (argmax_mem hbest.symm))
  · cases s.pick with
    | none | some => rfl

/-- **Rendezvous stability.** The call chooses the first of the ranking of the free
hosts. So a call on any entry node that sees the same free hosts chooses the same,
and one that sees them without one host does too, unless that host was chosen. -/
theorem host_stable {β' : Type} [DecidableEq β'] {p : SessionPick β F} {p' : SessionPick β' F}
    (h : p.Cold) (h' : p'.Cold) (hkey : p'.req.sessionKey = p.req.sessionKey) :
    p.host = (sessionRank p.req.sessionKey p.freeHosts).head? ∧
    ((∀ x, x ∈ p'.freeHosts ↔ x ∈ p.freeHosts) → p'.host = p.host) ∧
    ∀ gone, (∀ x, x ∈ p'.freeHosts ↔ x ∈ p.freeHosts ∧ x ≠ gone) → p.host ≠ some gone →
      p'.host = p.host := by
  rw [h.host_eq, h'.host_eq, hkey]
  exact ⟨(head?_sessionRank h.differ).symm, h.differ.argmax_congr, fun _ => h.differ.argmax_without⟩

end SessionPick

/-- A session of key 7 at the node `entry`, which has no backend of its own. -/
def sessionAt (entry : String) (reports : List Report) : SessionPick Unit ℚ where
  c := { forwardingConfig with self := entry }
  env := forwardingEnv reports 5
  d := ⟨5, 5, 5, 5, 5, fun _ => 0⟩
  req := { model := "m", sessionKey := 7, estK := 1 }
  backends := []
  localEligible := false
  reports := reports
  rt := .new

/-- Two entry nodes with the two peers' reports in either order, and one that sees
only the chosen one of them. -/
theorem SessionPick.host_stable_two_peers :
    let p := peerReport 0 2 0
    let q := { peerReport 0 2 0 with node := "q" }
    (sessionAt "a" [p, q]).host = some "p" ∧
    (sessionAt "b" [q, p]).host = (sessionAt "a" [p, q]).host ∧
    (sessionAt "a" [p]).host = (sessionAt "a" [p, q]).host := by
  intro p q
  have hcold : ∀ entry reports, OnePerNode reports →
      Lib.ScoresDiffer (score 7) (sessionAt entry reports).freeHosts →
      (sessionAt entry reports).Cold := fun entry reports hone hdiffer => ⟨hone, rfl, hdiffer⟩
  have hpq : (sessionAt "a" [p, q]).freeHosts = ["p", "q"] := by decide +kernel
  have hqp : (sessionAt "b" [q, p]).freeHosts = ["q", "p"] := by decide +kernel
  have hp : (sessionAt "a" [p]).freeHosts = ["p"] := by decide +kernel
  have hdiffer : Lib.ScoresDiffer (score 7) ["p", "q"] := by
    unfold Lib.ScoresDiffer
    decide +kernel
  have ha : (sessionAt "a" [p, q]).Cold :=
    hcold _ _ (by unfold OnePerNode; decide) (hpq ▸ hdiffer)
  have hb : (sessionAt "b" [q, p]).Cold :=
    hcold _ _ (by unfold OnePerNode; decide) (hqp ▸ hdiffer.mono (by simp))
  have hone : (sessionAt "a" [p]).Cold :=
    hcold _ _ (by unfold OnePerNode; decide) (hp ▸ hdiffer.mono (by simp))
  have hchosen : (sessionAt "a" [p, q]).host = some "p" := by decide +kernel
  refine ⟨hchosen, (host_stable ha hb rfl).2.1 ?_, (host_stable ha hone rfl).2.2 "q" ?_ ?_⟩
  · intro x
    rw [hpq, hqp]
    simp [or_comm]
  · intro x
    rw [hpq, hp]
    simp only [mem_cons, not_mem_nil, or_false]
    constructor
    · rintro rfl
      decide
    · exact fun h => h.1.resolve_right h.2
  · rw [hchosen]
    decide

end Viiwork.Route

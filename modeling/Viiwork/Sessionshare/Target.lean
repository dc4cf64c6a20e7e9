import Viiwork.Route.Session

/-!
# Viiwork.Sessionshare.Target

Where a session's replica is. The `kv_share` manager of the node that ran the turn
pushes the session to `target`; the router, when the session comes back, expects it
on the `replica` of its warm pair. Both take the best-ranked member of the group
other than the node itself, so they agree when they count the same members.

They do not always. The manager counts a report that is exactly `StaleAfter` old,
which is not `Fresh`; and it takes any entry of the model in the report, the router
the first.
-/

namespace Viiwork.Sessionshare

open Viiwork.Route List

variable {β F : Type}

/-! ### The manager's target -/

/-- What the manager knows of one model. -/
structure ModelConfig where
  name : String
  group : String

/-- The names to rank and the address of each. -/
structure Candidates where
  names : List String
  addrs : String → String

/-- The report lists the model in the group, with a healthy backend. -/
def lists (md : ModelConfig) (rep : Report) : Bool :=
  rep.models.any fun mc => mc.name == md.name && mc.kvShareGroup == md.group &&
    decide (0 < mc.healthyBackends)

def Candidates.note (self : String) (staleAfter now : Int) (md : ModelConfig) (cs : Candidates)
    (rep : Report) : Candidates :=
  if rep.node = self ∨ staleAfter < now - rep.received then cs
  else if lists md rep then
    { names := cs.names ++ [rep.node], addrs := Function.update cs.addrs rep.node rep.apiAddr }
  else cs

/-- The first member after this node in `SessionRank`, with its address; `none` is a
manager without reports. -/
def target (self : String) (staleAfter now : Int) (reports : Option (List Report))
    (md : ModelConfig) (key : UInt64) : String × String :=
  match reports with
  | none => ("", "")
  | some reports =>
    let cs := reports.foldl (Candidates.note self staleAfter now md) ⟨[self], fun _ => ""⟩
    match (sessionRank key cs.names).find? fun n => n != self with
    | some n => (n, cs.addrs n)
    | none => ("", "")

/-! ### The members each side counts -/

/-- The manager counts the report. -/
def managerCounts (self : String) (staleAfter now : Int) (md : ModelConfig) (rep : Report) :
    Bool :=
  rep.node != self && decide (now - rep.received ≤ staleAfter) && lists md rep

/-- The router counts the report: fresh, and its entry for the model is in the group
with a healthy backend. -/
def routerCounts (self : String) (staleAfter now : Int) (md : ModelConfig) (rep : Report) : Bool :=
  rep.node != self && rep.fresh now staleAfter &&
    match rep.model md.name with
    | some mc => decide (0 < mc.healthyBackends) && mc.kvShareGroup == md.group
    | none => false

section Counts

variable {own : String} {staleAfter now : Int} {md : ModelConfig} {reports : List Report}

theorem names_foldl (cs : Candidates) :
    (reports.foldl (Candidates.note own staleAfter now md) cs).names =
      cs.names ++ (reports.filter (managerCounts own staleAfter now md)).map Report.node := by
  induction reports generalizing cs with
  | nil => simp
  | cons rep reports ih =>
    rw [foldl_cons, ih]
    unfold Candidates.note
    by_cases hskip : rep.node = own ∨ staleAfter < now - rep.received
    · have hnot : managerCounts own staleAfter now md rep = false := by
        rcases hskip with h | h
        · simp [managerCounts, h]
        · simp [managerCounts, not_le.2 h]
      rw [if_pos hskip, filter_cons_of_neg (by simp [hnot])]
    · rw [if_neg hskip]
      rw [not_or, not_lt] at hskip
      by_cases hlists : lists md rep = true
      · have hcounts : managerCounts own staleAfter now md rep = true := by
          simp [managerCounts, hskip.1, hskip.2, hlists]
        rw [if_pos hlists, filter_cons_of_pos hcounts]
        simp
      · have hnot : managerCounts own staleAfter now md rep = false := by
          simp [managerCounts, hlists]
        rw [if_neg hlists, filter_cons_of_neg (by simp [hnot])]

/-- The manager counts every report the router counts. -/
theorem managerCounts_of_routerCounts {rep : Report}
    (h : routerCounts own staleAfter now md rep = true) :
    managerCounts own staleAfter now md rep = true := by
  unfold routerCounts at h
  cases hmc : rep.model md.name with
  | none => simp [hmc] at h
  | some mc =>
    simp only [hmc, Bool.and_eq_true, bne_iff_ne, Report.fresh, decide_eq_true_eq,
      beq_iff_eq] at h
    obtain ⟨⟨hother, hfresh⟩, hhealthy, hgroup⟩ := h
    have hname : mc.name = md.name := by simpa using List.find?_some hmc
    have hlists : lists md rep = true :=
      any_eq_true.2 ⟨mc, mem_of_find?_eq_some hmc, by simp [hname, hgroup, hhealthy]⟩
    simp [managerCounts, hother, hlists, hfresh.le]

theorem node_ne_of_managerCounts {rep : Report}
    (h : managerCounts own staleAfter now md rep = true) : rep.node ≠ own := by
  simp only [managerCounts, Bool.and_eq_true, bne_iff_ne] at h
  exact h.1.1

/-! ### One ranking over more names than another -/

/-- The first other name of both rankings is the same exactly when every name that
only the longer list has ranks behind one that both have. -/
theorem find?_sessionRank_eq_iff {key : UInt64} {fewer more : List String}
    (hsub : ∀ x ∈ fewer, x ∈ more) :
    (sessionRank key fewer).find? (fun n => n != own) =
        (sessionRank key more).find? (fun n => n != own) ↔
      ∀ x ∈ more, x ≠ own → x ∉ fewer → ∃ y ∈ fewer, y ≠ own ∧ RanksBefore key y x := by
  constructor
  · intro heq x hx hother hnot
    obtain ⟨n, hn⟩ : ∃ n, (sessionRank key more).find? (fun n => n != own) = some n :=
      Option.isSome_iff_exists.1 (List.find?_isSome.2
        ⟨x, (mem_insertionSort _).2 hx, by simpa using hother⟩)
    obtain ⟨-, -, hbest⟩ := find?_sessionRank_iff.1 hn
    obtain ⟨hmem, hn', -⟩ := find?_sessionRank_iff.1 (heq.trans hn)
    exact ⟨n, hmem, by simpa using hn', hbest x hx (by simpa using hother)⟩
  · intro hbehind
    refine Option.ext fun n => ?_
    rw [find?_sessionRank_iff, find?_sessionRank_iff]
    simp only [bne_iff_ne]
    constructor
    · rintro ⟨hn, hother, hbest⟩
      refine ⟨hsub n hn, hother, fun x hx hx' => ?_⟩
      by_cases hfewer : x ∈ fewer
      · exact hbest x hfewer hx'
      · obtain ⟨y, hy, hy', hrank⟩ := hbehind x hx hx' hfewer
        exact IsTrans.trans _ _ _ (hbest y hy hy') hrank
    · rintro ⟨hn, hother, hbest⟩
      have hfewer : n ∈ fewer := by
        by_contra hnot
        obtain ⟨y, hy, hy', hrank⟩ := hbehind n hn hother hnot
        exact hnot ((hbest y (hsub y hy) hy').antisymm hrank ▸ hy)
      exact ⟨hfewer, hother, fun x hx => hbest x (hsub x hx)⟩

end Counts

/-! ### The router's replica -/

section Replica

variable {c : Config β} {env : Env β F} {model : String} {reports : List Report} {now : Int}

/-- What a report adds to the members of any group. -/
def memberOf (c : Config β) (model : String) (now : Int) (rep : Report) :
    Option (String × KVMember) :=
  if rep.node = c.self ∨ rep.fresh now c.staleAfter = false then none
  else match rep.model model with
    | some mc =>
      if 0 < mc.healthyBackends ∧ mc.kvShareGroup ≠ "" then
        some (rep.node, (mc.kvShareGroup, mc.kvShareImportMsPer1k))
      else none
    | none => none

theorem memberOf_node {rep : Report} {p : String × KVMember}
    (h : memberOf c model now rep = some p) : p.1 = rep.node ∧ rep.node ≠ c.self := by
  unfold memberOf at h
  split at h
  · cases h
  rename_i hother
  split at h
  · split at h
    · cases h
      exact ⟨rfl, fun hself => hother (.inl hself)⟩
    · cases h
  · cases h

def addMember (c : Config β) (model : String) (now : Int) (members : List (String × KVMember))
    (rep : Report) : List (String × KVMember) :=
  match memberOf c model now rep with
  | none => members
  | some p => setMember members p.1 p.2

variable {cost : Int} {g : String}

theorem kvMembers_foldl (hg : g ≠ "") (hown : env.localKVShare model = some (g, cost)) :
    kvMembers c env model true reports now =
      reports.foldl (addMember c model now) [(c.self, (g, cost))] := by
  unfold kvMembers
  rw [hown]
  dsimp only
  rw [if_pos ⟨rfl, hg⟩]
  congr 1
  funext members rep
  unfold addMember memberOf
  by_cases hskip : rep.node = c.self ∨ rep.fresh now c.staleAfter = false
  · rw [if_pos hskip, if_pos hskip]
  · rw [if_neg hskip, if_neg hskip]
    cases rep.model model with
    | none => rfl
    | some mc =>
      dsimp only
      split <;> rfl

/-- Members of new names are appended. -/
theorem foldl_addMember {members : List (String × KVMember)} (hone : OnePerNode reports)
    (hnew : ∀ p ∈ members, ∀ rep ∈ reports, rep.node ≠ c.self → p.1 ≠ rep.node) :
    reports.foldl (addMember c model now) members =
      members ++ reports.filterMap (memberOf c model now) := by
  induction reports generalizing members with
  | nil => simp
  | cons rep rest ih =>
    have hone' := nodup_cons.1 hone
    have hrest : ∀ p ∈ members, ∀ rep ∈ rest, rep.node ≠ c.self → p.1 ≠ rep.node :=
      fun p hp rep' hrep' => hnew p hp rep' (mem_cons_of_mem _ hrep')
    rw [foldl_cons, addMember]
    cases hm : memberOf c model now rep with
    | none =>
      rw [filterMap_cons_none hm]
      exact ih hone'.2 hrest
    | some p =>
      obtain ⟨hnode, hother⟩ := memberOf_node hm
      have hkeep : members.filter (fun q => q.1 != p.1) = members := by
        refine filter_eq_self.2 fun q hq => ?_
        rw [hnode]
        simpa using hnew q hq rep mem_cons_self hother
      dsimp only
      rw [setMember, hkeep, ih hone'.2 ?_, filterMap_cons_some hm, append_assoc]
      · rfl
      · intro q hq rep' hrep' hother'
        rcases mem_append.1 hq with hq | hq
        · exact hrest q hq rep' hrep' hother'
        · rw [mem_singleton.1 hq, hnode]
          exact fun heq => hone'.1 (heq ▸ mem_map_of_mem hrep')

/-- With one report for each node, the members are this node and one for each report
that adds one. -/
theorem kvMembers_eq (hone : OnePerNode reports) (hg : g ≠ "")
    (hown : env.localKVShare model = some (g, cost)) :
    kvMembers c env model true reports now =
      (c.self, (g, cost)) :: reports.filterMap (memberOf c model now) := by
  rw [kvMembers_foldl hg hown, foldl_addMember hone]
  · rfl
  · intro p hp rep _ hother
    rw [mem_singleton.1 hp]
    exact fun heq => hother heq.symm

theorem routerCounts_iff (hg : g ≠ "") {rep : Report} :
    routerCounts c.self c.staleAfter now ⟨model, g⟩ rep = true ↔
      ∃ p, memberOf c model now rep = some p ∧ p.2.1 = g := by
  unfold routerCounts memberOf
  by_cases hskip : rep.node = c.self ∨ rep.fresh now c.staleAfter = false
  · rw [if_pos hskip]
    rcases hskip with h | h <;> simp [h]
  · rw [if_neg hskip]
    rw [not_or, Bool.not_eq_false] at hskip
    cases rep.model model with
    | none => simp
    | some mc =>
      by_cases hmember : 0 < mc.healthyBackends ∧ mc.kvShareGroup ≠ ""
      · simp [hskip, hmember]
      · simp only [if_neg hmember, Bool.and_eq_true, decide_eq_true_eq, beq_iff_eq]
        refine iff_of_false (fun h => hmember ⟨h.2.1, h.2.2 ▸ hg⟩) (by simp)

/-- The names of a group are those of the reports that the router counts. -/
theorem names_memberOf (hg : g ≠ "") :
    ((reports.filterMap (memberOf c model now)).filter fun p => p.2.1 == g).map Prod.fst =
      (reports.filter (routerCounts c.self c.staleAfter now ⟨model, g⟩)).map Report.node := by
  induction reports with
  | nil => rfl
  | cons rep rest ih =>
    have hiff : routerCounts c.self c.staleAfter now ⟨model, g⟩ rep = true ↔
        ∃ p, memberOf c model now rep = some p ∧ p.2.1 = g := routerCounts_iff hg
    cases hm : memberOf c model now rep with
    | none =>
      rw [hm] at hiff
      rw [filterMap_cons_none hm, ih, filter_cons_of_neg]
      simpa using hiff
    | some p =>
      rw [hm] at hiff
      rw [filterMap_cons_some hm]
      by_cases hgroup : p.2.1 = g
      · rw [filter_cons_of_pos (by simpa using hgroup), map_cons, ih,
          filter_cons_of_pos (hiff.2 ⟨p, rfl, hgroup⟩), map_cons,
          (memberOf_node hm).1]
      · rw [filter_cons_of_neg (by simpa using hgroup), ih, filter_cons_of_neg]
        intro hcounts
        obtain ⟨q, hq, hqg⟩ := hiff.1 hcounts
        cases hq
        exact hgroup hqg

variable [Float64 F]

/-- The replica of a session whose last turn ran here: the best-ranked other member
that the router counts. -/
theorem warm_replica {req : Request F} {memo : Memo} (hone : OnePerNode reports) (hg : g ≠ "")
    (hown : env.localKVShare req.model = some (g, cost)) (hkey : req.sessionKey ≠ 0)
    (hfwd : req.forwarded = false)
    (hlast : memo.lastHosts.get ⟨req.model, req.sessionKey⟩ = some c.self) :
    ∃ w : WarmPair F, warm c env req true reports now memo = some w ∧ w.last = c.self ∧
      w.replica = ((sessionRank req.sessionKey (c.self ::
        (reports.filter (routerCounts c.self c.staleAfter now ⟨req.model, g⟩)).map
          Report.node)).find? fun n => n != c.self).getD "" := by
  have hnames : (((c.self, (g, cost)) :: reports.filterMap (memberOf c req.model now)).filter
      fun p => p.2.1 == g).map Prod.fst = c.self ::
        (reports.filter (routerCounts c.self c.staleAfter now ⟨req.model, g⟩)).map Report.node := by
    rw [filter_cons_of_pos (by simp), map_cons, names_memberOf hg]
  unfold warm
  rw [hlast, kvMembers_eq hone hg hown]
  have hguard : (guard (req.sessionKey ≠ 0 ∧ req.forwarded = false) : Option Unit) = some () := by
    simp [guard, hkey, hfwd]
  simp only [hguard, Option.bind_eq_bind, Option.bind_some, lookup_cons, beq_self_eq_true,
    hnames]
  exact ⟨_, rfl, rfl, rfl⟩

theorem target_node (own : String) (staleAfter now : Int) (md : ModelConfig) (key : UInt64) :
    (target own staleAfter now (some reports) md key).1 =
      ((sessionRank key (own :: (reports.filter (managerCounts own staleAfter now md)).map
        Report.node)).find? fun n => n != own).getD "" := by
  unfold target
  dsimp only
  rw [names_foldl, singleton_append]
  split
  · rename_i n hn
    rw [hn]
    rfl
  · rename_i hnone
    rw [hnone]
    rfl

/-- A name found is that of a report, and so not empty. -/
theorem getD_find?_inj {key : UInt64} {own : String} {xs ys : List Report}
    (hxs : ∀ rep ∈ xs, rep.node ≠ "") (hys : ∀ rep ∈ ys, rep.node ≠ "") :
    ((sessionRank key (own :: xs.map Report.node)).find? fun n => n != own).getD "" =
        ((sessionRank key (own :: ys.map Report.node)).find? fun n => n != own).getD "" ↔
      (sessionRank key (own :: xs.map Report.node)).find? (fun n => n != own) =
        (sessionRank key (own :: ys.map Report.node)).find? fun n => n != own := by
  have hnamed : ∀ zs : List Report, (∀ rep ∈ zs, rep.node ≠ "") →
      (sessionRank key (own :: zs.map Report.node)).find? (fun n => n != own) ≠ some "" := by
    intro zs hzs hfind
    obtain ⟨hmem, hother, -⟩ := find?_sessionRank_iff.1 hfind
    rcases mem_cons.1 hmem with rfl | hmem
    · simp at hother
    · obtain ⟨rep, hrep, hnode⟩ := mem_map.1 hmem
      exact hzs rep hrep hnode
  refine ⟨fun h => ?_, fun h => by rw [h]⟩
  have hx := hnamed xs hxs
  have hy := hnamed ys hys
  generalize (sessionRank key (own :: xs.map Report.node)).find? _ = x at h hx ⊢
  generalize (sessionRank key (own :: ys.map Report.node)).find? _ = y at h hy ⊢
  cases x with
  | none =>
    cases y with
    | none => rfl
    | some n => exact absurd (congrArg some (show "" = n from h)).symm hy
  | some n =>
    cases y with
    | none => exact absurd (congrArg some (show n = "" from h)) hx
    | some n' => exact congrArg some h

variable (c env now) in
/-- **Router and manager agree exactly when** every member that only the manager
counts ranks behind one that both count. -/
theorem replica_eq_target_iff (req : Request F) (memo : Memo) (hone : OnePerNode reports)
    (hnamed : ∀ rep ∈ reports, rep.node ≠ "") {g : String} {cost : Int} (hg : g ≠ "")
    (hown : env.localKVShare req.model = some (g, cost)) (hkey : req.sessionKey ≠ 0)
    (hfwd : req.forwarded = false)
    (hlast : memo.lastHosts.get ⟨req.model, req.sessionKey⟩ = some c.self) :
    ∃ w : WarmPair F, warm c env req true reports now memo = some w ∧ w.last = c.self ∧
      (w.replica = (target c.self c.staleAfter now (some reports) ⟨req.model, g⟩
          req.sessionKey).1 ↔
        ∀ rep ∈ reports, managerCounts c.self c.staleAfter now ⟨req.model, g⟩ rep = true →
          routerCounts c.self c.staleAfter now ⟨req.model, g⟩ rep = false →
          ∃ rep' ∈ reports, routerCounts c.self c.staleAfter now ⟨req.model, g⟩ rep' = true ∧
            RanksBefore req.sessionKey rep'.node rep.node) := by
  obtain ⟨w, hw, hwlast, hreplica⟩ : ∃ w : WarmPair F,
      warm c env req true reports now memo = some w ∧ w.last = c.self ∧ w.replica = _ :=
    warm_replica hone hg hown hkey hfwd hlast
  refine ⟨w, hw, hwlast, ?_⟩
  have hsub : ∀ x ∈ c.self :: (reports.filter
      (routerCounts c.self c.staleAfter now ⟨req.model, g⟩)).map Report.node,
      x ∈ c.self :: (reports.filter
        (managerCounts c.self c.staleAfter now ⟨req.model, g⟩)).map Report.node := by
    intro x hx
    rcases mem_cons.1 hx with rfl | hx
    · exact mem_cons_self
    · obtain ⟨rep, hrep, rfl⟩ := mem_map.1 hx
      rw [mem_filter] at hrep
      exact mem_cons_of_mem _ (mem_map_of_mem
        (mem_filter.2 ⟨hrep.1, managerCounts_of_routerCounts hrep.2⟩))
  rw [hreplica, target_node, getD_find?_inj (fun rep h => hnamed rep (mem_filter.1 h).1)
    (fun rep h => hnamed rep (mem_filter.1 h).1), find?_sessionRank_eq_iff hsub]
  constructor
  · intro hbehind rep hrep hmanager hrouter
    have hother : rep.node ≠ c.self := node_ne_of_managerCounts hmanager
    have hnot : rep.node ∉ c.self :: (reports.filter
        (routerCounts c.self c.staleAfter now ⟨req.model, g⟩)).map Report.node := by
      rw [mem_cons, not_or]
      refine ⟨hother, fun hmem => ?_⟩
      -- the node has this one report, and the router does not count it
      obtain ⟨rep', hrep', hnode⟩ := mem_map.1 hmem
      rw [mem_filter] at hrep'
      rw [hone.eq hrep hrep'.1 hnode, hrouter] at hrep'
      exact Bool.false_ne_true hrep'.2
    obtain ⟨y, hy, hy', hrank⟩ := hbehind rep.node (mem_cons_of_mem _
      (mem_map_of_mem (mem_filter.2 ⟨hrep, hmanager⟩))) hother hnot
    obtain ⟨rep', hrep', rfl⟩ := mem_map.1 ((mem_cons.1 hy).resolve_left hy')
    rw [mem_filter] at hrep'
    exact ⟨rep', hrep'.1, hrep'.2, hrank⟩
  · intro hbehind x hx hother hnot
    obtain ⟨rep, hrep, rfl⟩ := mem_map.1 ((mem_cons.1 hx).resolve_left hother)
    rw [mem_filter] at hrep
    have hrouter : routerCounts c.self c.staleAfter now ⟨req.model, g⟩ rep = false := by
      rw [Bool.eq_false_iff]
      exact fun h => hnot (mem_cons_of_mem _
        (mem_map_of_mem (mem_filter.2 ⟨hrep.1, h⟩)))
    obtain ⟨rep', hrep', hcounts, hrank⟩ := hbehind rep hrep.1 hrep.2 hrouter
    exact ⟨rep'.node, mem_cons_of_mem _
      (mem_map_of_mem (mem_filter.2 ⟨hrep', hcounts⟩)),
      node_ne_of_managerCounts (managerCounts_of_routerCounts hcounts), hrank⟩

end Replica

/-- The peer `p` as a member of the group `g`; its report is received at 3. -/
def memberReport : Report :=
  { peerReport 0 2 0 with models := [{ peerCapacity 2 0 with kvShareGroup := "g" }] }

def memberEnv : Env Unit ℚ :=
  { forwardingEnv [memberReport] 5 with localKVShare := fun _ => some ("g", 0) }

/-- Session 7 last ran on the node `a`. -/
def ranHere : Memo :=
  { (Router.new (β := Unit)).memo with
    lastHosts := (Router.new (β := Unit)).memo.lastHosts.set ⟨"m", 7⟩ "a" }

def sessionRequest : Request ℚ := { model := "m", sessionKey := 7, estK := 1 }

/-- One tick before the report is `StaleAfter` old both take `p`. -/
theorem replica_eq_target_fresh_member :
    ∃ w : WarmPair ℚ, warm forwardingConfig memberEnv sessionRequest true [memberReport] 102
        ranHere = some w ∧ w.replica = "p" ∧
      w.replica = (target "a" 100 102 (some [memberReport]) ⟨"m", "g"⟩ 7).1 := by
  have htarget : (target "a" 100 102 (some [memberReport]) ⟨"m", "g"⟩ 7).1 = "p" := by
    decide +kernel
  have hboth : ∀ rep ∈ [memberReport], managerCounts "a" 100 102 ⟨"m", "g"⟩ rep = true →
      routerCounts "a" 100 102 ⟨"m", "g"⟩ rep = false →
      ∃ rep' ∈ [memberReport], routerCounts "a" 100 102 ⟨"m", "g"⟩ rep' = true ∧
        RanksBefore 7 rep'.node rep.node := by
    decide +kernel
  have hone : OnePerNode [memberReport] := nodup_singleton _
  obtain ⟨w, hw, -, hiff⟩ := replica_eq_target_iff forwardingConfig memberEnv 102 sessionRequest
    ranHere hone (by decide) (by decide) rfl (by decide) rfl (by decide +kernel)
  have heq := hiff.2 hboth
  exact ⟨w, hw, heq.trans htarget, heq⟩

/-- A member whose report is exactly `StaleAfter` old: the manager pushes to it, the
router expects no replica. -/
theorem replica_ne_target_at_staleAfter :
    (warm forwardingConfig memberEnv sessionRequest true [memberReport] 103 ranHere).map
        (fun w => (w.last, w.replica)) = some ("a", "") ∧
      target "a" 100 103 (some [memberReport]) ⟨"m", "g"⟩ 7 = ("p", "p:80") := by
  decide +kernel

end Viiwork.Sessionshare

import Viiwork.Supervisor.Draining

/-!
# Viiwork.Supervisor.Reload

Reloads keep the invariant of the node: an `Apply` starts models only once every model that
was removed up to then is gone or on the list its `start` goroutine waits for. `Shutdown`
is a reload with an empty list that starts nothing.
-/

namespace Viiwork.Supervisor

open Viiwork.Lib List Option

variable {γ : Type}

namespace Node

variable {s s' : Node γ} {m g : Nat} {M M' : Model γ} {waits : List Nat}

/-! ### Reloads and shutdown -/

theorem getElem?_drainAll (epoch : Nat) (ms : List Nat) (all : List (Model γ)) (m : Nat) :
    (drainAll epoch ms all)[m]? =
      (all[m]?).map fun M => if m ∈ ms then M.startDrain epoch else M := by
  simp [drainAll, List.getElem?_mapIdx]

/-- What draining a current model does to it: the drain begins. -/
theorem Sound.startDrain (h : s.Sound) (hM : s.all[m]? = some M) (hm : m ∈ s.models) :
    M.startDrain s.rosters.length =
        { M with closed := true, cancelled := true, drain := .waiting,
                 removed := some s.rosters.length } ∧
      M.removed = none ∧ ¬ M.Gone := by
  obtain ⟨M₀, hM₀, hnone⟩ := (h.current m).1 hm
  obtain rfl : M = M₀ := Option.some.inj (hM.symm.trans hM₀)
  have habsent := (h.model hM).1.removed.1 hnone
  refine ⟨if_neg (by simp [habsent, Drain.inMap]), hnone, by simp [Model.Gone, habsent]⟩

/-- A model of `s` as it is after the models `ms` began to drain. -/
def Drained (s : Node γ) (ms : List Nat) (m : Nat) (M' : Model γ) : Prop :=
  ∃ M, s.all[m]? = some M ∧ M'.Sound ∧ M'.cfg = M.cfg ∧ M'.started = M.started ∧
    M'.backends = M.backends ∧
    M'.removed = (if m ∈ ms then some s.rosters.length else M.removed) ∧
    (m ∈ ms → M.removed = none) ∧ (M.Gone → M'.Gone)

variable {ms : List Nat} {all : List (Model γ)}

/-- The drain begins for some of the current models. -/
theorem Sound.drained (h : s.Sound) (hms : ∀ m ∈ ms, m ∈ s.models) (hM : s.all[m]? = some M) :
    s.Drained ms m (if m ∈ ms then M.startDrain s.rosters.length else M) := by
  refine ⟨M, hM, ?_⟩
  by_cases hm : m ∈ ms
  · obtain ⟨heq, hnone, hgone⟩ := h.startDrain hM (hms m hm)
    simp only [if_pos hm]
    refine ⟨(h.model hM).1.startDrain _, ?_⟩
    rw [heq]
    exact ⟨rfl, rfl, rfl, rfl, fun _ => hnone, fun hg => absurd hg hgone⟩
  · simp only [if_neg hm]
    exact ⟨(h.model hM).1, trivial, trivial, trivial, trivial, fun hno => absurd hno hm, id⟩

theorem Drained.grown (hd : s.Drained ms m M') (h : s.Sound) : s.Grown m M' := by
  obtain ⟨M, hM, hs, hcfg, hst, hbs, hrem, hnone, hgone⟩ := hd
  refine ⟨M, hM, hs, hcfg, hst, ?_, hgone, fun b hb => h.loops m M hM b (hbs ▸ hb)⟩
  split_ifs at hrem with hm
  · exact .inr ⟨hnone hm, hrem⟩
  · exact .inl hrem

theorem Sound.shutdownAll (h : s.Sound) : s.shutdownAll.Sound := by
  unfold Node.shutdownAll
  split_ifs
  · exact h
  have hget : ∀ (m : Nat) (M' : Model γ),
      ((drainAll s.rosters.length s.models s.all).map fun M => { M with cancelled := true })[m]? =
        some M' → s.Drained s.models m M' := by
    intro m M' hM'
    rw [List.getElem?_map, getElem?_drainAll] at hM'
    obtain ⟨M₁, hM₁, rfl⟩ := map_eq_some_iff.1 hM'
    obtain ⟨M, hM, rfl⟩ := map_eq_some_iff.1 hM₁
    obtain ⟨M₀, hM₀, hs, hrest⟩ := h.drained (fun _ hm => hm) hM
    exact ⟨M₀, hM₀, ⟨hs.removed, hs.closed, hs.settled, hs.stopped, hs.gone, hs.idle⟩, hrest⟩
  refine h.grow [] (by simp [drainAll]) (by simp)
    (fun m M' hM' => .inl ((hget m M' hM').grown h)) (fun m => ?_) (fun st hst => .inl hst) ?_ (by simp)
  · refine iff_of_false (by simp) ?_
    rintro ⟨M', hM', hnone⟩
    obtain ⟨M, hM, -, -, -, -, hrem, -, -⟩ := hget m M' hM'
    split_ifs at hrem with hm
    · rw [hrem] at hnone
      cases hnone
    · exact hm ((h.current m).2 ⟨M, hM, hrem ▸ hnone⟩)
  · intro m o O hle hlt
    simp only [drainAll, length_map, length_mapIdx] at hlt
    omega

/-- Each GPU belongs to at most one model of the list. -/
def Exclusive (cfgs : List (ModelConfig γ)) : Prop :=
  cfgs.Pairwise fun c c' => c.gpus.Disjoint c'.gpus

/-- The model has that configuration. -/
def HasCfg (all : List (Model γ)) (m : Nat) (cfg : ModelConfig γ) : Prop :=
  ∃ M, all[m]? = some M ∧ M.cfg = cfg

theorem disjoint_of_exclusive {R : List Nat} {cfgs : List (ModelConfig γ)}
    (hR : List.Forall₂ (HasCfg s'.all) R cfgs) (hexcl : Exclusive cfgs) : s'.Disjoint R := by
  have hpair : R.Pairwise s'.Apart := by
    induction hR with
    | nil => exact .nil
    | @cons m cfg R cfgs hm hR ih =>
      obtain ⟨hhead, htail⟩ := pairwise_cons.1 hexcl
      refine pairwise_cons.2 ⟨fun o ho M O hM hO => ?_, ih htail⟩
      obtain ⟨M₀, hM₀, rfl⟩ := hm
      obtain rfl : M₀ = M := Option.some.inj (hM₀.symm.trans hM)
      obtain ⟨k, hk⟩ := mem_iff_getElem?.1 ho
      obtain ⟨hlen, hall⟩ := forall₂_iff_get.1 hR
      obtain ⟨hlt, hget⟩ := List.getElem?_eq_some_iff.1 hk
      obtain ⟨O₀, hO₀, hcfg⟩ := hall k hlt (hlen ▸ hlt)
      rw [show R.get ⟨k, hlt⟩ = o from hget, hO] at hO₀
      cases hO₀
      rw [hcfg]
      exact hhead _ (getElem_mem _)
  have hsymm : Std.Symm s'.Apart := ⟨fun m o h M O hM hO => (h O M hO hM).symm⟩
  exact fun m hm o ho hne => hpair.forall hm ho hne

theorem mem_roundRobin {i : Nat} (h : (m, i) ∈ roundRobin all ms) : m ∈ ms := by
  obtain ⟨j, -, hj⟩ := mem_flatMap.1 h
  obtain ⟨m', hm', heq⟩ := mem_map.1 hj
  cases heq
  exact (mem_filter.1 hm').1

theorem mem_draining (hM : all[m]? = some M) (hin : M.drain.inMap = true) : m ∈ draining all := by
  refine mem_filter.2 ⟨mem_range.2 (List.getElem?_eq_some_iff.1 hM).1, ?_⟩
  simp [hM, hin]

section Apply

variable [DecidableEq γ] {registered : String → Bool} {cfg : ModelConfig γ}
  {cfgs : List (ModelConfig γ)}

theorem unchanged_spec (h : s.unchanged cfg = some m) :
    m ∈ s.models ∧ ∃ M, s.all[m]? = some M ∧ M.cfg = cfg := by
  obtain ⟨hlast, hsame⟩ := filter_eq_some_iff.1 h
  refine ⟨(mem_of_lastWith hlast).1, ?_⟩
  obtain ⟨M, hM, hcfg⟩ := (any_eq_true _ _).1 hsame
  exact ⟨M, hM, of_decide_eq_true hcfg⟩

/-- The new list has current models, and every created one. -/
theorem mem_build (s : Node γ) (n : Nat) (cfgs : List (ModelConfig γ)) :
    (∀ x ∈ (s.build n cfgs).1,
        x ∈ s.models ∨ (n ≤ x ∧ x < n + (s.build n cfgs).2.length)) ∧
      ∀ x, n ≤ x → x < n + (s.build n cfgs).2.length → x ∈ (s.build n cfgs).1 := by
  induction cfgs generalizing n with
  | nil =>
    refine ⟨by simp [build], fun x hle hlt => ?_⟩
    simp only [build, length_nil] at hlt
    omega
  | cons cfg cfgs ih =>
    rw [build]
    cases hun : s.unchanged cfg with
    | some m =>
      obtain ⟨hfrom, hinto⟩ := ih n
      refine ⟨fun x hx => ?_, fun x hle hlt => mem_cons_of_mem m (hinto x hle hlt)⟩
      rcases mem_cons.1 hx with rfl | hx
      · exact .inl (unchanged_spec hun).1
      · exact hfrom x hx
    | none =>
      obtain ⟨hfrom, hinto⟩ := ih (n + 1)
      simp only [length_cons]
      refine ⟨fun x hx => ?_, fun x hle hlt => ?_⟩
      · rcases mem_cons.1 hx with rfl | hx
        · exact .inr ⟨le_rfl, by omega⟩
        · exact (hfrom x hx).imp_right fun hx => ⟨by omega, by omega⟩
      · rcases Nat.eq_or_lt_of_le hle with rfl | hlt'
        · exact mem_cons_self
        · exact mem_cons_of_mem n (hinto x hlt' (by omega))

/-- The new list has the configurations of the reload, in order. -/
theorem build_cfgs {all : List (Model γ)}
    (hold : ∀ m ∈ s.models, ∀ M, s.all[m]? = some M → HasCfg all m M.cfg) (n : Nat)
    (hnew : ∀ k c, (s.build n cfgs).2[k]? = some c → HasCfg all (n + k) c) :
    List.Forall₂ (HasCfg all) (s.build n cfgs).1 cfgs := by
  induction cfgs generalizing n with
  | nil => exact .nil
  | cons cfg cfgs ih =>
    rw [build] at hnew ⊢
    cases hun : s.unchanged cfg with
    | some m =>
      obtain ⟨hm, M, hM, rfl⟩ := unchanged_spec hun
      rw [hun] at hnew
      exact .cons (hold m hm M hM) (ih n hnew)
    | none =>
      rw [hun] at hnew
      refine .cons (hnew 0 cfg rfl) (ih (n + 1) fun k c hk => ?_)
      have := hnew (k + 1) c hk
      rwa [show n + (k + 1) = n + 1 + k by omega] at this

theorem apply_eq_ok (hstep : s.apply registered cfgs = .ok s') :
    let epoch := s.rosters.length
    let next := (s.build s.all.length cfgs).1
    let created := (s.build s.all.length cfgs).2
    let all := drainAll epoch (s.models.filter fun m => m ∉ next) s.all ++
      created.map fun cfg => .new cfg epoch
    s'.all = all ∧ s'.models = next ∧ s'.rosters = s.rosters ++ [next] ∧
      ∀ st ∈ s'.starters, st ∈ s.starters ∨
        st = ⟨draining all, roundRobin all (next.filter fun m => s.all.length ≤ m), []⟩ := by
  unfold Node.apply at hstep
  split_ifs at hstep
  split at hstep
  · cases hstep
  · cases hstep
    refine ⟨rfl, rfl, rfl, fun st hst => ?_⟩
    simp only at hst
    split_ifs at hst
    · exact .inl hst
    · exact (mem_append.1 hst).imp_right mem_singleton.1

theorem Sound.apply (h : s.Sound) (hexcl : Exclusive cfgs)
    (hstep : s.apply registered cfgs = .ok s') : s'.Sound := by
  obtain ⟨hall, hmodels, hrosters, hstarters⟩ := apply_eq_ok hstep
  obtain ⟨hfrom, hinto⟩ := mem_build s s.all.length cfgs
  set next := (s.build s.all.length cfgs).1 with hnext
  set created := (s.build s.all.length cfgs).2 with hcreated
  set removed := s.models.filter fun m => m ∉ next
  have hrem : ∀ m ∈ removed, m ∈ s.models := fun m hm => (mem_filter.1 hm).1
  have hdlen : (drainAll s.rosters.length removed s.all).length = s.all.length := by
    simp [drainAll]
  have hlen : s'.all.length = s.all.length + created.length := by
    rw [hall, length_append, hdlen, length_map]
  have hget : ∀ m M', s'.all[m]? = some M' → s.Drained removed m M' ∨
      (s.all.length ≤ m ∧ [next] ≠ [] ∧ ∃ cfg, M' = .new cfg s.rosters.length) := by
    intro m M' hM'
    rw [hall, List.getElem?_append, hdlen] at hM'
    split_ifs at hM' with hlt
    · rw [getElem?_drainAll] at hM'
      obtain ⟨M, hM, rfl⟩ := map_eq_some_iff.1 hM'
      exact .inl (h.drained hrem hM)
    · rw [List.getElem?_map] at hM'
      obtain ⟨cfg, -, rfl⟩ := map_eq_some_iff.1 hM'
      exact .inr ⟨not_lt.1 hlt, by simp, cfg, rfl⟩
  have hkept : ∀ m ∈ next, ∀ M, s.all[m]? = some M → s'.all[m]? = some M := by
    intro m hm M hM
    have hlt := (List.getElem?_eq_some_iff.1 hM).1
    have hno : m ∉ removed := fun hr => by simpa [hm] using (mem_filter.1 hr).2
    rw [hall, List.getElem?_append_left (hdlen.symm ▸ hlt), getElem?_drainAll, hM,
      map_some, if_neg hno]
  have hcur : ∀ m, m ∈ next ↔ ∃ M, s'.all[m]? = some M ∧ M.removed = none := by
    intro m
    constructor
    · intro hm
      rcases hfrom m hm with hold | ⟨hle, hlt⟩
      · obtain ⟨M, hM, hnone⟩ := (h.current m).1 hold
        exact ⟨M, hkept m hm M hM, hnone⟩
      · obtain ⟨M', hM'⟩ : ∃ M', s'.all[m]? = some M' :=
          ⟨_, List.getElem?_eq_getElem (hlen ▸ hlt)⟩
        refine ⟨M', hM', ?_⟩
        rcases hget m M' hM' with ⟨M, hM, -⟩ | ⟨-, -, cfg, rfl⟩
        · exact absurd (List.getElem?_eq_some_iff.1 hM).1 (not_lt.2 hle)
        · rfl
    · rintro ⟨M', hM', hnone⟩
      rcases hget m M' hM' with ⟨M, hM, -, -, -, -, hrm, -⟩ | ⟨hle, -⟩
      · split_ifs at hrm with hmr
        · rw [hrm] at hnone
          cases hnone
        · by_contra hno
          have hold : m ∈ s.models := (h.current m).2 ⟨M, hM, hrm ▸ hnone⟩
          exact hmr (mem_filter.2 ⟨hold, by simpa using hno⟩)
      · exact hinto m hle (hlen ▸ (List.getElem?_eq_some_iff.1 hM').1)
  have hbound : ∀ m ∈ next, m < s'.all.length := by
    intro m hm
    obtain ⟨M, hM, -⟩ := (hcur m).1 hm
    exact (List.getElem?_eq_some_iff.1 hM).1
  refine h.grow [next] (by omega) hrosters
    (fun m M' hM' => (hget m M' hM').imp_left fun hd => hd.grown h) (hmodels ▸ hcur) ?_ ?_ ?_
  · intro st hst
    rcases hstarters st hst with hold | rfl
    · exact .inl hold
    refine .inr fun m hm => ?_
    simp only [Starter.models, map_nil, append_nil] at hm
    obtain ⟨⟨m', i⟩, hmem, rfl⟩ := mem_map.1 hm
    refine ⟨hbound _ (mem_filter.1 (mem_roundRobin hmem)).1, ?_⟩
    -- every model removed so far drains now, or is gone
    intro M' hM' o O' r hO' hr hle
    rcases hget o O' hO' with ⟨O, hO, hs, -⟩ | ⟨-, -, cfg, rfl⟩
    · have hne : O'.drain ≠ .absent := by
        intro ha
        rw [hs.removed.2 ha] at hr
        cases hr
      cases hd : O'.drain with
      | absent => exact absurd hd hne
      | waiting | stopping => exact .inl (mem_draining (hall ▸ hO') (by simp [hd, Drain.inMap]))
      | finished => exact .inr (.inl hd)
      | signalled => exact .inr (.inr hd)
    · cases hr
  · intro m o O hle hlt hne hO
    by_cases ho : o ∈ next
    · exact .inl ⟨next, by simp, hinto m hle (by omega), ho⟩
    right
    have hremoved : O.removed ≠ none := fun hnone => ho ((hcur o).2 ⟨O, hO, hnone⟩)
    obtain ⟨r, hr⟩ := ne_none_iff_exists'.1 hremoved
    refine ⟨r, hr, ?_⟩
    rcases hget o O hO with ⟨O₀, hO₀, -, -, -, -, hrm, -⟩ | ⟨-, -, cfg, rfl⟩
    · rw [hr] at hrm
      split_ifs at hrm
      · exact (Option.some.inj hrm).le
      · exact (h.model hO₀).2.2 r hrm.symm
    · cases hr
  · intro R hR
    rw [mem_singleton.1 hR]
    refine ⟨hbound, disjoint_of_exclusive (build_cfgs ?_ s.all.length ?_) hexcl⟩
    · intro m hm M hM
      have hlt := (List.getElem?_eq_some_iff.1 hM).1
      obtain ⟨M₀, hM₀, -, hcfg, -⟩ := h.drained hrem hM
      cases hM.symm.trans hM₀
      refine ⟨_, ?_, hcfg⟩
      rw [hall, List.getElem?_append_left (hdlen.symm ▸ hlt), getElem?_drainAll, hM,
        map_some]
    · intro k c hk
      refine ⟨.new c s.rosters.length, ?_, rfl⟩
      rw [hall, List.getElem?_append_right (by omega), hdlen, Nat.add_sub_cancel_left,
        List.getElem?_map, hcreated, hk, map_some]

/-! ### Runs -/

theorem Sound.step (h : s.Sound) {a : Act γ} (hexcl : ∀ cfgs, a = .apply cfgs → Exclusive cfgs)
    (hstep : s.step registered a = some s') : s'.Sound := by
  cases a with
  | apply cfgs =>
    simp only [Node.step] at hstep
    split at hstep
    · cases hstep
      exact h
    · next happly =>
        cases hstep
        exact h.apply (hexcl cfgs rfl) happly
  | shutdown =>
    cases hstep
    exact h.shutdownAll
  | receive g => exact h.receive hstep
  | enqueue g => exact h.enqueue hstep
  | startLoop g => exact h.startLoop hstep
  | loop m i a => exact h.loop hstep
  | drain m a => exact h.drain hstep

theorem Sound.run (h : s.Sound) {acts : List (Act γ)}
    (hexcl : ∀ cfgs, .apply cfgs ∈ acts → Exclusive cfgs)
    (hrun : Lib.run (Node.step registered) s acts = some s') : s'.Sound :=
  run_invariant (Node.step registered) (P := fun _ a => ∀ cfgs, a = .apply cfgs → Exclusive cfgs)
    (fun _ _ _ hs hP hstep => hs.step hP hstep) h
    (runMeets_of_forall _ s fun _ ha cfgs hcfgs => hexcl cfgs (hcfgs ▸ ha)) hrun

end Apply

end Node

end Viiwork.Supervisor

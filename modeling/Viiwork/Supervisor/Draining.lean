import Viiwork.Supervisor.Node

/-!
# Viiwork.Supervisor.Draining

What holds of the node's models and goroutines in every reachable state.

A model that is removed is **gone** once its drain is over: its loops have returned, its
processes are stopped, and being closed it starts neither again. The invariant (`Node.Sound`)
says what a `start` goroutine has waited for: of the models removed by its `Apply` or before,
each is gone or on the list of drains it still waits for. A model removed later does not
matter, as the two were in one model list (`apart`).

Here are the invariant and the steps that touch one model or one goroutine; those of
`Apply` and `Shutdown` are in `Viiwork.Supervisor.Reload`.
-/

namespace Viiwork.Supervisor

open Viiwork.Lib List Option

variable {γ : Type}

/-! ### One model -/

namespace Model

/-- The drain of the model is over. -/
def Gone (M : Model γ) : Prop := M.drain = .finished ∨ M.drain = .signalled

/-- What holds of every model. -/
structure Sound (M : Model γ) : Prop where
  removed : M.removed = none ↔ M.drain = .absent
  closed : M.drain ≠ .absent → M.closed = true
  /-- Nothing is stopped before the loops have returned. -/
  settled : M.drain ≠ .absent → M.drain ≠ .waiting → M.Settled
  stopped : ∀ left, M.drain = .stopping left →
    ∀ i b, M.backends[i]? = some b → i ∉ left → b.process = false
  gone : M.Gone → ∀ b ∈ M.backends, b.process = false
  idle : ∀ b ∈ M.backends, b.phase = .idle → b.process = false

theorem sound_new (cfg : ModelConfig γ) (epoch : Nat) : (new cfg epoch).Sound where
  removed := by simp [new]
  closed h := absurd rfl h
  settled h := absurd rfl h
  stopped left h := by simp [new] at h
  gone h := by simp [Gone, new] at h
  idle b hb _ := by
    rw [eq_of_mem_replicate hb]

theorem firstPhase_ne_idle (M : Model γ) : M.firstPhase ≠ .idle := by
  unfold firstPhase
  split_ifs <;> decide

variable {M : Model γ} {bs : List Backend} {b' : Backend}

theorem Sound.startDrain (h : M.Sound) (epoch : Nat) : (M.startDrain epoch).Sound := by
  unfold Model.startDrain
  split_ifs
  · exact h
  · exact {
      removed := by simp
      closed := fun _ => rfl
      settled := fun _ hw => absurd rfl hw
      stopped := fun left hs => by simp at hs
      gone := fun hg => by simp [Gone] at hg
      idle := h.idle }

/-- What stopping one backend leaves. -/
theorem getElem?_stop {i j : Nat}
    (h : (bs.modify i fun b => { b with process := false })[j]? = some b') :
    ∃ b, bs[j]? = some b ∧ b'.phase = b.phase ∧
      (b.process = false ∨ i = j → b'.process = false) := by
  rw [List.getElem?_modify] at h
  obtain ⟨b, hb, rfl⟩ := map_eq_some_iff.1 h
  refine ⟨b, hb, ?_⟩
  split_ifs with hij
  · exact ⟨rfl, fun _ => rfl⟩
  · exact ⟨rfl, fun hp => hp.resolve_right hij⟩

theorem mem_stop {i : Nat} (h : b' ∈ bs.modify i fun b => { b with process := false }) :
    ∃ b ∈ bs, b'.phase = b.phase ∧ (b.process = false → b'.process = false) := by
  obtain ⟨j, hj⟩ := mem_iff_getElem?.1 h
  obtain ⟨b, hb, hphase, hproc⟩ := getElem?_stop hj
  exact ⟨b, mem_of_getElem? hb, hphase, fun hp => hproc (.inl hp)⟩

/-- A step of the drain keeps what is known of the model, and who is gone stays gone. -/
theorem Sound.drainAct {M' : Model γ} {a : DrainAct} (h : M.Sound) (hact : M.drainAct a = some M') :
    M'.Sound ∧ M'.cfg = M.cfg ∧ M'.started = M.started ∧ M'.removed = M.removed ∧
      (M.Gone → M'.Gone) ∧ ∀ b' ∈ M'.backends, ∃ b ∈ M.backends, b'.phase = b.phase := by
  have hrem : M.drain ≠ .absent → M.removed ≠ none := fun hd hr => hd (h.removed.1 hr)
  cases a with
  | loops =>
    simp only [Model.drainAct] at hact
    split_ifs at hact with hg
    obtain ⟨hdrain, hsettled⟩ := hg
    cases hact
    refine ⟨⟨by simp [hrem (by simp [hdrain])], fun _ => h.closed (by simp [hdrain]),
      fun _ _ => hsettled, ?_, fun hg => by simp [Gone] at hg, h.idle⟩, rfl, rfl, rfl,
      fun hg => by simp [Gone, hdrain] at hg, fun b hb => ⟨b, hb, rfl⟩⟩
    intro left hleft i b hb hi
    cases hleft
    exact absurd (mem_range.2 (List.getElem?_eq_some_iff.1 hb).1) hi
  | stop i =>
    simp only [Model.drainAct] at hact
    split at hact
    · next left hdrain =>
        split_ifs at hact with hi
        cases hact
        have hsettled : M.Settled := h.settled (by simp [hdrain]) (by simp [hdrain])
        refine ⟨⟨by simp [hrem (by simp [hdrain])], fun _ => h.closed (by simp [hdrain]), ?_, ?_,
          fun hg => by simp [Gone] at hg, ?_⟩, rfl, rfl, rfl,
          fun hg => by simp [Gone, hdrain] at hg, ?_⟩
        · intro _ _ b' hb'
          obtain ⟨b, hb, hphase, -⟩ := mem_stop hb'
          rw [hphase]
          exact hsettled b hb
        · intro left' hleft' j b' hb' hj
          cases hleft'
          obtain ⟨b, hb, -, hproc⟩ := getElem?_stop hb'
          by_cases hij : i = j
          · exact hproc (.inr hij)
          · refine hproc (.inl (h.stopped left hdrain j b hb fun hmem => hj ?_))
            exact (mem_erase_of_ne (Ne.symm hij)).2 hmem
        · intro b' hb' hidle
          obtain ⟨b, hb, hphase, hproc⟩ := mem_stop hb'
          exact hproc (h.idle b hb (hphase ▸ hidle))
        · intro b' hb'
          obtain ⟨b, hb, hphase, -⟩ := mem_stop hb'
          exact ⟨b, hb, hphase⟩
    · cases hact
  | forget =>
    simp only [Model.drainAct] at hact
    split_ifs at hact with hdrain
    cases hact
    refine ⟨⟨by simp [hrem (by simp [hdrain])], fun _ => h.closed (by simp [hdrain]),
      fun _ _ => h.settled (by simp [hdrain]) (by simp [hdrain]), fun left hs => by simp at hs,
      ?_, h.idle⟩, rfl, rfl, rfl, fun hg => by simp [Gone, hdrain] at hg,
      fun b hb => ⟨b, hb, rfl⟩⟩
    intro _ b hb
    obtain ⟨i, hi⟩ := mem_iff_getElem?.1 hb
    exact h.stopped [] hdrain i b hi (by simp)
  | signal =>
    simp only [Model.drainAct] at hact
    split_ifs at hact with hdrain
    cases hact
    refine ⟨⟨by simp [hrem (by simp [hdrain])], fun _ => h.closed (by simp [hdrain]),
      fun _ _ => h.settled (by simp [hdrain]) (by simp [hdrain]), fun left hs => by simp at hs,
      fun _ => h.gone (.inl hdrain), h.idle⟩, rfl, rfl, rfl, fun _ => .inr rfl,
      fun b hb => ⟨b, hb, rfl⟩⟩

end Model

/-! ### One loop -/

namespace Backend

/-- The backend's loop is not in progress. -/
def Quiet (b : Backend) : Prop := b.phase = .idle ∨ b.phase = .returned

@[simp] theorem releaseTicket_phase (b : Backend) (gate : LoadGate) :
    (b.releaseTicket gate).1.phase = b.phase ∧ (b.releaseTicket gate).1.process = b.process := by
  unfold releaseTicket
  split <;> exact ⟨rfl, rfl⟩

/-- **What a step of a loop can do.** A loop in progress goes on or returns; outside one only
the process can end. -/
theorem act_spec {cancelled : Bool} {gate gate' : LoadGate} {b b' : Backend} {a : LoopAct}
    (h : b.act cancelled gate a = some (b', gate')) :
    (¬ b.Quiet ∧ b'.phase ≠ .idle) ∨
      (b.process = true ∧ b'.phase = b.phase ∧ b'.process = false) := by
  cases a
  case exits =>
    simp only [act, ite_none_right_eq_some, some.injEq, Prod.mk.injEq] at h
    obtain ⟨hp, rfl, -⟩ := h
    exact .inr ⟨hp, rfl, rfl⟩
  all_goals left
  case granted =>
    simp only [act] at h
    split at h
    · split_ifs at h with hg
      cases h
      simp [Quiet, hg.1]
    · cases h
  case ended =>
    simp only [act] at h
    split_ifs at h with hg
    have hb' := congrArg Prod.fst (some.inj h)
    rw [← show _ = b' from hb']
    simp [Quiet, hg.2.1, hg.2.2.2]
  case noCommand | ready =>
    simp only [act] at h
    split_ifs at h with hg
    have hb' := congrArg Prod.fst (some.inj h)
    rw [← show _ = b' from hb']
    simp [Quiet, hg]
  case markDead =>
    simp only [act] at h
    split_ifs at h with hg
    have hb' := congrArg Prod.fst (some.inj h)
    rw [← show _ = b' from hb']
    rcases hg with hg | hg | hg <;> simp [Quiet, hg]
  case respawn =>
    simp only [act] at h
    split_ifs at h with hg
    cases h
    rcases hg with hg | hg | hg <;> simp [Quiet, hg]
  all_goals
    simp only [act] at h
    split_ifs at h with hg
    cases h
    simp_all [Quiet]

end Backend

variable {i : Nat}

theorem mem_set_backend {bs : List Backend} {b b' : Backend} (h : b ∈ bs.set i b') :
    b = b' ∨ b ∈ bs :=
  (mem_or_eq_of_mem_set h).symm

/-- A step of one of its loops keeps what is known of a model. -/
theorem Model.Sound.setBackend {M : Model γ} (h : M.Sound) {b b' : Backend} {cancelled : Bool}
    {gate gate' : LoadGate} {a : LoopAct} (hb : M.backends[i]? = some b)
    (hact : b.act cancelled gate a = some (b', gate')) :
    Model.Sound { M with backends := M.backends.set i b' } := by
  have hbmem := mem_of_getElem? hb
  rcases Backend.act_spec hact with ⟨hnq, hne⟩ | ⟨hproc, hphase, hproc'⟩
  · -- a loop is in progress, so nothing is being stopped
    have hdrain : M.drain = .absent ∨ M.drain = .waiting := by
      by_contra hno
      rw [not_or] at hno
      exact hnq (h.settled hno.1 hno.2 b hbmem)
    refine ⟨h.removed, h.closed, fun ha hw => absurd hdrain (by simp [ha, hw]), ?_, ?_, ?_⟩
    · intro left hs
      rcases hdrain with hd | hd <;> simp [hd] at hs
    · intro hgone
      rcases hdrain with hd | hd <;> simp [Model.Gone, hd] at hgone
    · intro b'' hb'' hidle
      rcases mem_set_backend hb'' with rfl | hb''
      · exact absurd hidle hne
      · exact h.idle b'' hb'' hidle
  · -- the process ended
    refine ⟨h.removed, h.closed, fun ha hw b'' hb'' => ?_, ?_, ?_, ?_⟩
    · rcases mem_set_backend hb'' with rfl | hb''
      · rw [hphase]
        exact h.settled ha hw b hbmem
      · exact h.settled ha hw b'' hb''
    · intro left hs j b'' hb'' hj
      rw [List.getElem?_set] at hb''
      split_ifs at hb'' with hij hlt
      · rwa [← some.inj hb'']
      · exact h.stopped left hs j b'' hb'' hj
    · intro hgone b'' hb''
      rcases mem_set_backend hb'' with rfl | hb''
      · exact hproc'
      · exact h.gone hgone b'' hb''
    · intro b'' hb'' hidle
      rcases mem_set_backend hb'' with rfl | hb''
      · exact hproc'
      · exact h.idle b'' hb'' hidle

/-! ### The invariant -/

/-- The models whose backends a `start` goroutine has still to enqueue or to start. -/
def Starter.models (st : Starter) : List Nat := st.todo.map Prod.fst ++ st.queue.map Pending.model

namespace Node

/-- Of the models removed by the `Apply` that started `m`, or before it, each is gone or one
of `waits`. -/
def Cleared (s : Node γ) (m : Nat) (waits : List Nat) : Prop :=
  ∀ M, s.all[m]? = some M → ∀ o O r, s.all[o]? = some O → O.removed = some r → r ≤ M.started →
    o ∈ waits ∨ O.Gone

/-- The models share no GPU. -/
def Apart (s : Node γ) (m o : Nat) : Prop :=
  ∀ M O, s.all[m]? = some M → s.all[o]? = some O → M.cfg.gpus.Disjoint O.cfg.gpus

/-- No two models of a list share a GPU. -/
def Disjoint (s : Node γ) (R : List Nat) : Prop := ∀ m ∈ R, ∀ o ∈ R, m ≠ o → s.Apart m o

structure Sound (s : Node γ) : Prop where
  each : ∀ M ∈ s.all, M.Sound ∧ M.started < s.rosters.length ∧
    ∀ r, M.removed = some r → r ≤ s.rosters.length
  current : ∀ m, m ∈ s.models ↔ ∃ M, s.all[m]? = some M ∧ M.removed = none
  starters : ∀ st ∈ s.starters, ∀ m ∈ st.models, m < s.all.length ∧ s.Cleared m st.waits
  loops : ∀ m M, s.all[m]? = some M → ∀ b ∈ M.backends, b.phase ≠ .idle → s.Cleared m []
  /-- Two models were in one model list, or one was removed when the other was started. -/
  apart : ∀ m o M O, m ≠ o → s.all[m]? = some M → s.all[o]? = some O →
    (∃ R ∈ s.rosters, m ∈ R ∧ o ∈ R) ∨ (∃ r, M.removed = some r ∧ r ≤ O.started) ∨
      ∃ r, O.removed = some r ∧ r ≤ M.started
  rosters : ∀ R ∈ s.rosters, (∀ m ∈ R, m < s.all.length) ∧ s.Disjoint R

theorem sound_new : (new : Node γ).Sound where
  each := by simp [new]
  current := by simp [new]
  starters := by simp [new]
  loops := by simp [new]
  apart := by simp [new]
  rosters := by simp [new]

variable {s s' : Node γ} {m g : Nat} {M M' : Model γ} {waits : List Nat}

theorem Sound.model (h : s.Sound) (hm : s.all[m]? = some M) :
    M.Sound ∧ M.started < s.rosters.length ∧ ∀ r, M.removed = some r → r ≤ s.rosters.length :=
  h.each M (mem_of_getElem? hm)

/-- From `s` to `s'` models were created or removed, and drained. -/
def Later (s s' : Node γ) : Prop :=
  ∀ m M', s'.all[m]? = some M' →
    (∃ M, s.all[m]? = some M ∧ M'.started = M.started ∧
      (M'.removed = M.removed ∨ M'.removed = some s.rosters.length) ∧ (M.Gone → M'.Gone)) ∨
    (s.all.length ≤ m ∧ M'.removed = none)

/-- What a model was started after stays gone, and a model removed later does not count. -/
theorem Cleared.later (hc : s.Cleared m waits) (h : s.Sound) (hlater : s.Later s')
    (hm : m < s.all.length) : s'.Cleared m waits := by
  intro M' hM' o O' r hO' hr hle
  rcases hlater m M' hM' with ⟨M, hM, hstarted, -, -⟩ | ⟨hge, -⟩
  · rcases hlater o O' hO' with ⟨O, hO, -, hrem | hrem, hgone⟩ | ⟨-, hnone⟩
    · exact (hc M hM o O r hO (hrem ▸ hr) (hstarted ▸ hle)).imp_right hgone
    · have hlt := (h.model hM).2.1
      rw [hrem, some.injEq] at hr
      omega
    · rw [hnone] at hr
      cases hr
  · omega

/-! ### Steps that touch one model or one goroutine -/

variable {O : Model γ} {o : Nat}

theorem getElem?_setModel (hM : s.all[m]? = some M) (hO : (s.setModel m M').all[o]? = some O) :
    (o = m ∧ O = M') ∨ (o ≠ m ∧ s.all[o]? = some O) := by
  have hlt := (List.getElem?_eq_some_iff.1 hM).1
  rw [setModel, List.getElem?_set] at hO
  split_ifs at hO with hmo
  · exact .inl ⟨hmo.symm, (some.inj hO).symm⟩
  · exact .inr ⟨Ne.symm hmo, hO⟩

theorem getElem?_setModel_of (hM : s.all[m]? = some M) (hO : s.all[o]? = some O) :
    (s.setModel m M').all[o]? = some (if o = m then M' else O) := by
  have hlt := (List.getElem?_eq_some_iff.1 hM).1
  rw [setModel, List.getElem?_set]
  split_ifs with hmo hom hom
  · rfl
  · exact absurd hmo.symm hom
  · exact absurd hom.symm hmo
  · exact hO

/-- A model of `s` with more of its life behind it: removed since, or with more of its drain over. -/
def Grown (s : Node γ) (m : Nat) (M' : Model γ) : Prop :=
  ∃ M, s.all[m]? = some M ∧ M'.Sound ∧ M'.cfg = M.cfg ∧ M'.started = M.started ∧
    (M'.removed = M.removed ∨ M.removed = none ∧ M'.removed = some s.rosters.length) ∧
    (M.Gone → M'.Gone) ∧ ∀ b ∈ M'.backends, b.phase ≠ .idle → s.Cleared m []

variable (h : s.Sound)
include h

/-- **The invariant stays** when models grow, when new ones are created, each with every model that
is not removed on one new list, and when goroutines are added for them. -/
theorem Sound.grow (extra : List (List Nat)) (hlen : s.all.length ≤ s'.all.length)
    (hrosters : s'.rosters = s.rosters ++ extra)
    (hget : ∀ m M', s'.all[m]? = some M' → s.Grown m M' ∨
      (s.all.length ≤ m ∧ extra ≠ [] ∧ ∃ cfg, M' = .new cfg s.rosters.length))
    (hcur : ∀ m, m ∈ s'.models ↔ ∃ M, s'.all[m]? = some M ∧ M.removed = none)
    (hst : ∀ st ∈ s'.starters, st ∈ s.starters ∨
      ∀ m ∈ st.models, m < s'.all.length ∧ s'.Cleared m st.waits)
    (hnew : ∀ m o O, s.all.length ≤ m → m < s'.all.length → m ≠ o → s'.all[o]? = some O →
      (∃ R ∈ extra, m ∈ R ∧ o ∈ R) ∨ ∃ r, O.removed = some r ∧ r ≤ s.rosters.length)
    (hextra : ∀ R ∈ extra, (∀ m ∈ R, m < s'.all.length) ∧ s'.Disjoint R) : s'.Sound := by
  have hlater : s.Later s' := by
    intro m M' hM'
    rcases hget m M' hM' with ⟨M, hM, -, -, hst, hrem, hgone, -⟩ | ⟨hle, -, cfg, rfl⟩
    · exact .inl ⟨M, hM, hst, hrem.imp_right And.right, hgone⟩
    · exact .inr ⟨hle, rfl⟩
  have hkeep : ∀ {m : Nat} {M M' : Model γ} {r : Nat}, s.all[m]? = some M → s.Grown m M' →
      M.removed = some r → M'.removed = some r := by
    rintro m M M' r hM ⟨M₀, hM₀, -, -, -, hrem | ⟨hnone, -⟩, -⟩ hr
    · rw [hrem, ← some.inj (hM.symm.trans hM₀), hr]
    · rw [← some.inj (hM.symm.trans hM₀), hr] at hnone
      cases hnone
  refine ⟨?_, hcur, ?_, ?_, ?_, ?_⟩
  · intro M' hM'
    obtain ⟨m, hm⟩ := mem_iff_getElem?.1 hM'
    rw [hrosters, length_append]
    rcases hget m M' hm with ⟨M, hM, hs, -, hst, hrem, -⟩ | ⟨-, hne, cfg, rfl⟩
    · obtain ⟨-, hlt, hle⟩ := h.model hM
      refine ⟨hs, by omega, fun r hr => ?_⟩
      rcases hrem with hrem | ⟨-, hrem⟩
      · exact (hle r (hrem ▸ hr)).trans (Nat.le_add_right _ _)
      · cases hrem.symm.trans hr
        exact Nat.le_add_right _ _
    · have := length_pos_of_ne_nil hne
      exact ⟨Model.sound_new cfg _, show s.rosters.length < _ by omega, fun r hr => by cases hr⟩
  · intro st hst' m hm
    rcases hst st hst' with hold | hnew'
    · obtain ⟨hlt, hc⟩ := h.starters st hold m hm
      exact ⟨hlt.trans_le hlen, hc.later h hlater hlt⟩
    · exact hnew' m hm
  · intro m M' hM' b hb hne
    rcases hget m M' hM' with ⟨M, hM, -, -, -, -, -, hloops⟩ | ⟨-, -, cfg, rfl⟩
    · exact (hloops b hb hne).later h hlater (List.getElem?_eq_some_iff.1 hM).1
    · rw [eq_of_mem_replicate hb] at hne
      exact absurd rfl hne
  · intro m o M' O' hne hM' hO'
    have hm := (List.getElem?_eq_some_iff.1 hM').1
    have ho := (List.getElem?_eq_some_iff.1 hO').1
    have hroster : ∀ R, R ∈ extra → R ∈ s'.rosters := fun R hR => by
      rw [hrosters]
      exact mem_append_right _ hR
    rcases hget m M' hM' with hd | ⟨hle, -, cfg, rfl⟩
    · rcases hget o O' hO' with hd' | ⟨hle, -, cfg, rfl⟩
      · obtain ⟨M, hM, -, -, hst, -⟩ := id hd
        obtain ⟨O, hO, -, -, hst', -⟩ := id hd'
        rcases h.apart m o M O hne hM hO with ⟨R, hR, hmR⟩ | ⟨r, hr, hle⟩ | ⟨r, hr, hle⟩
        · exact .inl ⟨R, by rw [hrosters]; exact mem_append_left _ hR, hmR⟩
        · exact .inr (.inl ⟨r, hkeep hM hd hr, hst' ▸ hle⟩)
        · exact .inr (.inr ⟨r, hkeep hO hd' hr, hst ▸ hle⟩)
      · rcases hnew o m M' hle ho hne.symm hM' with ⟨R, hR, hoR, hmR⟩ | hrem
        · exact .inl ⟨R, hroster R hR, hmR, hoR⟩
        · exact .inr (.inl hrem)
    · rcases hnew m o O' hle hm hne hO' with ⟨R, hR, hmR, hoR⟩ | hrem
      · exact .inl ⟨R, hroster R hR, hmR, hoR⟩
      · exact .inr (.inr hrem)
  · intro R hR
    rw [hrosters, mem_append] at hR
    rcases hR with hR | hR
    · obtain ⟨hlt, hdisj⟩ := h.rosters R hR
      refine ⟨fun m hm => (hlt m hm).trans_le hlen, fun m hm o ho hne M' O' hM' hO' => ?_⟩
      have hold : ∀ o ∈ R, ∀ O', s'.all[o]? = some O' →
          ∃ O, s.all[o]? = some O ∧ O'.cfg = O.cfg := by
        intro o ho O' hO'
        rcases hget o O' hO' with ⟨O, hO, -, hcfg, -⟩ | ⟨hle, -⟩
        · exact ⟨O, hO, hcfg⟩
        · exact absurd (hlt o ho) (not_lt.2 hle)
      obtain ⟨M, hM, hcfg⟩ := hold m hm M' hM'
      obtain ⟨O, hO, hcfg'⟩ := hold o ho O' hO'
      rw [hcfg, hcfg']
      exact hdisj m hm o ho hne M O hM hO
    · exact hextra R hR

/-- A model is replaced by one with more of its drain behind it. -/
theorem Sound.setModel (hM : s.all[m]? = some M) (hM' : M'.Sound) (hcfg : M'.cfg = M.cfg)
    (hstarted : M'.started = M.started) (hremoved : M'.removed = M.removed)
    (hgone : M.Gone → M'.Gone) (hloops : ∀ b ∈ M'.backends, b.phase ≠ .idle → s.Cleared m []) :
    (s.setModel m M').Sound := by
  have hlen : (s.setModel m M').all.length = s.all.length := length_set
  refine h.grow [] hlen.ge (append_nil _).symm (fun o O' hO' => .inl ?_) (fun o => ?_)
    (fun st hst => .inl hst) (fun o p P hle hlt => absurd hlt (by omega)) nofun
  · rcases getElem?_setModel hM hO' with ⟨rfl, rfl⟩ | ⟨-, hO⟩
    · exact ⟨M, hM, hM', hcfg, hstarted, .inl hremoved, hgone, hloops⟩
    · exact ⟨O', hO, (h.model hO).1, rfl, rfl, .inl rfl, id, h.loops o O' hO⟩
  · have hsame : ((s.setModel m M').all[o]?).map Model.removed = (s.all[o]?).map Model.removed := by
      rw [Node.setModel, List.getElem?_set']
      split_ifs with hmo
      · simp [← hmo, hM, hremoved]
      · rfl
    rw [← map_eq_some_iff, hsame, map_eq_some_iff]
    exact h.current o

/-- A goroutine goes on. -/
theorem Sound.setStarter {st : Starter}
    (hst : ∀ m ∈ st.models, m < s.all.length ∧ s.Cleared m st.waits) :
    (s.setStarter g st).Sound := by
  refine ⟨h.each, h.current, fun st' hst' => ?_, h.loops, h.apart, h.rosters⟩
  rcases mem_or_eq_of_mem_set hst' with hmem | rfl
  · exact h.starters st' hmem
  · exact hst

/-- The invariant does not look at the gate. -/
theorem Sound.setGate (gate : LoadGate) : { s with gate := gate }.Sound :=
  ⟨h.each, h.current, h.starters, h.loops, h.apart, h.rosters⟩

theorem Sound.receive (hstep : s.receive g = some s') : s'.Sound := by
  unfold Node.receive at hstep
  split at hstep
  · next m waits todo queue hg =>
      split_ifs at hstep with hsig
      cases hstep
      refine h.setStarter fun o ho => ?_
      obtain ⟨hlt, hc⟩ := h.starters _ (mem_of_getElem? hg) o ho
      refine ⟨hlt, fun O hO p P r hP hr hle => ?_⟩
      rcases hc O hO p P r hP hr hle with hmem | hgone
      · rcases mem_cons.1 hmem with rfl | hmem
        · -- the drain that has just been waited for
          rw [Signalled, hP, any_some, decide_eq_true_eq] at hsig
          exact .inr (.inr hsig)
        · exact .inl hmem
      · exact .inr hgone
  · cases hstep

theorem Sound.enqueue (hstep : s.enqueue g = some s') : s'.Sound := by
  unfold Node.enqueue at hstep
  split at hstep
  · next m i todo queue hg =>
      have hst : ∀ t, ∀ o ∈ Starter.models ⟨[], todo, queue ++ [⟨m, i, t⟩]⟩,
          o < s.all.length ∧ s.Cleared o [] := by
        intro t o ho
        refine h.starters _ (mem_of_getElem? hg) o ?_
        simp only [Starter.models, map_append, map_cons, map_nil, mem_append,
          mem_cons, not_mem_nil, or_false] at ho ⊢
        tauto
      split_ifs at hstep
      · cases hstep
        exact h.setStarter (hst none)
      · cases hstep
        exact (h.setStarter (hst _)).setGate _
  · cases hstep

/-- A loop starts only in a model that is not closed, so not removed. -/
theorem Sound.startLoop (hstep : s.startLoop g = some s') : s'.Sound := by
  unfold Node.startLoop at hstep
  split at hstep
  · next p queue hg =>
      have hold := h.starters _ (mem_of_getElem? hg)
      have hst : (s.setStarter g ⟨[], [], queue⟩).Sound :=
        h.setStarter fun o ho => hold o (by simp [Starter.models] at ho ⊢; tauto)
      split at hstep
      · cases hstep
      · next M hM =>
          simp only at hstep
          split_ifs at hstep with hclosed
          · cases hstep
            exact hst.setGate _
          · cases hstep
            have hMs := (h.model hM).1
            have habsent : M.drain = .absent := by
              by_contra hne
              exact hclosed (hMs.closed hne)
            refine hst.setModel hM ?_ rfl rfl rfl id fun _ _ _ =>
              (hold p.model (by simp [Starter.models])).2
            refine ⟨hMs.removed, hMs.closed, fun hne => absurd habsent hne,
              fun left hs => by simp [habsent] at hs,
              fun hgone => by simp [Model.Gone, habsent] at hgone, ?_⟩
            intro b' hb' hidle
            obtain ⟨j, hj⟩ := mem_iff_getElem?.1 hb'
            rw [List.getElem?_modify] at hj
            obtain ⟨b, hb, rfl⟩ := map_eq_some_iff.1 hj
            split_ifs at hidle ⊢ with hij
            · exact absurd hidle M.firstPhase_ne_idle
            · exact hMs.idle b (mem_of_getElem? hb) hidle
  · cases hstep

theorem Sound.loop {i : Nat} {a : LoopAct} (hstep : s.loop m i a = some s') : s'.Sound := by
  unfold Node.loop at hstep
  split at hstep
  · cases hstep
  next M hM =>
  split at hstep
  · cases hstep
  next b hb =>
  split at hstep
  · cases hstep
  next b' gate hact =>
  cases hstep
  have hMs := (h.model hM).1
  have hbmem := mem_of_getElem? hb
  have hloop : ∀ b'' ∈ M.backends.set i b', b''.phase ≠ .idle → s.Cleared m [] := by
    intro b'' hb'' hne
    rcases mem_set_backend hb'' with rfl | hb''
    · refine h.loops m M hM b hbmem ?_
      rcases Backend.act_spec hact with ⟨hnq, -⟩ | ⟨-, hphase, -⟩
      · exact fun hi => hnq (.inl hi)
      · exact hphase ▸ hne
    · exact h.loops m M hM b'' hb'' hne
  have hM' : Model.Sound { M with backends := M.backends.set i b' } := hMs.setBackend hb hact
  exact (h.setModel hM hM' rfl rfl rfl id hloop).setGate gate

theorem Sound.drain {a : DrainAct} (hstep : s.drain m a = some s') : s'.Sound := by
  unfold Node.drain at hstep
  split at hstep
  · cases hstep
  next M hM =>
  split at hstep
  · cases hstep
  next M' hact =>
  cases hstep
  obtain ⟨hM', hcfg, hst, hrem, hgone, hphase⟩ := (h.model hM).1.drainAct hact
  refine h.setModel hM hM' hcfg hst hrem hgone fun b' hb' hne => ?_
  obtain ⟨b, hb, heq⟩ := hphase b' hb'
  exact h.loops m M hM b hb (heq ▸ hne)

/-! ### What the invariant says of processes -/

/-- Who is started waits for those removed before. -/
theorem Sound.process_false {r : Nat} {b c : Backend} (hM : s.all[m]? = some M)
    (hb : b ∈ M.backends) (hne : b.phase ≠ .idle) (hO : s.all[o]? = some O)
    (hr : O.removed = some r) (hle : r ≤ M.started) (hc : c ∈ O.backends) : c.process = false := by
  rcases h.loops m M hM b hb hne M hM o O r hO hr hle with hno | hgone
  · cases hno
  · exact (h.model hO).1.gone hgone c hc

/-- Running processes of two models hold different GPUs. -/
theorem Sound.apart_running {i j : Nat} {b c : Backend} (hne : m ≠ o) (hM : s.all[m]? = some M)
    (hO : s.all[o]? = some O) (hb : M.backends[i]? = some b) (hc : O.backends[j]? = some c)
    (hbp : b.process = true) (hcp : c.process = true) :
    (M.cfg.backendGPUs i).Disjoint (O.cfg.backendGPUs j) := by
  have hbm := mem_of_getElem? hb
  have hcm := mem_of_getElem? hc
  have hbne : b.phase ≠ .idle := fun hi => by simp [(h.model hM).1.idle b hbm hi] at hbp
  have hcne : c.phase ≠ .idle := fun hi => by simp [(h.model hO).1.idle c hcm hi] at hcp
  rcases h.apart m o M O hne hM hO with ⟨R, hR, hmR, hoR⟩ | ⟨r, hr, hle⟩ | ⟨r, hr, hle⟩
  · have hdisj := (h.rosters R hR).2 m hmR o hoR hne M O hM hO
    exact disjoint_of_subset_left (M.cfg.backendGPUs_subset i)
      (disjoint_of_subset_right (O.cfg.backendGPUs_subset j) hdisj)
  · rw [h.process_false hO hcm hcne hM hr hle hbm] at hbp
    cases hbp
  · rw [h.process_false hM hbm hbne hO hr hle hcm] at hcp
    cases hcp

end Node

end Viiwork.Supervisor

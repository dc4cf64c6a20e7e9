import Viiwork.Supervisor.Reload

/-!
# Viiwork.Supervisor.Exclusive

No process of a new model is started while one of a model that its `Apply`, or an earlier
one, removed still runs; and so no GPU is ever held by processes of two models. Beside the
invariant of the node this needs that a loop which has not started when its model is closed
never does (`NeverStarted`).
-/

namespace Viiwork.Supervisor

open Viiwork.Lib List Option

variable {γ : Type}

namespace Node

variable {s s' : Node γ} {m : Nat}

/-! ### A model removed before its loops started -/

/-- The backend's loop has not started, and the model is closed. -/
def NeverStarted (m i : Nat) (s : Node γ) : Prop :=
  ∃ M b, s.all[m]? = some M ∧ M.closed = true ∧ M.backends[i]? = some b ∧ b.phase = .idle ∧
    b.process = false

theorem NeverStarted.drainAll {i epoch : Nat} {ms : List Nat} {created : List (Model γ)}
    (h : NeverStarted m i s) (hall : s'.all = Node.drainAll epoch ms s.all ++ created) :
    NeverStarted m i s' := by
  obtain ⟨M, b, hM, hclosed, hb, hidle, hproc⟩ := h
  have hlt := (List.getElem?_eq_some_iff.1 hM).1
  refine ⟨if m ∈ ms then M.startDrain epoch else M, b, ?_, ?_, ?_, hidle, hproc⟩
  · rw [hall, getElem?_append_left (by simpa [Node.drainAll] using hlt), getElem?_drainAll, hM,
      map_some]
  · simp only [Model.startDrain]
    split_ifs <;> first | exact hclosed | rfl
  · simp only [Model.startDrain]
    split_ifs <;> exact hb

theorem NeverStarted.setModel {i o : Nat} {O O' : Model γ} (h : NeverStarted m i s)
    (hO : s.all[o]? = some O)
    (hsame : o = m → O'.closed = O.closed ∧ ∀ b, O.backends[i]? = some b → b.phase = .idle →
      b.process = false → O'.backends[i]? = some b) :
    NeverStarted m i (s.setModel o O') := by
  obtain ⟨M, b, hM, hclosed, hb, hidle, hproc⟩ := h
  by_cases hmo : m = o
  · subst hmo
    obtain rfl : O = M := some.inj (hO.symm.trans hM)
    obtain ⟨hclosed', hbackends⟩ := hsame rfl
    refine ⟨O', b, ?_, hclosed'.trans hclosed, hbackends b hb hidle hproc, hidle, hproc⟩
    rw [getElem?_setModel_of hO hM, if_pos rfl]
  · exact ⟨M, b, by rw [getElem?_setModel_of hO hM, if_neg hmo], hclosed, hb, hidle, hproc⟩

section Apply

variable [DecidableEq γ] {registered : String → Bool}

/-- **Once closed, a loop that has not started never does.** -/
theorem NeverStarted.step {i : Nat} (h : NeverStarted m i s) {a : Act γ}
    (hstep : s.step registered a = some s') : NeverStarted m i s' := by
  cases a with
  | apply cfgs =>
    simp only [Node.step] at hstep
    split at hstep
    · cases hstep
      exact h
    · next happly =>
        cases hstep
        exact h.drainAll (apply_eq_ok happly).1
  | shutdown =>
    cases hstep
    unfold shutdownAll
    split_ifs
    · exact h
    · have hdrained : NeverStarted m i { s with
          all := Node.drainAll s.rosters.length s.models s.all } :=
        h.drainAll (append_nil _).symm
      obtain ⟨M, b, hM, hrest⟩ := hdrained
      refine ⟨{ M with cancelled := true }, b, ?_, hrest⟩
      rw [getElem?_map, hM, map_some]
  | receive g | enqueue g =>
    simp only [Node.step, Node.receive, Node.enqueue] at hstep
    split at hstep
    · split_ifs at hstep <;> cases hstep <;> exact h
    · cases hstep
  | startLoop g =>
    simp only [Node.step, Node.startLoop] at hstep
    split at hstep
    · next p queue hg =>
        split at hstep
        · cases hstep
        · next O hO =>
            split_ifs at hstep with hclosed
            · cases hstep
              exact h
            · cases hstep
              have hset : NeverStarted m i (s.setStarter g ⟨[], [], queue⟩) := h
              refine hset.setModel hO fun heq => ?_
              obtain ⟨M, -, hM, hMc, -⟩ := h
              rw [heq, hM] at hO
              cases hO
              exact absurd hMc hclosed
    · cases hstep
  | loop o j a =>
    simp only [Node.step, Node.loop] at hstep
    split at hstep
    · cases hstep
    next O hO =>
    split at hstep
    · cases hstep
    next b hb =>
    split at hstep
    · cases hstep
    next b' gate hact =>
    cases hstep
    have hset : NeverStarted m i (s.setModel o { O with backends := O.backends.set j b' }) := by
      refine h.setModel hO fun _ => ⟨rfl, fun c hc hidle hproc => ?_⟩
      rw [getElem?_set]
      split_ifs with hji hlt
      · -- an idle backend without a process can do nothing
        subst hji
        obtain rfl : b = c := some.inj (hb.symm.trans hc)
        rcases Backend.act_spec hact with ⟨hnq, -⟩ | ⟨hp, -⟩
        · exact absurd (.inl hidle) hnq
        · rw [hproc] at hp
          cases hp
      · subst hji
        exact absurd (List.getElem?_eq_some_iff.1 hc).1 hlt
      · exact hc
    exact hset
  | drain o a =>
    simp only [Node.step, Node.drain] at hstep
    split at hstep
    · cases hstep
    next O hO =>
    split at hstep
    · cases hstep
    next O' hact =>
    cases hstep
    refine h.setModel hO fun _ => ?_
    cases a with
    | loops | forget | signal =>
      simp only [Model.drainAct] at hact
      split_ifs at hact
      cases hact
      exact ⟨rfl, fun b hb _ _ => hb⟩
    | stop j =>
      simp only [Model.drainAct] at hact
      split at hact
      · split_ifs at hact
        cases hact
        refine ⟨rfl, fun b hb hidle hproc => ?_⟩
        rw [getElem?_modify, hb]
        simp only [Option.map_eq_map, map_some, some.injEq]
        split_ifs
        · rw [← hproc]
        · rfl
      · cases hact

theorem NeverStarted.run {i : Nat} (h : NeverStarted m i s) {acts : List (Act γ)}
    (hrun : Lib.run (Node.step registered) s acts = some s') : NeverStarted m i s' :=
  run_invariant (Node.step registered) (P := fun _ _ => True)
    (fun _ _ _ hs _ hstep => hs.step hstep) h (runMeets_true _ acts s) hrun

/-- A backend whose loop has not started cannot launch. -/
theorem NeverStarted.no_launch {i : Nat} (h : NeverStarted m i s) :
    s.step registered (.loop m i .launch) = none := by
  obtain ⟨M, b, hM, -, hb, hidle, -⟩ := h
  simp [Node.step, Node.loop, hM, hb, Backend.act, hidle]

/-- **No two models on one GPU, across reloads.** Over every interleaving of reloads with
lists in which each GPU belongs to at most one model, a shutdown, and the goroutines:
when a process of a model is launched, no process runs of a model that was removed or
changed by the `Apply` that started it, or by an earlier one; so running processes of two
models never hold one GPU; and a backend of a model that was removed before its loop started
never launches a process. -/
theorem gpus_exclusive {acts : List (Act γ)}
    (hexcl : ∀ cfgs, .apply cfgs ∈ acts → Exclusive cfgs)
    (hrun : Lib.run (Node.step registered) new acts = some s) :
    (∀ (m i o r : Nat) (s' : Node γ) (M O : Model γ),
      s.step registered (.loop m i .launch) = some s' → s.all[m]? = some M →
      s.all[o]? = some O → O.removed = some r → r ≤ M.started →
      ∀ b ∈ O.backends, b.process = false) ∧
    (∀ (m o i j : Nat) (M O : Model γ) (b c : Backend), m ≠ o → s.all[m]? = some M →
      s.all[o]? = some O → M.backends[i]? = some b → O.backends[j]? = some c →
      b.process = true → c.process = true →
      (M.cfg.backendGPUs i).Disjoint (O.cfg.backendGPUs j)) ∧
    (∀ (m i : Nat) (M : Model γ) (b : Backend), s.all[m]? = some M → M.removed ≠ none →
      M.backends[i]? = some b → b.phase = .idle →
      ∀ acts' s', Lib.run (Node.step registered) s acts' = some s' →
      s'.step registered (.loop m i .launch) = none ∧
      ∃ M' b', s'.all[m]? = some M' ∧ M'.backends[i]? = some b' ∧ b'.process = false) := by
  have h := sound_new.run hexcl hrun
  refine ⟨fun m i o r s' M O hlaunch hM hO hr hle c hc => ?_,
    fun m o i j M O b c hne hM hO hb hc hbp hcp => h.apart_running hne hM hO hb hc hbp hcp,
    fun m i M b hM hremoved hb hidle acts' s' hrun' => ?_⟩
  · -- a backend that launches has a loop in progress
    simp only [Node.step, Node.loop, hM] at hlaunch
    split at hlaunch
    · cases hlaunch
    next b hb =>
    refine h.process_false hM (mem_of_getElem? hb) (fun hidle => ?_) hO hr hle hc
    simp [Backend.act, hidle] at hlaunch
  · have hMs := (h.model hM).1
    have hclosed := hMs.closed fun ha => hremoved (hMs.removed.2 ha)
    have hnever : NeverStarted m i s :=
      ⟨M, b, hM, hclosed, hb, hidle, hMs.idle b (mem_of_getElem? hb) hidle⟩
    refine ⟨(hnever.run hrun').no_launch, ?_⟩
    obtain ⟨M', b', hM', -, hb', -, hproc⟩ := hnever.run hrun'
    exact ⟨M', b', hM', hb', hproc⟩

end Apply

/-! ### Two runs -/

/-- A model on one GPU. -/
def onGPU (name : String) (gpu : Nat) : ModelConfig Unit := ⟨name, "llama", [gpu], 1, false, ()⟩

/-- The one loop of goroutine `g` is enqueued and started, and launches. -/
def bringUp (g m : Nat) : List (Act Unit) :=
  [.enqueue g, .startLoop g, .loop m 0 .granted, .loop m 0 .launch, .loop m 0 .ready]

/-- The drain of a model with one backend, from the return of its loop. -/
def drainOut (m : Nat) : List (Act Unit) :=
  [.drain m .loops, .drain m (.stop 0), .drain m .forget, .drain m .signal]

/-- `a` gives way to `b` on its GPU, and `b` to `c` before its loop has started. -/
def handOver : List (Act Unit) :=
  [.apply [onGPU "a" 0]] ++ bringUp 0 0 ++ [.apply [onGPU "b" 0], .apply [onGPU "c" 0]] ++
    [.loop 0 0 .ended] ++ drainOut 0 ++ drainOut 1 ++
    [.receive 1, .enqueue 1, .startLoop 1, .receive 2, .receive 2, .enqueue 2, .startLoop 2,
      .loop 2 0 .granted]

theorem exclusive_handOver : ∀ cfgs, .apply cfgs ∈ handOver → Exclusive cfgs := by
  intro cfgs h
  simp only [handOver, bringUp, drainOut, cons_append, nil_append,
    mem_cons, Act.apply.injEq, reduceCtorEq, not_mem_nil, or_false, false_or] at h
  rcases h with rfl | rfl | rfl <;> simp [Exclusive]

/-- When `c` is about to launch, the process of `a` is gone, and `b` never starts one. -/
theorem gpus_exclusive_handOver :
    ∃ s, Lib.run (Node.step fun _ => true) new handOver = some s ∧
      (∃ s', s.step (fun _ => true) (.loop 2 0 .launch) = some s') ∧
      (∀ O, s.all[0]? = some O → ∀ b ∈ O.backends, b.process = false) ∧
      s.step (fun _ => true) (.loop 1 0 .launch) = none := by
  have hfacts : (Lib.run (Node.step fun _ => true) new handOver).map (fun s =>
      ((s.step (fun _ => true) (.loop 2 0 .launch)).isSome, s.all.map fun M =>
        (M.started, M.removed, M.backends.map Backend.phase))) =
      some (true, [(0, some 1, [.returned]), (1, some 2, [.idle]), (2, none, [.launching])]) := by
    decide +kernel
  obtain ⟨s, hs, hfacts⟩ := Option.map_eq_some_iff.1 hfacts
  obtain ⟨hlaunch, hall⟩ := Prod.mk.inj hfacts
  obtain ⟨s', hs'⟩ := Option.isSome_iff_exists.1 hlaunch
  obtain ⟨A, B, C, hABC⟩ : ∃ A B C, s.all = [A, B, C] := by
    have hlen := congrArg List.length hall
    rw [length_map] at hlen
    exact length_eq_three.1 hlen
  rw [hABC] at hall
  simp only [map_cons, map_nil, List.cons.injEq, Prod.mk.injEq, and_true] at hall
  obtain ⟨⟨-, hA, -⟩, ⟨-, hB, hBphase⟩, hC, -⟩ := hall
  obtain ⟨b, hb, hidle⟩ : ∃ b, B.backends = [b] ∧ b.phase = .idle := by
    obtain ⟨b, l, hbs, hphase, hl⟩ := map_eq_cons_iff.1 hBphase
    exact ⟨b, by rw [hbs, map_eq_nil_iff.1 hl], hphase⟩
  have hmain := gpus_exclusive exclusive_handOver hs
  refine ⟨s, hs, ⟨s', hs'⟩, fun O hO => ?_, ?_⟩
  · rw [hABC] at hO
    cases hO
    exact hmain.1 2 0 0 1 s' C A hs' (by rw [hABC]; rfl) (by rw [hABC]; rfl) hA (by omega)
  · exact (hmain.2.2 1 0 B b (by rw [hABC]; rfl) (by simp [hB]) (by rw [hb]; rfl) hidle [] s rfl).1

/-- A model that is removed after another was started, on a GPU of its own, does not hold
it up: `c`, started when `b` stayed, launches while `b`, removed since, still runs. -/
theorem launch_while_draining :
    (Lib.run (Node.step fun _ => true) new
      ([.apply [onGPU "a" 0, onGPU "b" 1], .enqueue 0, .enqueue 0, .startLoop 0, .startLoop 0,
          .loop 0 0 .granted, .loop 0 0 .launch, .loop 0 0 .ready, .loop 1 0 .granted,
          .loop 1 0 .launch, .loop 1 0 .ready, .apply [onGPU "b" 1, onGPU "c" 0],
          .loop 0 0 .ended] ++ drainOut 0 ++
        [.receive 1, .apply [onGPU "c" 0], .enqueue 1, .startLoop 1, .loop 2 0 .granted,
          .loop 2 0 .launch])).map
      (fun s => s.all.map fun M => (M.cfg.name, M.removed, M.backends.map Backend.process)) =
    some [("a", some 1, [false]), ("b", some 2, [true]), ("c", none, [true])] := by
  decide +kernel

/-! ### Nothing is left running -/

/-- **Nothing is left running.** When the model list is empty, as after a `Shutdown` or an `Apply`
of no models, and no drain is in progress, every model there ever was is closed, its loops are over
and it has no process. -/
theorem none_left_running [DecidableEq γ] {registered : String → Bool} {acts : List (Act γ)}
    (hexcl : ∀ cfgs, .apply cfgs ∈ acts → Exclusive cfgs)
    (hrun : Lib.run (Node.step registered) new acts = some s) (hempty : s.models = [])
    (hover : draining s.all = []) :
    ∀ M ∈ s.all, M.closed = true ∧ M.Settled ∧ ∀ b ∈ M.backends, b.process = false := by
  intro M hM
  have h := sound_new.run hexcl hrun
  obtain ⟨m, hm⟩ := mem_iff_getElem?.1 hM
  have hMs := (h.model hm).1
  have hgone : M.Gone := by
    cases hd : M.drain with
    | absent => simpa [hempty] using (h.current m).2 ⟨M, hm, hMs.removed.2 hd⟩
    | waiting | stopping => simpa [hover] using mem_draining hm (by rw [hd]; rfl)
    | finished => exact .inl hd
    | signalled => exact .inr hd
  refine ⟨hMs.closed ?_, hMs.settled ?_ ?_, hMs.gone hgone⟩ <;>
    rcases hgone with hd | hd <;> simp [hd]

/-- A node with one model is shut down. -/
def downAgain : List (Act Unit) :=
  [.apply [onGPU "a" 0]] ++ bringUp 0 0 ++ [.shutdown, .loop 0 0 .ended] ++ drainOut 0

theorem none_left_running_downAgain :
    ∃ s, Lib.run (Node.step fun _ => true) new downAgain = some s ∧ s.all.length = 1 ∧
      ∀ M ∈ s.all, ∀ b ∈ M.backends, b.process = false := by
  have hfacts : (Lib.run (Node.step fun _ => true) new downAgain).map
      (fun s => (s.all.length, s.models, draining s.all)) = some (1, [], []) := by
    decide +kernel
  obtain ⟨s, hs, hfacts⟩ := map_eq_some_iff.1 hfacts
  obtain ⟨hlen, hempty, hover⟩ : _ ∧ _ ∧ _ := by simpa using hfacts
  have hexcl : ∀ cfgs, .apply cfgs ∈ downAgain → Exclusive cfgs := by
    intro cfgs h
    simp [downAgain, bringUp, drainOut] at h
    simp [h, Exclusive]
  exact ⟨s, hs, hlen, fun M hM => (none_left_running hexcl hs hempty hover M hM).2.2⟩

end Node

end Viiwork.Supervisor

import Viiwork.Lib.Run
import Viiwork.Updatecli.Waves

/-!
# Viiwork.Updatecli.Rollout

A rollout (`rollout`, `runWave` and `activate` of `cli.go`) as a machine: it stages everywhere,
then takes the waves one after the other, and in each asks the hosts to activate one by one and
follows them all through their restarts. What the nodes answer and when the concurrent stages and
waits end is arbitrary: a run is any list of such answers.

`asked` has every host that an activate request was sent to. That is more than the hosts that were
activated, since a request whose answer is lost may have been met.
-/

namespace Viiwork.Updatecli

open Viiwork.Lib List

/-! ### The answers -/

/-- The answer to an activate request. -/
inductive Reply
  | done
  | refused (code : Nat) (msg : String)
  | failed (text : String)
  deriving Repr, DecidableEq

/-- One request: the answer, whether the time for a model that loads is over by then, and the
cancellation of the command during the pause that follows. -/
structure Attempt where
  reply : Reply
  late : Bool := false
  cancelled : Option String := none
  deriving Repr, DecidableEq

def contains (text part : String) : Bool :=
  text.toList.tails.any fun tail => part.toList.isPrefixOf tail

/-- What `activate` returns after an answer; `none` when it asks again. -/
def activate (a : Attempt) : Option (Except String Unit) :=
  match a.reply with
  | .done => some (.ok ())
  | .failed text => some (.error text)
  | .refused code msg =>
    if code ≠ 409 then some (.error msg)
    else if contains msg "is already running" then some (.ok ())
    else if !contains msg "is still loading" || a.late then some (.error msg)
    else a.cancelled.map .error

/-- The two waits for a host: until it has confirmed, and until it is back in the mesh. -/
structure Wait where
  confirmed : Except String Unit
  inMesh : Except String Unit

def Wait.outcome (w : Wait) : Except String Unit :=
  match w.confirmed, w.inMesh with
  | .error text, _ => .error text
  | .ok _, .error text => .error ("confirmed, but " ++ text)
  | .ok _, .ok _ => .ok ()

/-! ### The machine -/

structure Plan where
  targets : List String
  entry : String
  parallel : Int
  serves : Serves

def Plan.waves (p : Plan) : List (List String) :=
  buildWaves p.targets p.entry p.parallel p.serves

inductive Phase
  | staging
  /-- The hosts of the wave that are activated, the one that is asked and the others. -/
  | activating (done : List String) (h : String) (rest : List String) (later : List (List String))
  /-- The wave, its hosts that are still followed and whether one has failed. -/
  | following (wave pending : List String) (failed : Bool) (later : List (List String))
  | over (code : Nat)
  deriving Repr, DecidableEq

structure Rollout where
  phase : Phase
  /-- The hosts whose stage has ended, and whether it worked. -/
  staged : List (String × Bool) := []
  asked : List String := []
  /-- Confirmed and back in the mesh. -/
  confirmed : List String := []
  failed : List String := []
  deriving Repr, DecidableEq

inductive Action
  | staged (h : String) (ok : Bool)
  | replied (a : Attempt)
  | waited (h : String) (w : Wait)

/-- The next wave begins with its first host. -/
def begin : List (List String) → Rollout → Rollout
  | [], s => { s with phase := .over 0 }
  | [] :: later, s => begin later s
  | (h :: rest) :: later, s =>
    { s with phase := .activating [] h rest later, asked := h :: s.asked }

/-- A wave whose hosts have all come to an end leads to the next, or to the end of the rollout. -/
def settle (s : Rollout) (wave pending : List String) (failed : Bool)
    (later : List (List String)) : Rollout :=
  if pending ≠ [] then { s with phase := .following wave pending failed later }
  else if failed then { s with phase := .over 1 }
  else begin later s

/-- Nothing is activated unless every stage worked. -/
def stageEnded (p : Plan) (s : Rollout) (h : String) (ok : Bool) : Option Rollout :=
  if h ∈ p.targets ∧ h ∉ s.staged.map Prod.fst then
    let s := { s with staged := (h, ok) :: s.staged }
    if s.staged.length < p.targets.length then some s
    else if s.staged.all Prod.snd then some (begin p.waves s)
    else some { s with phase := .over 1 }
  else none

/-- An activate that fails leaves the rest of the wave alone; the hosts before are followed. -/
def replied (s : Rollout) (done : List String) (h : String) (rest : List String)
    (later : List (List String)) (a : Attempt) : Rollout :=
  match activate a, rest with
  | none, _ => s
  | some (.error _), _ =>
    settle { s with failed := h :: s.failed } (done ++ h :: rest) done true later
  | some (.ok _), h' :: rest =>
    { s with phase := .activating (done ++ [h]) h' rest later, asked := h' :: s.asked }
  | some (.ok _), [] => settle s (done ++ [h]) (done ++ [h]) false later

def waitEnded (s : Rollout) (wave pending : List String) (failed : Bool)
    (later : List (List String)) (h : String) (w : Wait) : Option Rollout :=
  if h ∈ pending then
    match w.outcome with
    | .ok _ =>
      some (settle { s with confirmed := h :: s.confirmed } wave (pending.erase h) failed later)
    | .error _ =>
      some (settle { s with failed := h :: s.failed } wave (pending.erase h) true later)
  else none

def Plan.step (p : Plan) (s : Rollout) (a : Action) : Option Rollout :=
  match s.phase, a with
  | .staging, .staged h ok => stageEnded p s h ok
  | .activating done h rest later, .replied a => some (replied s done h rest later a)
  | .following wave pending failed later, .waited h w => waitEnded s wave pending failed later h w
  | _, _ => none

/-- The rollout after it was confirmed; without targets there is nothing to do. -/
def Plan.start (p : Plan) : Rollout :=
  { phase := if p.targets = [] then .over 0 else .staging }

/-! ### Where a rollout is -/

/-- The waves `before` are through, and no other was begun. -/
structure Between (p : Plan) (s : Rollout) (before later : List (List String)) : Prop where
  waves : p.waves = before ++ later
  staged : s.asked ≠ [] → ∀ h ∈ p.targets, (h, true) ∈ s.staged
  asked : s.asked ⊆ before.flatten
  confirmed : before.flatten ⊆ s.confirmed
  failed : s.failed = []

/-- The waves `before` are through, and `wave` was begun. -/
structure Within (p : Plan) (s : Rollout) (before : List (List String)) (wave : List String)
    (later : List (List String)) : Prop where
  waves : p.waves = before ++ wave :: later
  staged : ∀ h ∈ p.targets, (h, true) ∈ s.staged
  asked : s.asked ⊆ before.flatten ++ wave
  confirmed : before.flatten ⊆ s.confirmed
  failed : s.failed ⊆ wave

/-- The invariant. -/
def Inv (p : Plan) (s : Rollout) : Prop :=
  match s.phase with
  | .staging =>
    Between p s [] p.waves ∧ (s.staged.map Prod.fst).Nodup ∧ s.staged.map Prod.fst ⊆ p.targets
  | .activating done h rest later =>
    ∃ before, Within p s before (done ++ h :: rest) later ∧ s.failed = []
  | .following wave pending failed later =>
    pending ⊆ wave ∧ ∃ before, Within p s before wave later ∧
      (failed = false → s.failed = [] ∧ wave ⊆ s.confirmed ++ pending)
  | .over _ =>
    (∃ before later, Between p s before later) ∨ ∃ before wave later, Within p s before wave later

section Steps

variable {p : Plan} {s : Rollout} {before later : List (List String)} {wave : List String}

/-- A wave that is through. -/
theorem Within.through (hin : Within p s before wave later) (hfailed : s.failed = [])
    (hwave : wave ⊆ s.confirmed) : Between p s (before ++ [wave]) later where
  waves := by rw [hin.waves, append_assoc, singleton_append]
  staged := fun _ => hin.staged
  asked := by
    rw [flatten_append, flatten_singleton]
    exact hin.asked
  confirmed := by
    rw [flatten_append, flatten_singleton]
    exact append_subset.2 ⟨hin.confirmed, hwave⟩
  failed := hfailed

theorem inv_begin (hstaged : ∀ h ∈ p.targets, (h, true) ∈ s.staged)
    (hbetween : Between p s before later) : Inv p (begin later s) := by
  induction later generalizing before with
  | nil => exact .inl ⟨before, [], { hbetween with }⟩
  | cons wave later ih =>
    have hin : Within p s before wave later :=
      ⟨hbetween.waves, hstaged, List.Subset.trans hbetween.asked (subset_append_left _ _),
        hbetween.confirmed, hbetween.failed ▸ nil_subset _⟩
    cases wave with
    | nil => exact ih (hin.through hbetween.failed (nil_subset _))
    | cons h rest =>
      refine ⟨before, { hin with asked := ?_ }, hbetween.failed⟩
      refine cons_subset.2 ⟨?_, hin.asked⟩
      exact mem_append_right _ mem_cons_self

variable {pending : List String} {failed : Bool}

theorem inv_settle (hin : Within p s before wave later) (hsub : pending ⊆ wave)
    (hfailed : failed = false → s.failed = [] ∧ wave ⊆ s.confirmed ++ pending) :
    Inv p (settle s wave pending failed later) := by
  unfold settle
  split_ifs with hpending hflag
  · exact ⟨hsub, before, { hin with }, hfailed⟩
  · exact .inr ⟨before, wave, later, { hin with }⟩
  · obtain ⟨hnone, hwave⟩ := hfailed (Bool.eq_false_iff.2 hflag)
    rw [not_not.1 hpending, append_nil] at hwave
    exact inv_begin hin.staged (hin.through hnone hwave)

variable {h : String} {s' : Rollout}

theorem inv_stageEnded {ok : Bool} (hphase : s.phase = .staging) (hinv : Inv p s)
    (hstep : stageEnded p s h ok = some s') : Inv p s' := by
  rw [Inv, hphase] at hinv
  obtain ⟨hbetween, hnodup, hsub⟩ := hinv
  have hasked : s.asked = [] := subset_nil.1 hbetween.asked
  unfold stageEnded at hstep
  split_ifs at hstep with hnew
  dsimp only at hstep
  have hnodup' : (((h, ok) :: s.staged).map Prod.fst).Nodup :=
    nodup_cons.2 ⟨hnew.2, hnodup⟩
  have hsub' : ((h, ok) :: s.staged).map Prod.fst ⊆ p.targets :=
    cons_subset.2 ⟨hnew.1, hsub⟩
  have hbetween' : ∀ phase, Between p { s with phase, staged := (h, ok) :: s.staged } [] p.waves :=
    fun _ => { hbetween with staged := fun hne => absurd hasked hne }
  split_ifs at hstep with hmore hall
  · cases hstep
    rw [Inv]
    dsimp only
    rw [hphase]
    exact ⟨hphase ▸ hbetween' s.phase, hnodup', hsub'⟩
  · cases hstep
    refine inv_begin (fun t ht => ?_) (hbetween' s.phase)
    -- as many stages as targets, so each target has one
    have hperm := (hnodup'.subperm hsub').perm_of_length_le (by simpa using hmore)
    obtain ⟨⟨t', ok'⟩, hmem, rfl⟩ := mem_map.1 (hperm.mem_iff.2 ht)
    have hok := all_eq_true.1 hall _ hmem
    dsimp only at hok
    rwa [← hok]
  · cases hstep
    exact .inl ⟨[], p.waves, hbetween' _⟩

theorem inv_replied {done rest : List String} {a : Attempt}
    (hphase : s.phase = .activating done h rest later) (hinv : Inv p s) :
    Inv p (replied s done h rest later a) := by
  have hinv' := hinv
  rw [Inv, hphase] at hinv
  obtain ⟨before, hin, hfailed⟩ := hinv
  unfold replied
  split
  · exact hinv'
  · refine inv_settle (s := { s with failed := h :: s.failed }) { hin with failed := ?_ }
      (subset_append_left _ _) nofun
    rw [hfailed]
    exact cons_subset.2 ⟨mem_append_right _ mem_cons_self, nil_subset _⟩
  · rename_i h' rest' _
    have hwave : done ++ h :: h' :: rest' = done ++ [h] ++ h' :: rest' := by
      rw [append_assoc, singleton_append]
    rw [hwave] at hin
    refine ⟨before, { hin with asked := ?_ }, hfailed⟩
    refine cons_subset.2 ⟨?_, hin.asked⟩
    exact mem_append_right _ (mem_append_right _ mem_cons_self)
  · exact inv_settle hin (List.Subset.refl _) fun _ => ⟨hfailed, subset_append_right _ _⟩

theorem inv_waitEnded {w : Wait} (hphase : s.phase = .following wave pending failed later)
    (hinv : Inv p s) (hstep : waitEnded s wave pending failed later h w = some s') : Inv p s' := by
  rw [Inv, hphase] at hinv
  obtain ⟨hsub, before, hin, hfailed⟩ := hinv
  unfold waitEnded at hstep
  split_ifs at hstep with hmem
  have hsub' : pending.erase h ⊆ wave := List.Subset.trans erase_subset hsub
  split at hstep
  · cases hstep
    refine inv_settle (s := { s with confirmed := h :: s.confirmed })
      { hin with confirmed := subset_cons_of_subset _ hin.confirmed } hsub' fun hnone => ?_
    obtain ⟨hfailed, hwave⟩ := hfailed hnone
    refine ⟨hfailed, fun x hx => ?_⟩
    rcases mem_append.1 (hwave hx) with hx | hx
    · exact mem_append_left _ (mem_cons_of_mem _ hx)
    · by_cases heq : x = h
      · exact mem_append_left _ (heq ▸ mem_cons_self)
      · exact mem_append_right _ ((mem_erase_of_ne heq).2 hx)
  · cases hstep
    exact inv_settle (s := { s with failed := h :: s.failed })
      { hin with failed := cons_subset.2 ⟨hsub hmem, hin.failed⟩ } hsub' nofun

/-- **Step lemma.** -/
theorem Inv.step {a : Action} (hinv : Inv p s) (hstep : p.step s a = some s') : Inv p s' := by
  unfold Plan.step at hstep
  split at hstep
  · exact inv_stageEnded ‹_› hinv hstep
  · cases hstep
    exact inv_replied ‹_› hinv
  · exact inv_waitEnded ‹_› hinv hstep
  · cases hstep

end Steps

theorem inv_start (p : Plan) : Inv p p.start := by
  have hbetween : Between p p.start [] p.waves :=
    ⟨rfl, fun hne => absurd rfl hne, List.Subset.refl _, List.Subset.refl _, rfl⟩
  unfold Plan.start at hbetween ⊢
  split_ifs at hbetween ⊢
  · exact .inl ⟨[], p.waves, hbetween⟩
  · exact ⟨hbetween, nodup_nil, nil_subset _⟩

variable {p : Plan} {s : Rollout} {wave : List String}

/-- **Run lemma.** -/
theorem inv_of_run {acts : List Action} (hrun : run p.step p.start acts = some s) : Inv p s :=
  run_invariant p.step (fun _ _ _ hinv _ hstep => hinv.step hstep) (inv_start p)
    (runMeets_true p.step acts _) hrun

/-! ### What a rollout does to the fleet -/

variable {before later : List (List String)}

/-- A wave is where its hosts are. -/
theorem eq_of_mem_both {before' later' : List (List String)} {wave' : List String}
    (heq : before ++ wave :: later = before' ++ wave' :: later')
    (hnodup : (before ++ wave :: later).flatten.Nodup) {h : String} (hmem : h ∈ wave)
    (hmem' : h ∈ wave') : later' = later := by
  have hfar : ∀ {ls : List (List String)} {w w' : List String}, (w :: ls).flatten.Nodup → h ∈ w →
      h ∈ w' → w' ∉ ls := by
    intro ls w w' hnodup hw hw' hmem
    rw [flatten_cons] at hnodup
    exact disjoint_of_nodup_append hnodup hw (mem_flatten.2 ⟨w', hmem, hw'⟩)
  rcases append_eq_append_iff.1 heq with ⟨as, rfl, heq'⟩ | ⟨bs, rfl, heq'⟩
  · cases as with
    | nil => exact (List.cons.inj heq').2.symm
    | cons a as =>
      obtain ⟨rfl, rfl⟩ := List.cons.inj heq'
      rw [flatten_append] at hnodup
      exact absurd (mem_append_right _ mem_cons_self)
        (hfar hnodup.of_append_right hmem hmem')
  · cases bs with
    | nil => exact (List.cons.inj heq').2
    | cons b bs =>
      obtain ⟨rfl, rfl⟩ := List.cons.inj heq'
      rw [append_assoc, flatten_append, cons_append] at hnodup
      exact absurd (mem_append_right _ mem_cons_self)
        (hfar hnodup.of_append_right hmem' hmem)

/-- The rollout is in one wave. -/
structure Confined (p : Plan) (s : Rollout) : Prop where
  /-- No host is asked unless every target staged. -/
  staged : s.asked ≠ [] → ∀ h ∈ p.targets, (h, true) ∈ s.staged
  /-- The hosts that were asked and are not back are in one wave. -/
  single : ∃ i : Nat, ∀ h ∈ s.asked, h ∉ s.confirmed →
    ∃ wave : List String, p.waves[i]? = some wave ∧ h ∈ wave
  /-- Behind a wave with a failure no host is asked. -/
  stops : ∀ before wave later, p.waves = before ++ wave :: later → (∃ h ∈ s.failed, h ∈ wave) →
    ∀ h ∈ later.flatten, h ∉ s.asked

theorem Between.confined (h : Between p s before later) :
    Confined p s where
  staged := h.staged
  single := ⟨0, fun _ hasked hnot => absurd (h.confirmed (h.asked hasked)) hnot⟩
  stops := by
    rintro _ _ _ _ ⟨h', hmem, -⟩
    rw [h.failed] at hmem
    cases hmem

theorem Within.confined (h : Within p s before wave later) (hnodup : p.waves.flatten.Nodup) :
    Confined p s where
  staged := fun _ => h.staged
  single := by
    refine ⟨before.length, fun x hx hnot => ⟨wave, by rw [h.waves]; simp, ?_⟩⟩
    exact (mem_append.1 (h.asked hx)).resolve_left fun hx => hnot (h.confirmed hx)
  stops := by
    rintro before' wave' later' heq ⟨x, hx, hx'⟩ y hy hasked
    rw [h.waves] at hnodup
    have hlater := eq_of_mem_both (h.waves.symm.trans heq) hnodup (h.failed hx) hx'
    rw [flatten_append, flatten_cons, ← append_assoc] at hnodup
    exact disjoint_of_nodup_append hnodup (h.asked hasked) (hlater ▸ hy)

theorem Inv.confined (h : Inv p s) (hnodup : p.waves.flatten.Nodup) : Confined p s := by
  unfold Inv at h
  split at h
  · exact h.1.confined
  · obtain ⟨before, hin, -⟩ := h
    exact hin.confined hnodup
  · obtain ⟨-, before, hin, -⟩ := h
    exact hin.confined hnodup
  · rcases h with ⟨before, later, hbetween⟩ | ⟨before, wave, later, hin⟩
    · exact hbetween.confined
    · exact hin.confined hnodup

/-- **A rollout keeps the models up.** For every plan whose targets are distinct and whose machines
list a model once: the waves are the targets in order with the entry alone in the last, each of at
most `max parallel 1` hosts, and none has every host of a model that two machines serve. Whatever
the nodes answer: no host is asked to activate unless every target staged, the hosts that were
asked and are not back yet are in one wave, and behind a wave with a failure nobody is asked. -/
theorem rollout_safe (p : Plan) (hdistinct : p.targets.Nodup) (honce : p.serves.Once) :
    p.waves.flatten =
        p.targets.filter (· ≠ p.entry) ++ (if p.entry ∈ p.targets then [p.entry] else []) ∧
      (p.entry ∈ p.targets → p.waves.getLast? = some [p.entry]) ∧
      (∀ wave ∈ p.waves, wave ≠ [] ∧ (wave.length : Int) ≤ max p.parallel 1) ∧
      (∀ wave ∈ p.waves, ∀ m, 2 ≤ p.serves.load p.serves.hosts m →
        ∃ h ∈ p.serves.hosts, m ∈ p.serves.models h ∧ h ∉ wave) ∧
      ∀ acts s, run p.step p.start acts = some s → Confined p s := by
  have hwaves : ∀ wave ∈ p.waves, IsWave p.serves (max p.parallel 1) wave := fun wave hwave =>
    isWave_of_mem p.targets p.entry p.parallel honce hwave
  have hflatten := flatten_buildWaves p.targets p.entry p.parallel honce
  refine ⟨hflatten, getLast?_buildWaves p.targets p.entry p.parallel honce, ?_, ?_, ?_⟩
  · exact fun wave hwave => ⟨(hwaves wave hwave).nonempty, (hwaves wave hwave).size⟩
  · intro wave hwave m hm
    refine Serves.exists_notMem honce ((hwaves wave hwave).spare m ?_)
    rw [Serves.hostsOf, Serves.count_flatMap honce]
    exact hm
  · intro acts s hrun
    refine (inv_of_run hrun).confined ?_
    rw [Plan.waves, hflatten]
    split_ifs
    · refine (hdistinct.filter _).append (nodup_singleton _) fun x hx hentry => ?_
      rw [mem_singleton.1 hentry] at hx
      simp at hx
    · rw [append_nil]
      exact hdistinct.filter _

/-- Three machines, two of which serve the same model. -/
def trio : Plan where
  targets := ["a", "b", "c"]
  entry := "a"
  parallel := 2
  serves := {
    hosts := ["a", "b", "c"]
    models := fun h => if h = "b" ∨ h = "c" then ["qwen"] else []
    nodup := by decide
    absent := by
      intro h hmem
      simp at hmem
      simp [hmem] }

theorem rollout_safe_trio : trio.waves = [["b"], ["c"], ["a"]] ∧
    ∀ acts s, run trio.step trio.start acts = some s → Confined trio s := by
  refine ⟨by decide, (rollout_safe trio (by decide) fun h => ?_).2.2.2.2⟩
  show (if h = "b" ∨ h = "c" then ["qwen"] else []).Nodup
  split_ifs
  · decide
  · decide

end Viiwork.Updatecli

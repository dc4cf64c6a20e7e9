import Mathlib

/-!
# Viiwork.Updatecli.Waves

The waves of a rollout (`buildWaves` of `cli.go`): the targets in order, cut into groups whose
hosts restart together.

A host starts a new wave when the open one is full or when it would be the last host of one of its
models in it. The counts that decide this are kept beside the open wave; `Cutting.Fits` says what
they are, and that no model with two hosts or more has all of them in the wave.
-/

namespace Viiwork.Updatecli

open List

/-! ### Which host serves what -/

/-- The models of each alive machine; of any other there are none. -/
structure Serves where
  hosts : List String
  models : String → List String
  nodup : hosts.Nodup
  absent : ∀ h ∉ hosts, models h = []

namespace Serves

/-- How often the machines list a model. -/
def hostsOf (s : Serves) (m : String) : Nat := (s.hosts.flatMap s.models).count m

/-- Every machine lists a model once. -/
def Once (s : Serves) : Prop := ∀ h, (s.models h).Nodup

/-- How many of the hosts serve a model. -/
def load (s : Serves) (hs : List String) (m : String) : Nat :=
  hs.countP fun h => (s.models h).contains m

variable {s : Serves} {h m : String}

@[simp] theorem load_nil : s.load [] m = 0 := rfl

variable {hs : List String}

theorem load_append : s.load (hs ++ [h]) m = s.load hs m + if m ∈ s.models h then 1 else 0 := by
  rw [load, load, countP_append, countP_singleton]
  simp

theorem count_flatMap (honce : s.Once) (hs : List String) :
    (hs.flatMap s.models).count m = s.load hs m := by
  induction hs with
  | nil => rfl
  | cons h hs ih =>
    rw [flatMap_cons, count_append, ih, (honce h).count, load, load, countP_cons]
    simp [Nat.add_comm]

/-- A group of hosts that is fewer than all who serve a model leaves one out. -/
theorem exists_notMem (honce : s.Once) (hlt : s.load hs m < s.hostsOf m) :
    ∃ h ∈ s.hosts, m ∈ s.models h ∧ h ∉ hs := by
  by_contra hall
  push Not at hall
  have hsub : s.hosts.filter (fun h => (s.models h).contains m) ⊆
      hs.filter fun h => (s.models h).contains m := by
    intro h hmem
    obtain ⟨hhost, hm⟩ := mem_filter.1 hmem
    exact mem_filter.2 ⟨hall h hhost (contains_iff_mem.1 hm), hm⟩
  have hle := ((s.nodup.filter _).subperm hsub).length_le
  rw [hostsOf, count_flatMap honce, load, load, countP_eq_length_filter,
    countP_eq_length_filter] at hlt
  omega

end Serves

/-! ### Cutting -/

/-- The waves so far, the open one and how many of its hosts serve each model. -/
structure Cutting where
  waves : List (List String) := []
  cur : List String := []
  down : String → Nat := fun _ => 0

/-- The host would take the last one of a model. -/
def takesLast (s : Serves) (down : String → Nat) (h : String) : Bool :=
  (s.models h).any fun m => 1 < s.hostsOf m && down m + 1 == s.hostsOf m

namespace Cutting

/-- The open wave is closed. -/
def close (c : Cutting) : Cutting := { waves := c.waves ++ [c.cur] }

/-- The host joins the open wave. -/
def join (s : Serves) (c : Cutting) (h : String) : Cutting :=
  { c with
    cur := c.cur ++ [h]
    down := (s.models h).foldl (fun down m => Function.update down m (down m + 1)) c.down }

def step (s : Serves) (parallel : Int) (c : Cutting) (h : String) : Cutting :=
  if c.cur ≠ [] ∧ (c.cur.length = parallel ∨ takesLast s c.down h = true) then c.close.join s h
  else c.join s h

end Cutting

/-- The targets in order, in waves of at most `parallel` hosts, the entry alone in the last. -/
def buildWaves (targets : List String) (entry : String) (parallel : Int) (s : Serves) :
    List (List String) :=
  let parallel := if parallel < 1 then 1 else parallel
  let c := (targets.filter (· ≠ entry)).foldl (Cutting.step s parallel) {}
  let waves := if c.cur ≠ [] then c.close.waves else c.waves
  if entry ∈ targets then waves ++ [[entry]] else waves

/-! ### The open wave -/

section Cutting

variable {s : Serves} {parallel : Int} {c : Cutting} {h : String}

/-- The counts are those of the open wave, which is within bounds and leaves a host of every model
that has two. -/
structure Cutting.Fits (s : Serves) (parallel : Int) (c : Cutting) : Prop where
  down : ∀ m, c.down m = s.load c.cur m
  size : c.cur.length ≤ parallel
  spare : ∀ m, 1 < s.hostsOf m → s.load c.cur m < s.hostsOf m

theorem foldl_update {ms : List String} (hms : ms.Nodup) (down : String → Nat) (m : String) :
    ms.foldl (fun down m => Function.update down m (down m + 1)) down m =
      down m + if m ∈ ms then 1 else 0 := by
  induction ms generalizing down with
  | nil => rfl
  | cons a ms ih =>
    obtain ⟨ha, hms⟩ := nodup_cons.1 hms
    rw [foldl_cons, ih hms]
    by_cases heq : m = a
    · subst heq
      simp [ha]
    · simp [heq]

theorem Cutting.Fits.empty (hparallel : 0 ≤ parallel) (waves : List (List String)) :
    Fits s parallel { waves } where
  down := fun _ => rfl
  size := hparallel
  spare := fun m hm => by rw [Serves.load_nil]; omega

theorem Cutting.Fits.join (honce : s.Once) (hfits : c.Fits s parallel)
    (hsize : c.cur.length < parallel)
    (hspare : ∀ m ∈ s.models h, 1 < s.hostsOf m → c.down m + 1 ≠ s.hostsOf m) :
    (c.join s h).Fits s parallel where
  down := fun m => by
    rw [Cutting.join, Serves.load_append, ← hfits.down]
    exact foldl_update (honce h) c.down m
  size := by
    rw [Cutting.join, length_append, length_singleton]
    omega
  spare := fun m hm => by
    have hlt := hfits.spare m hm
    rw [Cutting.join, Serves.load_append]
    split_ifs with hmem
    · have hne := hspare m hmem hm
      rw [hfits.down] at hne
      omega
    · exact hlt

theorem takesLast_eq_false {down : String → Nat} (hfalse : takesLast s down h = false) :
    ∀ m ∈ s.models h, 1 < s.hostsOf m → down m + 1 ≠ s.hostsOf m := by
  intro m hmem hm heq
  have hany := any_eq_false.1 hfalse m hmem
  rw [Bool.and_eq_true, decide_eq_true_eq, beq_iff_eq] at hany
  exact hany ⟨hm, heq⟩

/-- **Step lemma.** -/
theorem Cutting.Fits.step (honce : s.Once) (hparallel : 1 ≤ parallel)
    (hfits : c.Fits s parallel) : (c.step s parallel h).Fits s parallel := by
  have hempty : c.close.Fits s parallel := empty (by omega) _
  unfold Cutting.step
  split_ifs with hclose
  · exact hempty.join honce hparallel fun m _ hm => by
      show 0 + 1 ≠ s.hostsOf m
      omega
  · rw [not_and_or, not_or] at hclose
    have hsize := hfits.size
    rcases hclose with hcur | ⟨hfull, hlast⟩
    · have hcur := not_not.1 hcur
      have hdown : ∀ m, c.down m = 0 := fun m => by rw [hfits.down, hcur, Serves.load_nil]
      refine hfits.join honce (by rw [hcur]; exact hparallel) fun m _ hm => ?_
      rw [hdown]
      omega
    · exact hfits.join honce (by omega) (takesLast_eq_false (Bool.eq_false_iff.2 hlast))

/-- A wave of a rollout. -/
structure IsWave (s : Serves) (parallel : Int) (wave : List String) : Prop where
  nonempty : wave ≠ []
  size : wave.length ≤ parallel
  spare : ∀ m, 1 < s.hostsOf m → s.load wave m < s.hostsOf m

theorem Cutting.Fits.isWave (hfits : c.Fits s parallel) (hcur : c.cur ≠ []) :
    IsWave s parallel c.cur := ⟨hcur, hfits.size, hfits.spare⟩

/-- The hosts so far are in the waves, in order. -/
structure Cutting.Cuts (s : Serves) (parallel : Int) (hs : List String) (c : Cutting) : Prop where
  fits : c.Fits s parallel
  waves : ∀ wave ∈ c.waves, IsWave s parallel wave
  order : c.waves.flatten ++ c.cur = hs

variable {hs : List String}

theorem Cutting.Cuts.close (hcuts : c.Cuts s parallel hs) (hcur : c.cur ≠ []) :
    (∀ wave ∈ c.close.waves, IsWave s parallel wave) ∧ c.close.waves.flatten = hs := by
  constructor
  · intro wave hmem
    rcases mem_append.1 hmem with hmem | hmem
    · exact hcuts.waves wave hmem
    · rw [mem_singleton.1 hmem]
      exact hcuts.fits.isWave hcur
  · rw [Cutting.close, flatten_append, flatten_singleton]
    exact hcuts.order

theorem Cutting.Cuts.step (honce : s.Once) (hparallel : 1 ≤ parallel) (hcuts : c.Cuts s parallel hs) :
    (c.step s parallel h).Cuts s parallel (hs ++ [h]) := by
  refine ⟨hcuts.fits.step honce hparallel, ?_, ?_⟩
  · unfold Cutting.step
    split_ifs with hclose
    · exact (hcuts.close hclose.1).1
    · exact hcuts.waves
  · unfold Cutting.step
    split_ifs with hclose
    · rw [← (hcuts.close hclose.1).2]
      rfl
    · rw [← hcuts.order, append_assoc]
      rfl

theorem Cutting.Cuts.foldl (honce : s.Once) (hparallel : 1 ≤ parallel)
    (hcuts : c.Cuts s parallel hs) (hs' : List String) :
    (hs'.foldl (Cutting.step s parallel) c).Cuts s parallel (hs ++ hs') := by
  induction hs' generalizing c hs with
  | nil => rwa [append_nil]
  | cons h hs' ih =>
    rw [foldl_cons, append_cons]
    exact ih (hcuts.step honce hparallel)

end Cutting

/-! ### The waves -/

variable (targets : List String) (entry : String) (parallel : Int) {s : Serves}

/-- All hosts but the entry, in waves. -/
theorem buildWaves_eq (honce : s.Once) : ∃ waves : List (List String),
    buildWaves targets entry parallel s =
      (if entry ∈ targets then waves ++ [[entry]] else waves) ∧
    (∀ wave ∈ waves, IsWave s (max parallel 1) wave) ∧
    waves.flatten = targets.filter (· ≠ entry) := by
  have hmax : (if parallel < 1 then 1 else parallel) = max parallel 1 := by
    split_ifs <;> omega
  have hcuts : Cutting.Cuts s (max parallel 1) [] {} := ⟨.empty (by omega) _, nofun, rfl⟩
  have hcuts := hcuts.foldl honce (by omega) (targets.filter (· ≠ entry))
  rw [buildWaves, hmax]
  generalize (targets.filter (· ≠ entry)).foldl (Cutting.step s (max parallel 1)) {} = c at hcuts
  rw [nil_append] at hcuts
  refine ⟨_, rfl, ?_⟩
  split_ifs with hcur
  · exact hcuts.close hcur
  · have hcur := not_not.1 hcur
    refine ⟨hcuts.waves, ?_⟩
    rw [← hcuts.order, hcur, append_nil]

/-- The entry alone is a wave. -/
theorem isWave_entry : IsWave s (max parallel 1) [entry] where
  nonempty := cons_ne_nil _ _
  size := by
    rw [length_singleton]
    omega
  spare := fun m hm => by
    have hle : s.load [entry] m ≤ 1 := countP_le_length
    omega

/-- **No wave has every host of a model that two hosts serve**, and none is too large. -/
theorem isWave_of_mem (honce : s.Once) {wave : List String}
    (hwave : wave ∈ buildWaves targets entry parallel s) : IsWave s (max parallel 1) wave := by
  obtain ⟨waves, heq, hwaves, -⟩ := buildWaves_eq targets entry parallel honce
  rw [heq] at hwave
  split_ifs at hwave
  · rcases mem_append.1 hwave with hwave | hwave
    · exact hwaves wave hwave
    · rw [mem_singleton.1 hwave]
      exact isWave_entry entry parallel
  · exact hwaves wave hwave

/-- **The waves are the targets in order, with the entry last.** -/
theorem flatten_buildWaves (honce : s.Once) : (buildWaves targets entry parallel s).flatten =
    targets.filter (· ≠ entry) ++ if entry ∈ targets then [entry] else [] := by
  obtain ⟨waves, heq, -, hflatten⟩ := buildWaves_eq targets entry parallel honce
  rw [heq, ← hflatten]
  split_ifs
  · rw [flatten_append, flatten_singleton]
  · rw [append_nil]

theorem getLast?_buildWaves (honce : s.Once) (hentry : entry ∈ targets) :
    (buildWaves targets entry parallel s).getLast? = some [entry] := by
  obtain ⟨waves, heq, -⟩ := buildWaves_eq targets entry parallel honce
  rw [heq, if_pos hentry, List.getLast?_concat]

end Viiwork.Updatecli

import Mathlib.Data.List.Basic
import Mathlib.Tactic

/-!
# Viiwork.Pipelines.Resolver

The virtual models of pipelines (`internal/pipeline/config.go`, `internal/proxy/pipeline.go`). A
pipeline answers to its name with a locale or an alias behind it, and calls a model for each of its
steps by a request to the node itself. A step whose model is a virtual one would start a pipeline
again, so `NewPipelineResolver` refuses a step that names a virtual model.

It compares with the names as `VirtualModels` lists them, while `Resolve` normalises the letters of
a locale before it looks: a step can name a virtual model in other letters and is accepted.

Names are lists of runes. The case tables of Unicode are a parameter, known on ASCII.
-/

namespace Viiwork.Pipelines

open List

/-! ### Locales -/

abbrev Name := List Char

/-- `unicode.ToLower` and `unicode.ToUpper`, which `strings` applies rune by rune. -/
structure Letters where
  toLower : Char → Char
  toUpper : Char → Char
  lower_ascii : ∀ c : Char, c.toNat < 128 → toLower c = c.toLower
  upper_ascii : ∀ c : Char, c.toNat < 128 → toUpper c = c.toUpper

structure LocaleConfig where
  language : String
  deriving Repr, DecidableEq

structure Step where
  name : Name
  model : Name
  deriving Repr, DecidableEq

structure Pipeline where
  name : Name
  localeAliases : List (Name × Name) := []
  locales : List (Name × LocaleConfig) := []
  steps : List Step := []
  deriving Repr, DecidableEq

variable (L : Letters)

/-- The language in small letters, everything behind the first hyphen in capitals. -/
def normalizeLocale (raw : Name) : Name :=
  match raw.dropWhile (· ≠ '-') with
  | [] => raw.map L.toLower
  | _ :: rest => (raw.takeWhile (· ≠ '-')).map L.toLower ++ '-' :: rest.map L.toUpper

namespace Pipeline

variable (p : Pipeline)

/-- The locale that a suffix stands for: one of the pipeline's own, or else the one that an alias
of it is for. -/
def locale (suffix : Name) : Option (LocaleConfig × Name) :=
  let normalized := normalizeLocale L suffix
  match p.locales.lookup normalized with
  | some lc => some (lc, normalized)
  | none =>
    match p.localeAliases.lookup normalized with
    | none => none
    | some full =>
      (p.locales.lookup (normalizeLocale L full)).map (·, normalizeLocale L full)

def resolve (modelName : Name) : Option (LocaleConfig × Name) :=
  match (p.name ++ ['-']).isPrefixOf? modelName with
  | none | some [] => none
  | some suffix => p.locale L suffix

def virtualModels : List Name :=
  p.locales.map (fun l => p.name ++ '-' :: l.1.map L.toLower) ++
    p.localeAliases.map fun a => p.name ++ '-' :: a.1

/-- Where the model has a suffix that stands for a locale, it has it in the letters of the list. -/
def Listed (model : Name) : Prop :=
  ∀ suffix, model = p.name ++ '-' :: suffix →
    let normalized := normalizeLocale L suffix
    ((p.locales.lookup normalized).isSome → suffix = normalized.map L.toLower) ∧
      ∀ full, p.localeAliases.lookup normalized = some full →
        (p.locales.lookup (normalizeLocale L full)).isSome → suffix = normalized

variable {L p} {suffix model : Name}

theorem locale_isSome :
    (p.locale L suffix).isSome ↔ (p.locales.lookup (normalizeLocale L suffix)).isSome ∨
      ∃ full, p.localeAliases.lookup (normalizeLocale L suffix) = some full ∧
        (p.locales.lookup (normalizeLocale L full)).isSome := by
  rw [locale]
  cases hl : p.locales.lookup (normalizeLocale L suffix) with
  | some lc => simp
  | none => cases ha : p.localeAliases.lookup (normalizeLocale L suffix) <;> simp

theorem resolve_append (h : suffix ≠ []) :
    p.resolve L (p.name ++ '-' :: suffix) = p.locale L suffix := by
  have hsuffix : (p.name ++ ['-']).isPrefixOf? (p.name ++ '-' :: suffix) = some suffix :=
    List.isPrefixOf?_eq_some_iff_append_eq.2 (by simp)
  rw [resolve, hsuffix]
  cases suffix with
  | nil => exact absurd rfl h
  | cons c rest => rfl

theorem resolve_isSome (h : (p.resolve L model).isSome) :
    ∃ suffix, model = p.name ++ '-' :: suffix ∧ (p.locale L suffix).isSome := by
  rw [resolve] at h
  split at h
  · simp at h
  · simp at h
  · rename_i suffix _ hsuffix
    have hmodel := List.isPrefixOf?_eq_some_iff_append_eq.1 hsuffix
    exact ⟨suffix, by simpa using hmodel.symm, h⟩

/-- A name that is not resolved has no letters to be wrong in. -/
theorem listed_of_resolve (h : p.resolve L model = none) : p.Listed L model := by
  intro suffix hmodel
  subst hmodel
  by_cases hs : suffix = []
  · subst hs
    simp [normalizeLocale]
  · rw [resolve_append hs, ← Option.not_isSome_iff_eq_none, locale_isSome, not_or] at h
    refine ⟨fun hown => absurd hown h.1, fun full halias htarget => ?_⟩
    exact absurd ⟨full, halias, htarget⟩ h.2

/-- A key that a map has is a key of one of its entries. -/
theorem mem_keys_of_lookup {α : Type} {m : List (Name × α)} {key : Name}
    (h : (m.lookup key).isSome) : ∃ x, (key, x) ∈ m := by
  obtain ⟨x, hx⟩ := Option.isSome_iff_exists.1 h
  obtain ⟨before, after, rfl, -⟩ := lookup_eq_some_iff.1 hx
  exact ⟨x, by simp⟩

/-- A suffix that is spelled as it is listed makes a virtual name. -/
theorem mem_virtualModels (hlisted : p.Listed L model) (h : (p.resolve L model).isSome) :
    model ∈ p.virtualModels L := by
  obtain ⟨suffix, rfl, hlocale⟩ := resolve_isSome h
  rcases locale_isSome.1 hlocale with hown | ⟨full, halias, htarget⟩
  · obtain ⟨lc, hmem⟩ := mem_keys_of_lookup hown
    rw [(hlisted suffix rfl).1 hown]
    exact mem_append_left _ (mem_map.2 ⟨_, hmem, rfl⟩)
  · obtain ⟨x, hmem⟩ := mem_keys_of_lookup (Option.isSome_of_eq_some halias)
    rw [(hlisted suffix rfl).2 full halias htarget]
    exact mem_append_right _ (mem_map.2 ⟨_, hmem, rfl⟩)

end Pipeline

/-- Every step names virtual models, if any, in the letters of the list. -/
def StepsListed (ps : List Pipeline) : Prop :=
  ∀ p ∈ ps, ∀ step ∈ p.steps, ∀ q ∈ ps, q.Listed L step.model

/-! ### The resolver -/

/-- The pipelines of a node, which `NewPipelineResolver` has checked. -/
structure PipelineResolver where
  pipelines : List Pipeline
  checked : ∀ p ∈ pipelines, ∀ step ∈ p.steps, ∀ q ∈ pipelines, step.model ∉ q.virtualModels L

/-- The step that `NewPipelineResolver` refuses. -/
structure Recurses where
  pipeline : Name
  step : Name
  model : Name
  deriving Repr, DecidableEq

def newPipelineResolver (pipelines : List Pipeline) : Except Recurses (PipelineResolver L) :=
  let virtualNames := pipelines.flatMap (Pipeline.virtualModels L)
  let steps := pipelines.flatMap fun p => p.steps.map (p, ·)
  match hfind : steps.find? fun s => s.2.model ∈ virtualNames with
  | some (p, step) => .error ⟨p.name, step.name, step.model⟩
  | none => .ok
      { pipelines := pipelines
        checked := fun p hp step hstep q hq hmem => by
          have hnone := List.find?_eq_none.1 hfind (p, step)
            (List.mem_flatMap.2 ⟨p, hp, List.mem_map.2 ⟨step, hstep, rfl⟩⟩)
          exact hnone (decide_eq_true (List.mem_flatMap.2 ⟨q, hq, hmem⟩)) }

variable {L} {ps : List Pipeline} {pr : PipelineResolver L} {p : Pipeline}

theorem pipelines_of_newPipelineResolver (h : newPipelineResolver L ps = .ok pr) :
    pr.pipelines = ps := by
  rw [newPipelineResolver] at h
  split at h
  · cases h
  · cases h
    rfl

/-- `NewPipelineResolver` refuses nothing else. -/
theorem newPipelineResolver_ok
    (h : ∀ p ∈ ps, ∀ step ∈ p.steps, ∀ q ∈ ps, step.model ∉ q.virtualModels L) :
    ∃ pr, newPipelineResolver L ps = .ok pr := by
  rw [newPipelineResolver]
  split
  · rename_i p step hfind
    have hvirtual := List.find?_some hfind
    obtain ⟨q, hq, hmem⟩ := mem_flatMap.1 (of_decide_eq_true hvirtual)
    obtain ⟨p', hp, hstep⟩ := mem_flatMap.1 (mem_of_find?_eq_some hfind)
    obtain ⟨step', hstep, heq⟩ := mem_map.1 hstep
    cases heq
    exact absurd hmem (h p hp step hstep q hq)
  · exact ⟨_, rfl⟩

namespace PipelineResolver

variable (pr : PipelineResolver L)

def resolve (modelName : Name) : Option (Pipeline × LocaleConfig × Name) :=
  pr.pipelines.findSome? fun p => (p.resolve L modelName).map (p, ·)

def matchesPipelinePrefix (modelName : Name) : Bool :=
  pr.pipelines.any fun p => (p.name ++ ['-']).isPrefixOf modelName

variable {pr} {modelName : Name}

theorem resolve_eq_none :
    pr.resolve modelName = none ↔ ∀ p ∈ pr.pipelines, p.resolve L modelName = none := by
  simp [resolve, List.findSome?_eq_none_iff]

theorem mem_of_resolve {p : Pipeline} {found : LocaleConfig × Name}
    (h : pr.resolve modelName = some (p, found)) : p ∈ pr.pipelines := by
  obtain ⟨q, hq, hfound⟩ := exists_of_findSome?_eq_some h
  obtain ⟨x, -, hx⟩ := Option.map_eq_some_iff.1 hfound
  cases hx
  exact hq

theorem resolve_step_iff :
    (∀ p ∈ pr.pipelines, ∀ step ∈ p.steps, pr.resolve step.model = none) ↔
      StepsListed L pr.pipelines := by
  constructor
  · intro hnone p hp step hstep q hq
    exact Pipeline.listed_of_resolve (resolve_eq_none.1 (hnone p hp step hstep) q hq)
  · intro hlisted p hp step hstep
    refine resolve_eq_none.2 fun q hq => ?_
    by_contra hsome
    have hmem := Pipeline.mem_virtualModels (hlisted p hp step hstep q hq)
      (Option.isSome_iff_ne_none.2 hsome)
    exact pr.checked p hp step hstep q hq hmem

end PipelineResolver

/-! ### Requests -/

/-- The steps in order, each sent as `send` does with the count of backend requests so far, up to
the first that fails. -/
def runSteps (send : Name → Nat → Option (Nat × Bool)) : List Step → Nat → Option (Nat × Bool)
  | [], n => some (n, true)
  | step :: rest, n =>
    match send step.model n with
    | none => none
    | some (n', false) => some (n', false)
    | some (n', true) => runSteps send rest n'

/-- What a request comes to, no more than `depth` pipelines deep: the count of backend requests,
from `n` on, and its success. `ok` says which backend requests succeed. -/
def handle (pr : PipelineResolver L) (ok : Nat → Bool) : Nat → Name → Nat → Option (Nat × Bool)
  | 0, _, _ => none
  | depth + 1, modelName, n =>
    match pr.resolve modelName with
    | some (p, _) => runSteps (handle pr ok depth) p.steps n
    | none =>
      if pr.matchesPipelinePrefix modelName then some (n, false) else some (n + 1, ok n)

/-- One request for each step, if the step starts no pipeline. -/
theorem runSteps_le {send : Name → Nat → Option (Nat × Bool)} {steps : List Step}
    (h : ∀ step ∈ steps, ∀ n, ∃ n' b, send step.model n = some (n', b) ∧ n' ≤ n + 1) (n : Nat) :
    ∃ n' b, runSteps send steps n = some (n', b) ∧ n' ≤ n + steps.length := by
  induction steps generalizing n with
  | nil => exact ⟨n, true, rfl, le_rfl⟩
  | cons step rest ih =>
    obtain ⟨n₁, b, hsend, hle⟩ := h step mem_cons_self n
    simp only [runSteps, hsend, length_cons]
    cases b with
    | false => exact ⟨n₁, false, rfl, by omega⟩
    | true =>
      obtain ⟨n', b, hrest, hle'⟩ := ih (fun s hs => h s (mem_cons_of_mem _ hs)) n₁
      exact ⟨n', b, hrest, by omega⟩

/-- A request that starts no pipeline is one backend request or none. -/
theorem handle_of_none {modelName : Name} (ok : Nat → Bool) (depth n : Nat)
    (h : pr.resolve modelName = none) :
    ∃ n' b, handle pr ok (depth + 1) modelName n = some (n', b) ∧ n' ≤ n + 1 := by
  rw [handle, h]
  by_cases hm : pr.matchesPipelinePrefix modelName
  · exact ⟨n, false, by simp [hm], by omega⟩
  · exact ⟨n + 1, ok n, by simp [hm], le_rfl⟩

/-- **No step starts a pipeline**, just when the steps name virtual models in no other letters than
the list has; a request for a pipeline is then at most one backend request for each step. -/
theorem steps_start_no_pipeline {ps : List Pipeline} {pr : PipelineResolver L}
    (h : newPipelineResolver L ps = .ok pr) :
    ((∀ p ∈ ps, ∀ step ∈ p.steps, pr.resolve step.model = none) ↔ StepsListed L ps) ∧
      (StepsListed L ps → ∀ (ok : Nat → Bool) (modelName : Name) (n : Nat), ∃ n' b,
        handle pr ok 2 modelName n = some (n', b) ∧
          ∀ p lc key, pr.resolve modelName = some (p, lc, key) → n' ≤ n + p.steps.length) := by
  obtain rfl := pipelines_of_newPipelineResolver h
  refine ⟨PipelineResolver.resolve_step_iff, fun hlisted ok modelName n => ?_⟩
  have hsteps := PipelineResolver.resolve_step_iff.2 hlisted
  cases hm : pr.resolve modelName with
  | none =>
    obtain ⟨n', b, hn', -⟩ := handle_of_none ok 1 n hm
    exact ⟨n', b, hn', by simp⟩
  | some found =>
    obtain ⟨p, lc, key⟩ := found
    have hnone := hsteps p (PipelineResolver.mem_of_resolve hm)
    obtain ⟨n', b, hrun, hle⟩ :=
      runSteps_le (fun step hstep n => handle_of_none ok 0 n (hnone step hstep)) n
    refine ⟨n', b, by rw [handle, hm]; exact hrun, ?_⟩
    intro q _ _ hq
    cases hq
    exact hle

/-- A pipeline whose two steps call the same model. -/
def localise (model : String) : Pipeline :=
  { name := "localise".toList
    localeAliases := [("pt".toList, "pt-BR".toList)]
    locales := [("fi".toList, { language := "Finnish" }),
      ("pt-BR".toList, { language := "Brazilian Portuguese" })]
    steps := [⟨"draft".toList, model.toList⟩, ⟨"edit".toList, model.toList⟩] }

/-- The letters of ASCII alone. -/
def Letters.ascii : Letters := ⟨Char.toLower, Char.toUpper, fun _ _ => rfl, fun _ _ => rfl⟩

theorem steps_start_no_pipeline_localise : ∃ pr,
    newPipelineResolver .ascii [localise "qwen3"] = .ok pr ∧
      StepsListed .ascii [localise "qwen3"] ∧
      ∃ n b, handle pr (fun _ => true) 2 "localise-PT".toList 0 = some (n, b) ∧
        ∀ p lc key, pr.resolve "localise-PT".toList = some (p, lc, key) →
          n ≤ 0 + p.steps.length := by
  obtain ⟨pr, hpr⟩ : ∃ pr, newPipelineResolver .ascii [localise "qwen3"] = .ok pr :=
    newPipelineResolver_ok (by decide +kernel)
  obtain ⟨hiff, hbound⟩ := steps_start_no_pipeline hpr
  have hlisted := hiff.1 (by
    simp only [PipelineResolver.resolve_eq_none, pipelines_of_newPipelineResolver hpr]
    decide +kernel)
  exact ⟨pr, hpr, hlisted, hbound hlisted _ _ _⟩

/-- A pipeline that calls itself first comes to no end. -/
theorem handle_of_self {model : Name} {found : LocaleConfig × Name} {step : Step} {rest : List Step}
    (hmodel : pr.resolve model = some (p, found)) (hsteps : p.steps = step :: rest)
    (hself : step.model = model) (ok : Nat → Bool) (depth n : Nat) :
    handle pr ok depth model n = none := by
  induction depth generalizing n with
  | zero => rfl
  | succ depth ih => simp [handle, hmodel, hsteps, runSteps, hself, ih]

theorem Letters.map_lower {s : Name} (h : s.all (·.toNat < 128)) :
    s.map L.toLower = s.map Char.toLower :=
  map_congr_left fun c hc => L.lower_ascii c (of_decide_eq_true (all_eq_true.1 h c hc))

/-- Names in ASCII are listed alike whatever the tables. -/
theorem Pipeline.virtualModels_ascii (h : ∀ l ∈ p.locales, l.1.all (·.toNat < 128)) :
    p.virtualModels L = p.virtualModels .ascii := by
  rw [virtualModels, map_congr_left fun l hl => by rw [L.map_lower (h l hl)]]
  rfl

/-- In capitals, a step can name the pipeline it is of, whatever the tables. -/
theorem newPipelineResolver_own (L : Letters) : ∃ pr,
    newPipelineResolver L [localise "localise-FI"] = .ok pr ∧
      pr.resolve "localise-FI".toList =
        some (localise "localise-FI", { language := "Finnish" }, "fi".toList) ∧
      ∀ ok depth n, handle pr ok depth "localise-FI".toList n = none := by
  obtain ⟨pr, hpr⟩ : ∃ pr, newPipelineResolver L [localise "localise-FI"] = .ok pr := by
    refine newPipelineResolver_ok ?_
    simp only [forall_mem_singleton]
    rw [Pipeline.virtualModels_ascii (by decide +kernel)]
    decide +kernel
  have hself : pr.resolve "localise-FI".toList =
      some (localise "localise-FI", { language := "Finnish" }, "fi".toList) := by
    have hown : (localise "localise-FI").resolve L "localise-FI".toList =
        some ({ language := "Finnish" }, "fi".toList) := by
      refine (@Pipeline.resolve_append L (localise "localise-FI") "FI".toList (by simp)).trans ?_
      have hnorm : normalizeLocale L "FI".toList = "fi".toList := L.map_lower (by decide)
      rw [Pipeline.locale, hnorm]
      rfl
    rw [PipelineResolver.resolve, pipelines_of_newPipelineResolver hpr, List.findSome?_cons, hown]
    rfl
  exact ⟨pr, hpr, hself, handle_of_self hself rfl rfl⟩

theorem steps_start_own_pipeline : ∃ pr,
    newPipelineResolver .ascii [localise "localise-FI"] = .ok pr ∧
      pr.resolve "localise-FI".toList =
        some (localise "localise-FI", { language := "Finnish" }, "fi".toList) ∧
      ∀ ok depth n, handle pr ok depth "localise-FI".toList n = none :=
  newPipelineResolver_own .ascii

end Viiwork.Pipelines

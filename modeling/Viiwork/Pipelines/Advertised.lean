import Viiwork.Pipelines.Resolver

/-!
# Viiwork.Pipelines.Advertised

Whether the names that pipelines advertise work. `VirtualModels` lists a locale in small letters and
an alias as it is written; `Resolve` looks either up in the letters that `NormalizeLocale` gives it.
A name comes back to what it was advertised for just when these letters lead there
(`advertised_resolve_iff`). Those of a locale with a script do not: `zh-Hans` is advertised as
`zh-hans` and looked up as `zh-HANS` (`advertised_script`).
-/

namespace Viiwork.Pipelines

open List

variable {L : Letters}

namespace Pipeline

variable (L) (p : Pipeline)

/-- The locale that an alias is for: its value if that is a locale, or else the normal form. -/
def target (full : Name) : Name :=
  if (p.locales.lookup full).isSome then full else normalizeLocale L full

/-- The name is advertised for the locale. -/
def Advertises (model key : Name) : Prop :=
  (∃ l ∈ p.locales, l.1 = key ∧ p.name ++ '-' :: l.1.map L.toLower = model) ∨
    ∃ a ∈ p.localeAliases, p.target L a.2 = key ∧ p.name ++ '-' :: a.1 = model

/-- In the letters that it is looked up in, the suffix is the locale, or else an alias of it and no
locale. -/
def Leads (suffix key : Name) : Prop :=
  suffix ≠ [] ∧ (normalizeLocale L suffix = key ∨
    p.locales.lookup (normalizeLocale L suffix) = none ∧
      (p.localeAliases.lookup (normalizeLocale L suffix)).map (normalizeLocale L) = some key)

instance (suffix key : Name) : Decidable (p.Leads L suffix key) :=
  inferInstanceAs (Decidable (_ ∧ _))

/-- **Spelled.** Locales in small letters lead to themselves, and aliases to what they are for. -/
structure Spelled : Prop where
  locales : ∀ l ∈ p.locales, p.Leads L (l.1.map L.toLower) l.1
  aliases : ∀ a ∈ p.localeAliases, p.Leads L a.1 (p.target L a.2)

variable {L p} {suffix key model : Name} {lc : LocaleConfig}

theorem mem_virtualModels_iff : model ∈ p.virtualModels L ↔ ∃ key, p.Advertises L model key := by
  simp [virtualModels, Advertises, exists_or]

/-- What is advertised is configured. -/
theorem Advertises.isSome (h : p.Advertises L model key)
    (halias : ∀ a ∈ p.localeAliases, (p.locales.lookup (p.target L a.2)).isSome) :
    (p.locales.lookup key).isSome := by
  obtain ⟨l, hl, rfl, -⟩ | ⟨a, ha, rfl, -⟩ := h
  · exact lookup_isSome_iff.2 ⟨l, hl, by simp⟩
  · exact halias a ha

theorem locale_eq_some : p.locale L suffix = some (lc, key) ↔ p.locales.lookup key = some lc ∧
    (normalizeLocale L suffix = key ∨ p.locales.lookup (normalizeLocale L suffix) = none ∧
      (p.localeAliases.lookup (normalizeLocale L suffix)).map (normalizeLocale L) = some key) := by
  rw [locale]
  cases hown : p.locales.lookup (normalizeLocale L suffix) with
  | some own =>
    simp only [Option.some.injEq, Prod.mk.injEq, reduceCtorEq, false_and, or_false]
    constructor
    · rintro ⟨rfl, rfl⟩
      exact ⟨hown, rfl⟩
    · rintro ⟨hkey, rfl⟩
      exact ⟨Option.some.inj (hown.symm.trans hkey), rfl⟩
  | none =>
    have hne : p.locales.lookup key = some lc → normalizeLocale L suffix ≠ key := by
      rintro hkey rfl
      cases hown.symm.trans hkey
    cases p.localeAliases.lookup (normalizeLocale L suffix) with
    | none => simpa using hne
    | some full =>
      simp only [Option.map_eq_some_iff, Prod.mk.injEq, Option.map_some, Option.some.injEq]
      grind

/-- **What a name resolves to.** -/
theorem resolve_eq_some : p.resolve L (p.name ++ '-' :: suffix) = some (lc, key) ↔
    p.locales.lookup key = some lc ∧ p.Leads L suffix key := by
  cases suffix with
  | nil =>
    have hnil : (p.name ++ ['-']).isPrefixOf? (p.name ++ ['-']) = some [] :=
      List.isPrefixOf?_eq_some_iff_append_eq.2 (append_nil _)
    simp [resolve, hnil, Leads]
  | cons c rest =>
    rw [resolve_append (cons_ne_nil c rest), locale_eq_some, Leads]
    simp

end Pipeline

/-- A name that begins with the name of no other pipeline is left to the one. -/
theorem PipelineResolver.resolve_of_only {pr : PipelineResolver L} {p : Pipeline} {model : Name}
    (hp : p ∈ pr.pipelines) (h : ∀ q ∈ pr.pipelines, q ≠ p → ¬q.name <+: model) :
    pr.resolve model = (p.resolve L model).map (p, ·) := by
  have hother : ∀ q ∈ pr.pipelines, q ≠ p → q.resolve L model = none := by
    intro q hq hne
    by_contra hsome
    obtain ⟨suffix, rfl, -⟩ := Pipeline.resolve_isSome (Option.isSome_iff_ne_none.2 hsome)
    exact h q hq hne (prefix_append _ _)
  cases hr : p.resolve L model with
  | none =>
    refine PipelineResolver.resolve_eq_none.2 fun q hq => ?_
    by_cases hqp : q = p
    · rwa [hqp]
    · exact hother q hq hqp
  | some found =>
    cases hm : pr.resolve model with
    | none =>
      have hnone := resolve_eq_none.1 hm p hp
      rw [hr] at hnone
      cases hnone
    | some x =>
      obtain ⟨q, hq, hfound⟩ := exists_of_findSome?_eq_some hm
      by_cases hqp : q = p
      · subst hqp
        rw [← hfound, hr]
      · rw [hother q hq hqp] at hfound
        cases hfound

/-- **Every advertised name works** just when the letters are those it is looked up in, if aliases
are for locales that are configured and no pipeline's name begins a name of another. -/
theorem advertised_resolve_iff (pr : PipelineResolver L)
    (halias : ∀ p ∈ pr.pipelines, ∀ a ∈ p.localeAliases,
      (p.locales.lookup (p.target L a.2)).isSome)
    (hnames : ∀ p ∈ pr.pipelines, ∀ q ∈ pr.pipelines, q ≠ p → ∀ model ∈ p.virtualModels L,
      ¬q.name <+: model) :
    (∀ p ∈ pr.pipelines, ∀ model ∈ p.virtualModels L, ∃ key, p.Advertises L model key) ∧
    ((∀ p ∈ pr.pipelines, ∀ model key, p.Advertises L model key →
        ∃ lc, p.locales.lookup key = some lc ∧ pr.resolve model = some (p, lc, key)) ↔
      ∀ p ∈ pr.pipelines, p.Spelled L) := by
  have hresolve : ∀ p ∈ pr.pipelines, ∀ suffix key,
      p.Advertises L (p.name ++ '-' :: suffix) key → ((∃ lc, p.locales.lookup key = some lc ∧
        pr.resolve (p.name ++ '-' :: suffix) = some (p, lc, key)) ↔ p.Leads L suffix key) := by
    intro p hp suffix key hadv
    obtain ⟨lc, hlc⟩ := Option.isSome_iff_exists.1 (hadv.isSome (halias p hp))
    have hmem := Pipeline.mem_virtualModels_iff.2 ⟨key, hadv⟩
    rw [PipelineResolver.resolve_of_only hp fun q hq hne => hnames p hp q hq hne _ hmem]
    simp [Pipeline.resolve_eq_some, hlc]
  refine ⟨fun p _ model => Pipeline.mem_virtualModels_iff.1, fun h p hp => ⟨?_, ?_⟩, ?_⟩
  · intro l hl
    have hadv : p.Advertises L (p.name ++ '-' :: l.1.map L.toLower) l.1 := .inl ⟨l, hl, rfl, rfl⟩
    exact (hresolve p hp _ _ hadv).1 (h p hp _ _ hadv)
  · intro a ha
    have hadv : p.Advertises L (p.name ++ '-' :: a.1) (p.target L a.2) := .inr ⟨a, ha, rfl, rfl⟩
    exact (hresolve p hp _ _ hadv).1 (h p hp _ _ hadv)
  · intro h p hp model key hadv
    have hadv' := hadv
    obtain ⟨l, hl, rfl, rfl⟩ | ⟨a, ha, rfl, rfl⟩ := hadv
    · exact (hresolve p hp _ _ hadv').2 ((h p hp).locales l hl)
    · exact (hresolve p hp _ _ hadv').2 ((h p hp).aliases a ha)

/-- The locales and the alias of one pipeline work. -/
theorem advertised_resolve_iff_localise : ∃ pr : PipelineResolver .ascii,
    pr.pipelines = [localise "qwen3"] ∧ (localise "qwen3").Spelled .ascii ∧
      ∀ model key, (localise "qwen3").Advertises .ascii model key → ∃ lc,
        (localise "qwen3").locales.lookup key = some lc ∧
          pr.resolve model = some (localise "qwen3", lc, key) := by
  let pr : PipelineResolver .ascii := ⟨[localise "qwen3"], by decide +kernel⟩
  have hspelled : (localise "qwen3").Spelled .ascii := ⟨by decide +kernel, by decide +kernel⟩
  have h := advertised_resolve_iff pr (by decide +kernel) (by simp [pr])
  exact ⟨pr, rfl, hspelled, h.2.2 (by simpa [pr] using hspelled) _ mem_cons_self⟩

/-- A pipeline with a locale that names a script. -/
def scripted : Pipeline :=
  { name := "localise".toList, locales := [("zh-Hans".toList, { language := "Chinese" })] }

theorem advertised_script : ∃ pr : PipelineResolver .ascii, pr.pipelines = [scripted] ∧
    scripted.Advertises .ascii "localise-zh-hans".toList "zh-Hans".toList ∧
      pr.resolve "localise-zh-hans".toList = none :=
  ⟨⟨[scripted], by decide +kernel⟩, rfl, .inl ⟨_, mem_cons_self, rfl, by decide +kernel⟩,
    by decide +kernel⟩

end Viiwork.Pipelines

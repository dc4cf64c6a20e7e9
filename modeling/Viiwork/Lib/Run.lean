import Mathlib

/-!
# Viiwork.Lib.Run

Runs of a partial step function. `run` is the state after a list of actions,
`none` when one of them is not enabled; `RunMeets P` says that every action met
`P` in the state it was taken in. A prefix of a run is a run, so a fact proved
of the last state of every run holds in every state a run passes through.
-/

namespace Viiwork.Lib

open List

variable {σ α : Type*} (step : σ → α → Option σ)

/-- The state after the actions, in order. -/
def run (s : σ) : List α → Option σ
  | [] => some s
  | a :: as =>
    match step s a with
    | none => none
    | some s' => run s' as

/-- Every action of the run meets `P` where it is taken. -/
def RunMeets (P : σ → α → Prop) (s : σ) : List α → Prop
  | [] => True
  | a :: as => P s a ∧
      match step s a with
      | none => True
      | some s' => RunMeets P s' as

instance decidableRunMeets (P : σ → α → Prop) [∀ s a, Decidable (P s a)] :
    ∀ (s : σ) (as : List α), Decidable (RunMeets step P s as)
  | _, [] => isTrue trivial
  | s, a :: as =>
    have : Decidable (match step s a with
        | none => True
        | some s' => RunMeets step P s' as) :=
      match step s a with
      | none => isTrue trivial
      | some s' => decidableRunMeets P s' as
    inferInstanceAs (Decidable (P s a ∧ _))

variable {step} {P : σ → α → Prop} {a : α} {as post pre : List α} {s t : σ}

theorem run_cons_eq_some :
    run step s (a :: as) = some t ↔ ∃ s', step s a = some s' ∧ run step s' as = some t := by
  rw [run]
  cases step s a <;> simp

theorem runMeets_cons :
    RunMeets step P s (a :: as) ↔ P s a ∧ ∀ s', step s a = some s' → RunMeets step P s' as := by
  rw [RunMeets]
  cases step s a <;> simp

variable (step)

/-- A run whose actions all meet a condition of their own. -/
theorem runMeets_of_forall {Q : α → Prop} (s : σ) (h : ∀ a ∈ as, Q a) :
    RunMeets step (fun _ a => Q a) s as := by
  induction as generalizing s with
  | nil => trivial
  | cons a as ih =>
    refine runMeets_cons.2 ⟨h a mem_cons_self, fun s' _ => ih s' ?_⟩
    exact fun b hb => h b (mem_cons_of_mem a hb)

/-- Every run meets nothing in particular. -/
theorem runMeets_true (as : List α) (s : σ) : RunMeets step (fun _ _ => True) s as :=
  runMeets_of_forall step s fun _ _ => trivial

/-- A run that meets two conditions meets what follows from both. -/
theorem RunMeets.imp₂ {Q R : σ → α → Prop} (h : ∀ s a, P s a → Q s a → R s a)
    (hP : RunMeets step P s as) (hQ : RunMeets step Q s as) : RunMeets step R s as := by
  induction as generalizing s with
  | nil => trivial
  | cons a as ih =>
    rw [runMeets_cons] at hP hQ ⊢
    exact ⟨h s a hP.1 hQ.1, fun s' hs => ih (hP.2 s' hs) (hQ.2 s' hs)⟩

/-- Conditions that agree on every step are met by the same runs. -/
theorem runMeets_congr {Q : σ → α → Prop} (h : ∀ s a, P s a ↔ Q s a) (as : List α) (s : σ) :
    RunMeets step P s as ↔ RunMeets step Q s as := by
  have hext : P = Q := funext fun s => funext fun a => propext (h s a)
  rw [hext]

theorem run_append (h : run step s pre = some t) :
    run step s (pre ++ post) = run step t post := by
  induction pre generalizing s with
  | nil =>
    rw [run] at h
    rw [Option.some.inj h, nil_append]
  | cons a pre ih =>
    obtain ⟨s', hs, h⟩ := run_cons_eq_some.1 h
    rw [cons_append, run, hs]
    exact ih h

/-- The beginning of a run meets what the run meets. -/
theorem RunMeets.append_left (hmeets : RunMeets step P s (pre ++ post)) :
    RunMeets step P s pre := by
  induction pre generalizing s with
  | nil => trivial
  | cons a pre ih =>
    rw [cons_append, runMeets_cons] at hmeets
    exact runMeets_cons.2 ⟨hmeets.1, fun s' hs => ih (hmeets.2 s' hs)⟩

/-- The rest of a run meets what the run meets. -/
theorem RunMeets.append_right (hmeets : RunMeets step P s (pre ++ post))
    (h : run step s pre = some t) : RunMeets step P t post := by
  induction pre generalizing s with
  | nil =>
    rw [run] at h
    rwa [Option.some.inj h, nil_append] at hmeets
  | cons a pre ih =>
    obtain ⟨s', hs, h⟩ := run_cons_eq_some.1 h
    rw [cons_append, runMeets_cons] at hmeets
    exact ih (hmeets.2 s' hs) h

/-- **The invariant rule.** What every step that meets `P` preserves, a run
whose steps all meet `P` preserves. -/
theorem run_invariant {I : σ → Prop} (hstep : ∀ s a s', I s → P s a → step s a = some s' → I s')
    {s' : σ} (hI : I s) (hmeets : RunMeets step P s as) (hrun : run step s as = some s') :
    I s' := by
  induction as generalizing s with
  | nil =>
    rw [run] at hrun
    exact Option.some.inj hrun ▸ hI
  | cons a as ih =>
    obtain ⟨t, hs, hrun⟩ := run_cons_eq_some.1 hrun
    obtain ⟨hP, hrest⟩ := runMeets_cons.1 hmeets
    exact ih (hstep s a t hI hP hs) (hrest t hs) hrun

/-- A run meets `P` exactly as long as every state on the way keeps `I`, when a
step from a state with `I` keeps it just in case it meets `P`. -/
theorem runMeets_iff {I : σ → Prop} (htotal : ∀ s a, (step s a).isSome = true)
    (hiff : ∀ s a s', I s → step s a = some s' → (P s a ↔ I s')) (hI : I s) :
    RunMeets step P s as ↔ ∀ pre, pre <+: as → ∀ s', run step s pre = some s' → I s' := by
  induction as generalizing s with
  | nil =>
    refine iff_of_true trivial fun pre hpre s' hrun => ?_
    rw [prefix_nil.mp hpre, run] at hrun
    exact Option.some.inj hrun ▸ hI
  | cons a as ih =>
    obtain ⟨t, ht⟩ := Option.isSome_iff_exists.mp (htotal s a)
    have hcons : ∀ pre, run step s (a :: pre) = run step t pre := fun pre => by rw [run, ht]
    rw [runMeets_cons]
    constructor
    · rintro ⟨hP, hrest⟩ pre hpre s' hrun
      cases pre with
      | nil =>
        rw [run] at hrun
        exact Option.some.inj hrun ▸ hI
      | cons b pre =>
        obtain ⟨rfl, htail⟩ := cons_prefix_cons.mp hpre
        rw [hcons] at hrun
        exact (ih ((hiff s b t hI ht).mp hP)).mp (hrest t ht) pre htail s' hrun
    · intro hall
      have hIt : I t := hall [a] (cons_prefix_cons.mpr ⟨rfl, nil_prefix⟩) t
        (by rw [hcons, run])
      refine ⟨(hiff s a t hI ht).mpr hIt, fun t' ht' => ?_⟩
      cases ht.symm.trans ht'
      refine (ih hIt).mpr fun pre hpre s' hrun => ?_
      exact hall (a :: pre) (cons_prefix_cons.mpr ⟨rfl, hpre⟩) s' (by rw [hcons, hrun])

/-- A fold that knows what it has been through and what is to come. -/
theorem foldl_prefix {f : σ → α → σ} {P : List α → σ → Prop} {xs : List α}
    (hstep : ∀ pre x rest s, pre ++ x :: rest = xs → P pre s → P (pre ++ [x]) (f s x))
    (hs : P [] s) : P xs (xs.foldl f s) := by
  have hrest : ∀ rest pre s, pre ++ rest = xs → P pre s → P xs (rest.foldl f s) := by
    intro rest
    induction rest with
    | nil =>
      intro pre s heq h
      rwa [append_nil, ← heq] at *
    | cons x rest ih =>
      intro pre s heq h
      exact ih (pre ++ [x]) (f s x) (by simpa using heq) (hstep pre x rest s heq h)
  exact hrest xs [] s rfl hs

end Viiwork.Lib

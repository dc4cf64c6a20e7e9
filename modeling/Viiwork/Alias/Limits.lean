import Viiwork.Alias.Sanity

/-!
# Viiwork.Alias.Limits

Two rules that `ValidateWrite` states for the table, on a node that receives nothing: at most
`MaxAliases` aliases are live, and no alias points at an alias.

`ValidateWrite` is asked by `Set` only, and looks at what the new entry refers to. A `Revert` makes
an alias live again without either check (`run_limit_iff`, `run_flat_iff`), and a name may become an
alias after another was forced to point at it.
-/

namespace Viiwork.Alias

open Viiwork.Meshapi Viiwork.Lib List Store

/-! ### The live names -/

namespace Store

def liveNames (s : Store) : Finset String :=
  ((s.table.aliases.toList.filter fun p => !p.2.deleted).map Prod.fst).toFinset

variable {s : Store} {n : String} {e : AliasEntry}

theorem isLive_iff : s.isLive n = true ↔ ∃ e, s.lookup n = some e ∧ e.deleted = false := by
  cases h : s.lookup n <;> simp [isLive, h]

theorem mem_liveNames : n ∈ s.liveNames ↔ s.isLive n = true := by
  simp [liveNames, isLive_iff, lookup, Std.ExtTreeMap.mem_toList_iff_getElem?_eq_some]

theorem card_liveNames (s : Store) : s.liveNames.card = s.liveLocked := by
  have hkeys : (s.table.aliases.toList.map Prod.fst).Nodup := by
    refine pairwise_map.2 (Std.ExtTreeMap.distinct_keys_toList.imp fun {a b} hne heq => ?_)
    exact hne (by rw [heq]; exact Std.ReflCmp.compare_self)
  have hsub := (filter_sublist (p := fun q => !q.2.deleted)
    (l := s.table.aliases.toList)).map Prod.fst
  rw [liveNames, toFinset_card_of_nodup (hkeys.sublist hsub), length_map, liveLocked,
    countP_eq_length_filter]

theorem isLive_written (s : Store) (n m : String) (e : AliasEntry) :
    (s.written n e).isLive m = if n = m then !e.deleted else s.isLive m := by
  rw [isLive, lookup_written]
  split
  · rfl
  · rfl

theorem liveNames_written_live (h : e.deleted = false) (n : String) :
    (s.written n e).liveNames = insert n s.liveNames := by
  ext m
  rw [mem_liveNames, isLive_written, Finset.mem_insert, mem_liveNames]
  by_cases hn : n = m
  · simp [hn, h]
  · simp [hn, Ne.symm hn]

theorem liveNames_written_deleted (h : e.deleted = true) (n : String) :
    (s.written n e).liveNames ⊆ s.liveNames := by
  intro m hm
  rw [mem_liveNames, isLive_written] at hm
  by_cases hn : n = m
  · simp [hn, h] at hm
  · simpa [hn, mem_liveNames] using hm

theorem isLive_purged (s : Store) (c : Call) (n : String) : (s.purged c).isLive n = s.isLive n := by
  rw [Bool.eq_iff_iff, isLive_iff, isLive_iff]
  constructor
  · rintro ⟨e, he, hlive⟩
    exact ⟨e, (lookup_purged_eq_some.1 he).1, hlive⟩
  · rintro ⟨e, he, hlive⟩
    exact ⟨e, lookup_purged_eq_some.2 ⟨he, by simp [expired, hlive]⟩, hlive⟩

end Store

namespace Service

/-- A call of the node's own: nothing arrives from another. -/
def Step.isLocal : Step → Bool
  | notifyMsg _ _ | mergeRemoteState _ _ => false
  | _ => true

def LocalCall := { a : Step // a.isLocal = true }

def localStep (sv : Service) (a : LocalCall) : Option Service := step sv a.1

/-! ### The limit -/

variable {sv : Service}

/-- **The limit condition.** A `Revert` that brings an alias back does so under the limit. -/
def RevivesUnderLimit (sv : Service) : Step → Prop
  | .revert c name => (sv.store.revert c name).2.toBool = true → sv.store.isLive name = false →
      sv.store.liveLocked < maxAliases
  | _ => True

variable {e : AliasEntry} {s : Store}

theorem liveLocked_written_le_iff {n : String} {k : Nat} (hs : s.liveLocked ≤ k)
    (he : e.deleted = false) :
    (s.written n e).liveLocked ≤ k ↔ s.isLive n = true ∨ s.liveLocked < k := by
  rw [← card_liveNames, liveNames_written_live he]
  by_cases hn : s.isLive n = true
  · simp [Finset.insert_eq_of_mem (mem_liveNames.2 hn), card_liveNames, hs, hn]
  · simp [Finset.card_insert_of_notMem (mt mem_liveNames.1 hn), card_liveNames, hn]

theorem liveLocked_le_of_subset {t : Store} (h : s.liveNames ⊆ t.liveNames) :
    s.liveLocked ≤ t.liveLocked := by
  rw [← card_liveNames, ← card_liveNames]
  exact Finset.card_le_card h

/-- **Step lemma.** -/
theorem limit_step_iff (h : sv.store.liveLocked ≤ maxAliases) (a : LocalCall) :
    RevivesUnderLimit sv a.1 ↔ (a.1.exec sv).1.store.liveLocked ≤ maxAliases := by
  obtain ⟨a, hlocal⟩ := a
  cases a with
  | set v c name req =>
    refine iff_of_true trivial ?_
    rcases set_store_cases sv v c name req with ⟨hsame, -⟩ | ⟨hval, e, hw, hstore⟩
    · rwa [hsame]
    · rw [hstore]
      exact (liveLocked_written_le_iff h hw.pointsTo.2.2.2).2 (validateWrite_ok hval).2.2.2.2
  | delete c name =>
    refine iff_of_true trivial ?_
    rcases delete_store_cases sv c name with hsame | ⟨e, -, hd, hstore⟩
    · rwa [hsame]
    · rw [hstore]
      exact (liveLocked_le_of_subset (liveNames_written_deleted hd _)).trans h
  | revert c name =>
    rcases revert_store_cases sv c name with
      ⟨hsame, hfail⟩ | ⟨hok, e, back, -, -, -, -, hlive, hstore⟩
    · rw [hsame]
      exact iff_of_true (fun hok => by simp [hok] at hfail) h
    · rw [hstore, liveLocked_written_le_iff h hlive, RevivesUnderLimit]
      cases hn : sv.store.isLive name <;> simp [hok]
  | purge c =>
    refine iff_of_true trivial ?_
    rcases purge_store_cases sv c with hsame | hpurged
    · simpa only [Step.exec, hsame] using h
    · refine (liveLocked_le_of_subset fun n hn => ?_).trans h
      simpa only [Step.exec, hpurged, mem_liveNames, isLive_purged] using hn
  | notifyMsg | mergeRemoteState => cases hlocal

theorem liveLocked_empty (self : String) : (Store.empty self).liveLocked = 0 := by
  rw [← card_liveNames, Finset.card_eq_zero, Finset.eq_empty_iff_forall_notMem]
  intro n
  simp [mem_liveNames, isLive]

/-- **The alias limit.** From an empty table, every state of a run of local calls is within the
limit exactly when no `Revert` of the run brings an alias back into a full table. -/
theorem run_limit_iff (self : String) (broadcasts : Bool) (calls : List LocalCall) :
    (∀ pre, pre <+: calls → ∀ sv, run localStep (fresh self broadcasts) pre = some sv →
        sv.store.liveLocked ≤ maxAliases) ↔
      RunMeets localStep (fun sv a => RevivesUnderLimit sv a.1) (fresh self broadcasts) calls := by
  have hiff : ∀ (s : Service) (a : LocalCall) (s' : Service), s.store.liveLocked ≤ maxAliases →
      localStep s a = some s' → (RevivesUnderLimit s a.1 ↔ s'.store.liveLocked ≤ maxAliases) := by
    intro s a s' hs hstep
    rw [← Option.some.inj hstep]
    exact limit_step_iff hs a
  refine (runMeets_iff localStep (fun _ _ => rfl) hiff ?_).symm
  simp [fresh, liveLocked_empty]

def oneModel : View := { modelExists := fun x => x == "m", pipelineNames := [], now := 0 }

def setTo (name : String) : LocalCall := ⟨.set oneModel { now := 0 } name ⟨"m", [], false⟩, rfl⟩

def manyNames : List String := (List.range maxAliases).map fun i =>
  .ofList [.ofNat (97 + i / 16), .ofNat (97 + i % 16)]

/-- `x` is set and deleted, the table filled to the limit, and `x` reverted. -/
theorem run_limit_revived :
    (run localStep (fresh "n" true) ([setTo "x", ⟨.delete { now := 0 } "x", rfl⟩] ++
      manyNames.map setTo ++ [⟨.revert { now := 0 } "x", rfl⟩])).map (·.store.liveLocked) =
    some (maxAliases + 1) := by
  decide +kernel

/-! ### Aliases that point at aliases -/

/-- The names that an entry points at. -/
def refs (e : AliasEntry) : List String := e.target :: e.fallbacks

/-- No live alias points at a live alias. -/
def Flat (s : Store) : Prop :=
  ∀ n e, s.lookup n = some e → e.deleted = false → ∀ x ∈ refs e, s.isLive x = false

/-- `name` may become an alias of `targets`: none of these is an alias, and no other alias points at
`name`. -/
def MayBecome (s : Store) (name : String) (targets : List String) : Prop :=
  (∀ x ∈ targets, x ≠ name ∧ s.isLive x = false) ∧
    ∀ n e, n ≠ name → s.lookup n = some e → e.deleted = false → name ∉ refs e

variable {name : String}

theorem flat_written_iff (h : Flat s) (he : e.deleted = false) :
    MayBecome s name (refs e) ↔ Flat (s.written name e) := by
  have hlive : (s.written name e).isLive name = true := by simp [isLive_written, he]
  constructor
  · rintro ⟨hto, hothers⟩ n e' hn he' x hx
    rw [lookup_written] at hn
    split at hn
    · obtain rfl := Option.some.inj hn
      obtain ⟨hne, hx⟩ := hto x hx
      rwa [isLive_written, if_neg (Ne.symm hne)]
    · rename_i hne
      have hnot : name ≠ x := fun hname => hothers n e' (Ne.symm hne) hn he' (hname ▸ hx)
      rw [isLive_written, if_neg hnot]
      exact h n e' hn he' x hx
  · intro hflat
    refine ⟨fun x hx => ?_, fun n e' hne hn he' hname => ?_⟩
    · have hx := hflat name e (lookup_written_self s name e) he x hx
      have hne : name ≠ x := fun hname => by simp [← hname, hlive] at hx
      exact ⟨Ne.symm hne, by simpa [isLive_written, hne] using hx⟩
    · have hn' : (s.written name e).lookup n = some e' := by
        rw [lookup_written, if_neg (Ne.symm hne), hn]
      simpa [hlive] using hflat n e' hn' he' name hname

theorem Flat.written_deleted (h : Flat s) (he : e.deleted = true) : Flat (s.written name e) := by
  intro n e' hn he' x hx
  rw [lookup_written] at hn
  split at hn
  · simp [← Option.some.inj hn, he] at he'
  · rw [isLive_written]
    split
    · simp [he]
    · exact h n e' hn he' x hx

/-- **The reference condition.** What a `Set` or a `Revert` makes an alias of may become one. -/
def PointsAtModels (sv : Service) : Step → Prop
  | .set v c name req => validateWrite sv.store v name req = .ok () →
      (sv.store.set c name req.target req.fallbacks).2.toBool = true →
      MayBecome sv.store name (req.target :: req.fallbacks)
  | .revert c name => (sv.store.revert c name).2.toBool = true →
      ∀ back ∈ (sv.store.prevEntry name).history.head?,
        MayBecome sv.store name (back.target :: back.fallbacks)
  | _ => True

/-- **Step lemma.** -/
theorem flat_step_iff (h : Flat sv.store) (a : LocalCall) :
    PointsAtModels sv a.1 ↔ Flat (a.1.exec sv).1.store := by
  obtain ⟨a, hlocal⟩ := a
  cases a with
  | set v c name req =>
    rcases set_store_cases sv v c name req with ⟨hsame, hfail⟩ | ⟨hval, e, hw, hstore⟩
    · rw [hsame]
      exact iff_of_true (fun hval hok => by simp [hfail hval] at hok) h
    · obtain ⟨-, ht, hf, hlive⟩ := hw.pointsTo
      have hok : (sv.store.set c name req.target req.fallbacks).2.toBool = true :=
        congrArg (fun r => r.2.toBool) hw.exec
      rw [hstore, ← flat_written_iff h hlive, refs, ht, hf]
      exact ⟨fun hto => hto hval hok, fun hto _ _ => hto⟩
  | delete c name =>
    refine iff_of_true trivial ?_
    rcases delete_store_cases sv c name with hsame | ⟨e, -, hd, hstore⟩
    · rwa [hsame]
    · rw [hstore]
      exact h.written_deleted hd
  | revert c name =>
    rcases revert_store_cases sv c name with
      ⟨hsame, hfail⟩ | ⟨hok, e, back, -, hhead, ht, hf, hlive, hstore⟩
    · rw [hsame]
      exact iff_of_true (fun hok => by simp [hok] at hfail) h
    · rw [hstore, ← flat_written_iff h hlive, refs, ht, hf]
      simp [PointsAtModels, hok, hhead]
  | purge c =>
    refine iff_of_true trivial ?_
    rcases purge_store_cases sv c with hsame | hpurged
    · simpa only [Step.exec, hsame] using h
    · intro n e hn he x hx
      simp only [Step.exec, hpurged] at hn ⊢
      rw [isLive_purged]
      exact h n e (lookup_purged_eq_some.1 hn).1 he x hx
  | notifyMsg | mergeRemoteState => cases hlocal

/-- **No alias of an alias.** From an empty table, no state of a run of local calls has an alias
that points at an alias exactly when every name that becomes an alias in the run may become one. -/
theorem run_flat_iff (self : String) (broadcasts : Bool) (calls : List LocalCall) :
    (∀ pre, pre <+: calls → ∀ sv, run localStep (fresh self broadcasts) pre = some sv →
        Flat sv.store) ↔
      RunMeets localStep (fun sv a => PointsAtModels sv a.1) (fresh self broadcasts) calls := by
  have hiff : ∀ (s : Service) (a : LocalCall) (s' : Service), Flat s.store →
      localStep s a = some s' → (PointsAtModels s a.1 ↔ Flat s'.store) := by
    intro s a s' hs hstep
    rw [← Option.some.inj hstep]
    exact flat_step_iff hs a
  refine (runMeets_iff localStep (fun _ _ => rfl) hiff fun n e hn => ?_).symm
  simp [fresh] at hn

/-- `a` is forced to point at `b`, which no node serves, and then `b` becomes an alias. -/
theorem run_flat_forced : ∃ sv e,
    run localStep (fresh "n" true)
      [⟨.set oneModel { now := 0 } "a" ⟨"b", [], true⟩, rfl⟩, setTo "b"] = some sv ∧
    sv.store.lookup "a" = some e ∧ e.deleted = false ∧ e.target = "b" ∧
    sv.store.isLive "b" = true := by
  have hheld : ((run localStep (fresh "n" true)
      [⟨.set oneModel { now := 0 } "a" ⟨"b", [], true⟩, rfl⟩, setTo "b"]).map fun sv =>
        (sv.store.lookup "a", sv.store.isLive "b")) =
      some (some { target := "b", ver := 1, byNode := "n" }, true) := by decide +kernel
  obtain ⟨sv, hrun, hsv⟩ := Option.map_eq_some_iff.1 hheld
  obtain ⟨ha, hb⟩ := Prod.mk.inj hsv
  exact ⟨sv, _, hrun, ha, rfl, rfl, hb⟩

end Service

end Viiwork.Alias

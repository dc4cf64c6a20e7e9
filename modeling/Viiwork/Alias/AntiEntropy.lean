import Viiwork.Alias.Convergence
import Viiwork.Alias.History

/-!
# Viiwork.Alias.AntiEntropy

**Push/pull rounds between two stores.** In a round each end merges the table
the other held before it. The current versions agree after one round
(`current_mergeInto_comm`), but the histories do not have to: the winner's end
keeps its own, the loser's end inherits, and a tie puts the loser in front at
both. The second round finds equal versions everywhere, so both ends unite
their histories, and the united history is the same list at both. From then on
a round changes nothing.
-/

namespace Viiwork.Alias

open Viiwork.Meshapi Viiwork.Lib List

/-! ### One name at two ends -/

/-- A version's `TS` and `By` name it among all the versions in play. -/
def VersionsAgree (vs : List AliasVersion) : Prop :=
  ∀ v ∈ vs, ∀ w ∈ vs, v.key = w.key → v = w

/-- Entries with equal `Ver`, `TS` and `By` are one write. -/
theorem with_history_eq {a b : AliasEntry} (h : current a = current b) (l : List AliasVersion) :
    ({ a with history := l } : AliasEntry) = { b with history := l } := by
  cases a; cases b
  simp_all [current]

/-- **Round one.** Exchanging entries makes the current versions agree. -/
theorem current_mergeInto_comm {a? b? : Option AliasEntry}
    (hsame : ∀ a b, a? = some a → b? = some b → a.key = b.key → SameWrite a b) :
    (mergeInto a? b?).map current = (mergeInto b? a?).map current := by
  cases a? with
  | none =>
    cases b? with
    | none | some => rfl
  | some a =>
    cases b? with
    | none => rfl
    | some b =>
      simp only [mergeInto_some, Option.map_some, current_mergeEntry]
      exact newest_comm _ fun hk => current_eq_of_key_eq hk (hsame a b rfl rfl hk)

/-- **Round two.** Ends that agree on the current version unite their histories
to one list. -/
theorem mergeEntry_comm_of_current_eq {a b : AliasEntry} (hcur : current a = current b)
    (ha : a.history.length ≤ maxAliasHistory) (hb : b.history.length ≤ maxAliasHistory)
    (hvs : VersionsAgree (a.history ++ b.history)) :
    mergeEntry (some a) b = mergeEntry (some b) a := by
  have hk : a.key = b.key := by rw [← current_key a, hcur, current_key]
  rw [mergeEntry_of_key_eq hk, mergeEntry_of_key_eq hk.symm, capHistory_eq_self ha,
    capHistory_eq_self hb, unionHistory_eq, unionHistory_eq, unionDesc_comm _ _ hvs]
  exact with_history_eq hcur _

/-! ### Stores that can exchange their tables -/

/-- A table another member takes whole: the version this build merges, and
under every name a valid name, an accepted entry and a short history. -/
structure Sendable (s : Store) : Prop where
  v : s.table.v = aliasTableVersion
  name : ∀ {n e}, s.lookup n = some e → validAliasName n = true
  accepted : ∀ {n e}, s.lookup n = some e → acceptRemote e = true
  short : ∀ {n e}, s.lookup n = some e → e.history.length ≤ maxAliasHistory

variable {s A B : Store} {c : Call × Call}

theorem Sendable.received (h : Sendable s) (n : String) :
    Store.received s.table n = s.lookup n := by
  cases he : s.lookup n with
  | none =>
    rw [Store.lookup] at he
    rw [Store.received, he, Option.filter_none]
  | some e =>
    have hok : (validAliasName n && acceptRemote e) = true := by
      rw [h.name he, h.accepted he]; rfl
    rw [Store.lookup] at he
    rw [Store.received, he]
    exact Option.filter_some_pos hok

/-- Pulling a sendable table, the persist succeeding: every name is merged, and
the reported names are those that changed. -/
theorem Sendable.mergeTable {t : Store} (ht : Sendable t) (s : Store) {c : Call}
    (hok : c.writeOk = true) :
    ∃ s' changed conflicts, s.mergeTable c t.table = (s', .ok (changed, conflicts)) ∧
      s'.table.v = s.table.v ∧ (∀ n, s'.lookup n = mergeInto (s.lookup n) (t.lookup n)) ∧
      ((∀ n, s'.lookup n = s.lookup n) → changed = [] ∧ s' = s) := by
  rcases s.mergeTable_cases c t.table with ⟨hfail, -⟩ | ⟨s', ch, cf, h, -, hm, -, hch, hnil⟩
  · rcases hfail with hv | ⟨hw, -⟩
    · exact absurd ht.v hv
    · rw [hok] at hw; cases hw
  · refine ⟨s', ch, cf, h, hm.v, fun n => ?_, fun hsame => ?_⟩
    · rw [hm.lookup, ht.received]
    · have hempty : ch = [] :=
        eq_nil_iff_forall_not_mem.mpr fun n hn => (hch n).mp hn (hsame n)
      exact ⟨hempty, hnil hempty⟩

/-- Pulling keeps a store sendable. -/
theorem Sendable.of_merged {t s' : Store} (hs : Sendable s) (ht : Sendable t)
    (hv : s'.table.v = s.table.v) (hm : ∀ n, s'.lookup n = mergeInto (s.lookup n) (t.lookup n)) :
    Sendable s' := by
  have hcases : ∀ {n e}, s'.lookup n = some e →
      s.lookup n = some e ∨ ∃ r, t.lookup n = some r ∧ e = mergeEntry (s.lookup n) r := by
    intro n e he
    rw [hm] at he
    cases hr : t.lookup n with
    | none =>
      rw [hr] at he
      exact .inl he
    | some r =>
      rw [hr] at he
      exact .inr ⟨r, rfl, (Option.some.inj he).symm⟩
  refine ⟨hv.trans hs.v, fun he => ?_, fun he => ?_, fun he => ?_⟩
  · rcases hcases he with he | ⟨r, hr, -⟩
    · exact hs.name he
    · exact ht.name hr
  · rcases hcases he with he | ⟨r, hr, rfl⟩
    · exact hs.accepted he
    · exact acceptRemote_mergeEntry (fun _ => hs.accepted) (ht.accepted hr)
  · rcases hcases he with he | ⟨r, hr, rfl⟩
    · exact hs.short he
    · exact mergeEntry_length_le fun _ => hs.short

/-! ### Rounds -/

/-- A round: each end merges the table the other held before it. -/
def pushPull (p : Store × Store) (c : Call × Call) : Store × Store :=
  ((p.1.mergeTable c.1 p.2.table).1, (p.2.mergeTable c.2 p.1.table).1)

/-- Every version a store holds, with its name. -/
def heldVersions (s : Store) : List (String × AliasVersion) :=
  s.table.aliases.toList.flatMap fun p => (versionsOf p.2).map fun v => (p.1, v)

theorem mem_heldVersions {n : String} {v : AliasVersion} :
    (n, v) ∈ heldVersions s ↔ ∃ e, s.lookup n = some e ∧ v ∈ versionsOf e := by
  simp only [heldVersions, mem_flatMap, mem_map, Prod.mk.injEq, Prod.exists,
    Std.ExtTreeMap.mem_toList_iff_getElem?_eq_some, Store.lookup]
  constructor
  · rintro ⟨m, e, he, w, hw, rfl, rfl⟩
    exact ⟨e, he, hw⟩
  · rintro ⟨e, he, hv⟩
    exact ⟨n, e, he, v, hv, rfl, rfl⟩

/-- Two stores whose versions can be told apart: every entry is accepted and
short, a `TS` and `By` name one version of a name, and a `Ver`, `TS` and `By`
one write of it. -/
structure Comparable (A B : Store) : Prop where
  accepted : ∀ p ∈ A.table.aliases.toList ++ B.table.aliases.toList, acceptRemote p.2 = true
  short : ∀ p ∈ A.table.aliases.toList ++ B.table.aliases.toList,
    p.2.history.length ≤ maxAliasHistory
  versions : ∀ p ∈ heldVersions A ++ heldVersions B, ∀ q ∈ heldVersions A ++ heldVersions B,
    p.1 = q.1 → p.2.key = q.2.key → p.2 = q.2
  writes : KeyNamesWrite (initialWrites A ++ initialWrites B)

/-- Every stored name is one `Set` and the merges admit. -/
def ValidNames (s : Store) : Prop := ∀ p ∈ s.table.aliases.toList, validAliasName p.1 = true

instance (s : Store) : Decidable (ValidNames s) :=
  inferInstanceAs (Decidable (∀ p ∈ s.table.aliases.toList, validAliasName p.1 = true))

namespace Comparable

variable {A B : Store}

theorem symm (h : Comparable A B) : Comparable B A := by
  have hmem : ∀ {α : Type} {x : α} {l₁ l₂ : List α}, x ∈ l₂ ++ l₁ → x ∈ l₁ ++ l₂ :=
    fun hx => mem_append.mpr (mem_append.mp hx).symm
  exact ⟨fun p hp => h.accepted p (hmem hp), fun p hp => h.short p (hmem hp),
    fun p hp q hq => h.versions p (hmem hp) q (hmem hq),
    fun p hp q hq => h.writes p (hmem hp) q (hmem hq)⟩

theorem sendable (h : Comparable A B) (hv : A.table.v = aliasTableVersion)
    (hn : ValidNames A) : Sendable A := by
  have hmem : ∀ {n e}, A.lookup n = some e → (n, e) ∈ A.table.aliases.toList :=
    fun he => Std.ExtTreeMap.mem_toList_iff_getElem?_eq_some.mpr he
  exact ⟨hv, fun {n e} he => hn (n, e) (hmem he),
    fun {n e} he => h.accepted (n, e) (mem_append_left _ (hmem he)),
    fun {n e} he => h.short (n, e) (mem_append_left _ (hmem he))⟩

variable {n : String}

theorem sameWrite (h : Comparable A B) {a b : AliasEntry} (ha : A.lookup n = some a)
    (hb : B.lookup n = some b) (hk : a.key = b.key) : SameWrite a b := by
  have hA : (n, current a) ∈ initialWrites A := mem_initialWrites.mpr (by rw [ha]; rfl)
  have hB : (n, current b) ∈ initialWrites B := mem_initialWrites.mpr (by rw [hb]; rfl)
  exact h.writes _ (mem_append_left _ hA) _ (mem_append_right _ hB) rfl hk

/-- Among the histories the two ends hold of a name after exchanging entries,
a `TS` and `By` still name one version. -/
theorem versionsAgree_merged (h : Comparable A B) {a b : AliasEntry}
    (ha : mergeInto (A.lookup n) (B.lookup n) = some a)
    (hb : mergeInto (B.lookup n) (A.lookup n) = some b) :
    VersionsAgree (a.history ++ b.history) := by
  have hheld : ∀ {S T : Store} {e : AliasEntry} {v : AliasVersion},
      mergeInto (S.lookup n) (T.lookup n) = some e → v ∈ e.history →
      (n, v) ∈ heldVersions S ∨ (n, v) ∈ heldVersions T := by
    intro S T e v he hv
    cases hT : T.lookup n with
    | none =>
      rw [hT] at he
      exact .inl (mem_heldVersions.mpr ⟨e, he, mem_cons_of_mem _ hv⟩)
    | some r =>
      rw [hT, mergeInto_some] at he
      rw [← Option.some.inj he] at hv
      rcases mem_mergeEntry_history hv with ⟨loc, hloc, hv⟩ | hv
      · exact .inl (mem_heldVersions.mpr ⟨loc, hloc, hv⟩)
      · exact .inr (mem_heldVersions.mpr ⟨r, hT, hv⟩)
  have hmem : ∀ v ∈ a.history ++ b.history, (n, v) ∈ heldVersions A ++ heldVersions B := by
    intro v hv
    rcases mem_append.mp hv with hv | hv
    · exact mem_append.mpr (hheld ha hv)
    · exact mem_append.mpr (hheld hb hv).symm
  exact fun v hv w hw hk => h.versions _ (hmem v hv) _ (hmem w hw) rfl hk

end Comparable

/-- A round between sendable stores whose persists succeed. -/
theorem pushPull_lookup (hA : Sendable A) (hB : Sendable B)
    (hok : c.1.writeOk = true ∧ c.2.writeOk = true) :
    Sendable (pushPull (A, B) c).1 ∧ Sendable (pushPull (A, B) c).2 ∧
      (∀ n, (pushPull (A, B) c).1.lookup n = mergeInto (A.lookup n) (B.lookup n)) ∧
      (∀ n, (pushPull (A, B) c).2.lookup n = mergeInto (B.lookup n) (A.lookup n)) := by
  obtain ⟨A', ch₁, cf₁, hA', hvA, hmA, -⟩ := hB.mergeTable A hok.1
  obtain ⟨B', ch₂, cf₂, hB', hvB, hmB, -⟩ := hA.mergeTable B hok.2
  simp only [pushPull, hA', hB']
  exact ⟨hA.of_merged hB hvA hmA, hB.of_merged hA hvB hmB, hmA, hmB⟩

/-- Two ends that agree on every current version and can unite their histories. -/
structure InStep (A B : Store) : Prop where
  left : Sendable A
  right : Sendable B
  current : ∀ n, (A.lookup n).map current = (B.lookup n).map current
  versions : ∀ {n a b}, A.lookup n = some a → B.lookup n = some b →
    VersionsAgree (a.history ++ b.history)

/-- Two ends that hold the same table, every history in order. -/
structure Agreed (A B : Store) : Prop where
  left : Sendable A
  right : Sendable B
  lookup : ∀ n, A.lookup n = B.lookup n
  sorted : ∀ {n e}, A.lookup n = some e → Descending AliasVersion.key e.history

theorem InStep.of_pushPull (h : Comparable A B) (hA : Sendable A) (hB : Sendable B)
    (hok : c.1.writeOk = true ∧ c.2.writeOk = true) :
    InStep (pushPull (A, B) c).1 (pushPull (A, B) c).2 := by
  obtain ⟨hA', hB', hmA, hmB⟩ := pushPull_lookup hA hB hok
  refine ⟨hA', hB', fun n => ?_, fun ha hb => ?_⟩
  · rw [hmA, hmB]
    exact current_mergeInto_comm fun a b ha hb hk => h.sameWrite ha hb hk
  · rw [hmA] at ha
    rw [hmB] at hb
    exact h.versionsAgree_merged ha hb

theorem Agreed.of_pushPull (h : InStep A B) (hok : c.1.writeOk = true ∧ c.2.writeOk = true) :
    Agreed (pushPull (A, B) c).1 (pushPull (A, B) c).2 := by
  obtain ⟨hA', hB', hmA, hmB⟩ := pushPull_lookup h.left h.right hok
  -- Ends in step hold a name at both or at neither.
  have hboth : ∀ n, (A.lookup n = none ∧ B.lookup n = none) ∨
      ∃ a b, A.lookup n = some a ∧ B.lookup n = some b ∧ Alias.current a = Alias.current b := by
    intro n
    have hcur := h.current n
    cases ha : A.lookup n with
    | none =>
      rw [ha, Option.map_none] at hcur
      exact .inl ⟨rfl, Option.map_eq_none_iff.mp hcur.symm⟩
    | some a =>
      rw [ha, Option.map_some] at hcur
      obtain ⟨b, hb, hab⟩ := Option.map_eq_some_iff.mp hcur.symm
      exact .inr ⟨a, b, rfl, hb, hab.symm⟩
  refine ⟨hA', hB', fun n => ?_, fun {n e} he => ?_⟩
  · rw [hmA, hmB]
    rcases hboth n with ⟨ha, hb⟩ | ⟨a, b, ha, hb, hcur⟩
    · rw [ha, hb]
    · rw [ha, hb, mergeInto_some, mergeInto_some, mergeEntry_comm_of_current_eq hcur
        (h.left.short ha) (h.right.short hb) (h.versions ha hb)]
  · rw [hmA] at he
    rcases hboth n with ⟨ha, hb⟩ | ⟨a, b, ha, hb, hcur⟩
    · rw [ha, hb] at he
      cases he
    · have hk : a.key = b.key := by rw [← current_key a, hcur, current_key]
      rw [ha, hb, mergeInto_some, mergeEntry_of_key_eq hk, unionHistory_eq] at he
      rw [← Option.some.inj he]
      exact unionDesc_descending _ _ _ _

theorem Agreed.symm (h : Agreed A B) : Agreed B A :=
  ⟨h.right, h.left, fun n => (h.lookup n).symm, fun he => h.sorted ((h.lookup _).trans he)⟩

theorem Agreed.table_eq (h : Agreed A B) : A.table = B.table := by
  have hv : A.table.v = B.table.v := h.left.v.trans h.right.v.symm
  have haliases : A.table.aliases = B.table.aliases := Std.ExtTreeMap.ext_getElem? h.lookup
  cases hA : A.table; cases hB : B.table
  simp_all

/-- A store merging an agreed table reports nothing and stays as it was. -/
theorem Agreed.mergeTable (h : Agreed A B) (c : Call) :
    ∃ conflicts, A.mergeTable c B.table = (A, .ok ([], conflicts)) := by
  rw [← h.table_eq]
  exact mergeTable_self_of_settled h.left.v (fun _ _ he => ⟨h.sorted he, h.left.short he⟩) c

/-- **Two rounds reach full agreement.** Between two stores with valid names
whose versions can be told apart, two rounds make the tables equal, histories
included, and a third reports no change at either end. -/
theorem pushPull_two_rounds_agree (A B : Store) (c₁ c₂ c₃ : Call × Call)
    (hvA : A.table.v = aliasTableVersion) (hvB : B.table.v = aliasTableVersion)
    (hnA : ValidNames A) (hnB : ValidNames B) (h : Comparable A B)
    (hok₁ : c₁.1.writeOk = true ∧ c₁.2.writeOk = true)
    (hok₂ : c₂.1.writeOk = true ∧ c₂.2.writeOk = true) :
    let p := pushPull (pushPull (A, B) c₁) c₂
    p.1.table = p.2.table ∧
      (∃ conflicts, p.1.mergeTable c₃.1 p.2.table = (p.1, .ok ([], conflicts))) ∧
      (∃ conflicts, p.2.mergeTable c₃.2 p.1.table = (p.2, .ok ([], conflicts))) := by
  intro p
  have hstep := InStep.of_pushPull h (h.sendable hvA hnA) (h.symm.sendable hvB hnB) hok₁
  have hagreed : Agreed p.1 p.2 := Agreed.of_pushPull hstep hok₂
  exact ⟨hagreed.table_eq, hagreed.mergeTable c₃.1, hagreed.symm.mergeTable c₃.2⟩

/-- A tie of two live writes of `chat`, one end with a history: the rounds meet
every hypothesis and agree. -/
theorem pushPull_two_rounds_agree_tie :
    let old : AliasVersion := { target := "m0", fallbacks := [], ts := 3, byNode := "x" }
    let a : AliasEntry := { target := "m1", ver := 2, ts := 10, byNode := "x", history := [old] }
    let b : AliasEntry := { target := "m2", ver := 2, ts := 10, byNode := "y" }
    let A : Store := (Store.empty "x").put "chat" a
    let B : Store := (Store.empty "y").put "chat" b
    let c : Call × Call := ({ now := 20 }, { now := 20 })
    (pushPull (pushPull (A, B) c) c).1.table = (pushPull (pushPull (A, B) c) c).2.table :=
  (pushPull_two_rounds_agree _ _ _ _ ({ now := 20 }, { now := 20 }) (by decide) (by decide)
    (by decide) (by decide) ⟨by decide, by decide, by decide, by decide⟩ (by decide) (by decide)).1

/-- `Open` does not check the names of the file it loads, and `MergeTable` skips
an invalid name: such a name never reaches the other end. -/
theorem pushPull_invalid_name_disagree :
    let e : AliasEntry := { target := "m1", ver := 1, ts := 10, byNode := "x" }
    let t : AliasTable := { v := aliasTableVersion, aliases := (∅ : AliasMap).insert "no good" e }
    let A : Store := { self := "x", table := t, file := some t }
    let B : Store := Store.empty "y"
    let c : Call × Call := ({ now := 20 }, { now := 20 })
    (Store.openWith "x" (.table t) true { now := 20 }).toOption = some A ∧ Comparable A B ∧
      B.table.v = aliasTableVersion ∧
      (pushPull (pushPull (A, B) c) c).1.table ≠ (pushPull (pushPull (A, B) c) c).2.table :=
  ⟨by decide +kernel, ⟨by decide, by decide, by decide, by decide⟩, by decide, by decide⟩

end Viiwork.Alias

import Viiwork.Alias.Service
import Viiwork.Alias.StoreRuns

/-!
# Viiwork.Alias.Gossip

**Gossip cannot storm.** A member gossips again what it learns, so the flood of a
write ends only because nobody broadcasts the same version twice. Everything a
call broadcasts is *news* (`IsNews`): the version its name holds after the call,
newer than the one it held before. A name's version never goes back without a
purge, so the broadcasts of one name have strictly increasing keys
(`broadcasts_increasing`).
-/

namespace Viiwork.Alias

open Viiwork.Meshapi List Service

/-- What `b` announces: the version its name holds `after`, newer than what it
held `before`. -/
structure IsNews (before after : Store) (b : AliasBroadcast) (cur : AliasEntry) : Prop where
  held : after.lookup b.name = some cur
  entry : b.entry = { cur with history := [] }
  newer : ∀ old, before.lookup b.name = some old → old.key < cur.key

namespace Service

variable {sv : Service} {b : AliasBroadcast} {name : String}

/-- `publish` sends its entry without history, or nothing. -/
theorem mem_publishSent {e : AliasEntry} (h : b ∈ sv.publishSent name e) :
    b = ⟨name, { e with history := [] }⟩ := by
  unfold publishSent at h
  simp only at h
  split at h
  · exact mem_singleton.mp h
  · exact absurd h not_mem_nil

theorem publishSent_names (name : String) (e : AliasEntry) :
    ((sv.publishSent name e).map (·.name)).Sublist [name] := by
  unfold publishSent
  simp only
  split
  · exact List.Sublist.refl _
  · exact nil_sublist _

/-- What `republish` sends is the current version of a name whose key moved. -/
theorem mem_republish_sent {old? : Option AliasEntry} (h : b ∈ (sv.republish name old?).sent) :
    ∃ cur, sv.store.lookup name = some cur ∧ b = ⟨name, { cur with history := [] }⟩ ∧
      ∀ old, old? = some old → old.key ≠ cur.key := by
  unfold republish at h
  split at h
  · exact absurd h not_mem_nil
  · rename_i cur hcur
    split at h
    · exact absurd h not_mem_nil
    · rename_i hmoved
      simp only [publish_sent] at h
      refine ⟨cur, hcur, mem_publishSent h, fun old hold hk => hmoved ?_⟩
      obtain ⟨hv, hts, hby⟩ := AliasEntry.key_eq_iff.mp hk
      simp [hold, hv, hts, hby]

theorem republish_names (name : String) (old? : Option AliasEntry) :
    ((sv.republish name old?).sent.map (·.name)).Sublist [name] := by
  unfold republish
  split
  · exact nil_sublist _
  · split
    · exact nil_sublist _
    · simp only [publish_sent]
      exact publishSent_names name _

/-- The loop sends for names of its list only, and each once. -/
theorem republishAll_names (before : Store) (names : List String) :
    ((sv.republishAll before names).sent.map (·.name)).Sublist names := by
  induction names with
  | nil => exact List.Sublist.refl _
  | cons name names ih =>
    simp only [republishAll, republish_service, map_append]
    exact (republish_names name _).append ih

theorem mem_republishAll_sent {before : Store} {names : List String}
    (h : b ∈ (sv.republishAll before names).sent) :
    ∃ cur, sv.store.lookup b.name = some cur ∧ b.entry = { cur with history := [] } ∧
      ∀ old, before.lookup b.name = some old → old.key ≠ cur.key := by
  induction names with
  | nil => exact absurd h not_mem_nil
  | cons name names ih =>
    simp only [republishAll, republish_service, mem_append] at h
    rcases h with h | h
    · obtain ⟨cur, hcur, rfl, hmoved⟩ := mem_republish_sent h
      exact ⟨cur, hcur, rfl, hmoved⟩
    · exact ih h

end Service

/-- A merge leaves a name at least as new as it was. -/
theorem Store.MergesTo.key_le {s s' : Store} {incoming : String → Option AliasEntry}
    (hm : Store.MergesTo s s' incoming) {n : String} {old cur : AliasEntry}
    (hold : s.lookup n = some old) (hcur : s'.lookup n = some cur) : old.key ≤ cur.key := by
  rw [hm.lookup, hold] at hcur
  cases hin : incoming n with
  | none =>
    rw [hin] at hcur
    rw [Option.some.inj hcur]
  | some r =>
    rw [hin, mergeInto_some] at hcur
    rw [← Option.some.inj hcur]
    exact key_le_mergeEntry old r

/-- A local write that returned an entry is a `LocalWrite`. -/
theorem LocalOp.localWrite_of_ok {s s' : Store} {c : Call} {op : LocalOp} {e : AliasEntry}
    (h : op.exec s c = (s', .ok e)) : LocalWrite s c op e ∧ s' = s.written op.name e := by
  rcases op.exec_cases s c with ⟨err, hx⟩ | ⟨e', hw⟩
  · rw [hx] at h
    cases h
  · have heq := hw.exec.symm.trans h
    simp only [Prod.mk.injEq, Except.ok.injEq] at heq
    obtain ⟨rfl, rfl⟩ := heq
    exact ⟨hw, rfl⟩

namespace Service

/-! ### What one call sends -/

/-- The service after a call sent what it wrote. -/
structure SentWrite (sv : Service) (a : Step) : Prop where
  wrote : ∃ c op e, LocalWrite sv.store c op e ∧
    (a.exec sv).1.store = sv.store.written op.name e ∧
    (a.exec sv).2 = (a.exec sv).1.publishSent op.name e

/-- The service after a call sent what it learned. -/
structure SentMerge (sv : Service) (a : Step) : Prop where
  learned : ∃ c m changed, a.op? sv = some (c, .merge m) ∧
    Store.MergesTo sv.store (a.exec sv).1.store (fun n => m.incoming n) ∧ changed.Nodup ∧
    (a.exec sv).2 = ((a.exec sv).1.republishAll sv.store changed).sent

variable {sv : Service} {a : Step} {c : Call} {b : AliasBroadcast} {old : AliasEntry}
variable {acts : List Step}

theorem sentWrite_of_exec (op : LocalOp) {s' : Store} {e : AliasEntry}
    (hop : op.exec sv.store c = (s', .ok e)) (hx : a.exec sv = ({ sv with store := s' },
      ({ sv with store := s' } : Service).publishSent op.name e)) : SentWrite sv a := by
  obtain ⟨hw, rfl⟩ := LocalOp.localWrite_of_ok hop
  exact ⟨c, op, e, hw, by rw [hx], by rw [hx]⟩

theorem set_sent (v : View) (c : Call) (name : String) (req : AliasWriteRequest) :
    ((Step.set v c name req).exec sv).2 = [] ∨ SentWrite sv (.set v c name req) := by
  cases hval : validateWrite sv.store v name req with
  | error err => exact .inl (by simp only [Step.exec, set, hval])
  | ok u =>
    rcases hx : sv.store.set c name req.target req.fallbacks with ⟨s', err | e⟩
    · exact .inl (by simp only [Step.exec, set, hval, hx])
    · refine .inr (sentWrite_of_exec (.set name req.target req.fallbacks) hx ?_)
      simp only [Step.exec, set, hval, hx, publish_service, publish_sent, LocalOp.name]

theorem delete_sent (c : Call) (name : String) :
    ((Step.delete c name).exec sv).2 = [] ∨ SentWrite sv (.delete c name) := by
  rcases hx : sv.store.delete c name with ⟨s', err | e⟩
  · refine .inl ?_
    simp only [Step.exec, delete, hx]
    cases err <;> rfl
  · refine .inr (sentWrite_of_exec (.delete name) hx ?_)
    simp only [Step.exec, delete, hx, publish_service, publish_sent, LocalOp.name]

theorem revert_sent (c : Call) (name : String) :
    ((Step.revert c name).exec sv).2 = [] ∨ SentWrite sv (.revert c name) := by
  rcases hx : sv.store.revert c name with ⟨s', err | e⟩
  · refine .inl ?_
    simp only [Step.exec, revert, hx]
    cases err <;> rfl
  · refine .inr (sentWrite_of_exec (.revert name) hx ?_)
    simp only [Step.exec, revert, hx, publish_service, publish_sent, LocalOp.name]

theorem notifyMsg_sent (c : Call) (msg : Option AliasBroadcast) :
    ((Step.notifyMsg c msg).exec sv).2 = [] ∨ SentMerge sv (.notifyMsg c msg) := by
  cases msg with
  | none => exact .inl rfl
  | some b =>
    rcases sv.store.merge_cases c b.name b.entry with ⟨-, hx⟩ | ⟨s', changed, cf, hx, hm, -, -⟩
    · exact .inl (by simp only [Step.exec, notifyMsg, hx])
    · cases changed with
      | false => exact .inl (by simp [Step.exec, notifyMsg, hx])
      | true =>
        have hexec : (Step.notifyMsg c (some b)).exec sv =
            ((({ sv with store := s' } : Service).emitConflicts cf.toList).1,
              ((({ sv with store := s' } : Service).emitConflicts cf.toList).1.republish b.name
                (sv.store.lookup b.name)).sent) := by
          simp [Step.exec, notifyMsg, hx]
        refine .inr ⟨c, .merge b.name b.entry, [b.name], rfl, ?_, nodup_singleton _, ?_⟩
        · rw [hexec, emitConflicts_store]
          exact hm
        · rw [hexec]
          simp [republishAll]

theorem mergeRemoteState_sent (c : Call) (buf : Option AliasTable) :
    ((Step.mergeRemoteState c buf).exec sv).2 = [] ∨ SentMerge sv (.mergeRemoteState c buf) := by
  cases buf with
  | none => exact .inl rfl
  | some t =>
    rcases sv.store.mergeTable_cases c t with
      ⟨-, err, hx⟩ | ⟨s', changed, cf, hx, hv, hm, hnd, -, -⟩
    · exact .inl (by simp only [Step.exec, mergeRemoteState, hx])
    · have hexec : (Step.mergeRemoteState c (some t)).exec sv =
          ((({ sv with store := s' } : Service).emitConflicts cf).1,
            ((({ sv with store := s' } : Service).emitConflicts cf).1.republishAll sv.store
              changed).sent) := by
        simp [Step.exec, mergeRemoteState, hx]
      refine .inr ⟨c, .mergeTable t, changed, rfl, ?_, hnd, ?_⟩
      · rw [hexec, emitConflicts_store]
        simpa only [MergeOp.incoming, hv, if_true] using hm
      · rw [hexec]

/-- **What a call can send.** Nothing, the entry it wrote, or the names it
learned. -/
theorem sent_cases (sv : Service) (a : Step) :
    (a.exec sv).2 = [] ∨ SentWrite sv a ∨ SentMerge sv a := by
  cases a with
  | set v c name req => exact (set_sent v c name req).imp_right .inl
  | delete c name => exact (delete_sent c name).imp_right .inl
  | revert c name => exact (revert_sent c name).imp_right .inl
  | purge c => exact .inl rfl
  | notifyMsg c msg => exact (notifyMsg_sent c msg).imp_right .inr
  | mergeRemoteState c buf => exact (mergeRemoteState_sent c buf).imp_right .inr

/-- Everything a call sends is news. -/
theorem isNews_of_mem_sent (h : b ∈ (a.exec sv).2) :
    ∃ cur, IsNews sv.store (a.exec sv).1.store b cur := by
  rcases sent_cases sv a with hnil | ⟨c, op, e, hw, hstore, hsent⟩ |
    ⟨c, m, changed, -, hm, -, hsent⟩
  · rw [hnil] at h
    exact absurd h not_mem_nil
  · rw [hsent] at h
    obtain rfl := mem_publishSent h
    refine ⟨e, by rw [hstore]; exact Store.lookup_written_self _ _ _, rfl, fun old hold => ?_⟩
    exact AliasEntry.key_lt_of_ver_lt (hw.ver_lt hold)
  · rw [hsent] at h
    obtain ⟨cur, hcur, hentry, hmoved⟩ := mem_republishAll_sent h
    exact ⟨cur, hcur, hentry, fun old hold =>
      lt_of_le_of_ne (hm.key_le hold hcur) (hmoved old hold)⟩

/-- A call broadcasts a name at most once. -/
theorem sent_names_nodup (sv : Service) (a : Step) : ((a.exec sv).2.map (·.name)).Nodup := by
  rcases sent_cases sv a with hnil | ⟨c, op, e, -, -, hsent⟩ | ⟨c, m, changed, -, -, hnd, hsent⟩
  · rw [hnil]; exact nodup_nil
  · rw [hsent]; exact (publishSent_names op.name e).nodup (nodup_singleton _)
  · rw [hsent]; exact (republishAll_names sv.store changed).nodup hnd

/-- **Repeats are silent.** A message or a table that brings nothing newer than
what is held is not broadcast. -/
theorem sent_eq_nil_of_known {m : MergeOp} (hop : a.op? sv = some (c, .merge m))
    (hknown : ∀ n r, m.incoming n = some r → ∃ held, sv.store.lookup n = some held ∧
      r.key ≤ held.key) : (a.exec sv).2 = [] := by
  refine eq_nil_iff_forall_not_mem.mpr fun b hb => ?_
  obtain ⟨cur, hcur, -, hnewer⟩ := isNews_of_mem_sent hb
  rw [Step.exec_store, hop] at hcur
  dsimp only [Op.exec] at hcur
  -- The name holds what it held, or the merge of it with something no newer.
  have hstay : ∃ held, sv.store.lookup b.name = some held ∧ cur.key = held.key := by
    rcases m.exec_cases sv.store c with ⟨err, hx⟩ | ⟨s', hx, hm⟩
    · rw [hx] at hcur
      exact ⟨cur, hcur, rfl⟩
    · rw [hx] at hcur
      rw [hm.lookup] at hcur
      cases hin : m.incoming b.name with
      | none =>
        rw [hin] at hcur
        exact ⟨cur, hcur, rfl⟩
      | some r =>
        obtain ⟨held, hheld, hle⟩ := hknown b.name r hin
        rw [hin, hheld, mergeInto_some, mergeEntry, if_neg (not_lt.mpr hle)] at hcur
        exact ⟨held, hheld, by rw [← Option.some.inj hcur]; rfl⟩
  obtain ⟨held, hheld, hk⟩ := hstay
  exact absurd (hnewer held hheld) (by rw [hk]; exact lt_irrefl _)

/-! ### Whole runs -/

/-- Everything a run of calls broadcasts, in order. -/
def broadcastsOf (sv : Service) : List Step → List AliasBroadcast
  | [] => []
  | a :: as => (a.exec sv).2 ++ (a.exec sv).1.broadcastsOf as

/-- A call that does not purge. -/
def Step.isPurge : Step → Bool
  | .purge _ => true
  | _ => false

/-- Without a purge, a name stays at least as new as it was. -/
theorem heldSince_step (ha : a.isPurge = false) {n : String} (h : HeldSince n old sv.store) :
    HeldSince n old (a.exec sv).1.store := by
  rw [Step.exec_store]
  cases hop : a.op? sv with
  | none => exact h
  | some p =>
    obtain ⟨c, op⟩ := p
    have hne : op ≠ .purge := by
      rintro rfl
      cases a with
      | purge c => cases ha
      | set v c name req =>
        simp only [Step.op?] at hop
        split at hop <;> simp at hop
      | delete | revert | notifyMsg | mergeRemoteState => simp [Step.op?] at hop
    exact h.exec (keepsName_of_ne_purge hne)

/-- What a run broadcasts of a name is newer than what the name held at its
start. -/
theorem newer_of_mem_broadcastsOf (hacts : ∀ a ∈ acts, a.isPurge = false)
    (hb : b ∈ sv.broadcastsOf acts) (hold : HeldSince b.name old sv.store) :
    old.key < b.entry.key := by
  induction acts generalizing sv with
  | nil => exact absurd hb not_mem_nil
  | cons a acts ih =>
    rcases mem_append.mp hb with hb | hb
    · obtain ⟨cur, -, hentry, hnewer⟩ := isNews_of_mem_sent hb
      obtain ⟨held, hheld, hle⟩ := hold
      have hk : b.entry.key = cur.key := by rw [hentry]; rfl
      rw [hk]
      exact hle.trans_lt (hnewer held hheld)
    · exact ih (fun a' ha' => hacts a' (mem_cons_of_mem _ ha')) hb
        (heldSince_step (hacts a mem_cons_self) hold)

/-- Over a run without purges, of two broadcasts of one name the later is newer. -/
theorem broadcastsOf_pairwise (sv : Service) (hacts : ∀ a ∈ acts, a.isPurge = false) :
    (sv.broadcastsOf acts).Pairwise fun b b' => b.name = b'.name → b.entry.key < b'.entry.key := by
  induction acts generalizing sv with
  | nil => exact List.Pairwise.nil
  | cons a acts ih =>
    have hrest : ∀ a' ∈ acts, a'.isPurge = false :=
      fun a' ha' => hacts a' (mem_cons_of_mem _ ha')
    refine pairwise_append.mpr ⟨?_, ih _ hrest, fun b hb b' hb' hname => ?_⟩
    · -- One call sends a name at most once.
      refine (pairwise_map.mp (sent_names_nodup sv a)).imp ?_
      intro b b' hne hname
      exact absurd hname hne
    · obtain ⟨cur, hcur, hentry, -⟩ := isNews_of_mem_sent hb
      have hk : b.entry.key = cur.key := by rw [hentry]; rfl
      rw [hk]
      refine newer_of_mem_broadcastsOf hrest hb' ⟨cur, ?_, le_refl _⟩
      rw [← hname]
      exact hcur

/-- **Alias gossip cannot storm.** Over every run of calls without a purge, the
broadcasts of one name have strictly increasing keys; a call that only brings
known versions broadcasts nothing, in whatever state; and no write is broadcast
twice. -/
theorem broadcasts_increasing (sv : Service) (acts : List Step)
    (hacts : ∀ a ∈ acts, a.isPurge = false) :
    ((sv.broadcastsOf acts).Pairwise fun b b' =>
        b.name = b'.name → compareAliasEntries b.entry b'.entry < 0) ∧
      (∀ (sv' : Service) (a : Step) (c : Call) (m : MergeOp),
        a.op? sv' = some (c, .merge m) →
        (∀ n r, m.incoming n = some r → ∃ held, sv'.store.lookup n = some held ∧
          compareAliasEntries r held ≤ 0) → (a.exec sv').2 = []) ∧
      ((sv.broadcastsOf acts).map fun b => (b.name, b.entry.ver, b.entry.ts, b.entry.byNode)).Nodup
    := by
  have hpair := broadcastsOf_pairwise sv hacts
  refine ⟨?_, fun sv' a c m hop hknown => ?_, ?_⟩
  · exact hpair.imp fun h hname => compareAliasEntries_neg_iff.mpr (h hname)
  · refine sent_eq_nil_of_known hop fun n r hr => ?_
    obtain ⟨held, hheld, hle⟩ := hknown n r hr
    exact ⟨held, hheld, not_lt.mp fun hlt => not_lt.mpr hle (compareAliasEntries_pos_iff.mpr hlt)⟩
  · refine pairwise_map.mpr (hpair.imp fun {b b'} h heq => ?_)
    simp only [Prod.mk.injEq] at heq
    obtain ⟨hname, hver, hts, hby⟩ := heq
    exact absurd (AliasEntry.key_eq_iff.mpr ⟨hver, hts, hby⟩) (ne_of_lt (h hname))

/-- A write, a newer message, the same message again and a pulled table with it:
two broadcasts. -/
theorem broadcasts_increasing_repeated_message :
    let view : View := { modelExists := fun x => x == "m1", pipelineNames := [], now := 1 }
    let newer : AliasEntry := { target := "m2", ver := 5, ts := 3, byNode := "y" }
    let msg : AliasBroadcast := { name := "chat", entry := newer }
    let acts : List Step := [.set view { now := 1 } "chat" ⟨"m1", [], false⟩,
      .notifyMsg { now := 2 } (some msg), .notifyMsg { now := 3 } (some msg),
      .mergeRemoteState { now := 4 } (some ⟨1, (∅ : AliasMap).insert "chat" newer⟩)]
    let sv : Service := { store := Store.empty "x", broadcasts := true, conflictOrder := [] }
    (sv.broadcastsOf acts).map (·.entry.ver) = [1, 5] ∧
      (sv.broadcastsOf acts).Pairwise fun b b' =>
        b.name = b'.name → compareAliasEntries b.entry b'.entry < 0 := by
  intro view newer msg acts sv
  exact ⟨by decide +kernel, (broadcasts_increasing sv acts (by decide)).1⟩

end Service

end Viiwork.Alias

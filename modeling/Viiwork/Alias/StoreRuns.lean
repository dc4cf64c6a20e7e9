import Viiwork.Lib.Run
import Viiwork.Alias.Convergence

/-!
# Viiwork.Alias.StoreRuns

What holds of one store over a whole run of its operations, the file writer
failing whenever it likes:

* **memory equals disk** (`run_memory_eq_disk`): the table in memory is the one
  of the last successful write, and an operation that errs changes nothing;
* **a write supersedes what its store has seen** (`run_write_supersedes`): the
  key of a name only grows, and a local write goes one version past it, as long
  as no purge removed the name on the way. A purge forgets the version: the next
  write starts at 1 again.
-/

namespace Viiwork.Alias

open Viiwork.Meshapi Viiwork.Lib Option Store

/-! ### Memory and disk -/

/-- The table of the last successful write, the empty one before the first. -/
def Store.lastWritten (s : Store) : AliasTable :=
  s.file.getD { v := aliasTableVersion, aliases := ∅ }

variable {s : Store} {c : Call} {op : Op}

/-- One operation keeps memory and disk equal. -/
theorem exec_memory_eq_disk (h : s.table = s.lastWritten) (c : Call) (op : Op) :
    (op.exec s c).1.table = (op.exec s c).1.lastWritten := by
  rcases op.exec_cases s c with ⟨err, hx⟩ | ⟨w, e, -, -, hx⟩ | ⟨m, s', -, hx, hm⟩ | ⟨-, hx | hx⟩
  · rw [hx]; exact h
  · rw [hx, lastWritten, written_file]; rfl
  · rw [hx]
    rcases hm.unchanged_or_flushed with rfl | hfile
    · exact h
    · rw [lastWritten, hfile]; rfl
  · rw [hx]; exact h
  · rw [hx, lastWritten, purged_file]; rfl

/-- An operation that errs leaves the store as it was. -/
theorem exec_error_unchanged {err : StoreErr} (h : (op.exec s c).2 = .error err) :
    (op.exec s c).1 = s := by
  rcases op.exec_cases s c with ⟨err, hx⟩ | ⟨w, e, -, -, hx⟩ | ⟨m, s', -, hx, -⟩ | ⟨-, hx | hx⟩
  · rw [hx]
  all_goals
    rw [hx] at h
    cases h

/-- **Memory equals disk.** A store opened on an empty directory, after any run
of operations with any of its writes failing: the table in memory is that of the
last successful write, the next operation keeps it so, and if it errs the table
is the one from before the call. -/
theorem run_memory_eq_disk (self : String) (c₀ : Call) (s₀ s : Store)
    (hopen : Store.openWith self .absent true c₀ = .ok s₀) (ops : List (Call × Op))
    (hrun : run Store.step s₀ ops = some s) (c : Call) (op : Op) :
    s.table = s.lastWritten ∧
      (op.exec s c).1.table = (op.exec s c).1.lastWritten ∧
      ∀ err, (op.exec s c).2 = .error err → (op.exec s c).1.table = s.table := by
  have hstart : s₀.table = s₀.lastWritten := by
    rw [openWith_absent] at hopen
    rw [← Except.ok.inj hopen]; rfl
  have hs : s.table = s.lastWritten :=
    run_invariant step (I := fun s => s.table = s.lastWritten)
      (fun s p s' hI _ hstep => by
        rw [← some.inj hstep]
        exact exec_memory_eq_disk hI p.1 p.2)
      hstart (runMeets_true step ops s₀) hrun
  refine ⟨hs, exec_memory_eq_disk hs c op, fun err herr => ?_⟩
  rw [exec_error_unchanged herr]

/-- A write, a failing delete and a pulled table: the run exists, and a further
failing delete errs and leaves memory and disk equal. -/
theorem run_memory_eq_disk_failing_delete :
    let code : AliasEntry := { target := "m2", ver := 4, ts := 3, byNode := "y" }
    let pulled : AliasTable := { v := 1, aliases := (∅ : AliasMap).insert "code" code }
    let ops : List (Call × Op) := [({ now := 1 }, .write (.set "chat" "m1" [])),
      ({ now := 2, writeOk := false }, .write (.delete "chat")),
      ({ now := 3 }, .merge (.mergeTable pulled))]
    let failing : Call := { now := 4, writeOk := false }
    let op : Op := .write (.delete "code")
    ∃ s, run Store.step (Store.empty "x") ops = some s ∧ (op.exec s failing).2.toBool = false ∧
      s.table = s.lastWritten ∧ (op.exec s failing).1.table = (op.exec s failing).1.lastWritten := by
  intro code pulled ops failing op
  have herr : ((run step (empty "x") ops).map fun s =>
      (op.exec s failing).2.toBool) = some false := by decide +kernel
  obtain ⟨s, hrun, hs⟩ := map_eq_some_iff.mp herr
  obtain ⟨hmem, hnext, -⟩ := run_memory_eq_disk "x" { now := 0 } (empty "x") s
    (openWith_absent "x" _) ops hrun failing op
  exact ⟨s, hrun, hs, hmem, hnext⟩

/-! ### Versions only grow -/

/-- The operation does not make the store forget the name. Only a purge can. -/
def KeepsName (n : String) (s : Store) (p : Call × Op) : Prop :=
  (s.lookup n).isSome = true → ((p.2.exec s p.1).1.lookup n).isSome = true

instance (n : String) (s : Store) (p : Call × Op) : Decidable (KeepsName n s p) :=
  inferInstanceAs (Decidable (_ = true → _ = true))

theorem keepsName_of_ne_purge {n : String} (h : op ≠ .purge) : KeepsName n s (c, op) := by
  intro hsome
  obtain ⟨b, hb⟩ := isSome_iff_exists.mp hsome
  rcases op.exec_cases s c with ⟨err, hx⟩ | ⟨w, e, -, -, hx⟩ | ⟨m, s', -, hx, hm⟩ | ⟨hp, -⟩
  · simp only [hx, hb]; rfl
  · simp only [hx, lookup_written]
    split
    · rfl
    · exact hsome
  · simp only [hx, hm.lookup, hb]
    cases m.incoming n <;> rfl
  · exact absurd hp h

/-- What arrives never makes a name older. -/
theorem key_le_mergeEntry (loc remote : AliasEntry) :
    loc.key ≤ (mergeEntry (some loc) remote).key := by
  unfold mergeEntry
  dsimp only
  split
  · rename_i hlt
    exact hlt.le
  · exact le_refl _

/-- A local write goes one version past what its name held. -/
theorem LocalWrite.ver_lt {op : LocalOp} {e prev : AliasEntry} (hw : LocalWrite s c op e)
    (hprev : s.lookup op.name = some prev) : prev.ver < e.ver := by
  have hver := hw.next.ver
  rw [hprev, getD_some] at hver
  omega

/-- The name holds an entry at least as new as `a`. -/
def HeldSince (n : String) (a : AliasEntry) (s : Store) : Prop :=
  ∃ b, s.lookup n = some b ∧ a.key ≤ b.key

/-- One operation that does not forget the name leaves it at least as new. -/
theorem HeldSince.exec {n : String} {a : AliasEntry} (h : HeldSince n a s)
    (hkeep : KeepsName n s (c, op)) : HeldSince n a (op.exec s c).1 := by
  obtain ⟨b, hb, hab⟩ := h
  rcases op.exec_cases s c with ⟨err, hx⟩ | ⟨w, e, -, hw, hx⟩ | ⟨m, s', -, hx, hm⟩ | ⟨-, hx | hx⟩
  · rw [hx]; exact ⟨b, hb, hab⟩
  · rw [hx]
    by_cases hn : w.name = n
    · subst hn
      have hlt := AliasEntry.key_lt_of_ver_lt (hw.ver_lt hb)
      exact ⟨e, lookup_written_self s _ e, hab.trans hlt.le⟩
    · exact ⟨b, by rw [lookup_written, if_neg hn, hb], hab⟩
  · rw [hx]
    have hmerged := hm.lookup n
    rw [hb] at hmerged
    cases hin : m.incoming n with
    | none =>
      rw [hin] at hmerged
      exact ⟨b, hmerged, hab⟩
    | some r =>
      rw [hin, mergeInto_some] at hmerged
      exact ⟨_, hmerged, hab.trans (key_le_mergeEntry b r)⟩
  · rw [hx]; exact ⟨b, hb, hab⟩
  · -- The purge kept the name, so it kept this very entry.
    have hsome : ((s.purged c).lookup n).isSome = true := by
      have hk : ((op.exec s c).1.lookup n).isSome = true := hkeep (by rw [hb]; rfl)
      rwa [hx] at hk
    obtain ⟨b', hb'⟩ := isSome_iff_exists.mp hsome
    obtain rfl : b = b' := some.inj (hb.symm.trans (lookup_purged_eq_some.mp hb').1)
    rw [hx]
    exact ⟨b, hb', hab⟩

/-- **A local write supersedes what its node has seen.** In every run whose
purges remove no entry of the name, the entry a `Set`, `Delete` or `Revert`
writes has a higher `Ver` than every entry the store held for that name before,
and so wins over any copy of it. -/
theorem run_write_supersedes (s₀ s' s : Store) (pre post : List (Call × Op)) (c : Call)
    (w : LocalOp) (e e' : AliasEntry)
    (hkeep : RunMeets Store.step (KeepsName w.name) s₀ (pre ++ post))
    (hpre : run Store.step s₀ pre = some s') (hheld : s'.lookup w.name = some e')
    (hrun : run Store.step s₀ (pre ++ post) = some s) (hw : LocalWrite s c w e) :
    e'.ver < e.ver ∧ compareAliasEntries e e' = 1 := by
  rw [run_append step hpre] at hrun
  obtain ⟨b, hb, hle⟩ : HeldSince w.name e' s :=
    run_invariant step (I := HeldSince w.name e')
      (fun s p s' hI hP hstep => by
        rw [← some.inj hstep]
        exact hI.exec hP)
      ⟨e', hheld, le_refl _⟩ (hkeep.append_right step hpre) hrun
  have hver : e'.ver < e.ver := (AliasEntry.ver_le_of_key_le hle).trans_lt (hw.ver_lt hb)
  exact ⟨hver, compareAliasEntries_eq_one (AliasEntry.key_lt_of_ver_lt hver)⟩

/-- A delete after a merged version 7 and a purge that removes nothing. -/
theorem run_write_supersedes_merged :
    let remote : AliasEntry := { target := "m2", ver := 7, ts := 90, byNode := "y" }
    let pre : List (Call × Op) := [({ now := 1 }, .write (.set "chat" "m1" [])),
      ({ now := 2 }, .merge (.merge "chat" remote))]
    let post : List (Call × Op) := [({ now := 3 }, .purge)]
    ∃ s e, run Store.step (Store.empty "x") (pre ++ post) = some s ∧
      (LocalOp.delete "chat").exec s { now := 4 } = (s.written "chat" e, .ok e) ∧ 7 < e.ver := by
  intro remote pre post
  have hheld : ((run step (empty "x") pre).bind fun s => s.lookup "chat") =
      some { remote with history := [{ target := "m1", fallbacks := [], ts := 1, byNode := "x" }] } :=
    by decide +kernel
  obtain ⟨s', hpre, he'⟩ := bind_eq_some_iff.mp hheld
  have hok : ((run step (empty "x") (pre ++ post)).map fun s =>
      ((LocalOp.delete "chat").exec s { now := 4 }).2.toBool) = some true := by decide +kernel
  obtain ⟨s, hrun, hs⟩ := map_eq_some_iff.mp hok
  rcases (LocalOp.delete "chat").exec_cases s { now := 4 } with ⟨err, hx⟩ | ⟨e, hw⟩
  · rw [hx] at hs
    cases hs
  · have hlt := run_write_supersedes (empty "x") s' s pre post { now := 4 }
      (.delete "chat") e _ (by decide +kernel) hpre he' hrun hw
    exact ⟨s, e, hrun, hw.exec, hlt.1⟩

/-- A tombstone of version 2 is purged after its TTL, and the next `Set` of the
name writes version 1: a copy of the tombstone wins over it. -/
theorem run_purge_forgets_version :
    let deleted : List (Call × Op) := [({ now := 1 }, .write (.set "chat" "m1" [])),
      ({ now := 2 }, .write (.delete "chat"))]
    let rewritten : List (Call × Op) := deleted ++ [({ now := 2592000010 }, .purge),
      ({ now := 2592000020 }, .write (.set "chat" "m2" []))]
    let tomb : AliasEntry :=
      { ver := 2, ts := 2, byNode := "x", deleted := true,
        history := [{ target := "m1", fallbacks := [], ts := 1, byNode := "x" }] }
    let new : AliasEntry := { target := "m2", ver := 1, ts := 2592000020, byNode := "x" }
    ((run step (empty "x") deleted).bind fun s => s.lookup "chat") = some tomb ∧
      ((run step (empty "x") rewritten).bind fun s => s.lookup "chat") = some new ∧
      new.ver ≤ tomb.ver ∧ compareAliasEntries tomb new = 1 :=
  ⟨by decide +kernel, by decide +kernel, by decide, by decide⟩

end Viiwork.Alias

import Viiwork.Enginesync.Acts
import Viiwork.Lib.Run
import Viiwork.Update.Order

/-!
# Viiwork.Enginesync.Downgrade

The downgrade rule over whole histories. The helper judges a move by the tag in the compose file
and by its record alone. What follows for every number of runs, stopped or not, and whatever the
node writes: a release that this host has not run is prepared, written into the compose file and
brought up only when it is at least as new as every release that the file has named since it was
last moved back (`never_older`). Going back to a release that ran here lowers the bar, so that is
less than the newest release that ever ran (`older_than_newest`).
-/

namespace Viiwork.Enginesync

open Viiwork.Lib Viiwork.Update Relation List Machine

/-! ### What the log says -/

/-- The releases that the helper brought up, newest first. -/
def ups : List Event → List String
  | [] => []
  | .up v :: log => v :: ups log
  | _ :: log => ups log

/-- The releases that this host has run. -/
def hostRan (installed : String) (log : List Event) : List String := installed :: ups log

/-- The tag in the compose file. -/
def tagOf (installed : String) : List Event → String
  | [] => installed
  | .write _ v :: _ => v
  | .putBack _ :: .write was _ :: _ => was
  | _ :: log => tagOf installed log

/-- The tags that the compose file has named since it was last moved back, newest first. A swap
that was put back is as if it had not been. -/
def named (installed : String) : List Event → List String
  | [] => [installed]
  | .write was v :: log => if atLeast v was then v :: named installed log else [v]
  | .putBack _ :: .write _ _ :: log => named installed log
  | _ :: log => named installed log

/-- The host may move to the version: it has run it, or it is at least as new as the tag in the
compose file and as every release that the file has named since it was last moved back. -/
def Allowed (installed : String) (log : List Event) (v : String) : Prop :=
  v ∈ hostRan installed log ∨ atLeast v (tagOf installed log) = true ∧
    ∀ t ∈ named installed log, validVersion t = true → atLeast v t = true

/-- Every event has what it needs in the log before it. -/
def Lawful (installed : String) : List Event → Prop
  | [] => True
  | .prepare v :: log => Allowed installed log v ∧ Lawful installed log
  | .write was v :: log =>
    (was = tagOf installed log ∧ was ≠ v ∧ validVersion v = true ∧ Allowed installed log v) ∧
      Lawful installed log
  | .up v :: log => (∃ was earlier, log = .write was v :: earlier) ∧ Lawful installed log
  | .putBack v :: log => (∃ was earlier, log = .write was v :: earlier) ∧ Lawful installed log
  | .record :: log => Lawful installed log

/-- The compose file is as it was installed. -/
def Untouched (log : List Event) : Prop := ∀ was v, Event.write was v ∉ log

section Log

variable {c v t : String} {log : List Event} {e : Event}

theorem lawful_tail (h : Lawful c (e :: log)) : Lawful c log := by
  cases e with
  | record => exact h
  | _ => exact h.2

theorem lawful_of_suffix {log' : List Event} (h : Lawful c log) (hsuffix : log' <:+ log) :
    Lawful c log' := by
  obtain ⟨pre, rfl⟩ := hsuffix
  induction pre with
  | nil => exact h
  | cons e pre ih => exact ih (lawful_tail h)

theorem Untouched.note (h : Untouched log) (he : ∀ was v, e ≠ .write was v) :
    Untouched (e :: log) := by
  intro was v hmem
  rcases mem_cons.1 hmem with heq | hmem
  · exact he was v heq.symm
  · exact h was v hmem

theorem Untouched.eq (hlog : Lawful c log) (h : Untouched log) :
    tagOf c log = c ∧ ups log = [] := by
  induction log with
  | nil => exact ⟨rfl, rfl⟩
  | cons e log ih =>
    have htail := ih (lawful_tail hlog) fun was v hmem => h was v (mem_cons_of_mem e hmem)
    cases e with
    | prepare | record => exact htail
    | write was v => exact absurd mem_cons_self (h was v)
    | up v | putBack v =>
      obtain ⟨⟨was, earlier, rfl⟩, -⟩ := hlog
      exact absurd (mem_cons_of_mem _ mem_cons_self) (h was v)

theorem atLeast_trans {a b d : String} (ha : validVersion a = true) (hb : validVersion b = true)
    (hd : validVersion d = true) (hab : atLeast a b = true) (hbd : atLeast b d = true) :
    atLeast a d = true := by
  obtain ⟨x, hx, hx'⟩ := (Option.any_eq_true _ _).1 hab
  obtain ⟨y, hy, hy'⟩ := (Option.any_eq_true _ _).1 hbd
  obtain ⟨z, hz, hz'⟩ :=
    compare_trans ha hb hd hx (of_decide_eq_true hx') hy (of_decide_eq_true hy')
  exact (Option.any_eq_true _ _).2 ⟨z, hz, decide_eq_true hz'⟩

/-- The tag in the file is the newest of those it has named since it was last moved back. -/
theorem le_tagOf (hlog : Lawful c log) (ht : t ∈ named c log) (hvalid : validVersion t = true) :
    t = tagOf c log ∨ validVersion (tagOf c log) = true ∧ atLeast (tagOf c log) t = true := by
  fun_induction named c log with
  | case1 | case3 => exact .inl (mem_singleton.1 ht)
  | case2 was v log hat ih =>
    obtain ⟨⟨rfl, -, hv, -⟩, htail⟩ := hlog
    rcases mem_cons.1 ht with rfl | ht
    · exact .inl rfl
    · rcases ih htail ht with rfl | ⟨htag, hle⟩
      · exact .inr ⟨hv, hat⟩
      · exact .inr ⟨hv, atLeast_trans hv htag hvalid hat hle⟩
  | case4 _ was v log ih =>
    obtain ⟨-, ⟨⟨rfl, -⟩, htail⟩⟩ := hlog
    exact ih htail ht
  | case5 e log hwrite hback ih =>
    have htag : tagOf c (e :: log) = tagOf c log := by
      rw [tagOf]
      · exact hwrite
      · exact hback
    rw [htag]
    exact ih (lawful_tail hlog) ht

/-- **The rule.** What the record knows is true, so a move that passes is allowed. -/
theorem allowed_of_mayMoveTo {r : Record} (hlog : Lawful c log) (hvalid : validVersion v = true)
    (hknows : ∀ v, r.ran v = true → validVersion v = true → v ∈ hostRan c log)
    (hmay : r.mayMoveTo (tagOf c log) v = .ok ()) : Allowed c log v := by
  unfold Record.mayMoveTo at hmay
  split_ifs at hmay with hmoves
  rcases hmoves with hat | hran
  · refine .inr ⟨hat, fun t ht htvalid => ?_⟩
    rcases le_tagOf hlog ht htvalid with rfl | ⟨htag, hle⟩
    · exact hat
    · exact atLeast_trans hvalid htag htvalid hat hle
  · exact .inl (hknows v hran hvalid)

/-- A release that could be compared is at least itself. -/
theorem atLeast_self (hvalid : validVersion v = true) (h : atLeast v t = true) :
    atLeast v v = true := by
  obtain ⟨x, hx, -⟩ := (Option.any_eq_true _ _).1 h
  obtain ⟨p, hp, -⟩ := Option.bind_eq_some_iff.1 hx
  have hswap := threeWay_order.swap (unsigned_of_valid hvalid hp) (unsigned_of_valid hvalid hp)
  exact (Option.any_eq_true _ _).2 ⟨_, compare_eq hp hp, decide_eq_true (by omega)⟩

/-- What was allowed when it was written is allowed when it is brought up. -/
theorem Allowed.written {was : String} (hvalid : validVersion v = true) (h : Allowed c log v) :
    Allowed c (.write was v :: log) v := by
  rcases h with hran | ⟨hat, hall⟩
  · exact .inl hran
  · have hself := atLeast_self hvalid hat
    refine .inr ⟨hself, fun t ht htvalid => ?_⟩
    rw [named] at ht
    split_ifs at ht
    · rcases mem_cons.1 ht with rfl | ht
      · exact hself
      · exact hall t ht htvalid
    · rw [mem_singleton.1 ht]
      exact hself

/-- The release that an event is about. -/
def Event.moves (v : String) : Event → Prop
  | .prepare u | .write _ u | .up u => u = v
  | .putBack _ | .record => False

theorem allowed_of_lawful (hlog : Lawful c (e :: log)) (hmoves : e.moves v) : Allowed c log v := by
  cases e with
  | prepare u =>
    cases hmoves
    exact hlog.1
  | write was u =>
    cases hmoves
    exact hlog.1.2.2.2
  | up u =>
    cases hmoves
    obtain ⟨⟨was, earlier, rfl⟩, ⟨-, -, hvalid, hallowed⟩, -⟩ := hlog
    exact hallowed.written hvalid
  | putBack | record => cases hmoves

end Log

/-! ### What the helper knows -/

/-- A record that agrees with the log. -/
structure Knows (c : String) (r : Record) (log : List Event) : Prop where
  fresh : r.original = "" → Untouched log
  original : r.original ≠ "" → r.original = c
  history : r.history ⊆ ups log

/-- The helper's record and the host agree with the log, and the log is lawful. -/
structure Safe (c : Image) (r : Record) (m : Machine) : Prop where
  lawful : Lawful c.tag m.log
  repo : m.compose.repo = c.repo
  tag : m.compose.tag = tagOf c.tag m.log
  knows : Knows c.tag r m.log
  saved : Knows c.tag m.loadRecord m.log
  /-- An install without a tag is left alone. -/
  untagged : c.tag = "" → Untouched m.log

section Safe

variable {c : Image} {r : Record} {m : Machine} {v : String}

theorem valid_ne_empty (h : validVersion v = true) : v ≠ "" := by
  rintro rfl
  revert h
  decide +kernel

variable {log : List Event} {st : NodeState} {a b : Record × Machine}

theorem Knows.ran {c : String} (h : Knows c r log) (hran : r.ran v = true)
    (hvalid : validVersion v = true) : v ∈ hostRan c log := by
  rcases Bool.or_eq_true_iff.1 hran with heq | hmem
  · have heq := beq_iff_eq.1 heq
    rw [heq, h.original (heq ▸ valid_ne_empty hvalid)]
    exact mem_cons_self
  · exact mem_cons_of_mem _ (h.history (contains_iff_mem.1 hmem))

theorem Safe.allowed (h : Safe c r m) (hvalid : validVersion v = true)
    (hmay : r.mayMoveTo m.compose.tag v = .ok ()) : Allowed c.tag m.log v := by
  rw [h.tag] at hmay
  exact allowed_of_mayMoveTo h.lawful hvalid (fun _ => h.knows.ran) hmay

theorem atLeast_empty (v : String) : atLeast v "" = false := by
  have hnone : parse "" = none := by decide +kernel
  rw [atLeast, Update.compare, hnone]
  cases parse v <;> rfl

/-- Before the first swap the install's own tag is known. -/
theorem Safe.original_ne (h : Safe c r m) (hadopted : Adopted r m) (hvalid : validVersion v = true)
    (hmay : r.mayMoveTo m.compose.tag v = .ok ()) : c.tag ≠ "" ∧ r.original ≠ "" := by
  have htag : c.tag ≠ "" := by
    intro hempty
    obtain ⟨htag, hups⟩ := (h.untagged hempty).eq h.lawful
    rcases h.allowed hvalid hmay with hran | ⟨hat, -⟩
    · rw [hostRan, hups, hempty] at hran
      exact valid_ne_empty hvalid (mem_singleton.1 hran)
    · rw [htag, hempty, atLeast_empty] at hat
      cases hat
  refine ⟨htag, fun horiginal => htag ?_⟩
  rw [← ((h.knows.fresh horiginal).eq h.lawful).1, ← h.tag]
  exact hadopted.known horiginal

/-! ### Acts -/

/-- The record stays true when events are added that bring nothing up. -/
theorem Knows.write {c was : String} (h : Knows c r log) (hne : r.original ≠ "") :
    Knows c r (.write was v :: log) :=
  ⟨fun horiginal => absurd horiginal hne, h.original, h.history⟩

theorem Knows.note {c : String} {e : Event} (h : Knows c r log) (he : ∀ was v, e ≠ .write was v) :
    Knows c r (e :: log) := by
  refine ⟨fun horiginal => (h.fresh horiginal).note he, h.original, fun u hu => ?_⟩
  have hu := h.history hu
  cases e with
  | up v => exact mem_cons_of_mem v hu
  | prepare | write | putBack | record => exact hu

theorem addHistory_subset : (r.addHistory v).history ⊆ v :: r.history := by
  intro u hu
  have hu := mem_of_mem_drop hu
  rcases mem_append.1 hu with hu | hu
  · exact mem_cons_of_mem _ (mem_of_mem_filter hu)
  · exact mem_cons.2 (.inl (mem_singleton.1 hu))

/-- **Step lemma.** -/
theorem Safe.act (h : Safe c a.1 a.2) (hact : Act st a b) : Safe c b.1 b.2 := by
  cases hact with
  | keep horiginal hhistory =>
    refine { h with knows := ⟨?_, ?_, ?_⟩ }
    · rw [horiginal]
      exact h.knows.fresh
    · rw [horiginal]
      exact h.knows.original
    · rw [hhistory]
      exact h.knows.history
  | adopt hnone himg =>
    have hfresh := h.knows.fresh hnone
    refine { h with knows := ⟨fun _ => hfresh, fun _ => ?_, h.knows.history⟩ }
    rw [composeImage_eq_ok himg]
    exact h.tag.trans (hfresh.eq h.lawful).1
  | save =>
    exact ⟨h.lawful, h.repo, h.tag, h.knows.note nofun, h.knows.note nofun,
      fun htag => (h.untagged htag).note nofun⟩
  | backup | result => exact ⟨h.lawful, h.repo, h.tag, h.knows, h.saved, h.untagged⟩
  | prepare hvalid hmay =>
    exact ⟨⟨h.allowed hvalid hmay, h.lawful⟩, h.repo, h.tag, h.knows.note nofun,
      h.saved.note nofun, fun htag => (h.untagged htag).note nofun⟩
  | write hadopted htarget hne hvalid hmay =>
    obtain ⟨htag, horiginal⟩ := h.original_ne hadopted hvalid hmay
    exact ⟨⟨⟨h.tag, hne.symm, hvalid, h.allowed hvalid hmay⟩, h.lawful⟩, h.repo, rfl,
      h.knows.write horiginal, h.saved.write (hadopted.saved ▸ horiginal),
      fun hempty => absurd hempty htag⟩
  | @up _ _ v =>
    have hknows := h.knows.note (e := .up v) nofun
    refine ⟨⟨⟨_, _, rfl⟩, h.lawful⟩, h.repo, h.tag,
      ⟨hknows.fresh, hknows.original, fun u hu => ?_⟩, h.saved.note nofun,
      fun htag => (h.untagged htag).note nofun⟩
    rcases mem_cons.1 (addHistory_subset hu) with rfl | hu
    · exact mem_cons_self
    · exact hknows.history hu
  | putBack =>
    exact ⟨⟨⟨_, _, rfl⟩, h.lawful⟩, h.repo, rfl, h.knows.note nofun, h.saved.note nofun,
      fun htag => (h.untagged htag).note nofun⟩

theorem Safe.acts (h : Safe c a.1 a.2) (hacts : Acts st a b) : Safe c b.1 b.2 := by
  induction hacts with
  | refl => exact h
  | tail _ hact ih => exact ih.act hact

/-! ### Runs -/

/-- The host between two runs, where only what is saved is left. -/
theorem Safe.load (h : Safe c r m) : Safe c m.loadRecord m := { h with knows := h.saved }

variable {m' : Machine} {S : NodeState → Prop}

theorem Safe.part (h : Safe c m.loadRecord m) (hacts : Acts st (m.loadRecord, m) (r, m')) :
    Safe c r m' :=
  Safe.acts (a := (m.loadRecord, m)) h hacts

theorem Safe.passes (h : Safe c m.loadRecord m)
    (hpasses : ReflTransGen (fun m m' => ∃ st, S st ∧ Whole st m m') m m') :
    Safe c m'.loadRecord m' := by
  induction hpasses with
  | refl => exact h
  | tail _ hwhole ih =>
    obtain ⟨st, -, r, m₁, hacts, rfl⟩ := hwhole
    exact (ih.part (hacts.tail .save)).load

/-- **Run lemma.** -/
theorem Safe.stopped (h : Safe c m.loadRecord m) (hstopped : Stopped S m m') :
    Safe c m'.loadRecord m' := by
  obtain ⟨m₁, hpasses, rfl | ⟨st, -, r, hacts⟩⟩ := hstopped
  · exact h.passes hpasses
  · exact ((h.passes hpasses).part hacts).load

theorem safe_new (c : Image) : Safe c (new c).loadRecord (.new c) where
  lawful := trivial
  repo := rfl
  tag := rfl
  knows := ⟨fun _ _ _ => not_mem_nil, fun hne => absurd rfl hne, List.Subset.refl _⟩
  saved := ⟨fun _ _ _ => not_mem_nil, fun hne => absurd rfl hne, List.Subset.refl _⟩
  untagged := fun _ _ _ => not_mem_nil

theorem safe_of_run {runs : List SyncRun} (hrun : run step (.new c) runs = some m) :
    Safe c m.loadRecord m := by
  refine run_invariant step (I := fun m => Safe c m.loadRecord m)
    (fun m a m' h _ hstep => ?_) (safe_new c) (runMeets_true step runs _) hrun
  cases hstep
  exact h.stopped (stopped_of_leaves (S := fun _ => True) fun _ _ _ => trivial)

end Safe

/-- **No release that is older than the compose file's is taken in.** Over any number of runs,
each of them stopped anywhere or not at all, and whatever the node's files hold: a release that is
prepared, written into the compose file or brought up has run on this host, or it is at least as
new as the tag in the compose file and as every release that the file has named since it was last
moved back. -/
theorem never_older {c : Image} {runs : List SyncRun} {m : Machine}
    (hrun : run step (.new c) runs = some m) {e : Event} {earlier : List Event}
    (hevent : e :: earlier <:+ m.log) {v : String} (hmoves : e.moves v) :
    v ∈ hostRan c.tag earlier ∨ atLeast v (tagOf c.tag earlier) = true ∧
      ∀ t ∈ named c.tag earlier, validVersion t = true → atLeast v t = true :=
  allowed_of_lawful (lawful_of_suffix (safe_of_run hrun).lawful hevent) hmoves

/-! ### A host that was moved back -/

/-- An image that can be prepared. -/
def soundImage : Preparation where
  verified := .ok "5891b5b5"
  binary := .ok "5891b5b5"
  digests := ["ghcr.io/janit/viiwork-vllm@sha256:03ba204e"]

/-- A run that finds the version in the node's state and meets no trouble. -/
def visit (v : String) : SyncRun where
  world := {
    pass := fun _ => {
      state := .holds ⟨v, v, ""⟩
      forRequest := soundImage
      forSwap := soundImage
      stateAfter := .holds ⟨v, v, ""⟩ } }

/-- The install's own image. -/
def vllm (tag : String) : Image := ⟨"ghcr.io/janit/viiwork-vllm", tag⟩

theorem never_older_visit :
    ∃ m earlier, run step (.new (vllm "v1.0.0")) [visit "v1.2.0"] = some m ∧
      .up "v1.2.0" :: earlier <:+ m.log ∧
      ("v1.2.0" ∈ hostRan "v1.0.0" earlier ∨ atLeast "v1.2.0" (tagOf "v1.0.0" earlier) = true ∧
        ∀ t ∈ named "v1.0.0" earlier, validVersion t = true → atLeast "v1.2.0" t = true) := by
  have hevent : .up "v1.2.0" :: [.write "v1.0.0" "v1.2.0", .prepare "v1.2.0", .record] <:+
      ((visit "v1.2.0").leaves (.new (vllm "v1.0.0"))).log := by decide +kernel
  have hrun : run step (.new (vllm "v1.0.0")) [visit "v1.2.0"] = some _ := rfl
  exact ⟨_, _, hrun, hevent, never_older hrun hevent rfl⟩

/-- **The bar is lowered by going back.** The host ran `v1.2.0` and was moved back to its install's
`v1.0.0`; then `v1.1.0`, which is older than `v1.2.0` and has never run here, passes. -/
theorem older_than_newest :
    ∃ m earlier, run step (.new (vllm "v1.0.0"))
        [visit "v1.2.0", visit builtin, visit "v1.1.0"] = some m ∧
      .up "v1.1.0" :: earlier <:+ m.log ∧ "v1.1.0" ∉ hostRan "v1.0.0" earlier ∧
      "v1.2.0" ∈ hostRan "v1.0.0" earlier ∧ Update.compare "v1.1.0" "v1.2.0" = some (-1) := by
  let back := (visit builtin).leaves ((visit "v1.2.0").leaves (.new (vllm "v1.0.0")))
  refine ⟨_, ((visit "v1.1.0").leaves back).log.drop 3, rfl, ?_⟩
  decide +kernel

end Viiwork.Enginesync

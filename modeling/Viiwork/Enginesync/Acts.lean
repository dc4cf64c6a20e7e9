import Viiwork.Enginesync.Sync

/-!
# Viiwork.Enginesync.Acts

What a run of the helper can do, said once. `Act` has one constructor for each thing that it does
to its record and to the host, with what was checked before; a pass is a chain of them that starts
from the saved record, and a run is whole passes and the beginning of another (`stopped_of_leaves`,
`synced_of_run`).
-/

namespace Viiwork.Enginesync

open Viiwork.Lib Viiwork.Update Prog Relation

/-! ### Single acts -/

/-- The install's own tag is in the record, and saved. -/
structure Adopted (r : Record) (m : Machine) : Prop where
  saved : m.loadRecord.original = r.original
  known : r.original = "" → m.compose.tag = ""

/-- What the helper does in a pass that has read `st`. -/
inductive Act (st : NodeState) : Record × Machine → Record × Machine → Prop
  /-- Nothing that decides where the host may move. -/
  | keep {r r' : Record} {m : Machine} (horiginal : r'.original = r.original)
      (hhistory : r'.history = r.history) : Act st (r, m) (r', m)
  | adopt {r : Record} {m : Machine} {img : Image} (hnone : r.original = "")
      (himg : m.composeImage = .ok img) : Act st (r, m) ({ r with original := img.tag }, m)
  | save {r : Record} {m : Machine} : Act st (r, m) (r, m.saveRecord r)
  | backup {r : Record} {m : Machine} {img : Image} :
      Act st (r, m) (r, { m with backup := some img })
  | result {r : Record} {m : Machine} {res : ImageResult} :
      Act st (r, m) (r, { m with result := some res })
  | prepare {r : Record} {m : Machine} {v : String} (hvalid : validVersion v = true)
      (hmay : r.mayMoveTo m.compose.tag v = .ok ()) : Act st (r, m) (r, m.note (.prepare v))
  | write {r : Record} {m : Machine} {v : String} (hadopted : Adopted r m)
      (htarget : v = r.target st) (hne : v ≠ m.compose.tag) (hvalid : validVersion v = true)
      (hmay : r.mayMoveTo m.compose.tag v = .ok ()) : Act st (r, m) (r, m.writeTag m.compose v)
  | up {r : Record} {m : Machine} {v : String} :
      Act st (r, m.writeTag m.compose v) (r.addHistory v, (m.writeTag m.compose v).note (.up v))
  | putBack {r : Record} {m : Machine} {v : String} :
      Act st (r, m.writeTag m.compose v) (r, (m.writeTag m.compose v).putBack m.compose v)

/-- A chain of acts. -/
abbrev Acts (st : NodeState) : Record × Machine → Record × Machine → Prop := ReflTransGen (Act st)

/-- The part of a pass up to a stop. -/
def Part (st : NodeState) (m m' : Machine) : Prop := ∃ r, Acts st (m.loadRecord, m) (r, m')

/-- A whole pass: its last act saves the record. -/
def Whole (st : NodeState) (m m' : Machine) : Prop :=
  ∃ r m₁, Acts st (m.loadRecord, m) (r, m₁) ∧ m' = m₁.saveRecord r

/-- Passes that have read states of `S`, and then a part of one. -/
def Stopped (S : NodeState → Prop) (m m' : Machine) : Prop :=
  ∃ m₁, ReflTransGen (fun m m' => ∃ st, S st ∧ Whole st m m') m m₁ ∧
    (m' = m₁ ∨ ∃ st, S st ∧ Part st m₁ m')

/-- A pass without errors has the tag that its state asks for. -/
def Followed (st : NodeState) (m m' : Machine) : Prop :=
  ∃ r m₁, Acts st (m.loadRecord, m) (r, m₁) ∧ m' = m₁.saveRecord r ∧
    m'.compose.tag = r.target st

/-- A run that ends without an error. -/
def Synced (S : NodeState → Prop) (m m' : Machine) : Prop :=
  ∃ m₁ st, ReflTransGen (fun m m' => ∃ st, S st ∧ Whole st m m') m m₁ ∧ S st ∧ Followed st m₁ m'

theorem target_eq {r r' : Record} (h : r'.original = r.original) (st : NodeState) :
    r'.target st = r.target st := by
  rw [Record.target, Record.target, h]

variable {m : Machine} {st : NodeState}

theorem Adopted.congr {r r' : Record} {m' : Machine} (h : Adopted r m)
    (horiginal : r'.original = r.original) (hsaved : m'.loadRecord = m.loadRecord)
    (hcompose : m'.compose = m.compose) : Adopted r' m' := by
  constructor
  · rw [hsaved, horiginal]
    exact h.saved
  · rw [hcompose, horiginal]
    exact h.known

theorem composeImage_eq_ok {img : Image} (h : m.composeImage = .ok img) : img = m.compose := by
  unfold Machine.composeImage at h
  split_ifs at h
  cases h
  rfl

/-! ### The functions of a pass -/

section Programs

variable {st : NodeState} {start : Record × Machine} {p : Pass} {r : Record} {m : Machine}

/-- Every operation is an act, and so is what it leaves. -/
def Within (st : NodeState) (start : Record × Machine) (m m' : Machine) : Prop :=
  (∃ r, Acts st start (r, m)) ∧ ∃ r, Acts st start (r, m')

/-- A function of a pass does acts and returns the record they lead to. -/
abbrev Does {α : Type} (st : NodeState) (start : Record × Machine)
    (prog : Prog Machine String α) (Q : α → Machine → Prop) (m : Machine) : Prop :=
  prog.Wp (Within st start) (fun _ m => ∃ r, Acts st start (r, m)) Q m

theorem does_write {r' : Record} {o : Outcome} {f : Machine → Machine}
    {Q : Except String Unit → Machine → Prop} (h : Acts st start (r, m))
    (h' : Acts st start (r', f m)) (hdone : Q (.ok ()) (f m))
    (hfailed : ∀ text, Q (.error text) m ∧ Q (.error text) (f m)) :
    Does st start (write o f) Q m := by
  have hwithin : Within st start m (f m) := ⟨⟨r, h⟩, r', h'⟩
  unfold write
  split
  · exact ⟨hwithin, hdone⟩
  · exact ⟨hwithin, (hfailed _).2⟩
  · exact (hfailed _).1

theorem outcome_same (p : Preparation) (repo version : String) (r : Record) :
    (p.outcome repo version r).1.original = r.original ∧
      (p.outcome repo version r).1.history = r.history := by
  unfold Preparation.outcome
  split
  · exact ⟨rfl, rfl⟩
  · dsimp only
    split
    · exact ⟨rfl, rfl⟩
    · split
      · exact ⟨rfl, rfl⟩
      · exact ⟨rfl, rfl⟩

variable {v : String} {req : ImageRequest}

/-- Preparing is an act, and changes nothing in the record but what was pulled. -/
theorem does_prepare {pr : Preparation} {repo : String} (h : Acts st start (r, m))
    (hvalid : validVersion v = true) (hmay : r.mayMoveTo m.compose.tag v = .ok ())
    {Q : Record × Except String Prepared → Machine → Prop}
    (hQ : ∀ r' got, r'.original = r.original → r'.history = r.history →
      Acts st start (r', m.note (.prepare v)) → Q (r', got) (m.note (.prepare v))) :
    Does st start (prepare pr repo v r) Q m := by
  have hprepare := h.tail (Act.prepare hvalid hmay)
  obtain ⟨horiginal, hhistory⟩ := outcome_same pr repo v r
  exact ⟨⟨⟨r, h⟩, r, hprepare⟩,
    hQ _ _ horiginal hhistory (hprepare.tail (.keep horiginal hhistory))⟩

theorem request_eq_some {f : NodeFile ImageRequest} (h : request f = some req) :
    validVersion req.version = true := by
  unfold request at h
  split at h
  · split_ifs at h with hvalid
    cases h
    exact (Bool.and_eq_true _ _ ▸ hvalid).1
  all_goals cases h

section

variable (h : Acts st start (r, m))
include h

theorem does_prepareAsked (hr : Adopted r m) (hvalid : validVersion req.version = true) :
    Does st start (prepareAsked p req r)
      (fun out m => Acts st start (out.1, m) ∧ Adopted out.1 m) m := by
  unfold prepareAsked
  rw [Does, wp_bind, wp_get]
  split
  · exact ⟨h, hr⟩
  · rename_i img himg
    split
    · exact ⟨h, hr⟩
    · rename_i hmay
      rw [composeImage_eq_ok himg] at hmay
      rw [wp_bind]
      refine does_prepare h hvalid hmay fun r' got horiginal _ hacts => ?_
      cases got with
      | error text => exact ⟨hacts, hr.congr horiginal rfl rfl⟩
      | ok got => exact ⟨hacts.tail (.keep rfl rfl), hr.congr horiginal rfl rfl⟩

theorem does_answer (hr : Adopted r m) :
    Does st start (answer p r) (fun out m => Acts st start (out.1, m) ∧ Adopted out.1 m) m := by
  unfold answer
  split
  · exact ⟨h, hr⟩
  · rename_i req hreq
    split_ifs
    · exact ⟨h, hr⟩
    · rw [Does, wp_bind]
      refine (does_prepareAsked h hr (request_eq_some hreq)).mono (fun _ _ h => h)
        (fun _ _ h => h) ?_
      rintro ⟨r', got⟩ m' ⟨hacts, hr'⟩
      rw [wp_bind]
      have hresult : Acts st start (r', { m' with result := some (imageResult req got) }) :=
        hacts.tail .result
      exact does_write hacts hresult ⟨hresult, hr'.congr rfl rfl rfl⟩ fun text =>
        ⟨⟨hacts, hr'⟩, hresult, hr'.congr rfl rfl rfl⟩

/-- A swap that works leaves the new tag in the file and the project up on it; one that does not
has done acts. -/
theorem does_swap (hr : Adopted r m) (htarget : v = r.target st) (hne : v ≠ m.compose.tag)
    (hvalid : validVersion v = true) (hmay : r.mayMoveTo m.compose.tag v = .ok ()) :
    Does st start (swap p m.compose v) (fun out m' =>
      match out with
      | .error _ => Acts st start (r, m')
      | .ok _ => Acts st start (r.addHistory v, m') ∧ m'.compose.tag = v) m := by
  have hbackup : Acts st start (r, { m with backup := some m.compose }) := h.tail .backup
  have hwrite := hbackup.tail (Act.write (hr.congr rfl rfl rfl) htarget hne hvalid hmay)
  unfold swap
  rw [Does, wp_bind]
  refine does_write h hbackup ?_ fun text => ⟨h, hbackup⟩
  rw [wp_bind]
  refine does_write hbackup hwrite ?_ fun text => ⟨hbackup, hwrite⟩
  dsimp only
  split
  · have hup := hwrite.tail Act.up
    exact ⟨⟨⟨r, hwrite⟩, r.addHistory v, hup⟩, hup, rfl⟩
  · have hback := hwrite.tail Act.putBack
    rw [wp_bind]
    exact does_write hwrite hback hback fun text => ⟨hwrite, hback⟩

theorem does_follow {cli : Bool} (hr : Adopted r m) :
    Does st start (follow cli p st r) (fun out m' => Acts st start (out.1, m') ∧
      (out.2 = .ok () → m'.compose.tag = out.1.target st)) m := by
  unfold follow
  rw [Does, wp_bind, wp_get]
  split
  · exact ⟨h, nofun⟩
  · rename_i img himg
    cases composeImage_eq_ok himg
    dsimp only
    split_ifs with hsame hvalid
    · exact ⟨h, fun _ => hsame.symm⟩
    · exact ⟨h, nofun⟩
    · have hvalid := Bool.not_eq_false _ ▸ hvalid
      split
      · exact ⟨h, nofun⟩
      · rename_i hmay
        rw [wp_bind]
        refine does_prepare h hvalid hmay fun r' got horiginal hhistory hacts => ?_
        cases got with
        | error text => exact ⟨hacts, nofun⟩
        | ok got =>
          have htarget := target_eq horiginal st
          have hmay' : r'.mayMoveTo m.compose.tag (r.target st) = .ok () := by
            rw [← hmay, Record.mayMoveTo, Record.mayMoveTo, Record.ran, Record.ran, horiginal,
              hhistory]
          dsimp only
          rw [wp_bind]
          have hr' : Adopted r' (m.note (.prepare (r.target st))) :=
            hr.congr horiginal rfl rfl
          refine (does_swap hacts hr' htarget.symm hsame hvalid hmay').mono (fun _ _ h => h)
            (fun _ _ h => h) fun out m' hout => ?_
          cases out with
          | error text => exact ⟨hout, nofun⟩
          | ok _ =>
            obtain ⟨hacts', hcompose⟩ := hout
            have hkeep : Acts st start
                (r'.swappedTo m.compose (r.target st) got p.time, m') :=
              hacts'.tail (.keep rfl rfl)
            have hsave := hkeep.tail Act.save
            have htag : m'.compose.tag =
                (r'.swappedTo m.compose (r.target st) got p.time).target st := by
              rw [hcompose]
              exact htarget.symm
            dsimp only
            rw [wp_bind]
            refine does_write hkeep hsave ?_ fun text => ?_
            · exact ⟨hsave, fun _ => htag⟩
            · exact ⟨⟨hkeep, nofun⟩, hsave, nofun⟩

theorem does_adopt (hloaded : m.loadRecord.original = r.original) :
    Does st start (adopt p r) (fun r' m' => Acts st start (r', m') ∧ Adopted r' m') m := by
  unfold adopt
  split_ifs with hnone
  · rw [Does, wp_bind, wp_get, wp_bind, wp_ofExcept]
    refine ⟨fun img himg => ?_, fun text _ => ⟨r, h⟩⟩
    have hadopt := h.tail (Act.adopt hnone himg)
    have hsave := hadopt.tail Act.save
    dsimp only
    rw [wp_bind]
    refine does_write hadopt hsave ?_ fun text => ?_
    · refine ⟨hsave, rfl, fun htag => ?_⟩
      rw [composeImage_eq_ok himg] at htag
      exact htag
    · exact ⟨⟨_, hadopt⟩, ⟨_, hsave⟩⟩
  · exact ⟨h, hloaded, fun htag => absurd htag hnone⟩

end

theorem gc_same (r : Record) (m : Machine) (removes : String → Bool) :
    (match m.composeImage with
      | .ok img => r.gc img removes
      | .error _ => r).original = r.original ∧
    (match m.composeImage with
      | .ok img => r.gc img removes
      | .error _ => r).history = r.history := by
  split
  · exact ⟨rfl, rfl⟩
  · exact ⟨rfl, rfl⟩

end Programs

/-! ### Passes and runs -/

theorem errorsOf_eq_nil {a b : Except String Unit} (h : errorsOf [a, b] = []) : b = .ok () := by
  cases b with
  | ok _ => rfl
  | error text =>
    cases a with
    | ok | error => cases h

/-- **A pass does acts, beginning with the saved record.** -/
theorem does_pass {cli : Bool} {p : Pass} (hst : nodeState p.state = .ok st) :
    Does st (m.loadRecord, m) (pass cli p) (fun out m' =>
      Whole st m m' ∧ (out.1 = [] → Followed st m m')) m := by
  have h : Acts st (m.loadRecord, m) (m.loadRecord, m) := .refl
  unfold pass
  rw [Does, wp_bind, hst, wp_ofExcept]
  refine ⟨?_, nofun⟩
  rintro _ ⟨⟩
  rw [wp_bind, wp_ofExcept]
  refine ⟨fun _ _ => ?_, fun text _ => ⟨_, h⟩⟩
  rw [wp_bind, wp_get, wp_bind]
  refine (does_adopt h rfl).mono (fun _ _ h => h) (fun _ _ h => h) ?_
  rintro r m₁ ⟨hadopt, hr⟩
  rw [wp_bind]
  refine (does_answer hadopt hr).mono (fun _ _ h => h) (fun _ _ h => h) ?_
  rintro ⟨r₁, answered⟩ m₂ ⟨hanswer, hr₁⟩
  rw [wp_bind]
  refine (does_follow hanswer hr₁).mono (fun _ _ h => h) (fun _ _ h => h) ?_
  rintro ⟨r₂, followed⟩ m₃ ⟨hfollow, htag⟩
  dsimp only at hfollow htag ⊢
  rw [wp_bind, wp_get, wp_bind]
  obtain ⟨horiginal, hhistory⟩ := gc_same r₂ m₃ p.removes
  have hgc := hfollow.tail (Act.keep horiginal hhistory)
  have hsave := hgc.tail Act.save
  refine does_write hgc hsave ?_ fun text => ?_
  · rw [wp_bind, wp_ofExcept]
    refine ⟨fun _ _ => ?_, nofun⟩
    rw [wp_bind, wp_ofExcept]
    refine ⟨fun st' _ => ?_, fun text _ => ⟨_, hsave⟩⟩
    refine ⟨⟨_, m₃, hgc, rfl⟩, fun hnil => ⟨_, m₃, hgc, rfl, ?_⟩⟩
    rw [target_eq horiginal]
    exact htag (errorsOf_eq_nil hnil)
  · constructor
    · rw [wp_bind, wp_ofExcept]
      exact ⟨nofun, fun _ _ => ⟨_, hgc⟩⟩
    · rw [wp_bind, wp_ofExcept]
      exact ⟨nofun, fun _ _ => ⟨_, hsave⟩⟩

theorem Followed.whole {m' : Machine} (h : Followed st m m') : Whole st m m' := by
  obtain ⟨r, m₁, hacts, hsave, -⟩ := h
  exact ⟨r, m₁, hacts, hsave⟩

section Runs

variable {S : NodeState → Prop} {m m₀ m' : Machine} {w : World}

theorem Synced.stopped (h : Synced S m m') : Stopped S m m' := by
  obtain ⟨m₁, st, hpasses, hS, hfollowed⟩ := h
  exact ⟨m', hpasses.tail ⟨st, hS, hfollowed.whole⟩, .inl rfl⟩

/-- The world shows only states of `S` to a run. -/
def World.Shows (w : World) (S : NodeState → Prop) : Prop :=
  ∀ i st, nodeState (w.pass i).state = .ok st → S st

theorem wp_passes {cli : Bool} {is : List Nat} {errs : List String} (hw : w.Shows S)
    (hbefore : ReflTransGen (fun m m' => ∃ st, S st ∧ Whole st m m') m₀ m)
    (hsynced : is = [] → errs = [] → Synced S m₀ m) :
    (passes cli w is errs).Wp (fun s s' => Stopped S m₀ s ∧ Stopped S m₀ s')
      (fun _ s => Stopped S m₀ s)
      (fun errs s => Stopped S m₀ s ∧ (errs = [] → Synced S m₀ s)) m := by
  induction is generalizing errs m with
  | nil => exact ⟨⟨m, hbefore, .inl rfl⟩, hsynced rfl⟩
  | cons i is ih =>
    rw [passes, wp_bind]
    cases hst : nodeState (w.pass i).state with
    | error text =>
      rw [pass, wp_bind, hst]
      exact ⟨m, hbefore, .inl rfl⟩
    | ok st =>
      have hS := hw i st hst
      have hpart : ∀ {s : Machine}, (∃ r, Acts st (m.loadRecord, m) (r, s)) → Stopped S m₀ s :=
        fun hacts => ⟨m, hbefore, .inr ⟨st, hS, hacts⟩⟩
      refine (does_pass hst).mono (fun _ _ h => ⟨hpart h.1, hpart h.2⟩)
        (fun _ _ h => hpart h) ?_
      rintro ⟨errs', again⟩ m' ⟨hwhole, hfollowed⟩
      have hpasses := hbefore.tail ⟨st, hS, hwhole⟩
      have hsynced' : errs' = [] → Synced S m₀ m' := fun hnil =>
        ⟨m, st, hbefore, hS, hfollowed hnil⟩
      dsimp only
      split_ifs
      · exact ih hpasses fun _ => hsynced'
      · exact ⟨⟨m', hpasses, .inl rfl⟩, hsynced'⟩

/-- **A run is whole passes and part of one, and without an error its last pass followed.** -/
theorem wp_sync (hw : w.Shows S) :
    (sync w).Wp (fun s s' => Stopped S m s ∧ Stopped S m s') (fun _ s => Stopped S m s)
      (fun _ s => Synced S m s) m := by
  have hrefl : Stopped S m m := ⟨m, .refl, .inl rfl⟩
  unfold sync
  rw [wp_bind, wp_ofExcept]
  refine ⟨fun cli _ => ?_, fun _ _ => hrefl⟩
  rw [wp_bind]
  have hpasses : (passes cli w [0, 1, 2] []).Wp _ _ _ m := wp_passes hw .refl nofun
  refine hpasses.mono (fun _ _ h => h) (fun _ _ h => h) fun errs m' h => ?_
  rw [wp_failIf]
  exact ⟨fun hnil => h.2 (not_not.1 hnil), fun _ => h.1⟩

theorem synced_of_run (hw : w.Shows S) (h : (sync w).run m = (.ok (), m')) : Synced S m m' :=
  (wp_sync hw).run_ok h

theorem stopped_of_leaves {run : SyncRun} (hw : run.world.Shows S) :
    Stopped S m (run.leaves m) := by
  have hwp := wp_sync (m := m) hw
  have hend : Stopped S m ((sync run.world).run m).2 :=
    (hwp.mono (fun _ _ h => h) (fun _ _ h => h) fun _ _ h => h.stopped).run
  unfold SyncRun.leaves
  split
  · exact hend
  · rename_i n _
    by_cases hlt : n < (sync run.world).ops m
    · have hstop : ∃ s₁ s₂, _ ∧ (sync run.world).stop (fun before _ => before) n m = s₁ :=
        hwp.stop hlt
      obtain ⟨s₁, s₂, hC, hstop⟩ := hstop
      rw [hstop]
      exact hC.1
    · rw [stop_of_ops_le (Nat.le_of_not_lt hlt)]
      exact hend

end Runs

end Viiwork.Enginesync

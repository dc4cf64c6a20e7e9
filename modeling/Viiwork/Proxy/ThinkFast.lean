import Viiwork.Proxy.Think

/-!
# Viiwork.Proxy.ThinkFast

Whether the fast paths of a stream can be told from its frames.

They can: the pass-through path writes a chunk without choices, which the slow path drops, and the
suppress path drops reasoning by its bytes and by the probe, where the slow path finds a tag spelled
with an escape (`streamThinkDisabled_escaped`). They cannot in a stream whose chunks are **plain**:
the keys in question stand once and in one spelling, the tags as they are, numbers in range, and the
top-level fields are those of the first chunk until one is decoded (`streamThinkDisabled_eq`).
-/

namespace Viiwork.Proxy

open Viiwork.Lib Json List Option Function

variable {F : Type} (R : Reader F)

/-! ### Frames as values -/

/-- A frame, with a payload that is JSON as its value. -/
def view : Frame F → Frame F
  | .data payload =>
    match unmarshal R payload with
    | some v => .chunk v
    | none => .data payload
  | f => f

/-- The payload of a line that is a chunk. -/
def payloadOf (line : Bytes) : Option Bytes :=
  if dataPrefix.isPrefixOf line ∧ line.drop dataPrefix.length ≠ donePayload then
    some (line.drop dataPrefix.length)
  else none

/-- **Same.** With the fast paths and without them the frames are the same, and so is the block. -/
def Same (lines : List Bytes) : Prop :=
  (streamThinkDisabled R true {} lines).2.map (view R) =
      (streamThinkDisabled R false {} lines).2.map (view R) ∧
    (streamThinkDisabled R true {} lines).1.inThinkBlock =
      (streamThinkDisabled R false {} lines).1.inThinkBlock ∧
    (streamThinkDisabled R true {} lines).1.thinkBuf =
      (streamThinkDisabled R false {} lines).1.thinkBuf

/-! ### Plain chunks -/

/-- A name is a key at most once, and in no other case. -/
def Once (name : Bytes) (ms : List (Bytes × Json)) : Prop :=
  (∀ m ∈ ms, foldName (unquote m.1) = foldName name → unquote m.1 = name) ∧
    (ms.filter fun m => unquote m.1 = name).length ≤ 1

/-- The keys that the probe looks for stand once: in the chunk, in its choices and in their
deltas. -/
def KeysOnce (ms : List (Bytes × Json)) : Prop :=
  Once choicesKey ms ∧
    ∀ vs, lookup ms choicesKey = some (.arr vs) → ∀ cs, .obj cs ∈ vs →
      Once deltaKey cs ∧ ∀ ds, lookup cs deltaKey = some (.obj ds) →
        Once contentKey ds ∧ Once reasoningKey ds

/-- The reasoning of a choice. -/
def reasoningOf : Value F → Option Bytes
  | .obj cm =>
    match cm deltaKey with
    | some (.obj delta) => string (delta reasoningKey)
    | _ => none
  | _ => none

/-- The reasoning of a chunk. -/
def reasonings (m : Bytes → Option (Value F)) : List Bytes :=
  match m choicesKey with
  | some (.arr cs) => cs.filterMap reasoningOf
  | _ => []

/-- The chunk passes by its bytes. -/
def Passes (s : Stream F) (payload : Bytes) : Prop :=
  s.inThinkBlock = false ∧ ¬reasoningKey <:+: payload

/-- **Plain.** A chunk where the bytes and the probe say what the decoder does. `seen` are the
top-level fields of the first chunk that can be decoded. -/
structure Plain (s : Stream F) (seen : Option (Bytes → Option (Value F))) (payload : Bytes) :
    Prop where
  /-- A chunk that passes has choices, if it has the field, and no reasoning under an escaped key. -/
  passed : Passes s payload → ∀ m, unmarshalMap R payload = some (some m) →
    m choicesKey ≠ some (.arr []) ∧ reasonings m = []
  keys : ¬Passes s payload → ∀ ms, parse payload = some (.obj ms) → KeysOnce ms
  fits : ¬Passes s payload → (tokens payload).1.all (fitsToken R) = true
  /-- In a block, reasoning opens no other one, and closes it with a tag that is in the bytes. -/
  tags : s.inThinkBlock = true → ¬closeThinkTag <:+: payload →
    ∀ m, unmarshalMap R payload = some (some m) → ∀ r ∈ reasonings m,
      ¬openThinkTag <:+: r ∧ ¬closeThinkTag <:+: r
  /-- The first chunk to be decoded has the top-level fields of the first of all. -/
  fields : ¬Passes s payload → s.lastChunkTemplate = none → ∀ t, seen = some t →
    ∀ m, unmarshalMap R payload = some m → templateOf m = t

/-- The top-level fields of a line. -/
def fieldsOf (line : Bytes) : Option (Bytes → Option (Value F)) :=
  (payloadOf line).bind fun payload => (unmarshalMap R payload).map templateOf

/-- Every chunk of the lines is plain where it comes. -/
def PlainRun (s : Stream F) (seen : Option (Bytes → Option (Value F))) : List Bytes → Prop
  | [] => True
  | l :: ls =>
    (∀ payload, payloadOf l = some payload → Plain R s seen payload) ∧
      PlainRun (lineStep R true s l).1 (seen.or (fieldsOf R l)) ls

/-! ### The probe -/

variable {ms cs ds : List (Bytes × Json)} {name payload r raw text k : Bytes} {c : ProbeChoice}
variable {s f : Stream F} {n : Nat} {seen m : Option (Bytes → Option (Value F))} {α : Type}
variable {set : α → Json → Option α} {v : Json} {lines : List Bytes}

theorem field_of_forall (old : α) (h : ∀ m ∈ ms, foldName (unquote m.1) ≠ foldName name) :
    field name set old ms = some old := by
  induction ms with
  | nil => rfl
  | cons m ms ih =>
    have hm := h m mem_cons_self
    rw [field, foldlM_cons, if_neg hm]
    exact ih fun x hx => h x (mem_cons_of_mem m hx)

/-- **A field under one key.** It is set from the value that a map has for the key. -/
theorem field_of_once (old : α) (h : Once name ms) :
    field name set old ms =
      match lookup ms name with
      | none => some old
      | some v => set old v := by
  obtain ⟨hcase, hlen⟩ := h
  cases hv : lookup ms name with
  | none =>
    refine field_of_forall old fun m hm hfold => ?_
    exact lookup_eq_none_iff.1 hv m hm (hcase m hm hfold)
  | some v =>
    obtain ⟨pre, k, post, rfl, hk, hpost⟩ := lookup_eq_some hv
    have hpre : ∀ m ∈ pre, unquote m.1 ≠ name := by
      intro m hm heq
      have hin : m ∈ pre.filter fun m => unquote m.1 = name :=
        mem_filter.2 ⟨hm, by simpa using heq⟩
      have hpos := length_pos_of_mem hin
      simp [hk] at hlen
      omega
    have hpre' : ∀ m ∈ pre, foldName (unquote m.1) ≠ foldName name := by
      intro m hm hfold
      exact hpre m hm (hcase m (mem_append_left _ hm) hfold)
    have hpost' : ∀ m ∈ post, foldName (unquote m.1) ≠ foldName name := by
      intro m hm hfold
      exact lookup_eq_none_iff.1 hpost m hm
        (hcase m (mem_append_right pre (mem_cons_of_mem _ hm)) hfold)
    have hfirst : field name set old pre = some old := field_of_forall old hpre'
    rw [field] at hfirst ⊢
    rw [foldlM_append, hfirst, bind_eq_bind, bind_some, foldlM_cons,
      if_pos (by rw [hk])]
    show (set old v).bind _ = set old v
    cases hset : set old v with
    | none => rfl
    | some x => exact field_of_forall x hpost'

/-- A field under one key was left as it is, or set from the key's value. -/
theorem field_eq_some {old x : α} (h : Once name ms) (hx : field name set old ms = some x) :
    lookup ms name = none ∧ old = x ∨
      ∃ v, lookup ms name = some v ∧ set old v = some x := by
  rw [field_of_once old h] at hx
  split at hx
  · exact .inl ⟨‹_›, Option.some.inj hx⟩
  · exact .inr ⟨_, ‹_›, hx⟩

theorem probeChoices_singleton {vs : List Json} (h : probeChoices [] vs = some [c]) :
    ∃ v, vs = [v] ∧ ProbeChoice.set {} v = some c := by
  cases vs with
  | nil => cases h
  | cons v vs =>
    rw [probeChoices] at h
    obtain ⟨c', hc', h⟩ := bind_eq_some_iff.1 h
    obtain ⟨cs, hcs, h⟩ := bind_eq_some_iff.1 h
    cases h
    cases vs with
    | nil => exact ⟨v, rfl, hc'⟩
    | cons v' vs =>
      obtain ⟨_, _, hcs⟩ := bind_eq_some_iff.1 hcs
      obtain ⟨_, _, hcs⟩ := bind_eq_some_iff.1 hcs
      cases hcs

/-- A slice of one choice comes from an array of one value. -/
theorem probeSlice_singleton {s : ProbeSlice} (h : ProbeSlice.set {} v = some s)
    (hs : s.elems = [c]) : ∃ w, v = .arr [w] ∧ ProbeChoice.set {} w = some c := by
  unfold ProbeSlice.set at h
  split at h
  · cases h
    cases hs
  · cases h
    cases hs
  · obtain ⟨cs, hcs, h⟩ := bind_eq_some_iff.1 h
    cases h
    obtain rfl : cs = [c] := hs
    obtain ⟨w, rfl, hw⟩ := probeChoices_singleton hcs
    exact ⟨w, rfl, hw⟩
  · cases h

/-- The one choice of a chunk has a literal for its reasoning. -/
structure Reasoned (ms cs ds : List (Bytes × Json)) (raw : Bytes) : Prop where
  choices : lookup ms choicesKey = some (.arr [.obj cs])
  delta : lookup cs deltaKey = some (.obj ds)
  reasoning : lookup ds reasoningKey = some (.str raw)

/-- The strings of the delta are strings of the chunk. -/
theorem Reasoned.mem_strings (h : Reasoned ms cs ds raw) (hk : k ∈ stringsMembers ds) :
    k ∈ Json.strings (.obj ms) :=
  mem_strings_of_lookup h.choices (mem_append_left _ (mem_strings_of_lookup h.delta hk))

/-- **What the probe finds.** Reasoning without content, in the one choice, where the keys stand
once. -/
theorem probeReasoning_eq_some (hparse : parse payload = some (.obj ms))
    (hkeys : KeysOnce ms) (h : probeReasoning payload = some (c, r)) :
    ∃ cs ds raw, Reasoned ms cs ds raw ∧ unquote raw = r ∧
      (lookup ds contentKey = none ∨ lookup ds contentKey = some .null) := by
  obtain ⟨hchoices, hrest⟩ := hkeys
  unfold probeReasoning at h
  split at h
  case h_2 => cases h
  rename_i c' hprobe
  split at h
  case h_2 => cases h
  rename_i d hd
  split at h
  case isFalse => cases h
  rename_i hcontent
  obtain ⟨r', hr, hpair⟩ := map_eq_some_iff.1 h
  cases hpair
  -- The chunk has one choice.
  rw [probe, hparse] at hprobe
  obtain ⟨slice, hslice, helems⟩ := map_eq_some_iff.1 hprobe
  obtain ⟨-, rfl⟩ | ⟨v, hv, hset⟩ := field_eq_some hchoices hslice
  · cases helems
  obtain ⟨w, rfl, hw⟩ := probeSlice_singleton hset helems
  -- It is an object with a delta.
  unfold ProbeChoice.set at hw
  split at hw
  case h_1 =>
    cases hw
    cases hd
  case h_3 => cases hw
  rename_i cs
  obtain ⟨hdelta, hdeltas⟩ := hrest _ hv cs mem_cons_self
  obtain ⟨delta, hfield, hw⟩ := bind_eq_some_iff.1 hw
  obtain ⟨finish, -, hw⟩ := bind_eq_some_iff.1 hw
  cases hw
  obtain rfl : delta = some d := hd
  obtain ⟨-, hbad⟩ | ⟨dv, hdv, hset⟩ := field_eq_some hdelta hfield
  · cases hbad
  obtain ⟨ds, rfl⟩ : ∃ ds, dv = .obj ds := by
    cases dv with
    | obj ds => exact ⟨ds, rfl⟩
    | _ => cases hset
  obtain ⟨hconce, hronce⟩ := hdeltas ds hdv
  obtain ⟨d', hset, heq⟩ := map_eq_some_iff.1 hset
  cases heq
  unfold ProbeDelta.set at hset
  obtain ⟨content, hcfield, hset⟩ := bind_eq_some_iff.1 hset
  obtain ⟨reasoning, hrfield, hset⟩ := bind_eq_some_iff.1 hset
  cases hset
  obtain rfl : reasoning = some r := hr
  obtain rfl : content = none := hcontent
  have hcontent' : lookup ds contentKey = none ∨ lookup ds contentKey = some .null := by
    obtain ⟨hnone, -⟩ | ⟨cv, hcv, hset⟩ := field_eq_some hconce hcfield
    · exact .inl hnone
    · cases cv with
      | null => exact .inr hcv
      | _ => cases hset
  obtain ⟨-, hbad⟩ | ⟨rv, hrv, hset⟩ := field_eq_some hronce hrfield
  · cases hbad
  cases rv with
  | str raw =>
    cases hset
    exact ⟨cs, ds, raw, ⟨hv, hdv, hrv⟩, rfl, hcontent'⟩
  | _ => cases hset

/-! ### The slow path -/

theorem unmarshalMap_of_parse (hfits : (tokens payload).1.all (fitsToken R) = true)
    (hparse : parse payload = some (.obj ms)) :
    unmarshalMap R payload = some (some (members R.float ms)) := by
  rw [unmarshalMap, unmarshal, if_pos hfits, hparse]
  rfl

theorem unmarshal_of_unmarshalMap (h : unmarshalMap R payload = some m) :
    unmarshal R payload = some (m.elim .null .obj) := by
  unfold unmarshalMap at h
  split at h
  case h_3 => cases h
  all_goals
    cases h
    assumption

theorem choices_singleton (s : Stream F) (c : Value F) : choices R s [c] = choice R s c := by
  simp [choices]

/-- A choice with reasoning. -/
theorem choice_of_reasoning {cm delta : Bytes → Option (Value F)}
    (hdelta : cm deltaKey = some (.obj delta)) (hr : delta reasoningKey = some (.str r)) :
    choice R s (.obj cm) = reasonChoice s cm delta r := by
  simp only [choice, hdelta, hr, string]

/-- Outside a block a choice without reasoning is left as it is. -/
theorem choice_of_reasoningOf_eq_none (hs : s.inThinkBlock = false) {c : Value F}
    (h : reasoningOf c = none) : choice R s c = ⟨s, [c], true, []⟩ := by
  have hpass : ∀ finish, passChoice R s finish c = ⟨s, [c], true, []⟩ := by
    intro finish
    rw [passChoice, if_neg]
    rw [hs]
    exact fun hbad => Bool.false_ne_true hbad.2.1
  cases c with
  | obj cm =>
    cases hdelta : cm deltaKey with
    | none =>
      simp only [choice, hdelta]
      exact hpass _
    | some v =>
      cases v with
      | obj delta =>
        have hno : string (delta reasoningKey) = none := by
          simpa only [reasoningOf, hdelta] using h
        simp only [choice, hdelta, hno]
        exact hpass _
      | _ =>
        simp only [choice, hdelta]
        exact hpass _
  | _ => rfl

theorem choices_of_reasonings_eq_nil (hs : s.inThinkBlock = false) {cs : List (Value F)}
    (h : cs.filterMap reasoningOf = []) : choices R s cs = ⟨s, cs, !cs.isEmpty, []⟩ := by
  induction cs with
  | nil => rfl
  | cons c cs ih =>
    rw [filterMap_eq_nil_iff, forall_mem_cons, ← filterMap_eq_nil_iff] at h
    rw [choices, choice_of_reasoningOf_eq_none R hs h.1, ih h.2]
    simp

@[simp] theorem Stream.save_inThinkBlock (s : Stream F) (m : Option (Bytes → Option (Value F))) :
    (s.save m).inThinkBlock = s.inThinkBlock := rfl

@[simp] theorem Stream.save_firstPayload (s : Stream F) (m : Option (Bytes → Option (Value F))) :
    (s.save m).firstPayload = s.firstPayload := rfl

@[simp] theorem buffer_inThinkBlock (s : Stream F) (r : Bytes) :
    (s.buffer r).inThinkBlock = s.inThinkBlock := by
  rw [Stream.buffer]
  split <;> rfl

@[simp] theorem buffer_lastChunkTemplate (s : Stream F) (r : Bytes) :
    (s.buffer r).lastChunkTemplate = s.lastChunkTemplate := by
  rw [Stream.buffer]
  split <;> rfl

@[simp] theorem buffer_firstPayload (s : Stream F) (r : Bytes) :
    (s.buffer r).firstPayload = s.firstPayload := by
  rw [Stream.buffer]
  split <;> rfl

theorem buffer_thinkBuf_congr (h : f.thinkBuf = s.thinkBuf) (r : Bytes) :
    (f.buffer r).thinkBuf = (s.buffer r).thinkBuf := by
  rw [Stream.buffer, Stream.buffer, h]
  split
  · rfl
  · exact h

/-- One choice changes the block and its buffer only. -/
theorem choice_lastChunkTemplate (s : Stream F) (c : Value F) :
    (choice R s c).stream.lastChunkTemplate = s.lastChunkTemplate ∧
      (choice R s c).stream.firstPayload = s.firstPayload := by
  have hpass : ∀ finish c, (passChoice R s finish c).stream.lastChunkTemplate =
      s.lastChunkTemplate ∧ (passChoice R s finish c).stream.firstPayload = s.firstPayload := by
    intro finish c
    rw [passChoice]
    split <;> exact ⟨rfl, rfl⟩
  have hclose : ∀ cm delta r, (closeBlock s cm delta r).stream.lastChunkTemplate =
      s.lastChunkTemplate ∧ (closeBlock s cm delta r).stream.firstPayload = s.firstPayload := by
    intro cm delta r
    rw [closeBlock]
    split <;> exact ⟨rfl, rfl⟩
  unfold choice
  split
  · split
    · split
      · rw [reasonChoice]
        split_ifs
        · exact ⟨rfl, rfl⟩
        · exact hclose _ _ _
        · exact ⟨rfl, rfl⟩
        · exact hclose _ _ _
        · exact ⟨buffer_lastChunkTemplate s _, buffer_firstPayload s _⟩
        · exact ⟨rfl, rfl⟩
      · exact hpass _ _
    · exact hpass _ _
  · exact ⟨rfl, rfl⟩

theorem choices_lastChunkTemplate (cs : List (Value F)) (s : Stream F) :
    (choices R s cs).stream.lastChunkTemplate = s.lastChunkTemplate ∧
      (choices R s cs).stream.firstPayload = s.firstPayload := by
  induction cs generalizing s with
  | nil => exact ⟨rfl, rfl⟩
  | cons c cs ih =>
    obtain ⟨htemplate, hfirst⟩ := choice_lastChunkTemplate R s c
    obtain ⟨htemplate', hfirst'⟩ := ih (choice R s c).stream
    exact ⟨htemplate'.trans htemplate, hfirst'.trans hfirst⟩

/-- The slow path saves the top-level fields of the first chunk it can decode. -/
theorem slow_lastChunkTemplate (s : Stream F) (payload : Bytes) :
    (slow R s payload).1.lastChunkTemplate =
        s.lastChunkTemplate.or ((unmarshalMap R payload).map templateOf) ∧
      (slow R s payload).1.firstPayload = s.firstPayload := by
  unfold slow
  split
  · rename_i hm
    simp [hm]
  · rename_i hm
    rw [hm]
    exact ⟨rfl, rfl⟩
  · rename_i m hm
    rw [hm]
    split
    · rename_i cs _
      exact choices_lastChunkTemplate R cs (s.save (some m))
    · exact ⟨rfl, rfl⟩

/-- A chunk that can be decoded is handled by the state with its fields saved. -/
theorem slow_congr (h : ∀ m, unmarshalMap R payload = some m → f.save m = s.save m)
    (hsome : (unmarshalMap R payload).isSome = true) : slow R f payload = slow R s payload := by
  obtain ⟨m, hm⟩ := isSome_iff_exists.1 hsome
  have hsave := h m hm
  cases m with
  | none | some => simp only [slow, hm, hsave]

/-! ### The three paths -/

/-- **Pass-through.** The slow path writes the chunk as it is. -/
theorem view_slow_of_passes (hs : s.inThinkBlock = false)
    (hplain : ∀ m, unmarshalMap R payload = some (some m) →
      m choicesKey ≠ some (.arr []) ∧ reasonings m = []) :
    (slow R s payload).2.map (view R) = [view R (.data payload)] ∧
      (slow R s payload).1.inThinkBlock = s.inThinkBlock ∧
      (slow R s payload).1.thinkBuf = s.thinkBuf := by
  cases hm : unmarshalMap R payload with
  | none =>
    simp [slow, hm]
  | some m =>
    cases m with
    | none =>
      simp only [slow, hm, view, unmarshal_of_unmarshalMap R hm]
      exact ⟨rfl, rfl, rfl⟩
    | some m =>
      obtain ⟨hne, hno⟩ := hplain m hm
      have hview : view R (.data payload) = .chunk (.obj m) := by
        simp only [view, unmarshal_of_unmarshalMap R hm, elim_some]
      cases hc : m choicesKey with
      | none =>
        simp only [slow, hm, hc, hview]
        exact ⟨rfl, rfl, rfl⟩
      | some v =>
        cases v with
        | arr cs =>
          have hcs : cs.filterMap reasoningOf = [] := by
            simpa only [reasonings, hc] using hno
          have hemit : (!cs.isEmpty) = true := by
            cases cs with
            | nil => exact absurd hc hne
            | cons c cs => rfl
          have hloop := choices_of_reasonings_eq_nil R
            (s := s.save (some m)) hs hcs
          have hself : update m choicesKey (some (.arr cs)) = m := by
            rw [← hc, update_eq_self]
          simp only [slow, hm, hc, hloop, hemit, hview, hself]
          exact ⟨rfl, rfl, rfl⟩
        | _ =>
          simp only [slow, hm, hc, hview]
          exact ⟨rfl, rfl, rfl⟩

/-- The chunk as the slow path has it, where the probe finds reasoning. -/
theorem slow_of_probeReasoning (hm : unmarshalMap R payload = some (some (members R.float ms)))
    (h : Reasoned ms cs ds raw) :
    slow R s payload =
      let loop := reasonChoice (s.save (some (members R.float ms)))
        (members R.float cs) (members R.float ds) (unquote raw)
      (loop.stream, loop.frames ++ if loop.emit then
        [.chunk (.obj (update (members R.float ms) choicesKey
          (some (.arr loop.choices))))] else []) := by
  have hc : members R.float ms choicesKey =
      some (.arr [.obj (members R.float cs)]) := by
    rw [members_eq, h.choices]
    rfl
  have hd : members R.float cs deltaKey = some (.obj (members R.float ds)) := by
    rw [members_eq, h.delta]
    rfl
  have hreason : members R.float ds reasoningKey = some (.str (unquote raw)) := by
    rw [members_eq, h.reasoning]
    rfl
  simp only [slow, hm, hc, choices_singleton, choice_of_reasoning R hd hreason]

theorem string_content_eq_none
    (h : lookup ds contentKey = none ∨ lookup ds contentKey = some .null) :
    string (members R.float ds contentKey) = none := by
  rw [members_eq]
  rcases h with h | h <;> rw [h] <;> rfl

theorem parse_of_probeReasoning {x : ProbeChoice × Bytes} (h : probeReasoning payload = some x) :
    ∃ ms, parse payload = some (.obj ms) := by
  unfold probeReasoning at h
  split at h
  · rename_i c hprobe
    unfold probe at hprobe
    split at hprobe
    · cases hprobe
    · rename_i ms hparse
      exact ⟨ms, hparse⟩
    · cases hprobe
  · cases h

/-- **Suppress.** The slow path keeps the reasoning back. -/
theorem slow_of_suppressed (hs : s.inThinkBlock = true)
    (hkeys : ∀ ms, parse payload = some (.obj ms) → KeysOnce ms)
    (hfits : (tokens payload).1.all (fitsToken R) = true)
    (htags : ¬closeThinkTag <:+: payload → ∀ m, unmarshalMap R payload = some (some m) →
      ∀ r ∈ reasonings m, ¬openThinkTag <:+: r ∧ ¬closeThinkTag <:+: r)
    (h : suppressed payload = some r) :
    ∃ m, unmarshalMap R payload = some (some m) ∧
      slow R s payload = ((s.save (some m)).buffer r, []) := by
  unfold suppressed at h
  split at h
  · cases h
  rename_i hclose
  split at h
  case h_2 => cases h
  rename_i c r' hprobe
  split at h
  case isFalse => cases h
  cases h
  obtain ⟨ms, hparse⟩ := parse_of_probeReasoning hprobe
  obtain ⟨cs, ds, raw, hr, rfl, hcontent⟩ :=
    probeReasoning_eq_some hparse (hkeys ms hparse) hprobe
  have hm := unmarshalMap_of_parse R hfits hparse
  have hmem : unquote raw ∈ reasonings (members R.float ms) := by
    simp [reasonings, reasoningOf, string, members_eq, hr.choices, hr.delta, hr.reasoning, Json.value,
      Json.values]
  obtain ⟨hopen, hclose'⟩ := htags hclose _ hm _ hmem
  refine ⟨_, hm, ?_⟩
  have hsave : (s.save (some (members R.float ms))).inThinkBlock = true := hs
  rw [slow_of_probeReasoning R hm hr]
  rw [reasonChoice, string_content_eq_none R hcontent, if_neg (by simp), if_neg hopen,
    if_pos hsave, if_neg hclose']
  rfl

/-- The bytes that `untaggedReasoningKey` excludes, and what it finds. -/
theorem untaggedReasoningKey_eq_some (h : untaggedReasoningKey payload = some n) :
    ¬openThinkTag <:+: payload ∧ ¬[92, 117] <:+: payload ∧ ¬quotedContentKey <:+: payload ∧
      count quotedReasoningKey payload = 1 ∧ (∃ x, probeReasoning payload = some x) ∧
      index quotedReasoningKey payload = some n := by
  unfold untaggedReasoningKey at h
  split at h
  · cases h
  · rename_i hguards
    push Not at hguards
    obtain ⟨hopen, hu, hcontent, hcount⟩ := hguards
    split at h
    · rename_i hprobe
      exact ⟨hopen, hu, hcontent, hcount, isSome_iff_exists.1 hprobe, h⟩
    · cases h

/-- A string of a text without `\u` that stands for a name is the name. -/
theorem eq_of_mem_strings (hparse : parse payload = some v) (hu : ¬[92, 117] <:+: payload)
    (hk : k ∈ Json.strings v) (hname : ∀ b ∈ name, isName b = true) (h : unquote k = name) :
    k = name := by
  have htoken := mem_tokens_of_parse hparse hk
  have hin : k <:+: payload := by
    refine List.IsInfix.trans ?_ (isInfix_of_mem_tokens htoken)
    exact ⟨[34], [34], rfl⟩
  exact eq_of_unquote (literal_of_mem_tokens htoken) (fun hbad => hu (hbad.trans hin)) hname h

/-- **Rename.** The edited bytes stand for what the slow path writes. -/
theorem unmarshal_renamedReasoning (hfits : (tokens payload).1.all (fitsToken R) = true)
    (hparse : parse payload = some (.obj ms)) (h : Reasoned ms cs ds raw)
    (hu : ¬[92, 117] <:+: payload)
    (hcontent : ¬quotedContentKey <:+: payload) (hcount : count quotedReasoningKey payload = 1)
    (hn : index quotedReasoningKey payload = some n) :
    unmarshal R (renamedReasoning payload n) =
      some (.obj (update (members R.float ms) choicesKey
        (some (.arr [renamed (members R.float cs) (members R.float ds)
          (unquote raw)])))) := by
  have hone : (stringsMembers ms).count reasoningKey ≤ 1 :=
    hcount ▸ count_strings_le hparse reasoningKey
  have hone₁ : (stringsMembers cs).count reasoningKey ≤ 1 := by
    have hle := count_le_of_lookup h.choices reasoningKey
    have heq : Json.strings (.arr [.obj cs]) = stringsMembers cs := append_nil _
    rw [heq] at hle
    exact hle.trans hone
  have hone₂ : (stringsMembers ds).count reasoningKey ≤ 1 :=
    (count_le_of_lookup h.delta reasoningKey).trans hone₁
  -- The key of the reasoning is spelled as it is, and no key stands for the content.
  have hspelled : ∀ m ∈ ds, unquote m.1 = unquote reasoningKey → m.1 = reasoningKey := by
    intro m hm heq
    refine eq_of_mem_strings hparse hu (h.mem_strings (mem_stringsMembers hm)) ?_ ?_
    · decide +kernel
    · exact heq.trans (by decide)
  have hno : lookup ds (unquote contentKey) = none := by
    refine lookup_eq_none_iff.2 fun m hm heq => hcontent ?_
    have hk := h.mem_strings (mem_stringsMembers hm)
    have hname : m.1 = contentKey :=
      eq_of_mem_strings hparse hu hk (by decide +kernel) (heq.trans (by decide))
    rw [hname] at hk
    exact isInfix_of_mem_tokens (mem_tokens_of_parse hparse hk)
  have hin : reasoningKey ∈ stringsMembers ds := by
    obtain ⟨pre, k, post, rfl, hk, -⟩ := lookup_eq_some h.reasoning
    have hmem : (k, Json.str raw) ∈ pre ++ (k, Json.str raw) :: post :=
      mem_append_right pre mem_cons_self
    rw [← hspelled _ hmem (hk.trans (by decide))]
    exact mem_stringsMembers hmem
  have hin₁ : reasoningKey ∈ stringsMembers cs := mem_strings_of_lookup h.delta hin
  have htoken : .str reasoningKey ∈ (tokens payload).1 :=
    mem_tokens_of_parse hparse (h.mem_strings hin)
  have htokens : tokens (renamedReasoning payload n) =
      ((tokens payload).1.map (Token.mapStr (swap reasoningKey contentKey)),
        (tokens payload).2) :=
    tokens_replace (b := 116) (by decide) (by decide) (by decide) hcount htoken
      (fun rest => rfl) hn
  have hfits' : (tokens (renamedReasoning payload n)).1.all (fitsToken R) = true := by
    rw [htokens, List.all_map]
    refine List.all_eq_true.2 fun t ht => ?_
    have hfit := List.all_eq_true.1 hfits t ht
    cases t <;> exact hfit
  have hdelta : members R.float (mapMembers (swap reasoningKey contentKey) ds) =
      update (update (members R.float ds) contentKey
        (some (.str (unquote raw)))) reasoningKey none := by
    have hkey : unquote reasoningKey = reasoningKey := by decide
    have hkey' : unquote contentKey = contentKey := by decide
    have hswap := members_swap_key R.float (hkey ▸ h.reasoning) hspelled hno (by decide) hone₂
    rw [hkey, hkey'] at hswap
    exact hswap
  have hchoice : members R.float (mapMembers (swap reasoningKey contentKey) cs) =
      update (members R.float cs) deltaKey (some (.obj (members R.float
        (mapMembers (swap reasoningKey contentKey) ds)))) :=
    members_swap R.float h.delta hin hone₁
  have hchunk : members R.float (mapMembers (swap reasoningKey contentKey) ms) =
      update (members R.float ms) choicesKey (some (.arr [.obj (members R.float
        (mapMembers (swap reasoningKey contentKey) cs))])) :=
    members_swap R.float h.choices (mem_append_left _ hin₁) hone
  rw [unmarshal, if_pos hfits', parse_mapStr htokens hparse]
  show some (Value.obj (members R.float
    (mapMembers (swap reasoningKey contentKey) ms))) = _
  rw [hchunk, hchoice, hdelta, renamed]

/-! ### The run -/

/-- With the fast paths and without: the same block, and the same top-level fields once they are
saved. -/
structure Sim (f s : Stream F) (seen : Option (Bytes → Option (Value F))) : Prop where
  inThinkBlock : f.inThinkBlock = s.inThinkBlock
  thinkBuf : f.thinkBuf = s.thinkBuf
  firstPayload : f.firstPayload = s.firstPayload
  saved : s.lastChunkTemplate = seen
  template : f.lastChunkTemplate = none ∨ f.lastChunkTemplate = seen

theorem Sim.save (h : Sim f s seen)
    (hfields : f.lastChunkTemplate = none → ∀ t, seen = some t → templateOf m = t) :
    f.save m = s.save m := by
  obtain ⟨fin, fbuf, ftemplate, ffirst⟩ := f
  obtain ⟨sin, sbuf, stemplate, sfirst⟩ := s
  obtain ⟨rfl, rfl, rfl, rfl, htemplate⟩ := h
  have heq : ftemplate.or (some (templateOf m)) = stemplate.or (some (templateOf m)) := by
    rcases htemplate with hnone | heq
    · have hnone' : ftemplate = none := hnone
      subst hnone'
      cases stemplate with
      | none => rfl
      | some t => exact congrArg some (hfields rfl t rfl)
    · exact congrArg (Option.or · _) heq
  simp only [Stream.save, heq]

theorem Sim.note (h : Sim f s seen) (payload : Bytes) :
    Sim (f.note payload) (s.note payload) seen := by
  refine ⟨h.inThinkBlock, h.thinkBuf, ?_, h.saved, h.template⟩
  simp only [Stream.note, h.firstPayload]

/-- Fields that are saved stay. -/
theorem Sim.template_or (h : Sim f s seen) (t : Option (Bytes → Option (Value F))) :
    f.lastChunkTemplate = none ∨ f.lastChunkTemplate = seen.or t := by
  cases seen with
  | none =>
    rcases h.template with hnone | hnone
    · exact .inl hnone
    · exact .inl hnone
  | some t' => exact h.template

/-- The two streams after a payload agree, and so does what they write. -/
def Agrees (a b : Stream F × List (Frame F)) (seen : Option (Bytes → Option (Value F))) : Prop :=
  Sim a.1 b.1 seen ∧ a.2.map (view R) = b.2.map (view R)

section

variable (h : Sim f s seen)
include h

theorem agrees_slow (hfields : f.lastChunkTemplate = none → ∀ t, seen = some t →
      ∀ m, unmarshalMap R payload = some m → templateOf m = t) :
    Agrees R (slow R f payload) (slow R s payload)
      (seen.or ((unmarshalMap R payload).map templateOf)) := by
  cases hm : unmarshalMap R payload with
  | none =>
    have hslow : ∀ x : Stream F, slow R x payload = (x, [.data payload]) := by
      intro x
      simp only [slow, hm]
    rw [hslow, hslow, map_none, or_none]
    exact ⟨h, rfl⟩
  | some m =>
    have hsave : ∀ m', unmarshalMap R payload = some m' → f.save m' = s.save m' := by
      intro m' hm'
      exact h.save fun hnone t ht => hfields hnone t ht m' hm'
    rw [slow_congr R hsave (by rw [hm]; rfl)]
    obtain ⟨htemplate, -⟩ := slow_lastChunkTemplate R s payload
    rw [h.saved, hm] at htemplate
    exact ⟨⟨rfl, rfl, rfl, htemplate, .inr htemplate⟩, rfl⟩

theorem agrees_passes (hpass : Passes f payload) (hplain : Plain R f seen payload) :
    Agrees R (f, [.data payload]) (slow R s payload)
      (seen.or ((unmarshalMap R payload).map templateOf)) := by
  have hs : s.inThinkBlock = false := h.inThinkBlock ▸ hpass.1
  obtain ⟨hview, hin, hbuf⟩ := view_slow_of_passes R hs (hplain.passed hpass)
  obtain ⟨htemplate, hfirst⟩ := slow_lastChunkTemplate R s payload
  rw [h.saved] at htemplate
  refine ⟨⟨?_, ?_, ?_, htemplate, h.template_or _⟩, hview.symm⟩
  · exact h.inThinkBlock.trans hin.symm
  · exact h.thinkBuf.trans hbuf.symm
  · exact h.firstPayload.trans hfirst.symm

theorem agrees_suppressed (hin : f.inThinkBlock = true) (hplain : Plain R f seen payload)
    (hr : suppressed payload = some r) :
    Agrees R (f.buffer r, []) (slow R s payload)
      (seen.or ((unmarshalMap R payload).map templateOf)) := by
  have hno : ¬Passes f payload := fun hpass => by
    rw [hpass.1] at hin
    cases hin
  obtain ⟨m, hm, hslow⟩ := slow_of_suppressed R (h.inThinkBlock ▸ hin) (hplain.keys hno)
    (hplain.fits hno) (hplain.tags hin) hr
  obtain ⟨htemplate, -⟩ := slow_lastChunkTemplate R s payload
  rw [hslow, h.saved] at htemplate
  rw [hslow]
  refine ⟨⟨?_, ?_, ?_, htemplate, ?_⟩, rfl⟩
  · simpa using h.inThinkBlock
  · exact buffer_thinkBuf_congr (s := s.save (some m)) h.thinkBuf r
  · simpa using h.firstPayload
  · simpa using h.template_or _

theorem agrees_renamed (hin : f.inThinkBlock = false) (hno : ¬Passes f payload)
    (hplain : Plain R f seen payload) (hn : untaggedReasoningKey payload = some n) :
    Agrees R (f, [.data (renamedReasoning payload n)]) (slow R s payload)
      (seen.or ((unmarshalMap R payload).map templateOf)) := by
  obtain ⟨hopen, hu, hcontent, hcount, ⟨x, hprobe⟩, hindex⟩ := untaggedReasoningKey_eq_some hn
  obtain ⟨ms, hparse⟩ := parse_of_probeReasoning hprobe
  obtain ⟨cs, ds, raw, hr, -, hnone⟩ :=
    probeReasoning_eq_some hparse (hplain.keys hno ms hparse) hprobe
  have hfits := hplain.fits hno
  have hm := unmarshalMap_of_parse R hfits hparse
  -- The tag has no other spelling without an escape.
  have hraw : raw ∈ Json.strings (.obj ms) :=
    hr.mem_strings (mem_strings_of_lookup hr.reasoning mem_cons_self)
  have htoken := mem_tokens_of_parse hparse hraw
  have hinfix : raw <:+: payload :=
    List.IsInfix.trans ⟨[34], [34], rfl⟩ (isInfix_of_mem_tokens htoken)
  have htag : ¬openThinkTag <:+: unquote raw := by
    intro htag
    have hbytes := isInfix_of_unquote (by decide) (by decide +kernel)
      (literal_of_mem_tokens htoken) (fun hbad => hu (hbad.trans hinfix)) htag
    exact hopen (hbytes.trans hinfix)
  have hs : s.inThinkBlock = false := h.inThinkBlock ▸ hin
  have hvalue := unmarshal_renamedReasoning R hfits hparse hr hu hcontent hcount hindex
  obtain ⟨htemplate, hfirst⟩ := slow_lastChunkTemplate R s payload
  have hslow : slow R s payload = (s.save (some (members R.float ms)),
      [.chunk (.obj (update (members R.float ms) choicesKey
        (some (.arr [renamed (members R.float cs) (members R.float ds)
          (unquote raw)]))))]) := by
    rw [slow_of_probeReasoning R hm hr, reasonChoice, string_content_eq_none R hnone,
      if_neg (by simp), if_neg htag, if_neg (by simp [hs])]
    rfl
  rw [hslow, h.saved] at htemplate
  rw [hslow]
  refine ⟨⟨h.inThinkBlock, h.thinkBuf, h.firstPayload, htemplate, h.template_or _⟩, ?_⟩
  simp only [map_cons, map_nil, view, hvalue]

/-- **Step lemma.** A plain chunk leaves the streams alike. -/
theorem agrees_payloadStep (hplain : Plain R f seen payload) (hdone : payload ≠ donePayload) :
    Agrees R (payloadStep R true f payload) (payloadStep R false s payload)
      (seen.or ((unmarshalMap R payload).map templateOf)) := by
  have h' := h.note payload
  have hplain' : Plain R (f.note payload) seen payload :=
    ⟨hplain.passed, hplain.keys, hplain.fits, hplain.tags, hplain.fields⟩
  simp only [payloadStep, if_neg hdone, if_true, Bool.false_eq_true, if_false]
  cases hfast : fastPath (f.note payload) payload with
  | none =>
    have hno : ¬Passes (f.note payload) payload := by
      intro hpass
      rw [fastPath, if_neg (by simp [hpass.1]), if_pos hpass.2] at hfast
      cases hfast
    exact agrees_slow R h' (hplain'.fields hno)
  | some r =>
    rw [fastPath] at hfast
    split_ifs at hfast with hin hkey
    · obtain ⟨r', hr', rfl⟩ := map_eq_some_iff.1 hfast
      exact agrees_suppressed R h' hin hplain' hr'
    · obtain ⟨n, hn, rfl⟩ := map_eq_some_iff.1 hfast
      exact agrees_renamed R h' (by simpa using hin) (fun hpass => hpass.2 hkey) hplain' hn
    · cases hfast
      exact agrees_passes R h' ⟨by simpa using hin, hkey⟩ hplain'

theorem agrees_lineStep {line : Bytes}
    (hplain : ∀ payload, payloadOf line = some payload → Plain R f seen payload) :
    Agrees R (lineStep R true f line) (lineStep R false s line) (seen.or (fieldsOf R line)) := by
  rw [lineStep, lineStep]
  by_cases hdata : dataPrefix.isPrefixOf line = true
  · rw [if_pos hdata, if_pos hdata]
    by_cases hdone : line.drop dataPrefix.length = donePayload
    · have hnone : fieldsOf R line = none := by simp [fieldsOf, payloadOf, hdone]
      rw [hnone, or_none, hdone, payloadStep, payloadStep, if_pos rfl, if_pos rfl]
      exact ⟨h, rfl⟩
    · have hpayload : payloadOf line = some (line.drop dataPrefix.length) :=
        if_pos ⟨hdata, hdone⟩
      have hfields : fieldsOf R line =
          (unmarshalMap R (line.drop dataPrefix.length)).map templateOf := by
        rw [fieldsOf, hpayload, bind_some]
      rw [hfields]
      exact agrees_payloadStep R h (hplain _ hpayload) hdone
  · have hnone : fieldsOf R line = none := by simp [fieldsOf, payloadOf, hdata]
    rw [if_neg hdata, if_neg hdata, hnone, or_none]
    exact ⟨h, rfl⟩

/-- **Run lemma.** -/
theorem agrees_streamThinkDisabled (hplain : PlainRun R f seen lines) :
    ∃ seen', Agrees R (streamThinkDisabled R true f lines) (streamThinkDisabled R false s lines)
      seen' := by
  induction lines generalizing f s seen with
  | nil => exact ⟨seen, h, rfl⟩
  | cons l ls ih =>
    obtain ⟨hl, hls⟩ := hplain
    obtain ⟨hsim, hview⟩ := agrees_lineStep R h hl
    obtain ⟨seen', hsim', hview'⟩ := ih hsim hls
    refine ⟨seen', hsim', ?_⟩
    rw [streamThinkDisabled, streamThinkDisabled, map_append, map_append, hview, hview']

end

theorem plainRun_of_isPrefix {pre : List Bytes} (hpre : pre <+: lines) (h : PlainRun R f seen lines) :
    PlainRun R f seen pre := by
  induction pre generalizing f seen lines with
  | nil => trivial
  | cons l pre ih =>
    obtain ⟨post, rfl⟩ := hpre
    exact ⟨h.1, ih ⟨post, rfl⟩ h.2⟩

/-- **The fast paths of a plain stream cannot be told**: as far as it was read, the frames are those
of the slow path, and the block is in the same state. -/
theorem streamThinkDisabled_eq {lines : List Bytes} (h : PlainRun R {} none lines) :
    ∀ pre, pre <+: lines → Same R pre := by
  intro pre hpre
  have hstart : Sim ({} : Stream F) {} none := ⟨rfl, rfl, rfl, rfl, .inl rfl⟩
  obtain ⟨seen, hsim, hview⟩ := agrees_streamThinkDisabled R hstart (plainRun_of_isPrefix R hpre h)
  exact ⟨hview, hsim.inThinkBlock, hsim.thinkBuf⟩

/-! ### Reasoning as an engine sends it -/

/-- A chunk with a literal for its reasoning. -/
def reasoningChunk (text : Bytes) : Bytes :=
  ascii "\x7b\"choices\":[\x7b\"delta\":\x7b\"reasoning_content\":\"" ++ text ++
    ascii "\"\x7d\x7d]\x7d"

/-- The members that such a chunk spells. -/
def reasoningMembers (text : Bytes) : List (Bytes × Json) :=
  [(choicesKey, .arr [.obj [(deltaKey, .obj [(reasoningKey, .str text)])]])]

/-- A reader of streams without numbers. -/
def plainReader : Reader Unit := ⟨fun _ => true, fun _ => (), id⟩

/-- One member has its own name for a key, or none of that name. -/
theorem once_singleton (v : Json) (h : foldName (unquote k) = foldName name → unquote k = name) :
    Once name [(k, v)] := by
  refine ⟨fun m hm => ?_, length_filter_le _ _⟩
  rw [mem_singleton.1 hm]
  exact h

theorem keysOnce_reasoningMembers (text : Bytes) : KeysOnce (reasoningMembers text) := by
  refine ⟨once_singleton _ (by decide), ?_⟩
  intro vs hvs cs hcs
  have hlookup : lookup (reasoningMembers text) choicesKey =
      some (.arr [.obj [(deltaKey, .obj [(reasoningKey, .str text)])]]) := rfl
  rw [hlookup] at hvs
  cases hvs
  cases mem_singleton.1 hcs
  refine ⟨once_singleton _ (by decide), ?_⟩
  intro ds hds
  have hdelta : lookup [(deltaKey, Json.obj [(reasoningKey, .str text)])] deltaKey =
      some (.obj [(reasoningKey, .str text)]) := rfl
  rw [hdelta] at hds
  cases hds
  exact ⟨once_singleton _ (by decide), once_singleton _ (by decide)⟩

theorem parse_reasoningChunk (h : tokens (reasoningChunk text) =
    ([.lbrace, .str choicesKey, .colon, .lbracket, .lbrace, .str deltaKey, .colon, .lbrace,
      .str reasoningKey, .colon, .str text, .rbrace, .rbrace, .rbracket, .rbrace], true)) :
    parse (reasoningChunk text) = some (.obj (reasoningMembers text)) := by
  rw [parse, h]
  rfl

theorem fits_plainReader (payload : Bytes) :
    (tokens payload).1.all (fitsToken plainReader) = true := by
  refine all_eq_true.2 fun t _ => ?_
  cases t <;> rfl

/-- Such a chunk has no field but its choices. -/
theorem templateOf_reasoningMembers (text : Bytes) :
    templateOf (some (members plainReader.float (reasoningMembers text))) =
      fun _ => none := by
  have hkey : unquote choicesKey = choicesKey := by decide
  funext k
  rw [templateOf]
  split
  · rfl
  · rename_i hk
    simp [reasoningMembers, members, hkey, Ne.symm hk]

/-- Such a chunk is plain, but for tags inside a block. -/
theorem plain_reasoningChunk {s : Stream Unit} {seen : Option (Bytes → Option (Value Unit))}
    (hparse : parse (reasoningChunk text) = some (.obj (reasoningMembers text)))
    (htags : s.inThinkBlock = true → ¬openThinkTag <:+: unquote text ∧
      ¬closeThinkTag <:+: unquote text) (hseen : ∀ t, seen = some t → t = fun _ => none) :
    Plain plainReader s seen (reasoningChunk text) := by
  have hin : reasoningKey <:+: reasoningChunk text := by
    have hhead : reasoningKey <:+:
        ascii "\x7b\"choices\":[\x7b\"delta\":\x7b\"reasoning_content\":\"" := by decide +kernel
    rw [reasoningChunk, append_assoc]
    exact hhead.trans (prefix_append _ _).isInfix
  have hno : ¬Passes s (reasoningChunk text) := fun hpass => hpass.2 hin
  have hm := unmarshalMap_of_parse plainReader (fits_plainReader _) hparse
  refine ⟨fun hpass => absurd hpass hno, fun _ ms hms => ?_, fun _ => fits_plainReader _, ?_, ?_⟩
  · rw [hparse] at hms
    cases hms
    exact keysOnce_reasoningMembers text
  · intro hblock _ m hm' r hr
    rw [hm] at hm'
    cases hm'
    cases mem_singleton.1 hr
    exact htags hblock
  · intro _ _ t ht m hm'
    rw [hm] at hm'
    cases hm'
    rw [hseen t ht]
    exact templateOf_reasoningMembers text

theorem payloadOf_reasoningChunk (text : Bytes) :
    payloadOf (dataPrefix ++ reasoningChunk text) = some (reasoningChunk text) := by
  have hdrop : (dataPrefix ++ reasoningChunk text).drop dataPrefix.length = reasoningChunk text :=
    drop_left
  have hne : reasoningChunk text ≠ donePayload := by
    intro heq
    cases (List.cons.inj heq).1
  rw [payloadOf, hdrop, if_pos]
  refine ⟨?_, hne⟩
  rw [List.isPrefixOf_iff_prefix]
  exact prefix_append _ _

/-- What holds of the chunk holds of the line's payload. -/
theorem forall_payloadOf {P : Bytes → Prop} (h : P (reasoningChunk text)) :
    ∀ payload, payloadOf (dataPrefix ++ reasoningChunk text) = some payload → P payload := by
  simpa [payloadOf_reasoningChunk] using h

theorem fieldsOf_reasoningChunk
    (hparse : parse (reasoningChunk text) = some (.obj (reasoningMembers text))) :
    fieldsOf plainReader (dataPrefix ++ reasoningChunk text) = some fun _ => none := by
  rw [fieldsOf, payloadOf_reasoningChunk, bind_some,
    unmarshalMap_of_parse plainReader (fits_plainReader _) hparse, map_some,
    templateOf_reasoningMembers]

/-- Reasoning outside a block, a tag that opens one, and reasoning inside it. -/
def plainLines : List Bytes :=
  [dataPrefix ++ reasoningChunk (ascii "hi"), dataPrefix ++ reasoningChunk openThinkTag,
    dataPrefix ++ reasoningChunk (ascii "x")]

theorem plainRun_plainLines : PlainRun plainReader {} none plainLines := by
  have hfirst : parse (reasoningChunk (ascii "hi")) = _ :=
    parse_reasoningChunk (by decide +kernel)
  have hopen : parse (reasoningChunk openThinkTag) = _ :=
    parse_reasoningChunk (by decide +kernel)
  have hlast : parse (reasoningChunk (ascii "x")) = _ :=
    parse_reasoningChunk (by decide +kernel)
  have hblock : (lineStep plainReader true {}
      (dataPrefix ++ reasoningChunk (ascii "hi"))).1.inThinkBlock = false := by decide +kernel
  refine ⟨forall_payloadOf (plain_reasoningChunk hfirst nofun nofun),
    forall_payloadOf (plain_reasoningChunk hopen (fun hin => ?_) fun t ht => ?_),
    forall_payloadOf (plain_reasoningChunk hlast (fun _ => ?_) fun t ht => ?_), trivial⟩
  · rw [hblock] at hin
    cases hin
  · rw [none_or, fieldsOf_reasoningChunk hfirst] at ht
    exact (Option.some.inj ht).symm
  · decide +kernel
  · rw [none_or, fieldsOf_reasoningChunk hfirst, some_or] at ht
    exact (Option.some.inj ht).symm

theorem streamThinkDisabled_eq_reasoning :
    PlainRun plainReader {} none plainLines ∧ Same plainReader plainLines :=
  ⟨plainRun_plainLines,
    streamThinkDisabled_eq plainReader plainRun_plainLines plainLines prefix_rfl⟩

/-- **A tag behind an escape.** The suppress path drops the text after a closing tag whose slash is
escaped, and stays in the block; the slow path writes the text. -/
theorem streamThinkDisabled_escaped :
    ¬Same plainReader [dataPrefix ++ reasoningChunk openThinkTag,
      dataPrefix ++ reasoningChunk (ascii "<\\/think>a")] := by
  intro h
  have hfast : (streamThinkDisabled plainReader true {} [dataPrefix ++ reasoningChunk openThinkTag,
      dataPrefix ++ reasoningChunk (ascii "<\\/think>a")]).2.length = 0 := by decide +kernel
  have hslow : (streamThinkDisabled plainReader false {} [dataPrefix ++ reasoningChunk openThinkTag,
      dataPrefix ++ reasoningChunk (ascii "<\\/think>a")]).2.length = 1 := by decide +kernel
  have hlen := congrArg List.length h.1
  rw [length_map, length_map, hfast, hslow] at hlen
  cases hlen

end Viiwork.Proxy

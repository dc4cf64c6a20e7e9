import Viiwork.Lib.JsonText
import Viiwork.Lib.Text

/-!
# Viiwork.Proxy.Measure

What a client gets of a local backend's stream (`measureWriter` of `measure.go`). For a client that
did not ask for usage, the event that carries nothing but usage is taken out.

The events are cut from a carry buffer, so a terminator may fall across two writes. The fact that
carries the proof is `cutEvent_append`: an event found in the bytes so far is the one found in the
whole stream, whatever comes after. When the first token was seen does not touch the bytes, and is
not part of this state.
-/

namespace Viiwork.Proxy

open Viiwork.Lib List

def sseEventEnd : Bytes := ascii "\n\n"
def emptyChoices : Bytes := ascii "\"choices\":[]"
def usageKey : Bytes := ascii "\"usage\""
def sseDataPrefix : Bytes := ascii "data:"

def isUsageOnlyEvent (ev : Bytes) : Bool :=
  let ev := trimSpace ev
  decide (sseDataPrefix <+: ev) && decide (emptyChoices <:+: ev) && decide (usageKey <:+: ev)

/-! ### Events -/

/-- The bytes through the first terminator, and those after it. -/
def cutEvent : Bytes → Option (Bytes × Bytes)
  | [] => none
  | b :: rest =>
    if sseEventEnd <+: b :: rest then some (sseEventEnd, rest.drop 1)
    else (cutEvent rest).map fun cut => (b :: cut.1, cut.2)

/-- An event ends with the terminator and holds no other before it. -/
def IsEvent (ev : Bytes) : Prop := sseEventEnd <:+ ev ∧ ¬ sseEventEnd <:+: ev.dropLast

theorem IsEvent.ne_nil {ev : Bytes} (h : IsEvent ev) : ev ≠ [] := by
  rintro rfl
  exact absurd h.1 (by decide)

theorem IsEvent.cons {b : UInt8} {ev : Bytes} (h : IsEvent ev) (hb : ¬ sseEventEnd <+: b :: ev) :
    IsEvent (b :: ev) := by
  refine ⟨h.1.trans (suffix_cons b ev), ?_⟩
  rw [dropLast_cons_of_ne_nil h.ne_nil, infix_cons_iff]
  intro hinfix
  cases hinfix with
  | inl hpre =>
    exact hb (hpre.trans (cons_prefix_cons.2 ⟨rfl, ev.dropLast_prefix⟩))
  | inr hin => exact h.2 hin

theorem cutEvent_spec : ∀ {s ev after : Bytes}, cutEvent s = some (ev, after) →
    s = ev ++ after ∧ IsEvent ev
  | [], _, _, h => by simp [cutEvent] at h
  | b :: rest, ev, after, h => by
      rw [cutEvent] at h
      by_cases hpre : sseEventEnd <+: b :: rest
      · rw [if_pos hpre] at h
        obtain ⟨tail, htail⟩ := hpre
        obtain ⟨rfl, rfl⟩ := Prod.mk.inj (Option.some.inj h)
        rw [← htail, ← (List.cons.inj htail).2]
        exact ⟨rfl, by unfold IsEvent; decide⟩
      · rw [if_neg hpre] at h
        obtain ⟨cut, hcut, heq⟩ := Option.map_eq_some_iff.1 h
        obtain ⟨rfl, rfl⟩ := Prod.mk.inj heq
        obtain ⟨hrest, hev⟩ := cutEvent_spec hcut
        refine ⟨by rw [hrest, cons_append], hev.cons fun hb => hpre ?_⟩
        rw [hrest]
        exact hb.trans (prefix_append (b :: cut.1) cut.2)

theorem not_infix_of_cutEvent : ∀ {s : Bytes}, cutEvent s = none → ¬ sseEventEnd <:+: s
  | [], _ => by decide
  | b :: rest, h => by
      rw [cutEvent] at h
      by_cases hpre : sseEventEnd <+: b :: rest
      · simp [if_pos hpre] at h
      · rw [if_neg hpre, Option.map_eq_none_iff] at h
        rw [infix_cons_iff, not_or]
        exact ⟨hpre, not_infix_of_cutEvent h⟩

/-- Bytes that come later do not change an event already complete. -/
theorem cutEvent_append : ∀ {s ev after : Bytes} (t : Bytes), cutEvent s = some (ev, after) →
    cutEvent (s ++ t) = some (ev, after ++ t)
  | [], _, _, _, h => by simp [cutEvent] at h
  | b :: rest, ev, after, t, h => by
      rw [cutEvent] at h
      rw [cons_append, cutEvent]
      by_cases hpre : sseEventEnd <+: b :: rest
      · rw [if_pos hpre] at h
        obtain ⟨tail, htail⟩ := hpre
        obtain ⟨rfl, rfl⟩ := Prod.mk.inj (Option.some.inj h)
        have hb : b :: (rest ++ t) = sseEventEnd ++ (tail ++ t) := by
          rw [← append_assoc, htail, cons_append]
        rw [if_pos ⟨_, hb.symm⟩, ← (List.cons.inj htail).2]
        rfl
      · rw [if_neg hpre] at h
        obtain ⟨cut, hcut, heq⟩ := Option.map_eq_some_iff.1 h
        obtain ⟨rfl, rfl⟩ := Prod.mk.inj heq
        -- A terminator at `b` would lie in `s`: an event of the rest is at least as long.
        have hnot : ¬ sseEventEnd <+: b :: (rest ++ t) := by
          obtain ⟨hrest, hev⟩ := cutEvent_spec hcut
          intro hlate
          refine hpre (prefix_of_prefix_length_le hlate
            (cons_prefix_cons.2 ⟨rfl, prefix_append rest t⟩) ?_)
          have hlen := hev.1.length_le
          rw [hrest, length_cons, length_append]
          omega
        rw [if_neg hnot, cutEvent_append t hcut]
        rfl

/-- The events of a buffer, from left to right, and the incomplete rest. -/
def events (s : Bytes) : List Bytes × Bytes :=
  match _ : cutEvent s with
  | none => ([], s)
  | some (ev, after) => (ev :: (events after).1, (events after).2)
termination_by s.length
decreasing_by
  all_goals
    obtain ⟨hs, hev⟩ := cutEvent_spec ‹cutEvent s = some _›
    have := List.length_pos_iff.2 hev.ne_nil
    rw [hs, List.length_append]
    omega

theorem events_of_none {s : Bytes} (h : cutEvent s = none) : events s = ([], s) := by
  rw [events]
  split
  · rfl
  · simp_all

theorem events_of_some {s ev after : Bytes} (h : cutEvent s = some (ev, after)) :
    events s = (ev :: (events after).1, (events after).2) := by
  rw [events]
  split
  · simp_all
  · simp_all

/-- What holds of a buffer without a complete event, and is kept by an event in front, holds of
every buffer. -/
theorem events_induction {motive : Bytes → Prop} (none : ∀ s, cutEvent s = none → motive s)
    (some : ∀ s ev after, cutEvent s = some (ev, after) → motive after → motive s) (s : Bytes) :
    motive s := by
  induction s using events.induct with
  | case1 s h => exact none s h
  | case2 s ev after h ih => exact some s ev after h ih

theorem flatten_events (s : Bytes) : (events s).1.flatten ++ (events s).2 = s := by
  induction s using events_induction with
  | none s h => simp [events_of_none h]
  | some s ev after h ih =>
    rw [events_of_some h, flatten_cons, append_assoc, ih]
    exact (cutEvent_spec h).1.symm

theorem isEvent_of_mem_events (s : Bytes) : ∀ ev ∈ (events s).1, IsEvent ev := by
  induction s using events_induction with
  | none s h => simp [events_of_none h]
  | some s ev after h ih =>
    simpa [events_of_some h] using ⟨(cutEvent_spec h).2, ih⟩

theorem not_infix_events (s : Bytes) : ¬ sseEventEnd <:+: (events s).2 := by
  induction s using events_induction with
  | none s h => simpa [events_of_none h] using not_infix_of_cutEvent h
  | some s ev after h ih => simpa [events_of_some h] using ih

theorem events_append (s t : Bytes) : events (s ++ t) =
    ((events s).1 ++ (events ((events s).2 ++ t)).1, (events ((events s).2 ++ t)).2) := by
  induction s using events_induction with
  | none s h => simp [events_of_none h]
  | some s ev after h ih => simp [events_of_some h, events_of_some (cutEvent_append t h), ih]

/-! ### The writer -/

/-- The writer, with the bytes that it wrote to the client. -/
structure MeasureWriter where
  strip : Bool
  carry : Bytes
  stripped : Bytes
  client : Bytes
deriving DecidableEq, Repr

namespace MeasureWriter

def new (strip : Bool) : MeasureWriter := ⟨strip, [], [], []⟩

def event (m : MeasureWriter) (ev : Bytes) : MeasureWriter :=
  if isUsageOnlyEvent ev then { m with stripped := ev } else { m with client := m.client ++ ev }

def write (m : MeasureWriter) (p : Bytes) : MeasureWriter :=
  if !m.strip then { m with client := m.client ++ p }
  else
    let cut := events (m.carry ++ p)
    { cut.1.foldl event m with carry := cut.2 }

def finish (m : MeasureWriter) : MeasureWriter :=
  if !m.strip || m.carry.isEmpty then m else { m with client := m.client ++ m.carry, carry := [] }

theorem foldl_event (evs : List Bytes) (m : MeasureWriter) : ∃ stripped,
    evs.foldl event m = { m with
      stripped := stripped
      client := m.client ++ (evs.filter fun ev => !isUsageOnlyEvent ev).flatten } := by
  induction evs generalizing m with
  | nil => exact ⟨m.stripped, by simp⟩
  | cons ev evs ih =>
    obtain ⟨stripped, hfold⟩ := ih (m.event ev)
    refine ⟨stripped, ?_⟩
    rw [foldl_cons, hfold, event]
    by_cases husage : isUsageOnlyEvent ev <;> simp [husage]

/-- After the bytes `s` the carry is their incomplete rest, and the client has their events without
the usage. -/
def Holds (m : MeasureWriter) (s : Bytes) : Prop :=
  m.strip ∧ m.carry = (events s).2 ∧
    m.client = ((events s).1.filter fun ev => !isUsageOnlyEvent ev).flatten

/-- **Step lemma.** -/
theorem Holds.write {m : MeasureWriter} {s : Bytes} (h : m.Holds s) (p : Bytes) :
    (m.write p).Holds (s ++ p) := by
  obtain ⟨hstrip, hcarry, hclient⟩ := h
  obtain ⟨stripped, hfold⟩ := foldl_event (events (m.carry ++ p)).1 m
  rw [Holds, MeasureWriter.write, events_append s p, ← hcarry]
  simp [hstrip, hfold, hclient]

/-- **Run lemma.** -/
theorem holds_writes (ps : List Bytes) : (ps.foldl write (new true)).Holds ps.flatten := by
  induction ps using List.reverseRecOn with
  | nil => simp [Holds, new, events_of_none (s := []) rfl]
  | append_singleton ps p ih => simpa using ih.write p

/-- The client gets the stream without its usage events, however the stream is cut into writes. The
events are those of the whole stream: each ends with the first terminator after the one before it,
and the rest has none. -/
theorem client_finish (ps : List Bytes) :
    (events ps.flatten).1.flatten ++ (events ps.flatten).2 = ps.flatten ∧
    (∀ ev ∈ (events ps.flatten).1, IsEvent ev) ∧ ¬ sseEventEnd <:+: (events ps.flatten).2 ∧
    (ps.foldl write (new true)).finish.client =
      ((events ps.flatten).1.filter fun ev => !isUsageOnlyEvent ev).flatten ++
        (events ps.flatten).2 := by
  refine ⟨flatten_events _, isEvent_of_mem_events _, not_infix_events _, ?_⟩
  obtain ⟨hstrip, hcarry, hclient⟩ := holds_writes ps
  rw [finish, ← hclient, ← hcarry]
  by_cases hempty : (ps.foldl write (new true)).carry = [] <;> simp [hstrip, hempty]

end MeasureWriter

end Viiwork.Proxy

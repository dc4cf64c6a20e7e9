import Mathlib.Data.List.DropRight
import Mathlib.Tactic

/-!
# Viiwork.Perf.Window

The samples that a model's score is computed from (`internal/perf/perf.go`): those of the last ten
minutes, in a bucket for each minute. Samples come in any order, so a bucket is put among the others
by its minute, and each call trims the oldest: `Record` as of its sample, `Score` as of now, unless
it has computed a score in this minute and nothing was recorded since.

A sample older than the window can open a bucket again that was trimmed. What such a bucket holds is
not what was recorded of its minute, but it is trimmed again before a score is computed
(`score_window`).

Times are Unix seconds. A model that nothing was recorded of is one without buckets; the medians and
the baseline that a score is made of are left out.
-/

namespace Viiwork.Perf

open List

/-- `Buckets`. -/
def window : Int := 10

def maxPerBucket : Nat := 256

/-- The time to the first token in nanoseconds. -/
structure Sample where
  uncached : Int
  ttft : Int
  deriving DecidableEq

structure Bucket where
  minute : Int
  samples : List Sample
  deriving DecidableEq

/-- The cache is what the last score was computed from. -/
structure Model where
  buckets : List Bucket := []
  cached : Bool := false
  cacheMin : Int := 0
  cache : List Bucket := []

def minuteOf (t : Int) : Int := t.tdiv 60

/-- `bucketFor`: the bucket of a minute, a new one if it has none, between those before and those
after it. -/
def bucketFor (bs : List Bucket) (minute : Int) : List Bucket × Bucket × List Bucket :=
  let earlier := bs.rdropWhile fun b => minute < b.minute
  let later := bs.rtakeWhile fun b => minute < b.minute
  match earlier.getLast? with
  | some b =>
    if b.minute = minute then (earlier.dropLast, b, later) else (earlier, ⟨minute, []⟩, later)
  | none => (earlier, ⟨minute, []⟩, later)

def expire (bs : List Bucket) (now : Int) : List Bucket :=
  bs.dropWhile fun b => b.minute ≤ minuteOf now - window

namespace Model

def record (m : Model) (at' : Int) (x : Sample) : Model :=
  if x.uncached < 0 ∨ x.ttft ≤ 0 then m
  else
    let (pre, b, post) := bucketFor m.buckets (minuteOf at')
    let samples := if b.samples.length < maxPerBucket then b.samples ++ [x] else b.samples
    { m with cached := false, buckets := expire (pre ++ { b with samples } :: post) at' }

/-- The model after a score, and the buckets that it is computed from. -/
def score (m : Model) (now : Int) : Model × List Bucket :=
  if m.cached = false ∨ m.cacheMin ≠ minuteOf now then
    let bs := expire m.buckets now
    ({ buckets := bs, cached := true, cacheMin := minuteOf now, cache := bs }, bs)
  else (m, m.cache)

end Model

/-! ### Runs -/

inductive Call
  | record (clock at' : Int) (x : Sample)
  | score (clock : Int)

def Call.clock : Call → Int
  | .record clock _ _ => clock
  | .score clock => clock

def Model.call (m : Model) : Call → Model
  | .record _ at' x => m.record at' x
  | .score now => (m.score now).1

def after (calls : List Call) : Model := calls.foldl Model.call {}

/-- The clock does not go back, and no sample is of a time after it. -/
structure Clocked (calls : List Call) : Prop where
  ordered : calls.Pairwise fun c c' => c.clock ≤ c'.clock
  past : ∀ clock at' x, .record clock at' x ∈ calls → at' ≤ clock

/-- What was recorded of a minute, in order. -/
def recorded (calls : List Call) (minute : Int) : List Sample :=
  calls.filterMap fun
    | .record _ at' x =>
      if ¬(x.uncached < 0 ∨ x.ttft ≤ 0) ∧ minuteOf at' = minute then some x else none
    | .score _ => none

/-! ### One call -/

variable {bs pre post : List Bucket} {b : Bucket} {minute now : Int}

/-- **The bucket of a minute.** With its samples set, the buckets are in order and those of the
other minutes as they were. -/
theorem bucketFor_spec (hs : bs.Pairwise (·.minute < ·.minute))
    (h : bucketFor bs minute = (pre, b, post)) (samples : List Sample) : b.minute = minute ∧
      (b ∈ bs ∨ b.samples = [] ∧ ∀ x ∈ bs, x.minute ≠ minute) ∧
      (pre ++ { b with samples } :: post).Pairwise (·.minute < ·.minute) ∧
      ∀ x, x ∈ pre ++ { b with samples } :: post ↔
        x = { b with samples } ∨ x ∈ bs ∧ x.minute ≠ minute := by
  have happ := rdropWhile_append_rtakeWhile (p := fun b : Bucket => minute < b.minute) (l := bs)
  have hpost : ∀ x ∈ bs.rtakeWhile fun b => minute < b.minute, minute < x.minute := by
    intro x hx
    simpa using mem_rtakeWhile_imp hx
  simp only [bucketFor] at h
  rw [← happ, pairwise_append] at hs
  split at h
  · rename_i last hlast
    obtain ⟨earlier, heq⟩ := getLast?_eq_some_iff.1 hlast
    have hle : last.minute ≤ minute := by
      have hnot := rdropWhile_last_not (fun b : Bucket => minute < b.minute) bs (by simp [heq])
      simpa [heq] using hnot
    rw [heq] at happ h hs
    have hbefore := (pairwise_append.1 hs.1).2.2
    rw [← happ]
    split_ifs at h with hsame <;> cases h <;> grind
  · rename_i hnone
    rw [getLast?_eq_none_iff] at hnone
    cases h
    rw [hnone] at happ ⊢
    rw [← happ]
    grind

/-- What is in the window is left of buckets in order. -/
theorem mem_expire (h : bs.Pairwise (·.minute < ·.minute)) :
    b ∈ expire bs now ↔ b ∈ bs ∧ minuteOf now - window < b.minute := by
  induction bs with
  | nil => simp [expire]
  | cons c bs ih =>
    rw [pairwise_cons] at h
    have hrest := ih h.2
    rw [expire] at hrest ⊢
    rw [dropWhile_cons]
    split <;> grind

theorem pairwise_expire (h : bs.Pairwise (·.minute < ·.minute)) :
    (expire bs now).Pairwise (·.minute < ·.minute) :=
  h.sublist (dropWhile_sublist _)

theorem recorded_record (calls : List Call) (now at' : Int) (x : Sample) (minute : Int) :
    recorded (calls ++ [.record now at' x]) minute = recorded calls minute ++
      if ¬(x.uncached < 0 ∨ x.ttft ≤ 0) ∧ minuteOf at' = minute then [x] else [] := by
  simp only [recorded, filterMap_append, filterMap_cons, filterMap_nil]
  split_ifs <;> rfl

theorem recorded_score (calls : List Call) (now minute : Int) :
    recorded (calls ++ [.score now]) minute = recorded calls minute := by
  simp [recorded]

/-- What fits of the samples, with one more. -/
theorem take_push (xs : List Sample) (x : Sample) (n : Nat) :
    (if (xs.take n).length < n then xs.take n ++ [x] else xs.take n) = (xs ++ [x]).take n := by
  by_cases hn : xs.length < n
  · rw [take_of_length_le hn.le, if_pos hn, take_of_length_le (by simpa using hn)]
  · rw [if_neg (by simp; omega), take_append_of_le_length (by omega)]

/-! ### The window -/

/-- **The invariant**: the buckets are in order, and those of the window are what was recorded. -/
structure Tracks (m : Model) (calls : List Call) (now : Int) : Prop where
  sorted : m.buckets.Pairwise (·.minute < ·.minute)
  exact : ∀ b ∈ m.buckets, minuteOf now - window < b.minute →
    b.samples = (recorded calls b.minute).take maxPerBucket
  complete : ∀ minute, minuteOf now - window < minute → recorded calls minute ≠ [] →
    ∃ b ∈ m.buckets, b.minute = minute
  past : ∀ b ∈ m.buckets, b.minute ≤ minuteOf now
  cache : m.cached = true → m.cache = m.buckets ∧ ∀ b ∈ m.buckets, m.cacheMin - window < b.minute

variable {m : Model} {calls : List Call} {x : Sample} {at' : Int}

theorem minuteOf_mono {t t' : Int} (h : t ≤ t') : minuteOf t ≤ minuteOf t' :=
  Int.tdiv_le_tdiv (by decide) h

theorem Tracks.later {now' : Int} (h : Tracks m calls now) (hle : now ≤ now') :
    Tracks m calls now' := by
  have hmono := minuteOf_mono hle
  refine ⟨h.sorted, fun b hb hlt => ?_, fun minute hlt => ?_,
    fun b hb => (h.past b hb).trans hmono, h.cache⟩
  · exact h.exact b hb (by omega)
  · exact h.complete minute (by omega)

/-- **Step lemma** of a record. -/
theorem Tracks.record (h : Tracks m calls now) (hat : at' ≤ now) :
    Tracks (m.record at' x) (calls ++ [.record now at' x]) now := by
  have hmono := minuteOf_mono hat
  obtain ⟨hsorted, hexact, hcomplete, hpast, hcache⟩ := h
  unfold Model.record
  split_ifs with hbad
  · refine ⟨hsorted, ?_, ?_, hpast, hcache⟩ <;> simpa [recorded_record, hbad]
  · generalize hput : bucketFor m.buckets (minuteOf at') = put
    obtain ⟨pre, b, post⟩ := put
    obtain ⟨hb, hold, hsorted', hmem⟩ := bucketFor_spec hsorted hput
      (if b.samples.length < maxPerBucket then b.samples ++ [x] else b.samples)
    have hself : minuteOf now - window < b.minute →
        b.samples = (recorded calls b.minute).take maxPerBucket := by
      intro hlt
      obtain hin | ⟨hnil, hnone⟩ := hold
      · exact hexact b hin hlt
      · have hempty : recorded calls b.minute = [] := by
          by_contra hne
          obtain ⟨c, hc, hcb⟩ := hcomplete b.minute hlt hne
          exact hnone c hc (hcb.trans hb)
        rw [hnil, hempty, take_nil]
    refine ⟨pairwise_expire hsorted', ?_, ?_, ?_, nofun⟩
    · intro c hc hlt
      rw [mem_expire hsorted', hmem] at hc
      rw [recorded_record]
      obtain ⟨rfl | ⟨hc, hne⟩, -⟩ := hc
      · have hfits := take_push (recorded calls b.minute) x maxPerBucket
        rw [← hself hlt] at hfits
        simpa [hbad, ← hb] using hfits
      · rw [if_neg fun hok => hne hok.2.symm, append_nil]
        exact hexact c hc hlt
    · intro minute hlt hne
      simp only [mem_expire hsorted', hmem]
      by_cases hminute : minute = minuteOf at'
      · exact ⟨_, ⟨.inl rfl, by simp [hb, window]⟩, hb.trans hminute.symm⟩
      · rw [recorded_record, if_neg fun hok => hminute hok.2.symm, append_nil] at hne
        obtain ⟨c, hc, rfl⟩ := hcomplete minute hlt hne
        exact ⟨c, ⟨.inr ⟨hc, hminute⟩, by omega⟩, rfl⟩
    · intro c hc
      rw [mem_expire hsorted', hmem] at hc
      obtain ⟨rfl | ⟨hc, -⟩, -⟩ := hc
      · exact hb.trans_le hmono
      · exact hpast c hc

/-- **Step lemma** of a score. -/
theorem Tracks.score (h : Tracks m calls now) :
    Tracks (m.score now).1 (calls ++ [.score now]) now ∧
      (m.score now).2 = (m.score now).1.buckets ∧
      ∀ b ∈ (m.score now).2, minuteOf now - window < b.minute := by
  obtain ⟨hsorted, hexact, hcomplete, hpast, hcache⟩ := h
  rw [Model.score]
  split_ifs with hcompute
  · have hmem : ∀ b, b ∈ expire m.buckets now ↔ _ := fun _ => mem_expire hsorted
    refine ⟨⟨pairwise_expire hsorted, ?_, ?_, ?_, ?_⟩, rfl, ?_⟩ <;>
      simp only [hmem, recorded_score] <;> grind
  · push Not at hcompute
    obtain ⟨heq, hwindow⟩ := hcache (by simpa using hcompute.1)
    rw [hcompute.2] at hwindow
    refine ⟨⟨hsorted, ?_, ?_, hpast, hcache⟩, heq, ?_⟩
    · simpa only [recorded_score] using hexact
    · simpa only [recorded_score] using hcomplete
    · rwa [heq]

/-- **Run lemma.** -/
theorem tracks_after (h : Clocked calls) (hnow : ∀ c ∈ calls, c.clock ≤ now) :
    Tracks (after calls) calls now := by
  induction calls using List.reverseRecOn generalizing now with
  | nil => exact ⟨.nil, nofun, fun _ _ hne => absurd rfl hne, nofun, nofun⟩
  | append_singleton calls c ih =>
    have hord := pairwise_append.1 h.ordered
    have hcalls := ih ⟨hord.1, fun clock at' x hx => h.past clock at' x (mem_append_left _ hx)⟩
      fun c' hc' => hord.2.2 c' hc' c mem_cons_self
    have hlast : Tracks (after (calls ++ [c])) (calls ++ [c]) c.clock := by
      rw [after, foldl_append]
      cases c with
      | record clock at' x => exact hcalls.record (h.past clock at' x (by simp))
      | score clock => exact hcalls.score.1
    exact hlast.later (hnow c (by simp))

/-- **The window.** A score is computed from what was recorded in the last ten minutes, of each
minute the first samples that fit. The buckets are in order at all times. -/
theorem score_window (h : Clocked (calls ++ [.score now])) :
    let bs := ((after calls).score now).2
    (∀ b ∈ bs, minuteOf now - window < b.minute ∧ b.minute ≤ minuteOf now ∧
        b.samples = (recorded calls b.minute).take maxPerBucket) ∧
      (∀ minute, minuteOf now - window < minute → recorded calls minute ≠ [] →
        ∃ b ∈ bs, b.minute = minute) ∧
      bs.Pairwise (·.minute < ·.minute) ∧
      (after calls).buckets.Pairwise (·.minute < ·.minute) := by
  intro bs
  have hord := pairwise_append.1 h.ordered
  have hcalls : Tracks (after calls) calls now :=
    tracks_after ⟨hord.1, fun clock at' x hx => h.past clock at' x (mem_append_left _ hx)⟩
      fun c hc => hord.2.2 c hc _ mem_cons_self
  obtain ⟨⟨hsorted, hexact, hcomplete, hpast, -⟩, hbs, hwindow⟩ := hcalls.score
  simp only [recorded_score, ← hbs] at hexact hcomplete hsorted hpast
  exact ⟨fun b hb => ⟨hwindow b hb, hpast b hb, hexact b hb (hwindow b hb)⟩, hcomplete, hsorted,
    hcalls.sorted⟩

/-- Two minutes in either order, and one of before the window. -/
theorem score_window_late :
    let x : Sample := ⟨600, 5000000⟩
    let calls : List Call := [.record 1200 1180 x, .record 1200 1130 x, .record 1210 540 x]
    Clocked (calls ++ [.score 1230]) ∧ ((after calls).score 1230).2 = [⟨18, [x]⟩, ⟨19, [x]⟩] ∧
      ∃ b ∈ ((after calls).score 1230).2, b.minute = 18 := by
  intro x calls
  have h : Clocked (calls ++ [.score 1230]) := ⟨by decide, by simp [calls]; omega⟩
  exact ⟨h, by decide +kernel, (score_window h).2.1 18 (by decide) (by decide)⟩

end Viiwork.Perf

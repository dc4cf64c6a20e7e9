import Viiwork.Lib.Bytes

/-!
# Viiwork.Energy.Reopen

How a ring file is opened (`openRing`, `readHeader` and `reinit` of `energy/ring.go`), over the
bytes of the file. `openRing` decides from the size and the header whether a file is new, reusable
or foreign; a new or reusable one of another geometry is made anew by three file operations.

A stop between two of them, or a write of the header that fails half-way, leaves a file that the
next `openRing` has to classify (`left`). It takes a file that was extended and has no header yet
for a foreign one, so such a ring is never opened again (`reopens_iff`).
-/

namespace Viiwork.Energy

open Viiwork.Lib List

/-! ### The file operations -/

/-- The calls of `reinit` on the file. -/
inductive FileOp
  | truncate (size : Int)
  | writeAt (bytes : Bytes)
  deriving DecidableEq

namespace FileOp

/-- The effect on a healthy disk. A negative size is refused on every disk. -/
def run : FileOp → Bytes → Option Bytes
  | truncate size, f =>
    if size < 0 then none
    else some (f.take size.toNat ++ List.replicate (size.toNat - f.length) 0)
  | writeAt bytes, f => some (bytes ++ f.drop bytes.length)

/-- A failed operation: a write may have got `n` bytes out. -/
def part (n : Nat) : FileOp → Bytes → Bytes
  | truncate _, f => f
  | writeAt bytes, f => bytes.take n ++ f.drop (bytes.take n).length

/-- What is in the file when only `k` of the operations succeed. -/
def stopped (n : Nat) : List FileOp → Nat → Bytes → Bytes
  | [], _, f => f
  | op :: _, 0, f => op.part n f
  | op :: ops, k + 1, f => ((op.run f).map (stopped n ops k)).getD f

/-- All of them, in turn. -/
def runAll : List FileOp → Bytes → Option Bytes
  | [], f => some f
  | op :: ops, f => (op.run f).bind (runAll ops)

end FileOp

/-! ### The header -/

def ringMagic : Bytes := [86, 73, 73, 87, 69, 78, 71, 49]

def ringHeaderLen : Nat := 32

/-- The series that are kept in rings. -/
inductive Series
  | node
  | gpu
  | client
  deriving DecidableEq

/-- `NodeRecordSize`, `GPURecordSize` and `ClientRecordSize`. -/
def Series.recSize : Series → Nat
  | node => 16
  | gpu => 24
  | client => 24

/-- The arguments of `openRing`. -/
structure RingShape where
  slots : Nat
  lanes : Nat
  series : Series

namespace RingShape

/-- The file's size, an `int64`. -/
def size (s : RingShape) : Int :=
  int64 ((ringHeaderLen + s.slots * s.lanes * s.series.recSize) % 2 ^ 64)

/-- The header that `reinit` writes. -/
def head (s : RingShape) : Bytes :=
  ringMagic ++ leBytes 2 s.series.recSize ++ leBytes 4 s.slots ++ leBytes 4 s.lanes ++
    List.replicate 14 0

def reinit (s : RingShape) : List FileOp :=
  [.truncate 0, .truncate s.size, .writeAt s.head]

end RingShape

/-- The parsed prefix of a ring file. -/
structure RingHeader where
  magic : Bytes
  recSize : Nat
  slots : Nat
  lanes : Nat

def readHeader (f : Bytes) : Option RingHeader :=
  if f.length < ringHeaderLen then none
  else some ⟨f.take 8, leNat ((f.drop 8).take 2), leNat ((f.drop 10).take 4),
    leNat ((f.drop 14).take 4)⟩

/-- Why `openRing` refuses a file, with what its message reports. -/
inductive RingRefused
  | shape
  | header (size : Nat)
  | format (magic : Bytes)
  | records (onDisk : Nat)
  deriving DecidableEq

/-- `openRing`: what it does to the file, and whether history is discarded. -/
def openRing (s : RingShape) (f : Bytes) : Except RingRefused (List FileOp × Bool) :=
  if s.slots < 1 ∨ s.lanes < 1 then .error .shape
  else if f.length = 0 then .ok (s.reinit, false)
  else
    match readHeader f with
    | none => .error (.header f.length)
    | some head =>
      if head.magic ≠ ringMagic then .error (.format head.magic)
      else if head.recSize ≠ s.series.recSize then .error (.records head.recSize)
      else if head.slots = s.slots ∧ head.lanes = s.lanes ∧ (f.length : Int) = s.size then
        .ok ([], false)
      else .ok (s.reinit, true)

/-- The file that `openRing` leaves on a healthy disk, if it succeeds. -/
def opened (s : RingShape) (f : Bytes) : Option Bytes :=
  match openRing s f with
  | .ok (ops, _) => FileOp.runAll ops f
  | .error _ => none

/-- The file that `openRing` leaves when it stops after `k` operations, or the next one fails with
`n` bytes written. -/
def left (s : RingShape) (k n : Nat) (f : Bytes) : Bytes :=
  match openRing s f with
  | .ok (ops, _) => FileOp.stopped n ops k f
  | .error _ => f

/-- No record was ever written. -/
def Blank (f : Bytes) : Prop := ∀ b ∈ f.drop ringHeaderLen, b = 0

/-- A file with a header of another format. -/
def Foreign (s : RingShape) (f : Bytes) : Prop :=
  ∃ head ∈ readHeader f, head.magic ≠ ringMagic ∨ head.recSize ≠ s.series.recSize

/-- A file with a header of the ring's format. -/
def RingShape.Marked (s : RingShape) (f : Bytes) : Prop :=
  ∃ head ∈ readHeader f, head.magic = ringMagic ∧ head.recSize = s.series.recSize

/-- The files that are not refused. -/
def RingShape.Takes (s : RingShape) (f : Bytes) : Prop :=
  (1 ≤ s.slots ∧ 1 ≤ s.lanes) ∧ (f = [] ∨ s.Marked f)

variable {s : RingShape} {f : Bytes} {k n : Nat}

/-! ### What is classified how -/

/-- **What `openRing` decides**: an empty file is new, one of the format is taken as it is or made
anew, and every other one is refused. -/
theorem openRing_cases (s : RingShape) (f : Bytes) :
    (s.Takes f ∧ (openRing s f = .ok ([], false) ∧ (f.length : Int) = s.size ∨
      ∃ reset, openRing s f = .ok (s.reinit, reset))) ∨
    (¬ s.Takes f ∧ ∃ e, openRing s f = .error e) := by
  unfold openRing RingShape.Takes RingShape.Marked
  by_cases hshape : s.slots < 1 ∨ s.lanes < 1
  · exact .inr ⟨fun h => by omega, _, if_pos hshape⟩
  have hpos : 1 ≤ s.slots ∧ 1 ≤ s.lanes := by omega
  rw [if_neg hshape]
  by_cases hnil : f = []
  · exact .inl ⟨⟨hpos, .inl hnil⟩, .inr ⟨false, if_pos (by simp [hnil])⟩⟩
  rw [if_neg (by simpa using hnil)]
  cases hread : readHeader f with
  | none => exact .inr ⟨by simp [hnil], _, rfl⟩
  | some head =>
    dsimp only
    split_ifs with hmagic hrec hsame
    · exact .inr ⟨by simp [hnil, hmagic], _, rfl⟩
    · exact .inr ⟨by simp [hnil, hrec], _, rfl⟩
    · exact .inl ⟨by simp_all, .inl ⟨rfl, hsame.2.2⟩⟩
    · exact .inl ⟨by simp_all, .inr ⟨_, rfl⟩⟩

theorem length_head (s : RingShape) : s.head.length = ringHeaderLen := by
  simp [RingShape.head, ringMagic, ringHeaderLen]

theorem take_length_head (s : RingShape) : s.head.take ringHeaderLen = s.head :=
  take_of_length_le (length_head s).le

/-- A blank file of the ring's size with the first `n` bytes of the header. -/
def RingShape.begun (s : RingShape) (n : Nat) : Bytes :=
  s.head.take n ++ (List.replicate s.size.toNat 0).drop (s.head.take n).length

theorem blank_begun (s : RingShape) (n : Nat) : Blank (s.begun n) := by
  intro b hb
  have hlen : (s.head.take n).length ≤ ringHeaderLen := by
    rw [← length_head s]
    exact length_take_le' _ _
  rw [RingShape.begun, drop_append, drop_eq_nil_of_le hlen] at hb
  simp at hb
  exact hb.2

theorem runAll_reinit (s : RingShape) (f : Bytes) :
    FileOp.runAll s.reinit f = if s.size < 0 then none else some (s.begun ringHeaderLen) := by
  simp only [RingShape.reinit, FileOp.runAll, FileOp.run]
  by_cases hsize : s.size < 0 <;> simp [RingShape.begun, take_length_head, hsize]

/-- **What is opened** on a healthy disk: the ring is then empty, or the one that was there. -/
theorem opened_cases (s : RingShape) (f : Bytes) :
    (s.Takes f ∧ 0 ≤ s.size ∧ ∃ f', opened s f = some f' ∧ (Blank f' ∨ f' = f)) ∨
      (¬ (s.Takes f ∧ 0 ≤ s.size) ∧ opened s f = none) := by
  obtain ⟨htakes, ⟨hopen, hlen⟩ | ⟨reset, hopen⟩⟩ | ⟨hnot, e, hopen⟩ := openRing_cases s f
  · exact .inl ⟨htakes, by omega, f, by simp [opened, hopen, FileOp.runAll], .inr rfl⟩
  · simp only [opened, hopen, runAll_reinit]
    split_ifs with hsize
    · exact .inr ⟨fun h => by omega, rfl⟩
    · exact .inl ⟨htakes, by omega, _, rfl, .inl (blank_begun s _)⟩
  · exact .inr ⟨fun h => hnot h.1, by simp [opened, hopen]⟩

/-- A file that is the old one, or has no records, is opened as such. -/
theorem reopens {g : Bytes} (hg : g = f ∨ Blank g) :
    (∃ f', opened s g = some f' ∧ (Blank f' ∨ f' = f)) ↔ s.Takes g ∧ 0 ≤ s.size := by
  obtain ⟨htakes, hsize, f', hopen, hf'⟩ | ⟨hnot, hopen⟩ := opened_cases s g
  · refine iff_of_true ⟨f', hopen, ?_⟩ ⟨htakes, hsize⟩
    obtain hblank | rfl := hf'
    · exact .inl hblank
    · exact hg.symm
  · exact iff_of_false (by simp [hopen]) hnot

/-! ### What a stop leaves -/

/-- The bytes of the header that are written at a stop behind the second operation. -/
def written (k n : Nat) : Nat := if k = 2 then n else ringHeaderLen

/-- A stop leaves the file as it was, an empty one, or a blank one with a part of the header. -/
theorem left_cases {reset : Bool} (h : openRing s f = .ok (s.reinit, reset)) (hsize : 0 ≤ s.size) :
    (k = 0 ∧ left s k n f = f) ∨ (k = 1 ∧ left s k n f = []) ∨
    (2 ≤ k ∧ left s k n f = s.begun (written k n)) := by
  have hnot : ¬ s.size < 0 := by omega
  simp only [left, h, RingShape.reinit]
  match k with
  | 0 => simp [FileOp.stopped, FileOp.part]
  | 1 => simp [FileOp.stopped, FileOp.part, FileOp.run]
  | 2 => simp [FileOp.stopped, FileOp.part, FileOp.run, RingShape.begun, written, hnot]
  | k + 3 => simp [FileOp.stopped, FileOp.run, RingShape.begun, written, hnot, take_length_head]

/-- The header is far enough: nothing of the file is there yet, or the bytes that are looked at are
all there. Of the record size, the second byte is zero. -/
def HeaderDown (s : RingShape) (n : Nat) : Prop :=
  (s.size = 0 ∧ n = 0) ∨ (9 ≤ n ∧ (32 ≤ s.size ∨ 32 ≤ n))

instance : Decidable (HeaderDown s n) := inferInstanceAs (Decidable (_ ∨ _))

/-- The format is in the first ten bytes. -/
theorem marked_iff : s.Marked f ↔ ringHeaderLen ≤ f.length ∧ (f.take 10).take 8 = ringMagic ∧
    leNat ((f.take 10).drop 8) = s.series.recSize := by
  simp only [RingShape.Marked, readHeader, take_take, drop_take]
  split
  · rename_i hlt
    simp [Nat.not_le.2 hlt]
  · rename_i hge
    simp [Nat.le_of_not_lt hge]

/-- A begun format is complete with its ninth byte: the tenth is zero. -/
theorem format_iff {t : Series} {format : Bytes}
    (h : format = (ringMagic ++ leBytes 2 t.recSize).take n ++ List.replicate (10 - n) 0) :
    (format.take 8 = ringMagic ∧ leNat (format.drop 8) = t.recSize) ↔ 9 ≤ n := by
  subst h
  by_cases hn : n < 10
  · interval_cases n <;> cases t <;> decide
  · have hall : (ringMagic ++ leBytes 2 t.recSize).length ≤ n := by
      simp [ringMagic]
      omega
    rw [take_of_length_le hall, Nat.sub_eq_zero_of_le (by omega)]
    refine iff_of_true ?_ (by omega)
    cases t <;> decide

theorem take_begun (h : ringHeaderLen ≤ (s.begun n).length) : (s.begun n).take 10 =
    (ringMagic ++ leBytes 2 s.series.recSize).take n ++ List.replicate (10 - n) 0 := by
  have hformat : s.head.take 10 = ringMagic ++ leBytes 2 s.series.recSize := by
    simp [RingShape.head, ringMagic]
  simp only [RingShape.begun, ringHeaderLen, length_append, length_take, length_head,
    length_drop, length_replicate] at h
  rw [← hformat, RingShape.begun, take_append, take_take, take_take, min_comm,
    drop_replicate, take_replicate, length_take, length_head, ringHeaderLen]
  congr 2
  omega

theorem begun_iff (hsize : 0 ≤ s.size) :
    (s.begun n = [] ∨ s.Marked (s.begun n)) ↔ HeaderDown s n := by
  have hlen : (s.begun n).length = max (min n 32) s.size.toNat := by
    simp [RingShape.begun, length_head, ringHeaderLen]
    omega
  rw [← length_eq_zero_iff, marked_iff, HeaderDown]
  by_cases hge : ringHeaderLen ≤ (s.begun n).length
  · rw [format_iff (take_begun hge)]
    simp only [ringHeaderLen] at hge ⊢
    omega
  · simp only [ringHeaderLen, hlen] at hge ⊢
    omega

/-- **A ring can be opened again** after a stop, as the old one or an empty one, exactly if the
size of the file is one and the stop is not behind the extension of the file with the header not
far enough. A file of another format is never modified. -/
theorem reopens_iff (s : RingShape) (f : Bytes) (k n : Nat) :
    (∀ reset, openRing s f = .ok (s.reinit, reset) →
      ((∃ f', opened s (left s k n f) = some f' ∧ (Blank f' ∨ f' = f)) ↔
        0 ≤ s.size ∧ (2 ≤ k → HeaderDown s (written k n)))) ∧
    (openRing s f = .ok ([], false) → left s k n f = f ∧ opened s f = some f) ∧
    (Foreign s f → left s k n f = f) := by
  refine ⟨?_, ?_, ?_⟩
  · intro reset h
    obtain ⟨hpos, hmark⟩ : s.Takes f := by
      obtain ⟨htakes, -⟩ | ⟨-, e, he⟩ := openRing_cases s f
      · exact htakes
      · simp [h] at he
    by_cases hsize : 0 ≤ s.size
    · obtain ⟨rfl, hleft⟩ | ⟨rfl, hleft⟩ | ⟨hk, hleft⟩ := left_cases (k := k) (n := n) h hsize
      · rw [hleft, reopens (.inl rfl)]
        simp [RingShape.Takes, hpos, hmark]
      · rw [hleft, reopens (.inr (by simp [Blank]))]
        simp [RingShape.Takes, hpos]
      · rw [hleft, reopens (.inr (blank_begun s _)), RingShape.Takes, begun_iff hsize]
        simp [hpos, hsize, hk]
    · obtain ⟨-, h, -⟩ | ⟨-, hopen⟩ := opened_cases s (left s k n f)
      · exact absurd h hsize
      · simp [hopen, hsize]
  · intro h
    simp [left, opened, h, FileOp.stopped, FileOp.runAll]
  · intro h
    obtain ⟨head, hread, hforeign⟩ := h
    obtain ⟨⟨-, rfl | hmark⟩, -⟩ | ⟨-, e, he⟩ := openRing_cases s f
    · simp [readHeader, ringHeaderLen] at hread
    · obtain ⟨head', hread', hmagic, hrec⟩ := hmark
      obtain rfl := Option.some.inj (hread.symm.trans hread')
      exact absurd hforeign (by simp [hmagic, hrec])
    · simp [left, he]

theorem reopens_iff_emptied : ∃ f', opened ⟨1, 1, .node⟩ (left ⟨1, 1, .node⟩ 1 0 []) = some f' ∧
    (Blank f' ∨ f' = []) :=
  ((reopens_iff ⟨1, 1, .node⟩ [] 1 0).1 false (by decide +kernel)).2 (by decide +kernel)

/-- A node's ring of one slot that stops between its extension and its header is refused as a
foreign file ever after. -/
theorem reopens_extended :
    openRing ⟨1, 1, .node⟩ [] = .ok (RingShape.reinit ⟨1, 1, .node⟩, false) ∧
    openRing ⟨1, 1, .node⟩ (left ⟨1, 1, .node⟩ 2 0 []) = .error (.format (List.replicate 8 0)) ∧
    opened ⟨1, 1, .node⟩ (left ⟨1, 1, .node⟩ 2 0 []) = none := by
  decide +kernel

end Viiwork.Energy

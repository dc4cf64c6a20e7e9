import Mathlib

/-!
# Viiwork.Update.Version

Release versions (`version.go`, and `ValidVersion` of `release.go`): which strings name a
release, and in which order.

The two files have a pattern each. A release name (`validVersion`) has letters, digits and
dots in its pre-release part; the order (`parse`) also takes dashes there, because a build
between two releases is called after the one it was cut from with `-g<sha>` or `-dirty`
behind it. `stripPrivate` removes that suffix, so that such a build compares as the release.

Numbers are 64-bit `int`s: `parse` refuses a version with a larger one, and the difference
that `compareIdent` takes the sign of wraps around.
-/

namespace Viiwork.Update

open List

/-- The binary that the image or the install provides. -/
def builtin : String := "builtin"

/-! ### Numbers -/

/-- What a 64-bit subtraction leaves of a difference. -/
def int64 (n : Int) : Int := n.bmod (2 ^ 64)

def sign (n : Int) : Int := if n < 0 then -1 else if 0 < n then 1 else 0

def decimal (cs : List Char) : Nat := cs.foldl (fun n c => 10 * n + (c.toNat - '0'.toNat)) 0

/-- Digits with a sign in front or none, in the range of an `int`. -/
def atoi (cs : List Char) : Option Int :=
  let (neg, ds) := match cs with
    | '-' :: ds => (true, ds)
    | '+' :: ds => (false, ds)
    | ds => (false, ds)
  if ds ≠ [] ∧ ds.all Char.isDigit then
    let n : Int := if neg then -decimal ds else decimal ds
    if -2 ^ 63 ≤ n ∧ n < 2 ^ 63 then some n else none
  else none

/-! ### The two patterns -/

/-- One or more digits and what follows them. -/
def digits (cs : List Char) : Option (List Char × List Char) :=
  match cs.span Char.isDigit with
  | ([], _) => none
  | (ds, rest) => some (ds, rest)

/-- The parts of `vX.Y.Z` and of `vX.Y.Z-pre`, where `pre` has only characters that `ok`
allows; without a pre-release it is empty. -/
def splitVersion (ok : Char → Bool) (v : String) :
    Option (List Char × List Char × List Char × List Char) :=
  match v.toList with
  | 'v' :: cs => do
      let (x, cs) ← digits cs
      let '.' :: cs := cs | none
      let (y, cs) ← digits cs
      let '.' :: cs := cs | none
      let (z, cs) ← digits cs
      match cs with
      | [] => some (x, y, z, [])
      | '-' :: pre => if pre ≠ [] ∧ pre.all ok then some (x, y, z, pre) else none
      | _ => none
  | _ => none

/-- One or more digits, and nothing else. -/
def IsNumber (ds : List Char) : Prop := ds ≠ [] ∧ ∀ c ∈ ds, c.isDigit = true

theorem digits_iff {cs ds rest : List Char} : digits cs = some (ds, rest) ↔
    cs = ds ++ rest ∧ IsNumber ds ∧ ∀ c ∈ rest.head?, c.isDigit = false := by
  unfold digits IsNumber
  rw [span_eq_takeWhile_dropWhile]
  constructor
  · intro h
    split at h
    · cases h
    · rename_i hne hspan
      cases hspan
      cases h
      refine ⟨takeWhile_append_dropWhile.symm, ⟨fun hnil => hne hnil, fun c hc => ?_⟩, ?_⟩
      · exact mem_takeWhile_imp hc
      · exact fun c hc => by simpa [Option.mem_def.1 hc] using head?_dropWhile_not Char.isDigit cs
  · rintro ⟨rfl, ⟨hne, hds⟩, hrest⟩
    have hstop : rest.takeWhile Char.isDigit = [] ∧ rest.dropWhile Char.isDigit = rest := by
      cases rest with
      | nil => simp
      | cons c rest => simp [hrest c rfl]
    rw [takeWhile_append_of_pos hds, dropWhile_append_of_pos hds, hstop.1, hstop.2,
      append_nil]
    cases ds with
    | nil => exact absurd rfl hne
    | cons d ds => rfl

variable {v : String} {c : Char}

/-- The parts of a version, put together. -/
theorem splitVersion_iff {ok : Char → Bool} {x y z pre : List Char} :
    splitVersion ok v = some (x, y, z, pre) ↔
      (IsNumber x ∧ IsNumber y ∧ IsNumber z) ∧ (∀ c ∈ pre, ok c = true) ∧
        v.toList = 'v' :: x ++ '.' :: y ++ '.' :: z ++ if pre = [] then [] else '-' :: pre := by
  unfold splitVersion
  constructor
  · intro h
    split at h
    · rename_i cs hv
      obtain ⟨⟨x', cs₁⟩, hx, hdot⟩ := Option.bind_eq_some_iff.1 h
      obtain ⟨rfl, hxd, -⟩ := digits_iff.1 hx
      dsimp only at hdot
      split at hdot
      · obtain ⟨⟨y', cs₂⟩, hy, hdot'⟩ := Option.bind_eq_some_iff.1 hdot
        obtain ⟨rfl, hyd, -⟩ := digits_iff.1 hy
        dsimp only at hdot'
        split at hdot'
        · obtain ⟨⟨z', cs₃⟩, hz, hend⟩ := Option.bind_eq_some_iff.1 hdot'
          obtain ⟨rfl, hzd, -⟩ := digits_iff.1 hz
          dsimp only at hend
          split at hend
          · cases hend
            exact ⟨⟨hxd, hyd, hzd⟩, by simp, by simp [hv]⟩
          · split_ifs at hend with hpre
            cases hend
            exact ⟨⟨hxd, hyd, hzd⟩, by simpa using hpre.2, by simp [hv, hpre.1]⟩
          · cases hend
        · cases hdot'
      · cases hdot
    · cases h
  · rintro ⟨⟨hx, hy, hz⟩, hpre, hv⟩
    have hstop : ∀ {ds : List Char} {c : Char} (rest : List Char), IsNumber ds →
        c.isDigit = false → digits (ds ++ c :: rest) = some (ds, c :: rest) :=
      fun rest hds hc => digits_iff.2 ⟨rfl, hds, by simp [hc]⟩
    rw [hv]
    simp only [cons_append, append_assoc, hstop _ hx (by decide : '.'.isDigit = false),
      hstop _ hy (by decide : '.'.isDigit = false), Option.bind_eq_bind, Option.bind_some]
    by_cases hempty : pre = []
    · simp [hempty, (digits_iff.2 ⟨(append_nil z).symm, hz, by simp⟩ : digits z = some (z, []))]
    · simpa [hempty, hstop _ hz (by decide : '-'.isDigit = false)] using hpre

/-- The string names a release: it may be part of a path or a URL. -/
def validVersion (v : String) : Bool :=
  (splitVersion (fun c => c.isAlphanum || c == '.') v).isSome

def validName (v : String) : Bool := v == builtin || validVersion v

theorem builtin_not_valid : validVersion builtin = false := by decide +kernel

theorem ne_builtin_of_valid (h : validVersion v = true) : v ≠ builtin := by
  rintro rfl
  rw [builtin_not_valid] at h
  cases h

theorem validName_of_valid (h : validVersion v = true) : validName v = true := by
  rw [validName, h, Bool.or_true]

theorem validName_builtin : validName builtin = true := by
  rw [validName, beq_self_eq_true, Bool.true_or]

/-- The characters of a release name. -/
theorem mem_of_valid (h : validVersion v = true) (hc : c ∈ v.toList) :
    c.isAlphanum = true ∨ c = '.' ∨ c = '-' := by
  obtain ⟨⟨x, y, z, pre⟩, hsplit⟩ := Option.isSome_iff_exists.1 h
  obtain ⟨⟨hx, hy, hz⟩, hpre, hv⟩ := splitVersion_iff.1 hsplit
  have hdigit : ∀ {ds : List Char}, IsNumber ds → ∀ c ∈ ds, c.isAlphanum = true :=
    fun hds c hc => by rw [Char.isAlphanum, hds.2 c hc, Bool.or_true]
  rw [hv] at hc
  simp only [mem_append, mem_cons, or_assoc] at hc
  rcases hc with rfl | hc | rfl | hc | rfl | hc | hc
  · exact .inl rfl
  · exact .inl (hdigit hx c hc)
  · exact .inr (.inl rfl)
  · exact .inl (hdigit hy c hc)
  · exact .inr (.inl rfl)
  · exact .inl (hdigit hz c hc)
  · split_ifs at hc with hempty
    · cases hc
    · rcases mem_cons.1 hc with rfl | hc
      · exact .inr (.inr rfl)
      · rcases Bool.or_eq_true _ _ ▸ hpre c hc with hc | hc
        · exact .inl hc
        · exact .inr (.inl (beq_iff_eq.1 hc))

/-- They are ASCII, and none is a line break. -/
theorem toNat_of_valid (h : validVersion v = true) (hc : c ∈ v.toList) :
    c.toNat < 256 ∧ c.toNat ≠ 10 := by
  rcases mem_of_valid h hc with hc | rfl | rfl
  · have hval : c.toNat = c.val.toNat := rfl
    simp [Char.isAlphanum, Char.isAlpha, Char.isUpper, Char.isLower, Char.isDigit,
      UInt32.le_iff_toNat_le] at hc
    omega
  · decide
  · decide

/-! ### Private builds -/

def isLowerHex (c : Char) : Bool := c.isDigit || ('a' ≤ c && c ≤ 'f')

/-- `g<sha>`, `g<sha>-dirty` or `dirty`, and nothing else. -/
def isPrivate : List Char → Bool
  | 'g' :: cs =>
    let (sha, rest) := cs.span isLowerHex
    7 ≤ sha.length && sha.length ≤ 40 && (rest == [] || rest == "-dirty".toList)
  | cs => cs == "dirty".toList

/-- The part in front of the first dash that only a private suffix follows. -/
def beforePrivate : List Char → List Char
  | [] => []
  | c :: cs => if c = '-' ∧ isPrivate cs then [] else c :: beforePrivate cs

def stripPrivate (pre : List Char) : List Char :=
  if isPrivate pre then [] else beforePrivate pre

/-! ### The order -/

structure Parsed where
  n : Int × Int × Int
  /-- Empty for a release. -/
  pre : List (List Char)
  deriving Repr, DecidableEq

def parse (v : String) : Option Parsed := do
  let (x, y, z, pre) ← splitVersion (fun c => c.isAlphanum || c == '.' || c == '-') v
  let x ← atoi x
  let y ← atoi y
  let z ← atoi z
  let pre := stripPrivate pre
  some ⟨(x, y, z), if pre = [] then [] else pre.splitOn '.'⟩

/-- Numbers by value, below any other identifier; those as text. -/
def compareIdent (a b : List Char) : Int :=
  match atoi a, atoi b with
  | some na, some nb => sign (int64 (na - nb))
  | some _, none => -1
  | none, some _ => 1
  | none, none =>
    match Ord.compare a b with
    | .lt => -1
    | .eq => 0
    | .gt => 1

/-- The first difference decides, and with none the number of identifiers. -/
def comparePre : List (List Char) → List (List Char) → Int
  | a :: as, b :: bs =>
    let c := compareIdent a b
    if c ≠ 0 then c else comparePre as bs
  | as, bs => sign (as.length - bs.length)

/-- `-1` when `a` is older than `b`, `0` when they are the same release and `1` when it is
newer; `none` when either is not a version. -/
def compare (a b : String) : Option Int := do
  let pa ← parse a
  let pb ← parse b
  if pa.n.1 ≠ pb.n.1 then sign (pa.n.1 - pb.n.1)
  else if pa.n.2.1 ≠ pb.n.2.1 then sign (pa.n.2.1 - pb.n.2.1)
  else if pa.n.2.2 ≠ pb.n.2.2 then sign (pa.n.2.2 - pb.n.2.2)
  else match pa.pre, pb.pre with
    | [], [] => some 0
    | [], _ => some 1
    | _, [] => some (-1)
    | as, bs => some (comparePre as bs)

/-- The first version is at least the second. -/
def atLeast (a b : String) : Bool := (compare a b).any (0 ≤ ·)

/-! A private build is the release it was cut from, whatever stands in front. -/

example : compare "v2.6.0-beta4-g1a2b3c4-dirty" "v2.6.0-beta4" = some 0 := by decide +kernel

example : compare "v2.6.0-beta.2" "v2.6.0-beta.10" = some (-1) := by decide +kernel

end Viiwork.Update

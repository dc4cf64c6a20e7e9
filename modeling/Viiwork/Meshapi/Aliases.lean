import Mathlib

/-!
# Viiwork.Meshapi.Aliases

The wire types of the alias table (`meshapi/aliases.go`) and the merge
order on entries.

Reading notes:

* `Ver` is a `uint64` and `TS` an `int64` of Unix milliseconds. They are `Nat`
  and `Int` here: the only arithmetic on them is `Ver + 1` under the guard
  `Ver < MaxAliasVer = 2^53`, and comparisons.
* Go compares strings bytewise. On UTF-8 that is the code point order of
  Lean's `String`.
* A nil slice and an empty one are one list. The source reads slices only
  through `len`, `range`, `append` and `slices.Equal`, which do not tell the
  two apart; the deep copies (`copyEntry`, `copyTable`) are the identity on
  values.
-/

namespace Viiwork.Meshapi

/-! ### Limits -/

def aliasTableVersion : Int := 1
def maxAliases : Nat := 256
def maxAliasHistory : Nat := 10

/-- `30 * 24 * time.Hour`, in the milliseconds `TS` counts. -/
def aliasTombstoneTTL : Int := 30 * 24 * 60 * 60 * 1000

/-! ### Wire types -/

/-- A previous version kept in `AliasEntry.history`, newest first. -/
structure AliasVersion where
  target : String
  fallbacks : List String
  ts : Int
  byNode : String
  deriving Repr, DecidableEq

/-- The current version of one alias. A delete is a tombstone: `deleted` set
and `target` cleared. The default value is Go's zero value, which a map read
of a missing name returns. -/
structure AliasEntry where
  target : String := ""
  fallbacks : List String := []
  ver : Nat := 0
  ts : Int := 0
  byNode : String := ""
  deleted : Bool := false
  history : List AliasVersion := []
  deriving Repr, DecidableEq, Inhabited

/-- A Go `map[string]AliasEntry`. The tree is ordered by name, so its keys come
out as `sort.Strings` would put them, and two maps with the same bindings are
equal. -/
abbrev AliasMap := Std.ExtTreeMap String AliasEntry compare

/-- The whole alias table: the push/pull payload and the content of
`aliases.json`. -/
structure AliasTable where
  v : Int
  aliases : AliasMap
  deriving DecidableEq

/-- One gossip broadcast: a single changed entry. -/
structure AliasBroadcast where
  name : String
  entry : AliasEntry
  deriving Repr, DecidableEq

/-- The body of `PUT /v1/aliases/<name>`. -/
structure AliasWriteRequest where
  target : String
  fallbacks : List String
  force : Bool
  deriving Repr, DecidableEq

/-! ### Names -/

/-- The character class `[A-Za-z0-9._-]`. -/
def aliasNameChar (c : Char) : Bool :=
  ('A' ≤ c && c ≤ 'Z') || ('a' ≤ c && c ≤ 'z') || ('0' ≤ c && c ≤ '9') ||
    c == '.' || c == '_' || c == '-'

/-- `^[A-Za-z0-9._-]{1,64}$`. Go's `$` without the `m` flag is the end of the
text, so a trailing newline does not match. -/
def validAliasName (name : String) : Bool :=
  1 ≤ name.toList.length && name.toList.length ≤ 64 && name.toList.all aliasNameChar

/-! ### The merge order -/

def winner (aWins : Bool) : Int := if aWins then 1 else -1

/-- Higher `Ver` wins; on equal `Ver`, higher `TS`; on equal `TS`, the larger
`By`. `+1` when `a` wins, `-1` when `b` wins, `0` on a tie in all three. -/
def compareAliasEntries (a b : AliasEntry) : Int :=
  if a.ver ≠ b.ver then winner (a.ver > b.ver)
  else if a.ts ≠ b.ts then winner (a.ts > b.ts)
  else if a.byNode ≠ b.byNode then winner (a.byNode > b.byNode)
  else 0

/-- Two writes that never saw each other: the same `Ver` from different writes. -/
def isAliasConflict (a b : AliasEntry) : Bool :=
  a.ver == b.ver && (a.ts != b.ts || a.byNode != b.byNode)

/-- What `compareAliasEntries` compares, as one lexicographic key. -/
def AliasEntry.key (e : AliasEntry) : Nat ×ₗ Int ×ₗ String :=
  toLex (e.ver, toLex (e.ts, e.byNode))

/-- What tells two versions of one alias apart. -/
def AliasVersion.key (v : AliasVersion) : Int ×ₗ String := toLex (v.ts, v.byNode)

theorem AliasVersion.key_lt_iff {a b : AliasVersion} :
    a.key < b.key ↔ a.ts < b.ts ∨ (a.ts = b.ts ∧ a.byNode < b.byNode) :=
  Prod.Lex.toLex_lt_toLex

theorem AliasVersion.key_eq_iff {a b : AliasVersion} :
    a.key = b.key ↔ a.ts = b.ts ∧ a.byNode = b.byNode := by
  simp [AliasVersion.key]

variable {a b : AliasEntry}

theorem AliasEntry.key_lt_iff :
    a.key < b.key ↔ a.ver < b.ver ∨
      (a.ver = b.ver ∧ (a.ts < b.ts ∨ (a.ts = b.ts ∧ a.byNode < b.byNode))) := by
  rw [AliasEntry.key, AliasEntry.key, Prod.Lex.toLex_lt_toLex, Prod.Lex.toLex_lt_toLex]

theorem AliasEntry.key_eq_iff :
    a.key = b.key ↔ a.ver = b.ver ∧ a.ts = b.ts ∧ a.byNode = b.byNode := by
  simp [AliasEntry.key]

/-- `a` wins exactly when its key is the larger one. -/
theorem compareAliasEntries_pos_iff : 0 < compareAliasEntries a b ↔ b.key < a.key := by
  rw [AliasEntry.key_lt_iff, compareAliasEntries]
  by_cases hv : a.ver = b.ver
  · by_cases ht : a.ts = b.ts
    · by_cases hb : a.byNode = b.byNode
      · simp [hv, ht, hb]
      · by_cases hlt : b.byNode < a.byNode <;> simp [hv, ht, hb, hlt, winner]
    · by_cases hlt : b.ts < a.ts <;> simp [hv, ht, hlt, winner, Ne.symm ht]
  · by_cases hlt : b.ver < a.ver <;> simp [hv, hlt, winner, Ne.symm hv]

/-- The comparison is antisymmetric. -/
theorem compareAliasEntries_neg_iff : compareAliasEntries a b < 0 ↔ a.key < b.key := by
  rw [AliasEntry.key_lt_iff, compareAliasEntries]
  by_cases hv : a.ver = b.ver
  · by_cases ht : a.ts = b.ts
    · by_cases hb : a.byNode = b.byNode
      · simp [hv, ht, hb]
      · rcases lt_or_gt_of_ne hb with hlt | hlt
        · simp [hv, ht, hb, hlt, hlt.not_gt, winner]
        · simp [hv, ht, hb, hlt, hlt.not_gt, winner]
    · rcases lt_or_gt_of_ne ht with hlt | hlt
      · simp [hv, ht, hlt, hlt.not_gt, winner]
      · simp [hv, ht, hlt, hlt.not_gt, winner]
  · rcases lt_or_gt_of_ne hv with hlt | hlt
    · simp [hv, hlt, hlt.not_gt, winner]
    · simp [hv, hlt, hlt.not_gt, winner]

theorem compareAliasEntries_nonneg_iff : 0 ≤ compareAliasEntries a b ↔ b.key ≤ a.key := by
  rw [← not_lt, compareAliasEntries_neg_iff, not_lt]

/-- The comparison only ever answers `-1`, `0` or `1`. -/
theorem compareAliasEntries_eq_one (h : b.key < a.key) : compareAliasEntries a b = 1 := by
  have hpos := compareAliasEntries_pos_iff.mpr h
  have hle : compareAliasEntries a b ≤ 1 := by
    unfold compareAliasEntries winner
    split_ifs <;> decide
  omega

/-- A higher version always wins. -/
theorem AliasEntry.key_lt_of_ver_lt (h : a.ver < b.ver) : a.key < b.key :=
  AliasEntry.key_lt_iff.mpr (.inl h)

theorem AliasEntry.ver_le_of_key_le (h : a.key ≤ b.key) : a.ver ≤ b.ver := by
  by_contra hlt
  exact absurd (AliasEntry.key_lt_of_ver_lt (not_le.mp hlt)) (not_lt.mpr h)

end Viiwork.Meshapi

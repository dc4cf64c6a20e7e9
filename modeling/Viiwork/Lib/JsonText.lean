import Viiwork.Lib.Bytes

/-!
# Viiwork.Lib.JsonText

JSON text as bytes: its **tokens**, what a string literal stands for, and where a byte pattern
occurs in it.

`tokens` reads as many tokens as there are, and says whether the text ended with them. A token is
spelled by the bytes it was read from, so a literal that a text has as a token is found in it by a
search for the literal's bytes (`isInfix_of_mem_tokens`), and as often as the text has the token
(`count_tokens_le`). The converse does not hold: strings contain anything.

`unquote` reads a literal as `encoding/json` does: bytes that are not UTF-8 and lone surrogates
become U+FFFD. A name of letters has one spelling without `\u` (`eq_of_unquote`), and so has a word of
letters and signs in a longer literal (`isInfix_of_unquote`).
-/

namespace Viiwork.Lib

open List Option

/-- The bytes of an ASCII text. -/
def ascii (s : String) : Bytes := s.toList.map fun c => UInt8.ofNat c.toNat

/-! ### Patterns -/

/-- How often `sep` occurs in the text without overlap, after `skip` bytes that are passed over. -/
def countFrom (sep : Bytes) : Nat → Bytes → Nat
  | _, [] => 0
  | skip + 1, _ :: s => countFrom sep skip s
  | 0, c :: s =>
    if sep.isPrefixOf (c :: s) then 1 + countFrom sep (sep.length - 1) s else countFrom sep 0 s

/-- `bytes.Count` of a pattern that is not empty. -/
def count (sep s : Bytes) : Nat := countFrom sep 0 s

/-- Passing over less than a pattern gains at most one occurrence and loses none. -/
theorem countFrom_le (sep s : Bytes) : ∀ {j k : Nat}, j ≤ k → k ≤ sep.length - 1 →
    countFrom sep k s ≤ countFrom sep j s ∧ countFrom sep j s ≤ countFrom sep k s + 1 := by
  induction s with
  | nil =>
    intro j k _ _
    cases j <;> cases k <;> simp [countFrom]
  | cons c s ih =>
    intro j k hjk hk
    cases k with
    | zero =>
      obtain rfl : j = 0 := by omega
      exact ⟨le_rfl, Nat.le_succ _⟩
    | succ k =>
      cases j with
      | succ j => exact ih (by omega) (by omega)
      | zero =>
        rw [countFrom, countFrom]
        split
        · obtain ⟨h₁, h₂⟩ := ih (j := k) (k := sep.length - 1) (by omega) le_rfl
          omega
        · exact ih (Nat.zero_le k) (by omega)

/-- More text in front has no fewer occurrences. -/
theorem count_le_append (sep a s : Bytes) : count sep s ≤ count sep (a ++ s) := by
  induction a with
  | nil => exact le_rfl
  | cons c a ih =>
    refine ih.trans ?_
    rw [count, count, cons_append, countFrom]
    split
    · obtain ⟨-, h⟩ := countFrom_le sep (a ++ s) (Nat.zero_le _) le_rfl
      omega
    · exact le_rfl

theorem countFrom_append (sep a s : Bytes) : countFrom sep a.length (a ++ s) = count sep s := by
  induction a with
  | nil => rfl
  | cons c a ih => exact ih

/-- An occurrence in front counts. -/
theorem count_append_self {sep : Bytes} (hsep : sep ≠ []) (s : Bytes) :
    count sep (sep ++ s) = 1 + count sep s := by
  obtain ⟨c, tail, rfl⟩ := exists_cons_of_ne_nil hsep
  rw [count, cons_append, countFrom, if_pos, length_cons, Nat.add_sub_cancel,
    countFrom_append]
  rw [← cons_append, List.isPrefixOf_iff_prefix]
  exact prefix_append _ _

/-! ### Tokens -/

inductive Token
  | lbrace | rbrace | lbracket | rbracket | colon | comma
  /-- What stands between the quotes. -/
  | str (raw : Bytes)
  | num (raw : Bytes)
  | bool (b : Bool)
  | null
  deriving Repr, DecidableEq

/-- The bytes of a token. -/
def Token.bytes : Token → Bytes
  | lbrace => [123]
  | rbrace => [125]
  | lbracket => [91]
  | rbracket => [93]
  | colon => [58]
  | comma => [44]
  | str raw => 34 :: raw ++ [34]
  | num raw => raw
  | bool true => [116, 114, 117, 101]
  | bool false => [102, 97, 108, 115, 101]
  | null => [110, 117, 108, 108]

def isSpace (b : UInt8) : Bool := b == 32 || b == 9 || b == 13 || b == 10

def skipSpace (s : Bytes) : Bytes := s.dropWhile isSpace

def isHex (b : UInt8) : Bool :=
  (48 ≤ b && b ≤ 57) || (97 ≤ b && b ≤ 102) || (65 ≤ b && b ≤ 70)

/-- The characters that may follow a backslash, but for `u`. -/
def isEscape (b : UInt8) : Bool := b ∈ ([34, 92, 47, 98, 102, 110, 114, 116] : Bytes)

/-- The rest of a string literal up to its closing quote, and the text after that. -/
def scanString : Bytes → Option (Bytes × Bytes)
  | [] => none
  | 34 :: s => some ([], s)
  | 92 :: 117 :: a :: b :: c :: d :: s =>
    if isHex a && isHex b && isHex c && isHex d then
      (scanString s).map fun (raw, rest) => (92 :: 117 :: a :: b :: c :: d :: raw, rest)
    else none
  | 92 :: e :: s =>
    if isEscape e then (scanString s).map fun (raw, rest) => (92 :: e :: raw, rest) else none
  | [92] => none
  | c :: s => if c < 32 then none else (scanString s).map fun (raw, rest) => (c :: raw, rest)

def isDigit (b : UInt8) : Bool := 48 ≤ b && b ≤ 57

/-- One digit or more. -/
def scanDigits (s : Bytes) : Option (Bytes × Bytes) :=
  let (ds, rest) := s.span isDigit
  if ds = [] then none else some (ds, rest)

/-- A zero, or digits that do not begin with one. -/
def scanInt : Bytes → Option (Bytes × Bytes)
  | 48 :: s => some ([48], s)
  | s => scanDigits s

/-- A point and digits, if there is a point. -/
def scanFraction : Bytes → Option (Bytes × Bytes)
  | 46 :: s => (scanDigits s).map fun (ds, rest) => (46 :: ds, rest)
  | s => some ([], s)

/-- The sign of an exponent and its digits. -/
def scanPower : Bytes → Option (Bytes × Bytes)
  | 43 :: s => (scanDigits s).map fun (ds, rest) => (43 :: ds, rest)
  | 45 :: s => (scanDigits s).map fun (ds, rest) => (45 :: ds, rest)
  | s => scanDigits s

def scanExponent : Bytes → Option (Bytes × Bytes)
  | 101 :: s => (scanPower s).map fun (ds, rest) => (101 :: ds, rest)
  | 69 :: s => (scanPower s).map fun (ds, rest) => (69 :: ds, rest)
  | s => some ([], s)

/-- A number without its sign. -/
def scanUnsigned (s : Bytes) : Option (Bytes × Bytes) := do
  let (int, s) ← scanInt s
  let (frac, s) ← scanFraction s
  let (exp, s) ← scanExponent s
  return (int ++ frac ++ exp, s)

def scanNumber : Bytes → Option (Bytes × Bytes)
  | 45 :: s => (scanUnsigned s).map fun (raw, rest) => (45 :: raw, rest)
  | s => scanUnsigned s

/-- The token that the text begins with. -/
def token : Bytes → Option (Token × Bytes)
  | 123 :: s => some (.lbrace, s)
  | 125 :: s => some (.rbrace, s)
  | 91 :: s => some (.lbracket, s)
  | 93 :: s => some (.rbracket, s)
  | 58 :: s => some (.colon, s)
  | 44 :: s => some (.comma, s)
  | 34 :: s => (scanString s).map fun (raw, rest) => (.str raw, rest)
  | 116 :: 114 :: 117 :: 101 :: s => some (.bool true, s)
  | 102 :: 97 :: 108 :: 115 :: 101 :: s => some (.bool false, s)
  | 110 :: 117 :: 108 :: 108 :: s => some (.null, s)
  | s => (scanNumber s).map fun (raw, rest) => (.num raw, rest)

/-- At most `n` tokens, and whether nothing but space follows them. -/
def tokensN : Nat → Bytes → List Token × Bool
  | 0, s => ([], (skipSpace s).isEmpty)
  | n + 1, s =>
    if (skipSpace s).isEmpty then ([], true)
    else match token (skipSpace s) with
    | none => ([], false)
    | some (t, rest) => (t :: (tokensN n rest).1, (tokensN n rest).2)

/-- The tokens of the text, up to the first place where there is none, and whether that is its
end. -/
def tokens (s : Bytes) : List Token × Bool := tokensN s.length s

example : tokens [123, 34, 109, 34, 58, 32, 45, 49, 46, 53, 125, 10] =
    ([.lbrace, .str [109], .colon, .num [45, 49, 46, 53], .rbrace], true) := by decide

/-! ### A token is spelled by its bytes -/

variable {raw rest s w : Bytes} {c : UInt8} {t : Token}

/-- What may stand between the quotes of a string. -/
inductive Literal : Bytes → Prop
  | nil : Literal []
  | unit {a b c d : UInt8} {raw : Bytes} (h : Literal raw) :
      Literal (92 :: 117 :: a :: b :: c :: d :: raw)
  | escape {e : UInt8} {raw : Bytes} (he : isEscape e = true) (h : Literal raw) :
      Literal (92 :: e :: raw)
  | char {c : UInt8} {raw : Bytes} (hc : c ≠ 92) (h : Literal raw) : Literal (c :: raw)

/-- A literal is read up to its closing quote, and the same whatever follows that. -/
theorem scanString_spec (h : scanString s = some (raw, rest)) :
    s = raw ++ 34 :: rest ∧ Literal raw ∧
      ∀ rest', scanString (raw ++ 34 :: rest') = some (raw, rest') := by
  fun_induction scanString s generalizing raw with
  | case1 | case4 | case6 | case7 | case8 => cases h
  | case2 s =>
    cases h
    exact ⟨rfl, .nil, fun _ => rfl⟩
  | case3 a b c d s hhex ih =>
    obtain ⟨⟨raw', rest'⟩, hs, heq⟩ := map_eq_some_iff.1 h
    cases heq
    obtain ⟨rfl, hraw, hagain⟩ := ih hs
    refine ⟨rfl, .unit hraw, fun rest' => ?_⟩
    show (if isHex a && isHex b && isHex c && isHex d then _ else none) = _
    rw [if_pos hhex]
    exact congrArg (Option.map _) (hagain rest')
  | case5 e s hunit hescape ih =>
    obtain ⟨⟨raw', rest'⟩, hs, heq⟩ := map_eq_some_iff.1 h
    cases heq
    obtain ⟨rfl, hraw, hagain⟩ := ih hs
    have he : e ≠ 117 := by
      rintro rfl
      cases hescape
    refine ⟨rfl, .escape hescape hraw, fun rest' => ?_⟩
    rw [cons_append, cons_append, scanString, if_pos hescape, hagain]
    · rfl
    · exact fun a b c d s' he' => absurd he' he
  | case9 c s hquote hunit hescape hend hlow ih =>
    obtain ⟨⟨raw', rest'⟩, hs, heq⟩ := map_eq_some_iff.1 h
    cases heq
    have hc : c ≠ 92 := by
      rintro rfl
      cases s with
      | nil => exact hend rfl rfl
      | cons e s => exact hescape e s rfl rfl
    obtain ⟨rfl, hraw, hagain⟩ := ih hs
    refine ⟨rfl, .char hc hraw, fun rest' => ?_⟩
    rw [cons_append, scanString, if_neg hlow, hagain]
    · rfl
    · exact hquote
    · exact fun _ _ _ _ _ hc' => absurd hc' hc
    · exact fun _ _ hc' => absurd hc' hc
    · exact fun hc' => absurd hc' hc

/-! ### Numbers -/

/-- The bytes of numbers. -/
def isNumeric (b : UInt8) : Bool := isDigit b || b ∈ ([43, 45, 46, 69, 101] : Bytes)

/-- What a scan for a part of a number has read: bytes of numbers that the text begins with, and
the same whatever follows them, but for the byte that comes next. -/
structure Munches (scan : Bytes → Option (Bytes × Bytes)) (s raw rest : Bytes) : Prop where
  eq : s = raw ++ rest
  numeric : ∀ b ∈ raw, isNumeric b = true
  again : ∀ rest' : Bytes, rest'.head? = rest.head? → scan (raw ++ rest') = some (raw, rest')

theorem head?_append_congr {rest' : Bytes} (a : Bytes) (h : rest'.head? = rest.head?) :
    (a ++ rest').head? = (a ++ rest).head? := by
  cases a with
  | nil => exact h
  | cons c a => rfl

theorem ne_cons_of_head? {s' : Bytes} (hhead : s'.head? = s.head?) (hno : ∀ t, s = c :: t → False) :
    ∀ t, s' = c :: t → False := by
  rintro t rfl
  obtain ⟨t', ht'⟩ := List.head?_eq_some_iff.1 hhead.symm
  exact hno t' ht'

section

variable {scan scan' : Bytes → Option (Bytes × Bytes)}

/-- A scan after a byte that it is chosen by. -/
theorem Munches.cons (hc : isNumeric c = true)
    (hscan : ∀ {raw rest}, scan s = some (raw, rest) → Munches scan s raw rest)
    (heq : ∀ s, scan' (c :: s) = (scan s).map fun (ds, rest) => (c :: ds, rest))
    (h : (scan s).map (fun (ds, rest) => (c :: ds, rest)) = some (raw, rest)) :
    Munches scan' (c :: s) raw rest ∧ raw ≠ [] := by
  obtain ⟨⟨raw', rest'⟩, hs, hraw⟩ := map_eq_some_iff.1 h
  cases hraw
  have hm := hscan hs
  refine ⟨⟨congrArg (c :: ·) hm.eq, forall_mem_cons.2 ⟨hc, hm.numeric⟩, fun rest'' hhead => ?_⟩,
    cons_ne_nil _ _⟩
  rw [cons_append, heq, hm.again rest'' hhead]
  rfl

/-- A scan that is left to another one by the first byte. -/
theorem Munches.congr (h : Munches scan s raw rest ∧ raw ≠ [])
    (heq : ∀ s', s'.head? = s.head? → scan' s' = scan s') :
    Munches scan' s raw rest ∧ raw ≠ [] := by
  obtain ⟨hm, hne⟩ := h
  refine ⟨⟨hm.eq, hm.numeric, fun rest' hhead => ?_⟩, hne⟩
  rw [heq, hm.again rest' hhead]
  obtain ⟨c, raw, rfl⟩ := exists_cons_of_ne_nil hne
  rw [hm.eq]
  rfl

end

theorem munches_scanDigits (h : scanDigits s = some (raw, rest)) :
    Munches scanDigits s raw rest ∧ raw ≠ [] := by
  unfold scanDigits at h
  rw [span_eq_takeWhile_dropWhile] at h
  dsimp only at h
  split at h
  · cases h
  rename_i hne
  cases h
  refine ⟨⟨takeWhile_append_dropWhile.symm, ?_, fun rest' hhead => ?_⟩, hne⟩
  · intro b hb
    rw [isNumeric, mem_takeWhile_imp hb, Bool.true_or]
  · have hall : ∀ b ∈ s.takeWhile isDigit, isDigit b = true := fun b hb => mem_takeWhile_imp hb
    have hstop : rest'.takeWhile isDigit = [] ∧ rest'.dropWhile isDigit = rest' := by
      cases rest' with
      | nil => exact ⟨rfl, rfl⟩
      | cons d t =>
        have hd := head?_dropWhile_not isDigit s
        rw [← hhead] at hd
        have hd : isDigit d = false := hd
        exact ⟨takeWhile_cons_of_neg (by simp [hd]), dropWhile_cons_of_neg (by simp [hd])⟩
    rw [scanDigits, span_eq_takeWhile_dropWhile, takeWhile_append_of_pos hall,
      dropWhile_append_of_pos hall, hstop.1, hstop.2, append_nil]
    exact if_neg hne

theorem munches_scanInt (h : scanInt s = some (raw, rest)) :
    Munches scanInt s raw rest ∧ raw ≠ [] := by
  unfold scanInt at h
  split at h
  · cases h
    exact ⟨⟨rfl, forall_mem_singleton.2 (by decide), fun _ _ => rfl⟩, cons_ne_nil _ _⟩
  · rename_i hno
    refine Munches.congr (munches_scanDigits h) fun s' hhead => ?_
    rw [scanInt]
    exact ne_cons_of_head? hhead hno

theorem munches_scanFraction (h : scanFraction s = some (raw, rest)) :
    Munches scanFraction s raw rest := by
  unfold scanFraction at h
  split at h
  · exact (Munches.cons (by decide) (fun hs => (munches_scanDigits hs).1) (fun _ => rfl) h).1
  · rename_i hno
    cases h
    refine ⟨rfl, fun b hb => absurd hb not_mem_nil, fun rest' hhead => ?_⟩
    rw [nil_append, scanFraction]
    exact ne_cons_of_head? hhead hno

theorem munches_scanPower (h : scanPower s = some (raw, rest)) : Munches scanPower s raw rest := by
  unfold scanPower at h
  split at h
  · exact (Munches.cons (by decide) (fun hs => (munches_scanDigits hs).1) (fun _ => rfl) h).1
  · exact (Munches.cons (by decide) (fun hs => (munches_scanDigits hs).1) (fun _ => rfl) h).1
  · rename_i hplus hminus
    refine (Munches.congr (munches_scanDigits h) fun s' hhead => ?_).1
    rw [scanPower]
    · exact ne_cons_of_head? hhead hplus
    · exact ne_cons_of_head? hhead hminus

theorem munches_scanExponent (h : scanExponent s = some (raw, rest)) :
    Munches scanExponent s raw rest := by
  unfold scanExponent at h
  split at h
  · exact (Munches.cons (by decide) munches_scanPower (fun _ => rfl) h).1
  · exact (Munches.cons (by decide) munches_scanPower (fun _ => rfl) h).1
  · rename_i hlow hhigh
    cases h
    refine ⟨rfl, fun b hb => absurd hb not_mem_nil, fun rest' hhead => ?_⟩
    rw [nil_append, scanExponent]
    · exact ne_cons_of_head? hhead hlow
    · exact ne_cons_of_head? hhead hhigh

theorem munches_scanUnsigned (h : scanUnsigned s = some (raw, rest)) :
    Munches scanUnsigned s raw rest ∧ raw ≠ [] := by
  unfold scanUnsigned at h
  obtain ⟨⟨int, s₁⟩, hint, h⟩ := bind_eq_some_iff.1 h
  obtain ⟨⟨frac, s₂⟩, hfrac, h⟩ := bind_eq_some_iff.1 h
  obtain ⟨⟨exp, s₃⟩, hexp, h⟩ := bind_eq_some_iff.1 h
  cases h
  obtain ⟨hint, hne⟩ := munches_scanInt hint
  have hfrac := munches_scanFraction hfrac
  have hexp := munches_scanExponent hexp
  obtain rfl := hexp.eq
  obtain rfl := hfrac.eq
  refine ⟨⟨?_, ?_, fun rest' hhead => ?_⟩, ?_⟩
  · rw [hint.eq]
    simp only [append_assoc]
  · exact forall_mem_append.2 ⟨forall_mem_append.2 ⟨hint.numeric, hfrac.numeric⟩, hexp.numeric⟩
  · have hhead' := head?_append_congr exp hhead
    rw [scanUnsigned, append_assoc, append_assoc,
      hint.again _ (head?_append_congr frac hhead')]
    show (scanFraction (frac ++ (exp ++ rest'))).bind _ = _
    rw [hfrac.again _ hhead']
    show (scanExponent (exp ++ rest')).bind _ = _
    rw [hexp.again _ hhead]
    show some (int ++ frac ++ exp, rest') = _
    rw [append_assoc]
  · intro hnil
    exact hne (append_eq_nil_iff.1 (append_eq_nil_iff.1 hnil).1).1

theorem munches_scanNumber (h : scanNumber s = some (raw, rest)) :
    Munches scanNumber s raw rest ∧ raw ≠ [] := by
  unfold scanNumber at h
  split at h
  · exact Munches.cons (by decide) (fun hs => (munches_scanUnsigned hs).1) (fun _ => rfl) h
  · rename_i hno
    refine Munches.congr (munches_scanUnsigned h) fun s' hhead => ?_
    rw [scanNumber]
    exact ne_cons_of_head? hhead hno

theorem token_eq (h : token s = some (t, rest)) : s = t.bytes ++ rest ∧ t.bytes ≠ [] := by
  unfold token at h
  split at h
  case h_7 s =>
    obtain ⟨⟨raw, rest'⟩, hs, heq⟩ := map_eq_some_iff.1 h
    cases heq
    refine ⟨?_, cons_ne_nil _ _⟩
    rw [(scanString_spec hs).1]
    simp [Token.bytes]
  case h_11 s =>
    obtain ⟨⟨raw, rest'⟩, hs, heq⟩ := map_eq_some_iff.1 h
    cases heq
    obtain ⟨hm, hne⟩ := munches_scanNumber hs
    exact ⟨hm.eq, hne⟩
  all_goals
    cases h
    exact ⟨rfl, cons_ne_nil _ _⟩

theorem skipSpace_suffix (s : Bytes) : skipSpace s <:+ s := dropWhile_suffix _

/-- What follows a token is shorter than the text. -/
theorem length_of_token (h : token (skipSpace s) = some (t, rest)) : rest.length < s.length := by
  obtain ⟨heq, hne⟩ := token_eq h
  have hle := (skipSpace_suffix s).length_le
  have hpos := length_pos_iff.2 hne
  rw [heq, length_append] at hle
  omega

/-- There are enough tokens in `tokensN` for those of the text. -/
theorem tokensN_eq {n : Nat} : ∀ {m : Nat} {s : Bytes}, s.length ≤ n → s.length ≤ m →
    tokensN n s = tokensN m s := by
  induction n with
  | zero =>
    intro m s hn hm
    obtain rfl := length_eq_zero_iff.1 (Nat.le_zero.1 hn)
    cases m <;> rfl
  | succ n ih =>
    intro m s hn hm
    cases m with
    | zero =>
      obtain rfl := length_eq_zero_iff.1 (Nat.le_zero.1 hm)
      rfl
    | succ m =>
      rw [tokensN, tokensN]
      split
      · rfl
      · split
        · rfl
        · rename_i t rest htoken
          have hlt := length_of_token htoken
          rw [ih (m := m) (by omega) (by omega)]

/-- **Tokens, one by one.** -/
theorem tokens_eq (s : Bytes) :
    tokens s =
      if (skipSpace s).isEmpty then ([], true)
      else match token (skipSpace s) with
        | none => ([], false)
        | some (t, rest) => (t :: (tokens rest).1, (tokens rest).2) := by
  have hmore : tokens s = tokensN (s.length + 1) s := tokensN_eq le_rfl (Nat.le_succ _)
  rw [hmore, tokensN]
  split
  · rfl
  · split
    · rfl
    · rename_i t rest htoken
      have hlt := length_of_token htoken
      have hrest : tokensN s.length rest = tokens rest := tokensN_eq hlt.le le_rfl
      rw [hrest]

/-- A text with a first token is space, the token and the rest. -/
theorem tokensN_cases (n : Nat) (s : Bytes) :
    (tokensN n s).1 = [] ∨ ∃ space t rest m, s = space ++ (t.bytes ++ rest) ∧
      token (t.bytes ++ rest) = some (t, rest) ∧
      (tokensN n s).1 = t :: (tokensN m rest).1 ∧ m < n := by
  cases n with
  | zero => exact .inl rfl
  | succ n =>
    rw [tokensN]
    split
    · exact .inl rfl
    · split
      · exact .inl rfl
      · rename_i t rest htoken
        obtain ⟨heq, -⟩ := token_eq htoken
        obtain ⟨space, hspace⟩ := skipSpace_suffix s
        refine .inr ⟨space, t, rest, n, ?_, ?_, rfl, Nat.lt_succ_self n⟩
        · rw [← heq, hspace]
        · rw [← heq, htoken]

/-- A token of a text is read somewhere in it. -/
theorem mem_tokens (h : t ∈ (tokens s).1) :
    ∃ pre rest, s = pre ++ (t.bytes ++ rest) ∧ token (t.bytes ++ rest) = some (t, rest) := by
  have hmain : ∀ n s, t ∈ (tokensN n s).1 → ∃ pre rest, s = pre ++ (t.bytes ++ rest) ∧
      token (t.bytes ++ rest) = some (t, rest) := by
    intro n
    induction n using Nat.strong_induction_on with
    | _ n ih =>
      intro s ht
      rcases tokensN_cases n s with hnil | ⟨space, t', rest, m, rfl, htoken, heq, hm⟩
      · rw [hnil] at ht
        cases ht
      · rw [heq] at ht
        rcases mem_cons.1 ht with rfl | ht
        · exact ⟨space, rest, rfl, htoken⟩
        · obtain ⟨pre, rest', rfl, htoken'⟩ := ih m hm rest ht
          exact ⟨space ++ (t'.bytes ++ pre), rest', by simp only [append_assoc], htoken'⟩
  exact hmain _ _ h

/-- Every token of a text is found in it by its bytes. -/
theorem isInfix_of_mem_tokens (h : t ∈ (tokens s).1) : t.bytes <:+: s := by
  obtain ⟨pre, rest, rfl, -⟩ := mem_tokens h
  exact ⟨pre, rest, append_assoc _ _ _⟩

/-- A text has its tokens at least as often as bytes. -/
theorem count_tokens_le : (tokens s).1.count t ≤ count t.bytes s := by
  have hmain : ∀ n s, (tokensN n s).1.count t ≤ count t.bytes s := by
    intro n
    induction n using Nat.strong_induction_on with
    | _ n ih =>
      intro s
      rcases tokensN_cases n s with hnil | ⟨space, t', rest, m, rfl, htoken, heq, hm⟩
      · rw [hnil]
        exact Nat.zero_le _
      · have hne := (token_eq htoken).2
        rw [heq]
        refine le_trans ?_ (count_le_append _ _ _)
        by_cases hsame : t' = t
        · subst hsame
          rw [count_cons_self, count_append_self hne]
          have := ih m hm rest
          omega
        · rw [count_cons_of_ne hsame]
          exact (ih m hm rest).trans (count_le_append _ _ _)
  exact hmain _ _

/-! ### What a string literal stands for -/

def hexVal (b : UInt8) : Nat :=
  if b ≤ 57 then b.toNat - 48 else if b ≤ 70 then b.toNat - 55 else b.toNat - 87

/-- The code unit of four hexadecimal digits. -/
def unit4 : Bytes → Option (Nat × Bytes)
  | a :: b :: c :: d :: s =>
    if isHex a && isHex b && isHex c && isHex d then
      some (hexVal a * 4096 + hexVal b * 256 + hexVal c * 16 + hexVal d, s)
    else none
  | _ => none

def byte (n : Nat) : UInt8 := UInt8.ofNat n

/-- A code point in UTF-8; U+FFFD for a surrogate. -/
def encodeRune (r : Nat) : Bytes :=
  if r < 0x80 then [byte r]
  else if r < 0x800 then [byte (0xC0 + r / 64), byte (0x80 + r % 64)]
  else if 0xD800 ≤ r ∧ r < 0xE000 then [0xEF, 0xBF, 0xBD]
  else if r < 0x10000 then [byte (0xE0 + r / 4096), byte (0x80 + r / 64 % 64), byte (0x80 + r % 64)]
  else [byte (0xF0 + r / 262144), byte (0x80 + r / 4096 % 64), byte (0x80 + r / 64 % 64),
    byte (0x80 + r % 64)]

/-- The code point of `\u` and a code unit, which may need another one. -/
def surrogate (hi : Nat) (s : Bytes) : Nat × Bytes :=
  match s with
  | 92 :: 117 :: s' =>
    match unit4 s' with
    | some (lo, rest) =>
      if 0xD800 ≤ hi ∧ hi < 0xDC00 ∧ 0xDC00 ≤ lo ∧ lo < 0xE000 then
        ((hi - 0xD800) * 1024 + (lo - 0xDC00) + 0x10000, rest)
      else (hi, s)
    | none => (hi, s)
  | _ => (hi, s)

def unescape (e : UInt8) : UInt8 :=
  if e = 98 then 8 else if e = 102 then 12 else if e = 110 then 10 else if e = 114 then 13
  else if e = 116 then 9 else e

def isTail (b : UInt8) : Bool := 0x80 ≤ b && b ≤ 0xBF

/-- The length of the UTF-8 sequence that begins with `a`; zero when it is none. -/
def runeLen (a : UInt8) : Bytes → Nat
  | b :: s =>
    if 0xC2 ≤ a ∧ a ≤ 0xDF then if isTail b then 2 else 0
    else match s with
    | c :: s =>
      if a = 0xE0 ∧ 0xA0 ≤ b ∧ b ≤ 0xBF ∨ a = 0xED ∧ 0x80 ≤ b ∧ b ≤ 0x9F ∨
          (0xE1 ≤ a ∧ a ≤ 0xEC ∨ 0xEE ≤ a ∧ a ≤ 0xEF) ∧ isTail b = true then
        if isTail c then 3 else 0
      else match s with
      | d :: _ =>
        if (a = 0xF0 ∧ 0x90 ≤ b ∧ b ≤ 0xBF ∨ a = 0xF4 ∧ 0x80 ≤ b ∧ b ≤ 0x8F ∨
            0xF1 ≤ a ∧ a ≤ 0xF3 ∧ isTail b = true) ∧ isTail c ∧ isTail d then 4
        else 0
      | [] => 0
    | [] => 0
  | [] => 0

/-- The first character of a literal, as UTF-8, and the rest. -/
def unquoteChar : Bytes → Option (Bytes × Bytes)
  | [] => none
  | 92 :: 117 :: s =>
    (unit4 s).map fun (n, rest) => (encodeRune (surrogate n rest).1, (surrogate n rest).2)
  | 92 :: e :: s => some ([unescape e], s)
  | c :: s =>
    if c < 0x80 then some ([c], s)
    else if runeLen c s = 0 then some ([0xEF, 0xBF, 0xBD], s)
    else some (c :: s.take (runeLen c s - 1), s.drop (runeLen c s - 1))

def unquoteN : Nat → Bytes → Bytes
  | 0, _ => []
  | n + 1, raw =>
    match unquoteChar raw with
    | none => []
    | some (c, rest) => c ++ unquoteN n rest

/-- What a literal stands for, in UTF-8. -/
def unquote (raw : Bytes) : Bytes := unquoteN raw.length raw

example : unquote [92, 117, 48, 48, 54, 68, 92, 110, 0xFF] = [109, 10, 0xEF, 0xBF, 0xBD] := by
  decide

/-- Letters and underscores. -/
def isName (b : UInt8) : Bool := b == 95 || (65 ≤ b && b ≤ 90) || (97 ≤ b && b ≤ 122)

theorem literal_of_mem_tokens (h : .str raw ∈ (tokens s).1) : Literal raw := by
  obtain ⟨pre, rest, -, htoken⟩ := mem_tokens h
  have hscan : (scanString (raw ++ [34] ++ rest)).map (fun (raw, rest) => (Token.str raw, rest)) =
      some (.str raw, rest) := htoken
  obtain ⟨⟨raw', rest'⟩, hs, heq⟩ := map_eq_some_iff.1 hscan
  cases heq
  exact (scanString_spec hs).2.1

/-! ### Words in a literal -/

/-- A byte that only itself stands for, but for `\u`. -/
def isPlain (b : UInt8) : Bool := b < 0x80 && b ∉ ([8, 9, 10, 12, 13, 34, 47, 92] : Bytes)

theorem isPlain_unescape {e : UInt8} (he : isEscape e = true) : isPlain (unescape e) = false := by
  revert e
  decide +kernel

theorem isPlain_of_le {b : UInt8} (hb : 0x80 ≤ b) : isPlain b = false := by
  simp [isPlain, UInt8.not_lt.2 hb]

theorem Literal.tail (h : Literal (c :: raw)) (hc : c ≠ 92) : Literal raw := by
  cases h with
  | char _ h => exact h
  | _ => exact absurd rfl hc

/-- What follows the first byte of a UTF-8 sequence in it. -/
theorem runeLen_tail (a : UInt8) (s : Bytes) :
    ∀ b ∈ s.take (runeLen a s - 1), 0x80 ≤ b := by
  have htail : ∀ {b : UInt8}, isTail b = true → 0x80 ≤ b := by
    intro b
    revert b
    decide +kernel
  have hrange : ∀ {b : UInt8}, a = 0xE0 ∧ 0xA0 ≤ b ∧ b ≤ 0xBF ∨ a = 0xED ∧ 0x80 ≤ b ∧ b ≤ 0x9F ∨
      (0xE1 ≤ a ∧ a ≤ 0xEC ∨ 0xEE ≤ a ∧ a ≤ 0xEF) ∧ isTail b = true → 0x80 ≤ b := by
    intro b h
    rcases h with ⟨-, h, -⟩ | ⟨-, h, -⟩ | ⟨-, h⟩
    · exact UInt8.le_trans (by decide) h
    · exact h
    · exact htail h
  have hrange' : ∀ {b : UInt8}, a = 0xF0 ∧ 0x90 ≤ b ∧ b ≤ 0xBF ∨ a = 0xF4 ∧ 0x80 ≤ b ∧ b ≤ 0x8F ∨
      0xF1 ≤ a ∧ a ≤ 0xF3 ∧ isTail b = true → 0x80 ≤ b := by
    intro b h
    rcases h with ⟨-, h, -⟩ | ⟨-, h, -⟩ | ⟨-, -, h⟩
    · exact UInt8.le_trans (by decide) h
    · exact h
    · exact htail h
  unfold runeLen
  split
  · split
    · split
      · rename_i hb
        simpa using htail hb
      · simp
    · split
      · split
        · rename_i hb
          split
          · rename_i hc
            simpa using ⟨hrange hb, htail hc⟩
          · simp
        · split
          · split
            · rename_i h
              simpa using ⟨hrange' h.1, htail h.2.1, htail h.2.2⟩
            · simp
          · simp
      · simp
  · simp

theorem Literal.drop (h : Literal raw) {n : Nat} (hn : ∀ b ∈ raw.take n, 0x80 ≤ b) :
    Literal (raw.drop n) := by
  induction n generalizing raw with
  | zero => exact h
  | succ n ih =>
    cases raw with
    | nil => exact h
    | cons c raw =>
      have hc : 0x80 ≤ c := hn c mem_cons_self
      refine ih (h.tail ?_) fun b hb => hn b (mem_cons_of_mem c hb)
      intro heq
      subst heq
      exact absurd hc (by decide)

/-- The first character of a literal without `\u`: a plain byte that stands for itself, or bytes
that are not plain. -/
theorem unquoteChar_cases (h : Literal raw) (hu : ¬[92, 117] <:+: raw) :
    raw = [] ∨ ∃ piece out rest, unquoteChar raw = some (out, rest) ∧ Literal rest ∧
      raw = piece ++ rest ∧ ((∃ c, piece = [c] ∧ out = [c]) ∨
        piece ≠ [] ∧ out ≠ [] ∧ ∀ b ∈ out, isPlain b = false) := by
  cases h with
  | nil => exact .inl rfl
  | unit h => exact absurd (List.IsPrefix.isInfix ⟨_, rfl⟩) hu
  | @escape e raw he h =>
    have hchar : unquoteChar (92 :: e :: raw) = some ([unescape e], raw) := by
      rw [unquoteChar]
      intro heq
      subst heq
      cases he
    refine .inr ⟨[92, e], [unescape e], raw, hchar, h, rfl,
      .inr ⟨cons_ne_nil _ _, cons_ne_nil _ _, ?_⟩⟩
    exact forall_mem_singleton.2 (isPlain_unescape he)
  | @char c raw hc h =>
    have hchar : unquoteChar (c :: raw) =
        if c < 0x80 then some ([c], raw)
        else if runeLen c raw = 0 then some ([0xEF, 0xBF, 0xBD], raw)
        else some (c :: raw.take (runeLen c raw - 1), raw.drop (runeLen c raw - 1)) := by
      rw [unquoteChar]
      · exact fun s hs _ => hc hs
      · exact fun e s hs _ => hc hs
    rw [hchar]
    refine .inr ?_
    split
    · exact ⟨[c], [c], raw, rfl, h, rfl, .inl ⟨c, rfl, rfl⟩⟩
    · rename_i hlt
      split
      · refine ⟨[c], _, raw, rfl, h, rfl, .inr ⟨cons_ne_nil _ _, cons_ne_nil _ _, ?_⟩⟩
        simp [isPlain]
      · refine ⟨c :: raw.take (runeLen c raw - 1), _, _, rfl, h.drop (runeLen_tail c raw), ?_,
          .inr ⟨cons_ne_nil _ _, cons_ne_nil _ _, ?_⟩⟩
        · rw [cons_append, take_append_drop]
        · intro b hb
          rcases mem_cons.1 hb with rfl | hb
          · exact isPlain_of_le (UInt8.not_lt.1 hlt)
          · exact isPlain_of_le (runeLen_tail c raw b hb)

/-- A literal and what it stands for without `\u`: the same bytes, but for runs that stand for bytes
that are not plain. -/
inductive Spelled : Bytes → Bytes → Prop
  | nil : Spelled [] []
  | same (c : UInt8) {raw v : Bytes} (h : Spelled raw v) : Spelled (c :: raw) (c :: v)
  | other (piece : Bytes) {out raw v : Bytes} (hne : out ≠ [])
      (hout : ∀ b ∈ out, isPlain b = false) (h : Spelled raw v) : Spelled (piece ++ raw) (out ++ v)

theorem spelled_unquote (hraw : Literal raw) (hu : ¬[92, 117] <:+: raw) :
    Spelled raw (unquote raw) := by
  have hmain : ∀ n raw, raw.length ≤ n → Literal raw → ¬[92, 117] <:+: raw →
      Spelled raw (unquoteN n raw) := by
    intro n
    induction n with
    | zero =>
      intro raw hn _ _
      obtain rfl := length_eq_zero_iff.1 (Nat.le_zero.1 hn)
      exact .nil
    | succ n ih =>
      intro raw hn hraw hu
      rcases unquoteChar_cases hraw hu with rfl | ⟨piece, out, rest, hchar, hrest, rfl, hout⟩
      · exact .nil
      · have hu' : ¬[92, 117] <:+: rest := fun hin =>
          hu (hin.trans (suffix_append piece rest).isInfix)
        rw [unquoteN, hchar]
        rcases hout with ⟨c, rfl, rfl⟩ | ⟨hpiece, hne, hout⟩
        · exact .same c (ih rest (Nat.le_of_succ_le_succ hn) hrest hu')
        · have hpos := length_pos_iff.2 hpiece
          rw [length_append] at hn
          exact .other piece hne hout (ih rest (by omega) hrest hu')
  exact hmain _ raw le_rfl hraw hu

theorem isPlain_of_isName {b : UInt8} (hb : isName b = true) : isPlain b = true := by
  revert b
  decide +kernel

/-- **A name has one spelling** without `\u`. -/
theorem eq_of_unquote {name : Bytes} (hraw : Literal raw) (hu : ¬[92, 117] <:+: raw)
    (hname : ∀ b ∈ name, isName b = true) (h : unquote raw = name) : raw = name := by
  have hspelled := spelled_unquote hraw hu
  rw [h] at hspelled
  clear h hraw hu
  induction hspelled with
  | nil => rfl
  | same c _ ih => rw [ih fun b hb => hname b (mem_cons_of_mem c hb)]
  | other piece hne hout _ _ =>
    obtain ⟨d, out, rfl⟩ := exists_cons_of_ne_nil hne
    have hgood := isPlain_of_isName (hname d mem_cons_self)
    rw [hout d mem_cons_self] at hgood
    cases hgood

theorem prefix_of_spelled {v : Bytes} (h : Spelled raw v) (hw : ∀ b ∈ w, isPlain b = true)
    (hpre : w <+: v) : w <+: raw := by
  induction h generalizing w with
  | nil => exact hpre
  | same c _ ih =>
    cases w with
    | nil => exact nil_prefix
    | cons b w =>
      obtain ⟨rfl, htail⟩ := cons_prefix_cons.1 hpre
      exact cons_prefix_cons.2 ⟨rfl, ih (fun x hx => hw x (mem_cons_of_mem b hx)) htail⟩
  | other piece hne hout _ _ =>
    cases w with
    | nil => exact nil_prefix
    | cons b w =>
      obtain ⟨d, out, rfl⟩ := exists_cons_of_ne_nil hne
      obtain ⟨rfl, -⟩ := cons_prefix_cons.1 hpre
      have hbad := hw b mem_cons_self
      rw [hout b mem_cons_self] at hbad
      cases hbad

/-- A word does not begin in bytes that are none of its. -/
theorem isInfix_of_append {out : Bytes} (hne : w ≠ []) (hw : ∀ b ∈ w, isPlain b = true)
    (hout : ∀ b ∈ out, isPlain b = false) (h : w <:+: out ++ s) : w <:+: s := by
  induction out with
  | nil => exact h
  | cons c out ih =>
    rcases infix_cons_iff.1 h with h | h
    · obtain ⟨b, w, rfl⟩ := exists_cons_of_ne_nil hne
      obtain ⟨rfl, -⟩ := cons_prefix_cons.1 h
      have hbad := hw b mem_cons_self
      rw [hout b mem_cons_self] at hbad
      cases hbad
    · exact ih (fun b hb => hout b (mem_cons_of_mem c hb)) h

/-- **A plain word has one spelling** without `\u`: a literal that stands for a text with the word has
the word in it. -/
theorem isInfix_of_unquote (hne : w ≠ []) (hw : ∀ b ∈ w, isPlain b = true) (hraw : Literal raw)
    (hu : ¬[92, 117] <:+: raw) (h : w <:+: unquote raw) : w <:+: raw := by
  have hspelled := spelled_unquote hraw hu
  generalize unquote raw = v at h hspelled
  clear hraw hu
  induction hspelled with
  | nil => exact h
  | same c hspelled ih =>
    rcases infix_cons_iff.1 h with hpre | h
    · exact (prefix_of_spelled (.same c hspelled) hw hpre).isInfix
    · exact (ih h).trans (suffix_cons c _).isInfix
  | other piece _ hout _ ih =>
    exact (ih (isInfix_of_append hne hw hout h)).trans (suffix_append piece _).isInfix

/-! ### Names without regard to case -/

/-- A name as `encoding/json` folds it, as far as it can be told from a name of ASCII letters: the
Kelvin sign is a K and the long s an S. -/
def foldName : Bytes → Bytes
  | 0xE2 :: 0x84 :: 0xAA :: s => 75 :: foldName s
  | 0xC5 :: 0xBF :: s => 83 :: foldName s
  | c :: s => (if 97 ≤ c ∧ c ≤ 122 then c - 32 else c) :: foldName s
  | [] => []

end Viiwork.Lib

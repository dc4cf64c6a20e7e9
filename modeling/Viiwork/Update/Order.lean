import Viiwork.Lib.Text
import Viiwork.Lib.ThreeWay
import Viiwork.Update.Version

/-!
# Viiwork.Update.Order

`Compare` orders the releases: on release names it is transitive (`compare_trans`), which the
three-way comparison of `version.go` is not on everything it can read. There the numbers of a
pre-release may be negative, and the difference of two of them can wrap around (`compare_laws`). A
release name has no sign in it.
-/

namespace Viiwork.Update

open Viiwork.Lib List Option

theorem sign_eq (n : Int) : sign n = n.sign := by
  rw [sign]
  split_ifs with hneg hpos
  · exact (Int.sign_eq_neg_one_of_neg hneg).symm
  · exact (Int.sign_eq_one_of_pos hpos).symm
  · rw [show n = 0 by omega]
    rfl

/-! ### Identifiers -/

/-- The identifier is not a negative number. -/
def Unsigned (ident : List Char) : Prop := ∀ n ∈ atoi ident, 0 ≤ n

variable {cs pre i suf j : List Char} {a b v d : String} {p : Parsed} {n : Int} {sep : Char}
variable {before : List (List Char)}

theorem atoi_eq_some (h : atoi cs = some n) : (-2 ^ 63 ≤ n ∧ n < 2 ^ 63) ∧ (0 ≤ n ∨ '-' ∈ cs) := by
  unfold atoi at h
  split at h
  rename_i neg ds hsign
  split_ifs at h with hds hneg
  · have hmem : '-' ∈ cs := by
      split at hsign
      · exact mem_cons_self
      all_goals
        cases hsign
        cases hneg
    dsimp only at h
    split_ifs at h with hrange
    cases h
    exact ⟨hrange, .inr hmem⟩
  · dsimp only at h
    split_ifs at h with hrange
    cases h
    exact ⟨hrange, .inl (Int.natCast_nonneg _)⟩

theorem unsigned_of_notMem {ident : List Char} (h : '-' ∉ ident) : Unsigned ident :=
  fun _ hn => (atoi_eq_some hn).2.resolve_right h

/-- Without a sign nothing wraps around. -/
theorem int64_sub {a b : Int} (ha : 0 ≤ a) (ha' : a < 2 ^ 63) (hb : 0 ≤ b) (hb' : b < 2 ^ 63) :
    int64 (a - b) = a - b := by
  rw [int64, Int.bmod_eq_of_le] <;> omega

/-- Numbers first, those by value, and the others as text. -/
theorem threeWay_compareIdent : ThreeWay Unsigned compareIdent := by
  have hkind := threeWay_sub.comap fun a : List Char => if (atoi a).isSome then (0 : Int) else 1
  have hnumber := threeWay_sub.comap fun a : List Char => (atoi a).getD 0
  have htext := (threeWay_compare (α := List Char)).comap fun a : List Char =>
    if (atoi a).isSome then [] else a
  refine ((hkind.thenBy (hnumber.thenBy htext)).mono fun _ _ => trivial).congr fun a b ha hb => ?_
  cases hna : atoi a with
  | none =>
    cases hnb : atoi b with
    | none => simp [compareIdent, hna, hnb]; rfl
    | some nb => simp [compareIdent, hna, hnb]
  | some na =>
    cases hnb : atoi b with
    | none => simp [compareIdent, hna, hnb]
    | some nb =>
      have hwrap := int64_sub (ha na hna) (atoi_eq_some hna).1.2 (hb nb hnb)
        (atoi_eq_some hnb).1.2
      simp only [compareIdent, hna, hnb, hwrap, sign_eq]
      by_cases heq : na = nb
      · simp [heq]
        rfl
      · have hne : (na - nb).sign ≠ 0 := by rw [Ne, Int.sign_eq_zero_iff_zero]; omega
        simp [hne]

theorem comparePre_eq (as bs : List (List Char)) :
    comparePre as bs = lexSign compareIdent as bs := by
  induction as generalizing bs with
  | nil => cases bs <;> simp [comparePre, lexSign, sign_eq]
  | cons a as ih =>
    cases bs with
    | nil => simp [comparePre, lexSign, sign_eq]
    | cons b bs => simp [comparePre, lexSign, ih]

/-! ### Versions -/

/-- A release is newer than its pre-releases. -/
def Parsed.released (p : Parsed) : Int := if p.pre = [] then 1 else 0

/-- What `compare` makes of two versions that it can read. -/
def Parsed.order (p q : Parsed) : Int :=
  if (p.n.1 - q.n.1).sign ≠ 0 then (p.n.1 - q.n.1).sign
  else if (p.n.2.1 - q.n.2.1).sign ≠ 0 then (p.n.2.1 - q.n.2.1).sign
  else if (p.n.2.2 - q.n.2.2).sign ≠ 0 then (p.n.2.2 - q.n.2.2).sign
  else if (p.released - q.released).sign ≠ 0 then (p.released - q.released).sign
  else lexSign compareIdent p.pre q.pre

theorem threeWay_order : ThreeWay (fun p : Parsed => ∀ i ∈ p.pre, Unsigned i) Parsed.order := by
  have hkey : ∀ f : Parsed → Int, ThreeWay (fun p : Parsed => ∀ i ∈ p.pre, Unsigned i)
      fun p q => (f p - f q).sign := fun f => (threeWay_sub.comap f).mono fun _ _ => trivial
  exact (hkey fun p => p.n.1).thenBy ((hkey fun p => p.n.2.1).thenBy ((hkey fun p => p.n.2.2).thenBy
    ((hkey Parsed.released).thenBy (threeWay_compareIdent.lexSign.comap Parsed.pre))))

theorem compare_eq {q : Parsed} (ha : parse a = some p) (hb : parse b = some q) :
    compare a b = some (p.order q) := by
  have hsign : ∀ x y : Int, (x - y).sign ≠ 0 ↔ x ≠ y := by
    intro x y
    rw [Ne, Int.sign_eq_zero_iff_zero, sub_eq_zero]
  simp only [compare, ha, hb, Parsed.order, hsign, bind_eq_bind, bind_some, sign_eq]
  split_ifs with hx hy hz hreleased
  · rfl
  · rfl
  · rfl
  all_goals
    cases hp : p.pre <;> cases hq : q.pre <;>
      simp_all [Parsed.released, comparePre_eq, lexSign]

/-- The two patterns read a release name alike. -/
theorem splitVersion_mono {ok ok' : Char → Bool} (hok : ∀ c, ok c = true → ok' c = true)
    {x y z : List Char} (h : splitVersion ok v = some (x, y, z, pre)) :
    splitVersion ok' v = some (x, y, z, pre) := by
  obtain ⟨hnumbers, hpre, hv⟩ := splitVersion_iff.1 h
  exact splitVersion_iff.2 ⟨hnumbers, fun c hc => hok c (hpre c hc), hv⟩

theorem beforePrivate_subset (pre : List Char) : beforePrivate pre ⊆ pre := by
  induction pre with
  | nil => exact List.Subset.refl _
  | cons c cs ih =>
    rw [beforePrivate]
    split_ifs
    · exact nil_subset _
    · exact cons_subset_cons c ih

theorem stripPrivate_subset (pre : List Char) : stripPrivate pre ⊆ pre := by
  rw [stripPrivate]
  split_ifs
  · exact nil_subset _
  · exact beforePrivate_subset pre

theorem subset_of_mem_splitOn {l part : List Char} (h : part ∈ l.splitOn sep) : part ⊆ l := by
  intro c hc
  have hjoin : [sep].intercalate (l.splitOn sep) = l := intercalate_splitOn sep
  rw [← hjoin]
  obtain ⟨i, hi⟩ := mem_iff_getElem?.1 h
  have hmem : part ∈ (l.splitOn sep).intersperse [sep] :=
    mem_of_getElem? (List.getElem?_intersperse_two_mul.trans hi)
  exact mem_flatten.2 ⟨part, hmem, hc⟩

/-- The identifiers of a pre-release. -/
def identifiers (pre : List Char) : List (List Char) :=
  if stripPrivate pre = [] then [] else (stripPrivate pre).splitOn '.'

theorem parse_iff : parse v = some p ↔
    ∃ x y z pre, splitVersion (fun c => c.isAlphanum || c == '.' || c == '-') v =
        some (x, y, z, pre) ∧
      (atoi x = some p.n.1 ∧ atoi y = some p.n.2.1 ∧ atoi z = some p.n.2.2) ∧
      p.pre = identifiers pre := by
  constructor
  · intro h
    obtain ⟨⟨x, y, z, pre⟩, hsplit, h₁⟩ := bind_eq_some_iff.1 h
    obtain ⟨_, hx, h₂⟩ := bind_eq_some_iff.1 h₁
    obtain ⟨_, hy, h₃⟩ := bind_eq_some_iff.1 h₂
    obtain ⟨_, hz, h₄⟩ := bind_eq_some_iff.1 h₃
    cases h₄
    exact ⟨x, y, z, pre, hsplit, ⟨hx, hy, hz⟩, rfl⟩
  · rintro ⟨x, y, z, pre, hsplit, ⟨hx, hy, hz⟩, hpre⟩
    have hp : p = ⟨(p.n.1, p.n.2.1, p.n.2.2), identifiers pre⟩ := by rw [← hpre]
    rw [hp]
    simp [parse, hsplit, hx, hy, hz, identifiers]

theorem subset_of_mem_identifiers (h : i ∈ identifiers pre) : i ⊆ pre := by
  rw [identifiers] at h
  split_ifs at h
  · cases h
  · exact List.Subset.trans (subset_of_mem_splitOn h) (stripPrivate_subset pre)

theorem unsigned_of_valid (hv : validVersion v = true) (hp : parse v = some p) :
    ∀ i ∈ p.pre, Unsigned i := by
  intro i hi
  refine unsigned_of_notMem fun hmem => ?_
  obtain ⟨⟨x, y, z, pre⟩, hsplit⟩ := isSome_iff_exists.1 hv
  obtain ⟨x', y', z', pre', hsplit', -, hpre⟩ := parse_iff.1 hp
  have hsame : some (x, y, z, pre) = some (x', y', z', pre') := by
    rw [← hsplit', ← splitVersion_mono (fun c hc => ?_) hsplit]
    rw [hc, Bool.true_or]
  cases hsame
  have hdash := (splitVersion_iff.1 hsplit).2.1 '-'
    (subset_of_mem_identifiers (hpre ▸ hi) hmem)
  exact absurd hdash (by decide)

/-- **`Compare` is transitive on release names.** -/
theorem compare_trans (ha : validVersion a = true) (hb : validVersion b = true)
    (hd : validVersion d = true) {x y : Int} (hab : compare a b = some x) (hx : 0 ≤ x)
    (hbd : compare b d = some y) (hy : 0 ≤ y) : ∃ z, compare a d = some z ∧ 0 ≤ z := by
  obtain ⟨p, hp, hab'⟩ := bind_eq_some_iff.1 hab
  obtain ⟨q, hq, _⟩ := bind_eq_some_iff.1 hab'
  obtain ⟨_, _, hbd'⟩ := bind_eq_some_iff.1 hbd
  obtain ⟨r, hr, _⟩ := bind_eq_some_iff.1 hbd'
  rw [compare_eq hp hq] at hab
  rw [compare_eq hq hr] at hbd
  cases hab
  cases hbd
  exact ⟨_, compare_eq hp hr, threeWay_order.trans (unsigned_of_valid ha hp)
    (unsigned_of_valid hb hq) (unsigned_of_valid hd hr) hx hy⟩

/-! ### Private builds -/

theorem isPrivate_iff : isPrivate cs = true ↔
    (∃ sha, (∀ c ∈ sha, isLowerHex c = true) ∧ (7 ≤ sha.length ∧ sha.length ≤ 40) ∧
      (cs = 'g' :: sha ∨ cs = 'g' :: sha ++ '-' :: "dirty".toList)) ∨ cs = "dirty".toList := by
  have hdirty : "-dirty".toList = '-' :: "dirty".toList := by decide
  unfold isPrivate
  split
  · rename_i cs
    rw [span_eq_takeWhile_dropWhile]
    simp only [Bool.and_eq_true, decide_eq_true_eq, Bool.or_eq_true, beq_iff_eq, hdirty]
    constructor
    · rintro ⟨hlen, hrest⟩
      refine .inl ⟨cs.takeWhile isLowerHex, fun c hc => mem_takeWhile_imp hc, hlen, ?_⟩
      have happ := (takeWhile_append_dropWhile (p := isLowerHex) (l := cs)).symm
      refine hrest.imp (fun hnil => ?_) fun hmark => ?_
      · rw [hnil, append_nil] at happ
        rw [← happ]
      · rw [hmark] at happ
        rw [cons_append, ← happ]
    · rintro (⟨sha, hsha, hlen, heq | heq⟩ | heq)
      · rw [(List.cons.inj heq).2, takeWhile_eq_self_iff.2 hsha,
          dropWhile_eq_nil_iff.2 hsha]
        exact ⟨hlen, .inl rfl⟩
      · obtain rfl : cs = sha ++ '-' :: "dirty".toList := (List.cons.inj heq).2
        rw [takeWhile_append_of_pos hsha, dropWhile_append_of_pos hsha]
        simp only [takeWhile_cons, dropWhile_cons, (by decide : isLowerHex '-' = false),
          Bool.false_eq_true, if_false, append_nil]
        exact ⟨hlen, .inr trivial⟩
      · cases heq
  · rename_i hg
    rw [beq_iff_eq]
    refine ⟨.inr, ?_⟩
    rintro (⟨sha, -, -, rfl | rfl⟩ | heq)
    · exact absurd rfl (hg sha)
    · exact absurd rfl (hg _)
    · exact heq

theorem mem_of_isPrivate (h : isPrivate cs = true) {c : Char} (hc : c ∈ cs) :
    isLowerHex c = true ∨ c = 'g' ∨ c = '-' ∨ c ∈ "dirty".toList := by
  rcases isPrivate_iff.1 h with ⟨sha, hsha, -, rfl | rfl⟩ | rfl
  · exact (mem_cons.1 hc).elim (fun hg => .inr (.inl hg)) fun hc => .inl (hsha c hc)
  · simp only [mem_append, mem_cons] at hc
    rcases hc with (hg | hc) | hrest
    · exact .inr (.inl hg)
    · exact .inl (hsha c hc)
    · exact .inr (.inr hrest)
  · exact .inr (.inr (.inr hc))

theorem isPrivate_z (cs : List Char) : isPrivate (cs ++ ['z']) = false := by
  by_contra h
  have hz := mem_of_isPrivate (Bool.eq_true_of_not_eq_false h) (mem_append_right cs (.head []))
  revert hz
  decide

theorem stripPrivate_z (cs : List Char) : stripPrivate (cs ++ ['z']) = cs ++ ['z'] := by
  have hbefore : ∀ cs, beforePrivate (cs ++ ['z']) = cs ++ ['z'] := by
    intro cs
    induction cs with
    | nil => decide
    | cons c cs ih => simp [beforePrivate, isPrivate_z, ih]
  rw [stripPrivate, isPrivate_z, hbefore]
  rfl

/-- Only the suffix is private: what stands before its first dash was not. -/
theorem isPrivate_of_append (h : isPrivate (cs ++ '-' :: suf) = true) : isPrivate cs = true := by
  have hmem : '-' ∈ cs ++ '-' :: suf := mem_append_right cs (.head suf)
  have hno : ∀ {sha}, (∀ c ∈ sha, isLowerHex c = true) → '-' ∉ 'g' :: sha := by
    intro sha hsha hdash
    have hhex := hsha '-' ((mem_cons.1 hdash).resolve_left (by decide))
    exact absurd hhex (by decide)
  rcases isPrivate_iff.1 h with ⟨sha, hsha, hlen, heq | heq⟩ | heq
  · exact absurd (heq ▸ hmem) (hno hsha)
  · refine isPrivate_iff.2 (.inl ⟨sha, hsha, hlen, .inl ?_⟩)
    have hcount := congrArg (List.count '-') heq
    rw [count_append, count_append, count_eq_zero.2 (hno hsha), count_cons_self,
      count_cons_self, (by decide : "dirty".toList.count '-' = 0)] at hcount
    exact (append_sep_inj (count_eq_zero.1 (by omega)) (hno hsha) heq).1
  · exact absurd (heq ▸ hmem) (by decide)

theorem stripPrivate_append (hpre : stripPrivate pre = pre) (hsuf : isPrivate suf = true)
    (hne : pre ≠ []) : stripPrivate (pre ++ '-' :: suf) = pre := by
  have hbefore : ∀ pre, beforePrivate pre = pre → beforePrivate (pre ++ '-' :: suf) = pre := by
    intro pre
    induction pre with
    | nil => simp [beforePrivate, hsuf]
    | cons c cs ih =>
      intro hcs
      rw [beforePrivate] at hcs
      split_ifs at hcs with hdash
      have hnot : ¬ (c = '-' ∧ isPrivate (cs ++ '-' :: suf) = true) :=
        fun hlate => hdash ⟨hlate.1, isPrivate_of_append hlate.2⟩
      rw [cons_append, beforePrivate, if_neg hnot, ih (List.cons.inj hcs).2]
  rw [stripPrivate] at hpre ⊢
  split_ifs at hpre with hprivate
  · exact absurd hpre.symm hne
  · rw [if_neg fun hlate => hprivate (isPrivate_of_append hlate), hbefore pre hpre]

/-- The version has no private suffix. -/
def Unmarked (v : String) : Prop :=
  ∃ x y z pre, splitVersion (fun c => c.isAlphanum || c == '.' || c == '-') v =
      some (x, y, z, pre) ∧ stripPrivate pre = pre

theorem parse_marked {suf : String} (hv : parse v = some p) (hun : Unmarked v)
    (hsuf : isPrivate suf.toList = true) : parse (v ++ "-" ++ suf) = some p := by
  obtain ⟨x, y, z, pre, hsplit, hnumbers, hp⟩ := parse_iff.1 hv
  obtain ⟨_, _, _, _, hsplit', hstrip⟩ := hun
  cases hsplit.symm.trans hsplit'
  obtain ⟨hdigits, hpre, htext⟩ := splitVersion_iff.1 hsplit
  have hchars : ∀ c ∈ suf.toList, (c.isAlphanum || c == '.' || c == '-') = true := by
    intro c hc
    have hdirty : "dirty".toList.all Char.isAlphanum = true := by decide
    rcases mem_of_isPrivate hsuf hc with hhex | rfl | rfl | hletter
    · have halnum : c.isAlphanum = true := by
        simp only [isLowerHex, Bool.or_eq_true, Bool.and_eq_true, decide_eq_true_eq] at hhex
        rcases hhex with hdigit | ⟨hge, hle⟩
        · rw [Char.isAlphanum, hdigit, Bool.or_true]
        · have hlower : c.isLower = true := by
            simpa [Char.isLower] using ⟨hge, hle.trans (by decide : 'f' ≤ 'z')⟩
          rw [Char.isAlphanum, Char.isAlpha, hlower, Bool.or_true, Bool.true_or]
      rw [halnum, Bool.true_or, Bool.true_or]
    · decide
    · decide
    · rw [all_eq_true.1 hdirty c hletter, Bool.true_or, Bool.true_or]
  refine parse_iff.2 ⟨x, y, z, if pre = [] then suf.toList else pre ++ '-' :: suf.toList,
    splitVersion_iff.2 ⟨hdigits, ?_, ?_⟩, hnumbers, ?_⟩
  · split
    · exact hchars
    · intro c hc
      rcases mem_append.1 hc with hc | hc
      · exact hpre c hc
      · exact (mem_cons.1 hc).elim (fun hdash => by rw [hdash]; decide) (hchars c)
  · have hne : suf.toList ≠ [] := by
      rintro hnil
      rw [hnil] at hsuf
      cases hsuf
    by_cases hempty : pre = [] <;> simp [String.toList_append, htext, hempty, hne]
  · rw [hp, identifiers, identifiers, hstrip]
    by_cases hempty : pre = []
    · rw [if_pos hempty, if_pos hempty, stripPrivate, if_pos hsuf, if_pos rfl]
    · rw [if_neg hempty, if_neg hempty, stripPrivate_append hstrip hsuf hempty, if_neg hempty]

/-! ### The laws -/

theorem compareIdent_self (i : List Char) : compareIdent i i = 0 := by
  rw [compareIdent]
  cases atoi i with
  | none => simp [Std.ReflOrd.compare_self]
  | some n => simp [int64, sign]

theorem order_self (p : Parsed) : p.order p = 0 := by
  simp [Parsed.order, lexSign_self compareIdent_self]

/-- The laws of an order, of three versions. -/
structure Laws (a b d : String) : Prop where
  refl : compare a a = some 0
  swap : ∀ x, compare a b = some x → compare b a = some (-x)
  trans : ∀ x y, compare a b = some x → compare b d = some y → x ≤ 0 → y ≤ 0 →
    ∃ z, compare a d = some z ∧ z ≤ 0

/-- A version that `Compare` accepts, no identifier of which is a negative number. -/
def NonNegative (v : String) : Prop := ∃ p, parse v = some p ∧ ∀ i ∈ p.pre, Unsigned i

theorem laws_of_nonNegative (ha : NonNegative a) (hb : NonNegative b) (hd : NonNegative d) :
    Laws a b d := by
  obtain ⟨p, hp, ha⟩ := ha
  obtain ⟨q, hq, hb⟩ := hb
  obtain ⟨r, hr, hd⟩ := hd
  refine ⟨by rw [compare_eq hp hp, order_self], fun x hx => ?_, fun x y hx hy hx₀ hy₀ => ?_⟩
  · rw [compare_eq hp hq] at hx
    rw [compare_eq hq hp, threeWay_order.swap ha hb, Option.some.inj hx]
  · rw [compare_eq hp hq] at hx
    rw [compare_eq hq hr] at hy
    have hab := threeWay_order.swap ha hb
    have hbd := threeWay_order.swap hb hd
    have had := threeWay_order.swap ha hd
    have htrans := threeWay_order.trans hd hb ha (a := r) (b := q) (d := p)
    have hx := Option.some.inj hx
    have hy := Option.some.inj hy
    exact ⟨_, compare_eq hp hr, by omega⟩

theorem notMem_of_mem_splitOn {l part : List Char} (h : part ∈ l.splitOn sep) : sep ∉ part := by
  induction l generalizing part with
  | nil => simp_all
  | cons c l ih =>
    rw [splitOn_cons_eq_if_modifyHead] at h
    split_ifs at h with hc
    · rcases mem_cons.1 h with rfl | h
      · exact not_mem_nil
      · exact ih h
    · obtain ⟨first, rest, hsplit⟩ := exists_cons_of_ne_nil (splitOn_ne_nil sep l)
      rw [hsplit, modifyHead_cons] at h
      rw [hsplit] at ih
      rcases mem_cons.1 h with rfl | h
      · simpa [Ne.symm (by simpa using hc : c ≠ sep)] using ih (.head rest)
      · exact ih (.tail first h)

/-- Identifiers with a number and a letter behind them, as text. -/
theorem intercalate_z (before : List (List Char)) (j : List Char) :
    ∃ cs, ['.'].intercalate (before ++ [j, ['z']]) = cs ++ ['z'] ∧
      ∀ c ∈ cs, c = '.' ∨ c ∈ j ∨ ∃ i ∈ before, c ∈ i := by
  induction before with
  | nil => exact ⟨j ++ ['.'], by simp, by simp; tauto⟩
  | cons i before ih =>
    obtain ⟨cs, heq, hcs⟩ := ih
    obtain ⟨first, rest, hne⟩ := exists_cons_of_ne_nil
      (append_ne_nil_of_right_ne_nil before (cons_ne_nil j [['z']]))
    refine ⟨i ++ ['.'] ++ cs, ?_, ?_⟩
    · rw [cons_append, hne, intercalate_cons_cons, ← hne, heq]
      simp
    · intro c hc
      simp only [mem_append, mem_singleton] at hc
      rcases hc with (hc | hc) | hc
      · exact .inr (.inr ⟨i, .head before, hc⟩)
      · exact .inl hc
      · exact (hcs c hc).imp_right (Or.imp_right fun ⟨k, hk, hck⟩ => ⟨k, .tail i hk, hck⟩)

/-- A version with the same numbers, and identifiers of one's own at the end. -/
theorem exists_version (hv : parse v = some p) (hbefore : before <+: p.pre)
    (hj : ∀ c ∈ j, c.isDigit = true) : ∃ w, parse w = some ⟨p.n, before ++ [j, ['z']]⟩ := by
  obtain ⟨x, y, z, pre, hsplit, hnumbers, hp⟩ := parse_iff.1 hv
  obtain ⟨hdigits, hpre, htext⟩ := splitVersion_iff.1 hsplit
  obtain ⟨cs, hjoin, hcs⟩ := intercalate_z before j
  have hmem : ∀ i ∈ before, i ∈ identifiers pre := fun i hi => hp ▸ hbefore.subset hi
  have hident : identifiers (cs ++ ['z']) = before ++ [j, ['z']] := by
    rw [identifiers, stripPrivate_z, if_neg (by simp), ← hjoin]
    refine splitOn_intercalate '.' (fun l hl => ?_) (by simp)
    simp only [mem_append, mem_cons, not_mem_nil, or_false] at hl
    rcases hl with hl | rfl | rfl
    · have hl := hmem l hl
      rw [identifiers] at hl
      split_ifs at hl
      · cases hl
      · exact notMem_of_mem_splitOn hl
    · exact fun hdot => absurd (hj '.' hdot) (by decide)
    · decide
  refine ⟨.ofList ('v' :: x ++ '.' :: y ++ '.' :: z ++ '-' :: (cs ++ ['z'])), parse_iff.2
    ⟨x, y, z, cs ++ ['z'], splitVersion_iff.2 ⟨hdigits, fun c hc => ?_, ?_⟩, hnumbers, hident.symm⟩⟩
  · rcases mem_append.1 hc with hc | hc
    · rcases hcs c hc with rfl | hc | ⟨i, hi, hc⟩
      · decide
      · rw [Char.isAlphanum, hj c hc, Bool.or_true, Bool.true_or, Bool.true_or]
      · exact hpre c (subset_of_mem_identifiers (hmem i hi) hc)
    · rw [mem_singleton.1 hc]
      decide
  · simp

theorem order_append {n : Int × Int × Int} {as bs : List (List Char)} (h : compareIdent i j ≠ 0) :
    Parsed.order ⟨n, before ++ i :: as⟩ ⟨n, before ++ j :: bs⟩ = compareIdent i j := by
  simp [Parsed.order, Parsed.released, lexSign_append compareIdent_self, lexSign, h]

def maxInt : List Char := "9223372036854775807".toList

/-- **The difference wraps around** between the largest number and a negative one, which then
compares as the larger. -/
theorem compareIdent_maxInt (hi : atoi i = some n) (hn : n < 0) :
    compareIdent maxInt i = -1 ∧ compareIdent i ['0'] = -1 := by
  have hmax : atoi maxInt = some 9223372036854775807 := by decide +kernel
  have hzero : atoi ['0'] = some 0 := by decide +kernel
  have hrange := (atoi_eq_some hi).1
  simp only [compareIdent, hmax, hi, hzero]
  have hwrap : int64 (9223372036854775807 - n) < 0 := by
    simp only [int64, Int.bmod]
    omega
  have hkept : int64 (n - 0) < 0 := by
    simp only [int64, Int.bmod]
    omega
  exact ⟨if_pos hwrap, if_pos hkept⟩

/-- A version with a negative number: `0` is above it, the largest number above `0`, and the version
above that one. -/
theorem not_laws_of_negative (hp : parse a = some p) (hneg : ¬ ∀ i ∈ p.pre, Unsigned i) :
    ∃ b d, NonNegative b ∧ NonNegative d ∧ ¬ (Laws a d d ∧ Laws d b a) := by
  classical
  obtain ⟨i₀, hi₀, hneg₀⟩ := by simpa using hneg
  obtain ⟨i, hfind⟩ := isSome_iff_exists.1
    (List.find?_isSome.2 ⟨i₀, hi₀, decide_eq_true hneg₀⟩ :
      (p.pre.find? fun i => decide (¬ Unsigned i)).isSome = true)
  obtain ⟨hi, before, after, hpre, hbefore⟩ := List.find?_eq_some_iff_append.1 hfind
  obtain ⟨n, hn, hlt⟩ : ∃ n, atoi i = some n ∧ n < 0 := by simpa [Unsigned] using hi
  obtain ⟨hover, hunder⟩ := compareIdent_maxInt hn hlt
  have hbetween : compareIdent ['0'] maxInt = -1 := by decide +kernel
  have hprefix : before <+: p.pre := hpre ▸ prefix_append before (i :: after)
  have hnon : ∀ {v j}, parse v = some ⟨p.n, before ++ [j, ['z']]⟩ → '-' ∉ j → NonNegative v := by
    intro v j hv hj
    refine ⟨_, hv, fun k hk => ?_⟩
    simp only [mem_append, mem_cons, not_mem_nil, or_false] at hk
    rcases hk with hk | rfl | rfl
    · simpa using hbefore k hk
    · exact unsigned_of_notMem hj
    · exact unsigned_of_notMem (by decide)
  obtain ⟨b, hb⟩ := exists_version hp hprefix (j := maxInt) (all_eq_true.1 (by decide +kernel))
  obtain ⟨d, hd⟩ := exists_version hp hprefix (j := ['0']) (all_eq_true.1 (by decide))
  refine ⟨b, d, hnon hb (by decide +kernel), hnon hd (by decide), fun ⟨had, hdba⟩ => ?_⟩
  obtain ⟨pn, ppre⟩ := p
  obtain rfl : ppre = before ++ i :: after := hpre
  have hswap := had.swap _ (compare_eq hp hd)
  rw [order_append (by rw [hunder]; decide), hunder] at hswap
  obtain ⟨z, hz, hz₀⟩ := hdba.trans _ _ (compare_eq hd hb) (compare_eq hb hp)
    (by rw [order_append (by rw [hbetween]; decide), hbetween]; decide)
    (by rw [order_append (by rw [hover]; decide), hover]; decide)
  rw [hswap] at hz
  obtain rfl := Option.some.inj hz
  exact absurd hz₀ (by decide)

/-- **`Compare` is an order** on the versions without a negative number among their identifiers, and
with any other version besides it is none. A private build is the version that it was cut from. -/
theorem compare_laws (a : String) :
    ((∀ x y z, (x = a ∨ NonNegative x) → (y = a ∨ NonNegative y) → (z = a ∨ NonNegative z) →
        Laws x y z) ↔ NonNegative a) ∧
      ∀ v suf, (parse v).isSome = true → Unmarked v → isPrivate suf.toList = true →
        compare (v ++ "-" ++ suf) v = some 0 := by
  refine ⟨⟨fun h => ?_, fun ha x y z hx hy hz => ?_⟩, fun v suf hv hun hsuf => ?_⟩
  · obtain ⟨p, hp, -⟩ := bind_eq_some_iff.1 (h a a a (.inl rfl) (.inl rfl) (.inl rfl)).refl
    refine ⟨p, hp, ?_⟩
    by_contra hneg
    obtain ⟨b, d, hb, hd, hnot⟩ := not_laws_of_negative hp hneg
    exact hnot ⟨h a d d (.inl rfl) (.inr hd) (.inr hd), h d b a (.inr hd) (.inr hb) (.inl rfl)⟩
  · have hall : ∀ v, v = a ∨ NonNegative v → NonNegative v := fun v hv => hv.elim (· ▸ ha) id
    exact laws_of_nonNegative (hall x hx) (hall y hy) (hall z hz)
  · obtain ⟨p, hp⟩ := isSome_iff_exists.1 hv
    rw [compare_eq (parse_marked hp hun hsuf) hp, order_self]

/-- Both are the older of the two. -/
theorem compare_laws_wrapped :
    let a := "v1.0.0--9223372036854775808"
    compare a "v1.0.0-0" = some (-1) ∧ compare "v1.0.0-0" a = some (-1) := by
  decide +kernel

end Viiwork.Update

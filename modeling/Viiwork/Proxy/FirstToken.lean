import Viiwork.Lib.JsonEdit

/-!
# Viiwork.Proxy.FirstToken

When the first token of a stream counts as written (`seesToken` and `hasTokenText` of `measure.go`).

Each write is searched by itself, and its seam with the 32 bytes before it once more. So a pattern
is seen if it lies in one write, or if at most 32 of its bytes are in the write it ends in and at
most 32 before that (`Shown`).

The search for a key goes on after the bytes it looked at. The fact that carries the proof is
`scan_iff`: it still finds what a search from every byte finds, for these bytes hold one quote, the
key's last, and a colon follows that.
-/

namespace Viiwork.Proxy

open Viiwork.Lib List

def toolCallsKey : Bytes := ascii "\"tool_calls\":"

def tokenTextKeys : List Bytes :=
  [ascii "\"content\":", ascii "\"reasoning_content\":", ascii "\"text\":"]

/-! ### The search -/

/-- The loop over the occurrences of a key. `after` looks at what follows one: whether it is text,
and where the search goes on. -/
def scan (key : Bytes) (after : Bytes → Bool × Bytes) : Nat → Bytes → Bool
  | 0, _ => false
  | fuel + 1, rest =>
    match index key rest with
    | none => false
    | some i =>
      let next := after (skipSpace (rest.drop (i + key.length)))
      next.1 || scan key after fuel next.2

/-- A non-empty array. -/
def afterToolCalls : Bytes → Bool × Bytes
  | 91 :: rest => ((skipSpace rest).head?.any (· != 93), skipSpace rest)
  | rest => (false, rest)

/-- A string with at least one byte in it. -/
def afterText : Bytes → Bool × Bytes
  | 34 :: c :: rest => (c != 34, 34 :: c :: rest)
  | rest => (false, rest)

def hasTokenText (p : Bytes) : Bool :=
  scan toolCallsKey afterToolCalls (p.length + 1) p ||
    tokenTextKeys.any fun k => scan k afterText (p.length + 1) p

variable {key r s t u v : Bytes} {after : Bytes → Bool × Bytes}

/-- A key is a quoted name and a colon. -/
def IsKey (key : Bytes) : Prop :=
  ∃ c w, key = 34 :: c :: (w ++ [34, 58]) ∧ c ≠ 58 ∧ 34 ∉ c :: w

theorem isKey_of_mem (h : key ∈ toolCallsKey :: tokenTextKeys) : IsKey key := by
  refine ⟨key.getD 1 0, (key.drop 2).dropLast.dropLast, ?_⟩
  revert key
  decide

/-- What `after` passes over holds no quote, and what it finds stays when more bytes follow. -/
structure Looks (after : Bytes → Bool × Bytes) : Prop where
  passed : ∀ s, ∃ u, s = u ++ (after s).2 ∧ 34 ∉ u
  found : ∀ s, (after s).1 = true → s ≠ [] ∧ ∀ t, (after (s ++ t)).1 = true

theorem skipSpace_passed (s : Bytes) : ∃ u, s = u ++ skipSpace s ∧ 34 ∉ u :=
  ⟨s.takeWhile isSpace, takeWhile_append_dropWhile.symm,
    fun h => absurd (mem_takeWhile_imp h) (by decide)⟩

theorem skipSpace_append (h : skipSpace s ≠ []) (t : Bytes) :
    skipSpace (s ++ t) = skipSpace s ++ t := by
  rw [skipSpace, dropWhile_append, if_neg (by rwa [List.isEmpty_iff]), skipSpace]

theorem looks_afterToolCalls : Looks afterToolCalls where
  passed s := by
    unfold afterToolCalls
    split
    · rename_i rest
      obtain ⟨u, hu, hno⟩ := skipSpace_passed rest
      exact ⟨91 :: u, congrArg (91 :: ·) hu, by simp [hno]⟩
    · exact ⟨[], rfl, not_mem_nil⟩
  found s h := by
    unfold afterToolCalls at h
    split at h
    · rename_i rest
      have hne : skipSpace rest ≠ [] := by
        intro hnil
        simp [hnil] at h
      refine ⟨cons_ne_nil _ _, fun t => ?_⟩
      rw [cons_append, afterToolCalls, skipSpace_append hne, head?_append_of_ne_nil _ hne]
      exact h
    · cases h

theorem looks_afterText : Looks afterText where
  passed s := by
    unfold afterText
    split <;> exact ⟨[], rfl, not_mem_nil⟩
  found s h := by
    unfold afterText at h
    split at h
    · exact ⟨cons_ne_nil _ _, fun t => h⟩
    · cases h

theorem suffix_of_notMem {c : UInt8} (hc : c ∉ u) (h : c :: s <:+ u ++ v) : c :: s <:+ v := by
  induction u with
  | nil => exact h
  | cons b u ih =>
    rw [mem_cons, not_or] at hc
    rcases suffix_cons_iff.1 h with heq | h
    · exact absurd (cons.inj heq).1 hc.1
    · exact ih hc.2 h

/-- After an occurrence of the key the next one is past bytes without a quote. -/
theorem IsKey.next (hkey : IsKey key) (hu : 34 ∉ u) (h : key ++ r <:+ key ++ (u ++ s)) :
    r = u ++ s ∨ key ++ r <:+ s := by
  obtain ⟨c, w, rfl, hc, hw⟩ := hkey
  have h : 34 :: (c :: (w ++ [34, 58]) ++ r) <:+ 34 :: ((c :: w) ++ 34 :: 58 :: (u ++ s)) := by
    simpa using h
  rcases suffix_cons_iff.1 h with heq | h
  · exact .inl (by simpa using heq)
  · -- No quote is in the name, and the key does not begin with the one that ends it.
    rcases suffix_cons_iff.1 (suffix_of_notMem hw h) with heq | h
    · simp [hc] at heq
    · exact .inr (suffix_of_notMem (u := 58 :: u) (by simp [hu]) h)

section

variable (hkey : IsKey key) (hafter : Looks after)
include hkey hafter

/-- **The search finds the key wherever text follows it.** -/
theorem scan_iff {fuel : Nat} (hfuel : s.length < fuel) :
    scan key after fuel s = true ↔ ∃ r, key ++ r <:+ s ∧ (after (skipSpace r)).1 = true := by
  have hne : key ≠ [] := by
    obtain ⟨c, w, rfl, -⟩ := hkey
    exact cons_ne_nil _ _
  induction fuel generalizing s with
  | zero => exact absurd hfuel (Nat.not_lt_zero _)
  | succ fuel ih =>
    rw [scan]
    rcases index_cases hne s with ⟨hnone, hno⟩ | ⟨a, r, rfl, hsome, hfirst⟩
    · simp [hnone, hno]
    · obtain ⟨u, hu, hnou⟩ := skipSpace_passed r
      obtain ⟨v, hv, hnov⟩ := hafter.passed (skipSpace r)
      have hdrop : (a ++ (key ++ r)).drop (a.length + key.length) = r := by
        rw [← append_assoc, ← length_append, drop_left]
      generalize hnext : after (skipSpace r) = next at hv
      have hr : r = u ++ v ++ next.2 := by rw [append_assoc, ← hv, ← hu]
      have hsuf : next.2 <:+ r := ⟨u ++ v, hr.symm⟩
      have hlen : next.2.length < fuel := by
        have := hsuf.length_le
        have := length_pos_of_ne_nil hne
        simp only [length_append] at hfuel
        omega
      simp only [hsome, hdrop, hnext, Bool.or_eq_true, ih hlen]
      constructor
      · rintro (h | ⟨r', hr', h⟩)
        · exact ⟨r, suffix_append a _, by rw [hnext, h]⟩
        · refine ⟨r', hr'.trans (hsuf.trans ?_), h⟩
          exact (suffix_append key r).trans (suffix_append a _)
      · rintro ⟨r', hr', h⟩
        have hfrom : key ++ r' <:+ key ++ r := by
          refine suffix_of_suffix_length_le hr' (suffix_append a _) ?_
          simpa using hfirst r' hr'
        rw [hr] at hfrom
        rcases hkey.next (by simp [hnou, hnov]) hfrom with heq | hrest
        · rw [← hr] at heq
          rw [heq, hnext] at h
          exact .inl h
        · exact .inr ⟨r', hrest, h⟩

theorem scan_mono (h : s <:+: t) (hs : scan key after (s.length + 1) s = true) :
    scan key after (t.length + 1) t = true := by
  obtain ⟨a, b, rfl⟩ := h
  obtain ⟨r, ⟨a', rfl⟩, hr⟩ := (scan_iff hkey hafter (Nat.lt_succ_self _)).1 hs
  obtain ⟨hne, hmore⟩ := hafter.found _ hr
  refine (scan_iff hkey hafter (Nat.lt_succ_self _)).2 ⟨r ++ b, ⟨a ++ a', by simp⟩, ?_⟩
  rw [skipSpace_append hne]
  exact hmore b

end

theorem hasTokenText_mono (h : s <:+: t) (hs : hasTokenText s = true) : hasTokenText t = true := by
  simp only [hasTokenText, Bool.or_eq_true, any_eq_true] at hs ⊢
  rcases hs with hs | ⟨k, hk, hs⟩
  · exact .inl (scan_mono (isKey_of_mem mem_cons_self) looks_afterToolCalls h hs)
  · exact .inr ⟨k, hk, scan_mono (isKey_of_mem (mem_cons_of_mem _ hk)) looks_afterText h hs⟩

/-! ### The writes -/

def edgeLen : Nat := 32

/-- The newest bytes of everything written so far. -/
def keepNewest (edge p : Bytes) : Bytes :=
  if edgeLen ≤ p.length then p.drop (p.length - edgeLen)
  else
    let keep := min edge.length (edgeLen - p.length)
    edge.drop (edge.length - keep) ++ p

/-- Whether a token is seen, and the edge for the next write. -/
def seesToken (edge p : Bytes) : Bool × Bytes :=
  if hasTokenText p then (true, edge)
  else if hasTokenText (edge ++ p.take edgeLen) then (true, edge)
  else (false, keepNewest edge p)

/-- When the first token was written, and the newest bytes written before it. -/
structure FirstToken (τ : Type) where
  firstAt : Option τ := none
  edge : Bytes := []

variable {τ : Type} {before p : Bytes} {ws : List (τ × Bytes)}

/-- What `Write` does first. The clock never shows the zero time. -/
def FirstToken.write (m : FirstToken τ) (w : τ × Bytes) : FirstToken τ :=
  if m.firstAt.isNone then
    let seen := seesToken m.edge w.2
    { firstAt := if seen.1 then some w.1 else none, edge := seen.2 }
  else m

def FirstToken.writes (ws : List (τ × Bytes)) : FirstToken τ := ws.foldl write {}

/-- A write shows a pattern: it lies in the write, or has at most 32 bytes in it and at most 32
before it. -/
def Shown (before p : Bytes) : Prop :=
  ∃ w, hasTokenText w = true ∧ (w <:+: p ∨ ∃ x y, w = x ++ y ∧ x <:+ before ∧ y <+: p ∧
    x.length ≤ edgeLen ∧ y.length ≤ edgeLen)

/-- One of the writes shows a pattern. -/
def AnyShown (ws : List (τ × Bytes)) : Prop :=
  ∃ pre w, pre ++ [w] <+: ws ∧ Shown (pre.flatMap Prod.snd) w.2

/-- The newest 32 bytes. -/
def newest (s : Bytes) : Bytes := s.drop (s.length - edgeLen)

theorem shown_iff : Shown before p ↔
    hasTokenText p = true ∨ hasTokenText (newest before ++ p.take edgeLen) = true := by
  constructor
  · rintro ⟨w, hw, h | ⟨x, y, rfl, hx, hy, hxl, hyl⟩⟩
    · exact .inl (hasTokenText_mono h hw)
    · have hlen := hx.length_le
      obtain ⟨a, ha⟩ : x <:+ newest before := by
        refine suffix_of_suffix_length_le hx (drop_suffix _ _) ?_
        simp only [newest, length_drop]
        omega
      obtain ⟨b, hb⟩ : y <+: p.take edgeLen := prefix_take_iff.2 ⟨hy, hyl⟩
      exact .inr (hasTokenText_mono ⟨a, b, by simp [← ha, ← hb]⟩ hw)
  · rintro (h | h)
    · exact ⟨p, h, .inl (infix_refl p)⟩
    · refine ⟨_, h, .inr ⟨_, _, rfl, drop_suffix _ _, take_prefix _ _, ?_, length_take_le _ _⟩⟩
      simp only [newest, length_drop]
      omega

theorem keepNewest_newest (before p : Bytes) :
    keepNewest (newest before) p = newest (before ++ p) := by
  simp only [keepNewest, newest, length_append, length_drop, drop_append, drop_drop]
  split
  · have hgone : before.length ≤ before.length + p.length - edgeLen := by omega
    rw [drop_eq_nil_of_le hgone, nil_append]
    congr 1
    omega
  · rw [show before.length + p.length - edgeLen - before.length = 0 by omega, drop_zero]
    congr 2
    omega

/-- **Step lemma.** -/
theorem seesToken_cases (before p : Bytes) :
    ¬ Shown before p ∧ seesToken (newest before) p = (false, newest (before ++ p)) ∨
      Shown before p ∧ (seesToken (newest before) p).1 = true := by
  rw [shown_iff, seesToken, ← keepNewest_newest]
  split
  · simp [*]
  · split <;> simp [*]

theorem anyShown_concat {w : τ × Bytes} :
    AnyShown (ws ++ [w]) ↔ AnyShown ws ∨ Shown (ws.flatMap Prod.snd) w.2 := by
  constructor
  · rintro ⟨pre, w', hpre, h⟩
    rcases prefix_concat_iff.1 hpre with heq | hpre
    · obtain ⟨rfl, rfl⟩ := append_singleton_inj.1 heq
      exact .inr h
    · exact .inl ⟨pre, w', hpre, h⟩
  · rintro (⟨pre, w', hpre, h⟩ | h)
    · exact ⟨pre, w', hpre.trans (prefix_append ws _), h⟩
    · exact ⟨ws, w, prefix_refl _, h⟩

theorem Shown.hasTokenText (h : Shown before p) : hasTokenText (before ++ p) = true := by
  obtain ⟨w, hw, h⟩ := h
  refine hasTokenText_mono ?_ hw
  rcases h with ⟨a, b, rfl⟩ | ⟨x, y, rfl, ⟨a, rfl⟩, ⟨b, rfl⟩, -⟩
  · exact ⟨before ++ a, b, by simp⟩
  · exact ⟨a, b, by simp⟩

/-- **The first token is seen whatever the cuts.** Until a pattern is shown nothing is set, and the
edge is what was written last. The time that is set is that of the first write after which one was
shown, and all that was written then holds a pattern. -/
theorem firstAt_first (ws : List (τ × Bytes)) :
    (¬ AnyShown ws ∧ FirstToken.writes ws = ⟨none, newest (ws.flatMap Prod.snd)⟩) ∨
      hasTokenText (ws.flatMap Prod.snd) = true ∧ ∃ pre now p post, ws = pre ++ (now, p) :: post ∧
        ¬ AnyShown pre ∧ AnyShown (pre ++ [(now, p)]) ∧
          (FirstToken.writes ws).firstAt = some now := by
  induction ws using List.reverseRecOn with
  | nil =>
    refine .inl ⟨?_, rfl⟩
    rintro ⟨pre, w, hpre, -⟩
    simp at hpre
  | append_singleton ws w ih =>
    have hstep : FirstToken.writes (ws ++ [w]) = (FirstToken.writes ws).write w := by
      simp [FirstToken.writes]
    rw [hstep]
    rcases ih with ⟨hnone, hm⟩ | ⟨htext, pre, now, p, post, rfl, hnone, hany, hset⟩
    · rw [hm]
      rcases seesToken_cases (ws.flatMap Prod.snd) w.2 with ⟨hnot, hs⟩ | ⟨hshown, hs⟩
      · refine .inl ⟨by simp [anyShown_concat, hnone, hnot], ?_⟩
        simp [FirstToken.write, hs]
      · refine .inr ⟨by simpa using hshown.hasTokenText, ws, w.1, w.2, [], rfl, hnone,
          anyShown_concat.2 (.inr hshown), ?_⟩
        simp [FirstToken.write, hs]
    · refine .inr ⟨hasTokenText_mono ⟨[], w.2, by simp⟩ htext, pre, now, p, post ++ [w], by simp,
        hnone, hany, ?_⟩
      simp [FirstToken.write, hset]

/-- A pattern of 40 bytes in two writes of 20 is seen, and there is none of 33 bytes or fewer. -/
theorem firstAt_long :
    let key := ascii "\"reasoning_content\":"
    let value := replicate 18 32 ++ ascii "\"x"
    (FirstToken.writes [(1, key), (2, value)]).firstAt = some 2 ∧ key.length = 20 ∧
      value.length = 20 ∧ ∀ w, hasTokenText w = true → w <:+: key ++ value → 33 < w.length := by
  intro key value
  have hall : ∀ s ∈ (key ++ value).tails, ∀ w ∈ s.inits, hasTokenText w = true → 33 < w.length := by
    decide +kernel
  refine ⟨by decide +kernel, rfl, rfl, fun w hw hin => ?_⟩
  obtain ⟨s, hpre, hsuf⟩ := infix_iff_prefix_suffix.1 hin
  exact hall s ((mem_tails _ _).2 hsuf) w ((mem_inits _ _).2 hpre) hw

end Viiwork.Proxy

import Viiwork.Lib.Json

/-!
# Viiwork.Lib.JsonEdit

Replacing a string of a JSON text in place: a text in which the bytes of one string literal are
exchanged for those of another has the same tokens but for that one (`tokens_replace`), and so the
same value but for that string (`parse_mapStr`).

A token is read without a look at more than one byte after it (`token_local`), and a text is read up
to any of its tokens in one way (`Reads`). A search for the literal finds the token
(`index_of_reads`): an earlier occurrence would be a second one, or run into the token from a text
that no token ends with.
-/

namespace Viiwork.Lib

open List Token

/-! ### Where a pattern begins -/

/-- `bytes.Index`. -/
def index (sep : Bytes) : Bytes → Option Nat
  | [] => if sep = [] then some 0 else none
  | c :: s => if sep.isPrefixOf (c :: s) then some 0 else (index sep s).map (· + 1)

/-- The first occurrence is found, if there is one. -/
theorem index_cases {sep : Bytes} (hsep : sep ≠ []) (s : Bytes) :
    (index sep s = none ∧ ∀ b, ¬ sep ++ b <:+ s) ∨
    ∃ a b, s = a ++ (sep ++ b) ∧ index sep s = some a.length ∧
      ∀ b', sep ++ b' <:+ s → b'.length ≤ b.length := by
  induction s with
  | nil =>
    refine .inl ⟨if_neg hsep, fun b h => hsep ?_⟩
    exact (append_eq_nil_iff.1 (suffix_nil.1 h)).1
  | cons c s ih =>
    simp only [index, isPrefixOf_iff_prefix]
    by_cases hpre : sep <+: c :: s
    · obtain ⟨b, hb⟩ := hpre
      refine .inr ⟨[], b, hb.symm, if_pos ⟨b, hb⟩, fun b' h => ?_⟩
      have hlen := h.length_le
      rw [← hb, length_append, length_append] at hlen
      omega
    · rw [if_neg hpre]
      have hlater : ∀ b, sep ++ b <:+ c :: s → sep ++ b <:+ s := by
        intro b h
        exact (suffix_cons_iff.1 h).resolve_left fun heq => hpre (heq ▸ prefix_append sep b)
      rcases ih with ⟨hnone, hno⟩ | ⟨a, b, rfl, hsome, hfirst⟩
      · exact .inl ⟨by rw [hnone]; rfl, fun b h => hno b (hlater b h)⟩
      · exact .inr ⟨c :: a, b, rfl, by rw [hsome]; rfl, fun b' h => hfirst b' (hlater b' h)⟩

/-! ### Reading up to a token -/

variable {rest rest' raw s pre k : Bytes} {c b : UInt8} {t : Token} {ts : List Token}

theorem isNumeric_of_token (h : token s = some (.num raw, rest)) :
    ∀ b ∈ raw, isNumeric b = true := by
  unfold token at h
  split at h
  case h_11 =>
    obtain ⟨⟨raw', rest'⟩, hs, heq⟩ := Option.map_eq_some_iff.1 h
    cases heq
    exact (munches_scanNumber hs).1.numeric
  case h_7 =>
    obtain ⟨_, -, heq⟩ := Option.map_eq_some_iff.1 h
    cases heq
  all_goals cases h

/-- What begins with a byte of a number is a number. -/
theorem token_eq_number (hc : isNumeric c = true) (s : Bytes) :
    token (c :: s) = (scanNumber (c :: s)).map fun (raw, rest) => (.num raw, rest) := by
  have hno : ∀ {d : UInt8} {s' : Bytes}, isNumeric d = false → c :: s ≠ d :: s' := by
    intro d s' hd h
    rw [(cons.inj h).1, hd] at hc
    cases hc
  rw [token]
  all_goals
    intro s' h
    exact hno (by decide) h

/-- **One byte after a token.** A token is read the same whatever follows, but for the byte that
comes next. -/
theorem token_local (h : token (t.bytes ++ rest) = some (t, rest))
    (hhead : rest'.head? = rest.head?) : token (t.bytes ++ rest') = some (t, rest') := by
  cases t with
  | str raw =>
    have hscan : (scanString (raw ++ [34] ++ rest)).map
        (fun (raw, rest) => (str raw, rest)) = some (.str raw, rest) := h
    obtain ⟨⟨raw', rest''⟩, hs, heq⟩ := Option.map_eq_some_iff.1 hscan
    cases heq
    have hs' := (scanString_spec hs).2.2 rest'
    show (scanString (raw ++ [34] ++ rest')).map _ = _
    rw [append_assoc, singleton_append, hs']
    rfl
  | num raw =>
    obtain ⟨-, hne⟩ := token_eq h
    obtain ⟨c, raw, rfl⟩ : ∃ c raw', raw = c :: raw' := exists_cons_of_ne_nil hne
    have hc := isNumeric_of_token h c mem_cons_self
    show token (c :: (raw ++ rest')) = _
    have hnum : token (c :: (raw ++ rest)) = some (.num (c :: raw), rest) := h
    rw [token_eq_number hc] at hnum ⊢
    obtain ⟨⟨raw', rest''⟩, hs, heq⟩ := Option.map_eq_some_iff.1 hnum
    cases heq
    have hs' : scanNumber (c :: (raw ++ rest')) = some (c :: raw, rest') :=
      (munches_scanNumber hs).1.again rest' hhead
    rw [hs']
    rfl
  | bool b => cases b <;> rfl
  | _ => rfl

/-- A token does not begin with space. -/
theorem skipSpace_of_token (h : token s = some (t, rest)) : skipSpace s = s := by
  cases s with
  | nil => rfl
  | cons c s =>
    have hc : isSpace c = false := by
      by_contra hc
      have hcases : c = 32 ∨ c = 9 ∨ c = 13 ∨ c = 10 := by
        simpa [isSpace, or_assoc] using (Bool.not_eq_false _).mp hc
      rcases hcases with rfl | rfl | rfl | rfl <;> cases h
    exact dropWhile_cons_of_neg (by simp [hc])

/-- Space in front is passed over. -/
theorem tokens_space {space : Bytes} (h : ∀ b ∈ space, isSpace b = true) (s : Bytes) :
    tokens (space ++ s) = tokens s := by
  have hskip : skipSpace (space ++ s) = skipSpace s := by
    rw [skipSpace, dropWhile_append_of_pos h, skipSpace]
  rw [tokens_eq, tokens_eq s, hskip]

theorem tokens_of_token (h : token (t.bytes ++ rest) = some (t, rest)) :
    tokens (t.bytes ++ rest) = (t :: (tokens rest).1, (tokens rest).2) := by
  have hne : (skipSpace (t.bytes ++ rest)).isEmpty = false := by
    rw [skipSpace_of_token h, isEmpty_eq_false_iff]
    exact append_ne_nil_of_left_ne_nil (token_eq h).2 rest
  rw [tokens_eq, hne, skipSpace_of_token h, h]
  rfl

/-- The tokens are read from the text up to `rest`. -/
inductive Reads : Bytes → List Token → Bytes → Prop
  | space {space rest : Bytes} (h : ∀ b ∈ space, isSpace b = true) : Reads space [] rest
  | token {space pre rest : Bytes} {t : Token} {ts : List Token}
      (hspace : ∀ b ∈ space, isSpace b = true)
      (ht : token (t.bytes ++ (pre ++ rest)) = some (t, pre ++ rest)) (h : Reads pre ts rest) :
      Reads (space ++ (t.bytes ++ pre)) (t :: ts) rest

/-- What was read stays read when another text follows that begins the same. -/
theorem Reads.congr (h : Reads pre ts rest) (hhead : rest'.head? = rest.head?) :
    Reads pre ts rest' := by
  induction h with
  | space hspace => exact .space hspace
  | @token space pre rest t ts hspace ht h ih =>
    exact .token hspace (token_local ht (head?_append_congr pre hhead)) (ih hhead)

theorem Reads.tokens_eq (h : Reads pre ts rest) :
    tokens (pre ++ rest) = (ts ++ (tokens rest).1, (tokens rest).2) := by
  induction h with
  | space hspace => exact tokens_space hspace _
  | @token space pre rest t ts hspace ht h ih =>
    rw [append_assoc, append_assoc, tokens_space hspace, tokens_of_token ht, ih]
    rfl

/-- A text is read up to any of its tokens. -/
theorem reads_of_mem_tokens (h : t ∈ (tokens s).1) :
    ∃ pre ts rest, s = pre ++ (t.bytes ++ rest) ∧ Reads pre ts (t.bytes ++ rest) ∧
      token (t.bytes ++ rest) = some (t, rest) := by
  induction hn : s.length using Nat.strong_induction_on generalizing s with
  | _ n ih =>
    rw [Viiwork.Lib.tokens_eq] at h
    split at h
    · cases h
    · split at h
      · cases h
      · rename_i t' rest htoken
        obtain ⟨hs, -⟩ := token_eq htoken
        have hsplit : s = s.takeWhile isSpace ++ (t'.bytes ++ rest) := by
          rw [← hs]
          exact takeWhile_append_dropWhile.symm
        have hspace : ∀ b ∈ s.takeWhile isSpace, isSpace b = true :=
          fun b hb => mem_takeWhile_imp hb
        rw [hs] at htoken
        rcases mem_cons.1 h with rfl | h
        · exact ⟨_, [], rest, hsplit, .space hspace, htoken⟩
        · obtain ⟨pre, ts, rest', rfl, hreads, htoken'⟩ :=
            ih rest.length (hn ▸ length_of_token (by rw [← hs] at htoken; exact htoken)) h rfl
          refine ⟨_, t' :: ts, rest', ?_, .token hspace htoken hreads, htoken'⟩
          simpa only [append_assoc] using hsplit

/-- The bytes that a token may end with, and space. -/
def isEnd (b : UInt8) : Bool :=
  isSpace b || isNumeric b || b ∈ ([123, 125, 91, 93, 58, 44, 34, 101, 108] : Bytes)

theorem isEnd_of_token (h : token (t.bytes ++ rest) = some (t, rest))
    (hb : t.bytes.getLast? = some b) : isEnd b = true := by
  cases t with
  | num raw =>
    have hnum := isNumeric_of_token h b (mem_of_getLast? hb)
    rw [isEnd, hnum, Bool.or_true, Bool.true_or]
  | str raw =>
    rw [bytes, getLast?_append] at hb
    cases hb
    rfl
  | bool v => cases v <;> cases hb <;> rfl
  | _ =>
    cases hb
    rfl

/-- What was read ends with a token or with space. -/
theorem Reads.isEnd_of_getLast (h : Reads pre ts rest) (hb : pre.getLast? = some b) :
    isEnd b = true := by
  induction h with
  | space hspace => rw [isEnd, hspace b (mem_of_getLast? hb), Bool.true_or, Bool.true_or]
  | @token space pre rest t ts hspace ht h ih =>
    rw [getLast?_append, getLast?_append, Option.or_eq_some_iff,
      Option.or_eq_some_iff] at hb
    rcases hb with (hb | ⟨-, hb⟩) | ⟨hnone, -⟩
    · exact ih hb
    · exact isEnd_of_token ht hb
    · rw [Option.or_eq_none_iff, getLast?_eq_none_iff] at hnone
      exact absurd (getLast?_eq_none_iff.1 hnone.2) (token_eq ht).2

/-! ### The literal is the token -/

/-- Two occurrences of a literal share no more than a quote. -/
theorem eq_of_overlap {a b : Bytes} (hk : 34 ∉ k)
    (h : (Token.str k).bytes ++ b = a ++ ((Token.str k).bytes ++ rest)) (ha : a ≠ [])
    (hlen : a.length < (Token.str k).bytes.length) : a = 34 :: k := by
  obtain ⟨f, hf, hrest⟩ : ∃ f, (str k).bytes = a ++ f ∧
      (str k).bytes ++ rest = f ++ b := by
    rcases append_eq_append_iff.1 h with ⟨f, rfl, -⟩ | ⟨f, hf, hrest⟩
    · rw [length_append] at hlen
      omega
    · exact ⟨f, hf, hrest⟩
  obtain ⟨c, a, rfl⟩ := exists_cons_of_ne_nil ha
  cases f with
  | nil =>
    rw [append_nil] at hf
    rw [hf] at hlen
    exact absurd hlen (lt_irrefl _)
  | cons d f =>
    obtain rfl : 34 = d := (cons.inj hrest).1
    obtain ⟨rfl, hk'⟩ := cons.inj hf
    -- The quote that `f` begins with is the closing one: there is none in `k`.
    rcases append_eq_append_iff.1 (show k ++ [34] = a ++ 34 :: f from hk') with
      ⟨e, rfl, he⟩ | ⟨e, rfl, he⟩
    · cases e with
      | nil => rw [append_nil]
      | cons _ e => cases e <;> cases he
    · cases e with
      | nil => rw [append_nil]
      | cons x e =>
        cases (cons.inj he).1
        exact absurd (mem_append_right a mem_cons_self) hk

/-- **A search finds the token.** -/
theorem index_of_reads (hk : 34 ∉ k) (hlast : k.getLast? = some b) (hend : isEnd b = false)
    (hcount : count (Token.str k).bytes (pre ++ ((Token.str k).bytes ++ rest)) = 1)
    (h : Reads pre ts ((Token.str k).bytes ++ rest)) :
    index (Token.str k).bytes (pre ++ ((Token.str k).bytes ++ rest)) = some pre.length := by
  have hne : (str k).bytes ≠ [] := cons_ne_nil _ _
  rcases index_cases hne (pre ++ ((str k).bytes ++ rest)) with
    ⟨-, hno⟩ | ⟨a, b', hab, hsome, hfirst⟩
  · exact absurd (suffix_append pre _) (hno rest)
  rw [hsome, Option.some_inj]
  by_contra hother
  have hlt : a.length < pre.length := by
    have hle := hfirst rest (suffix_append pre _)
    have hlen := congrArg length hab
    simp only [length_append] at hlen
    omega
  rcases append_eq_append_iff.1 hab with ⟨e, rfl, -⟩ | ⟨e, rfl, he⟩
  · rw [length_append] at hlt
    omega
  · have hpos : e ≠ [] := by
      rintro rfl
      rw [append_nil] at hlt
      exact lt_irrefl _ hlt
    by_cases hlen : e.length < (str k).bytes.length
    · rw [eq_of_overlap hk he hpos hlen] at h
      have hbad : isEnd b = true := by
        refine h.isEnd_of_getLast ?_
        rw [getLast?_append, getLast?_cons, hlast]
        rfl
      rw [hend] at hbad
      cases hbad
    · obtain ⟨f, rfl⟩ : (str k).bytes <+: e :=
        prefix_of_prefix_length_le ⟨b', he⟩ ⟨_, rfl⟩ (by omega)
      have htwo : 2 ≤ count (str k).bytes
          (a ++ ((str k).bytes ++ f) ++ ((str k).bytes ++ rest)) := by
        rw [append_assoc, append_assoc]
        refine le_trans ?_ (count_le_append _ a _)
        rw [count_append_self hne]
        have hone := count_le_append (str k).bytes f ((str k).bytes ++ rest)
        rw [count_append_self hne] at hone
        omega
      omega

/-! ### Another literal in its place -/

/-- The string, or `k'` in the place of `k`. -/
def swap (k k' raw : Bytes) : Bytes := if raw = k then k' else raw

/-- A token with its string changed. -/
def Token.mapStr (g : Bytes → Bytes) : Token → Token
  | str raw => str (g raw)
  | t => t

theorem map_swap_of_not_mem {k' : Bytes} (h : .str k ∉ ts) :
    ts.map (Token.mapStr (swap k k')) = ts := by
  rw [map_congr_left (g := id), map_id]
  intro t ht
  cases t with
  | str raw =>
    have hne : raw ≠ k := by
      rintro rfl
      exact h ht
    exact congrArg str (if_neg hne)
  | _ => rfl

/-- **Another literal in its place.** The text has the same tokens but for that one. -/
theorem tokens_replace {k' : Bytes} {n : Nat} (hk : 34 ∉ k) (hlast : k.getLast? = some b)
    (hend : isEnd b = false) (hcount : count (Token.str k).bytes s = 1)
    (hmem : .str k ∈ (tokens s).1) (hk' : ∀ rest, scanString (k' ++ 34 :: rest) = some (k', rest))
    (hn : index (Token.str k).bytes s = some n) :
    tokens (s.take n ++ ((Token.str k').bytes ++ s.drop (n + (Token.str k).bytes.length))) =
      ((tokens s).1.map (Token.mapStr (swap k k')), (tokens s).2) := by
  obtain ⟨pre, ts, rest, rfl, hreads, htoken⟩ := reads_of_mem_tokens hmem
  rw [index_of_reads hk hlast hend hcount hreads] at hn
  obtain rfl := Option.some.inj hn
  have htokens := hreads.tokens_eq
  rw [tokens_of_token htoken] at htokens
  have hdrop : (pre ++ ((str k).bytes ++ rest)).drop
      (pre.length + (str k).bytes.length) = rest := by
    rw [← drop_drop, drop_left, drop_left]
  have htoken' : token ((str k').bytes ++ rest) = some (.str k', rest) := by
    show (scanString (k' ++ [34] ++ rest)).map _ = _
    rw [append_assoc, singleton_append, hk']
    rfl
  have hreads' : Reads pre ts ((str k').bytes ++ rest) := hreads.congr rfl
  -- There is no other token like it: it would count.
  have hone : (ts ++ .str k :: (tokens rest).1).count (.str k) ≤ 1 := by
    have hle := count_tokens_le (s := pre ++ ((str k).bytes ++ rest)) (t := .str k)
    rw [htokens, hcount] at hle
    exact hle
  rw [count_append, count_cons_self] at hone
  rw [take_left, hdrop, hreads'.tokens_eq, tokens_of_token htoken', htokens]
  rw [map_append, map_cons,
    map_swap_of_not_mem (count_eq_zero.1 (by omega)),
    map_swap_of_not_mem (count_eq_zero.1 (by omega))]
  rw [mapStr, swap, if_pos rfl]

/-! ### The value with another string -/

namespace Json

mutual

/-- The value with its strings and keys changed. -/
def mapStr (g : Bytes → Bytes) : Json → Json
  | null => null
  | bool b => bool b
  | num raw => num raw
  | str raw => str (g raw)
  | arr vs => arr (mapElems g vs)
  | obj ms => obj (mapMembers g ms)

def mapElems (g : Bytes → Bytes) : List Json → List Json
  | [] => []
  | v :: vs => mapStr g v :: mapElems g vs

def mapMembers (g : Bytes → Bytes) : List (Bytes × Json) → List (Bytes × Json)
  | [] => []
  | (k, v) :: ms => (g k, mapStr g v) :: mapMembers g ms

end

variable (g : Bytes → Bytes)

theorem mapElems_eq (vs : List Json) : mapElems g vs = vs.map (mapStr g) := by
  induction vs with
  | nil => rfl
  | cons v vs ih => rw [mapElems, ih, map_cons]

theorem mapMembers_eq (ms : List (Bytes × Json)) :
    mapMembers g ms = ms.map fun m => (g m.1, mapStr g m.2) := by
  induction ms with
  | nil => rfl
  | cons m ms ih => rw [mapMembers, ih, map_cons]

def Frame.mapStr (g : Bytes → Bytes) : Frame → Frame
  | .arr vs => .arr (mapElems g vs)
  | .obj ms k => .obj (mapMembers g ms) (g k)

def Mode.mapStr (g : Bytes → Bytes) : Mode → Mode
  | .value => .value
  | .elemOrEnd => .elemOrEnd
  | .afterElem vs v => .afterElem (mapElems g vs) (v.mapStr g)
  | .keyOrEnd => .keyOrEnd
  | .key ms => .key (mapMembers g ms)
  | .colon ms k => .colon (mapMembers g ms) (g k)
  | .afterMember ms m => .afterMember (mapMembers g ms) (g m.1, m.2.mapStr g)
  | .done v => .done (v.mapStr g)

def Machine.mapStr (g : Bytes → Bytes) (m : Machine) : Machine :=
  ⟨m.stack.map (Frame.mapStr g), m.mode.mapStr g⟩

theorem put_mapStr (v : Json) (fs : List Frame) :
    put (v.mapStr g) (fs.map (Frame.mapStr g)) = (put v fs).mapStr g := by
  cases fs with
  | nil => rfl
  | cons f fs => cases f <;> rfl

theorem begin_mapStr (fs : List Frame) (t : Token) :
    begin (fs.map (Frame.mapStr g)) (t.mapStr g) = (begin fs t).map (Machine.mapStr g) := by
  cases t with
  | str raw => exact congrArg some (put_mapStr g (.str raw) fs)
  | num raw => exact congrArg some (put_mapStr g (.num raw) fs)
  | bool b => exact congrArg some (put_mapStr g (.bool b) fs)
  | null => exact congrArg some (put_mapStr g .null fs)
  | lbracket | lbrace =>
    show (if (fs.map (Frame.mapStr g)).length < maxDepth then _ else _) =
      (if fs.length < maxDepth then _ else _ : Option Machine).map _
    rw [length_map]
    split <;> rfl
  | _ => rfl

/-- **Step lemma.** The machine does not look into strings. -/
theorem Machine.step_mapStr (m : Machine) (t : Token) :
    (m.mapStr g).step (t.mapStr g) = (m.step t).map (Machine.mapStr g) := by
  obtain ⟨fs, mode⟩ := m
  cases mode with
  | value => exact begin_mapStr g fs t
  | elemOrEnd =>
    by_cases ht : t = .rbracket
    · subst ht
      exact congrArg some (put_mapStr g (.arr []) fs)
    · have ht' : t.mapStr g ≠ .rbracket := by cases t <;> first | exact ht | exact nofun
      show Machine.step ⟨fs.map (Frame.mapStr g), .elemOrEnd⟩ (t.mapStr g) = _
      rw [step_elemOrEnd ht, step_elemOrEnd ht']
      exact begin_mapStr g (.arr [] :: fs) t
  | afterElem vs v =>
    have happend : mapElems g (vs ++ [v]) = mapElems g vs ++ [v.mapStr g] := by
      rw [mapElems_eq, mapElems_eq, map_append, map_singleton]
    cases t with
    | comma =>
      show some _ = some (Machine.mk (.arr (mapElems g (vs ++ [v])) :: _) _)
      rw [happend]
      rfl
    | rbracket =>
      refine congrArg some ?_
      show put (.arr (mapElems g vs ++ [v.mapStr g])) _ = _
      rw [← happend]
      exact put_mapStr g (.arr (vs ++ [v])) fs
    | _ => rfl
  | keyOrEnd =>
    cases t with
    | rbrace => exact congrArg some (put_mapStr g (.obj []) fs)
    | _ => rfl
  | key | colon | done => cases t <;> rfl
  | afterMember ms n =>
    have happend : mapMembers g (ms ++ [n]) = mapMembers g ms ++ [(g n.1, n.2.mapStr g)] := by
      rw [mapMembers_eq, mapMembers_eq, map_append, map_singleton]
    cases t with
    | comma =>
      show some _ = some (Machine.mk _ (.key (mapMembers g (ms ++ [n]))))
      rw [happend]
      rfl
    | rbrace =>
      refine congrArg some ?_
      show put (.obj (mapMembers g ms ++ [(g n.1, n.2.mapStr g)])) _ = _
      rw [← happend]
      exact put_mapStr g (.obj (ms ++ [n])) fs
    | _ => rfl

/-- **Run lemma.** -/
theorem run_mapStr (ts : List Token) (m : Machine) :
    run Machine.step (m.mapStr g) (ts.map (Token.mapStr g)) =
      (run Machine.step m ts).map (Machine.mapStr g) := by
  induction ts generalizing m with
  | nil => rfl
  | cons t ts ih =>
    rw [map_cons, run, run, Machine.step_mapStr]
    cases m.step t with
    | none => rfl
    | some m' => exact ih m'

theorem read_mapStr (ts : List Token) :
    read (ts.map (Token.mapStr g)) = (read ts).map (mapStr g) := by
  have hrun := run_mapStr g ts ⟨[], .value⟩
  rw [read, read]
  show result (run Machine.step (Machine.mapStr g ⟨[], .value⟩) _) = _
  rw [hrun]
  cases run Machine.step ⟨[], .value⟩ ts with
  | none => rfl
  | some m =>
    obtain ⟨fs, mode⟩ := m
    cases fs with
    | nil | cons => cases mode <;> rfl

/-- **Another string in its place.** The value of a text whose tokens are those of another with
strings changed. -/
theorem parse_mapStr {s s' : Bytes} {g : Bytes → Bytes} {v : Json}
    (hs' : tokens s' = ((tokens s).1.map (Token.mapStr g), (tokens s).2))
    (h : parse s = some v) : parse s' = some (v.mapStr g) := by
  rw [parse] at h
  split at h
  · rename_i hall
    rw [parse, hs', if_pos hall, read_mapStr, h]
    rfl
  · cases h

end Json

end Viiwork.Lib

import Viiwork.Lib.Bytes
import Viiwork.Lib.Run

/-!
# Viiwork.Energy.Names

The name tables of the energy store (`energy/models.go`): `models.txt` and `clients.txt` are files
of lines, and the index of a name is the number of its line.

An append ends whole, is cut back, or is cut short by a crash. In each case the file is the lines of
some names and a part of a line (`Leaves`), and the names only grow. The next open drops the part
and reads the names back (`openModelTable_lines`), so an index that was handed out keeps its name.
-/

namespace Viiwork.Energy

open Viiwork.Lib List

/-! ### The table -/

/-- The table in memory. -/
structure ModelTable where
  names : List Bytes
  index : Bytes → Option Nat

namespace ModelTable

def empty : ModelTable := ⟨[], fun _ => none⟩

/-- A new row. An index is 16 bits wide. -/
def add (t : ModelTable) (name : Bytes) : ModelTable :=
  ⟨t.names ++ [name], Function.update t.index name (some (t.names.length % 2 ^ 16))⟩

/-- `Name`: an index past the table reads as no name. -/
def name (t : ModelTable) (idx : Nat) : Bytes := (t.names[idx]?).getD []

/-- The table with the rows. -/
def ofRows (names : List Bytes) : ModelTable := names.foldl add empty

theorem ofRows_concat (names : List Bytes) (n : Bytes) :
    ofRows (names ++ [n]) = (ofRows names).add n := by
  rw [ofRows, foldl_append]
  rfl

@[simp] theorem ofRows_names (names : List Bytes) : (ofRows names).names = names := by
  induction names using List.reverseRecOn with
  | nil => rfl
  | append_singleton names n ih =>
    rw [ofRows_concat, add, ih]

theorem ofRows_concat_index (names : List Bytes) (m n : Bytes) :
    (ofRows (names ++ [m])).index n =
      if n = m then some (names.length % 2 ^ 16) else (ofRows names).index n := by
  rw [ofRows_concat]
  show Function.update _ _ _ n = _
  rw [Function.update_apply, ofRows_names]

/-- The index of a name is the number of its row. -/
theorem ofRows_index {names : List Bytes} (hnodup : names.Nodup) (hlen : names.length ≤ 65535)
    {n : Bytes} {i : Nat} : (ofRows names).index n = some i ↔ names[i]? = some n := by
  induction names using List.reverseRecOn with
  | nil => simp [ofRows, empty]
  | append_singleton names m ih =>
    rw [length_append, length_singleton] at hlen
    have hm : m ∉ names := by
      intro hmem
      exact (nodup_append.1 hnodup).2.2 m hmem m (mem_singleton.2 rfl) rfl
    have hrest := ih (nodup_append.1 hnodup).1 (by omega)
    rw [ofRows_concat_index, Nat.mod_eq_of_lt (by omega)]
    by_cases hn : n = m
    · subst hn
      rw [if_pos rfl, Option.some.injEq]
      constructor
      · intro hi
        rw [← hi, List.getElem?_concat_length]
      · intro hi
        obtain ⟨hlt, hget⟩ := List.getElem?_eq_some_iff.1 hi
        by_contra hne
        rw [length_append, length_singleton] at hlt
        rw [getElem_append_left (by omega)] at hget
        exact hm (hget ▸ getElem_mem _)
    · rw [if_neg hn, hrest]
      constructor
      · intro hi
        rw [List.getElem?_append_left (List.getElem?_eq_some_iff.1 hi).1, hi]
      · intro hi
        obtain ⟨hlt, hget⟩ := List.getElem?_eq_some_iff.1 hi
        rw [length_append, length_singleton] at hlt
        have hne : i ≠ names.length := by
          intro heq
          subst heq
          rw [getElem_concat_length rfl] at hget
          exact hn hget.symm
        rw [← hi, List.getElem?_append_left (by omega)]

end ModelTable

open ModelTable (ofRows ofRows_names ofRows_index ofRows_concat)

/-! ### The file -/

/-- A line of the file. -/
def line (name : Bytes) : Bytes := name ++ [10]

/-- A scanner's token: the line without one carriage return at its end. -/
def dropCR (l : Bytes) : Bytes := if l.getLast? = some 13 then l.dropLast else l

/-- `strings.TrimRight` of carriage returns. -/
def trimCR (l : Bytes) : Bytes := (l.reverse.dropWhile (· = 13)).reverse

/-- The scanner's lines, with the part of a line that was read so far. A line that fills the buffer
is an error. -/
def scanLines (cur : Bytes) : Bytes → Option (List Bytes)
  | [] => if cur = [] then some [] else some [dropCR cur]
  | b :: rest =>
    if b = 10 then (scanLines [] rest).map (dropCR cur :: ·)
    else if cur.length + 1 < 65536 then scanLines (cur ++ [b]) rest
    else none

/-- `openModelTable`: a last line without its newline is cut off the file. -/
def openModelTable (raw : Bytes) : Bytes × Option ModelTable :=
  let complete := (raw.reverse.dropWhile (· ≠ 10)).reverse
  (complete, (scanLines [] complete).map fun lines => ofRows (lines.map trimCR))

/-- A name that a line can hold. -/
structure ValidName (name : Bytes) : Prop where
  newline : 10 ∉ name
  cr : name.getLast? ≠ some 13
  short : name.length < 65536

instance (name : Bytes) : Decidable (ValidName name) :=
  decidable_of_iff (10 ∉ name ∧ name.getLast? ≠ some 13 ∧ name.length < 65536)
    ⟨fun h => ⟨h.1, h.2.1, h.2.2⟩, fun h => ⟨h.newline, h.cr, h.short⟩⟩

theorem ValidName.dropCR {name : Bytes} (h : ValidName name) : dropCR name = name := if_neg h.cr

theorem ValidName.trimCR {name : Bytes} (h : ValidName name) : trimCR name = name := by
  have hcr := h.cr
  unfold Energy.trimCR
  cases hrev : name.reverse with
  | nil => rw [dropWhile_nil, ← hrev, reverse_reverse]
  | cons b rest =>
    have hlast : name.getLast? = some b := by
      rw [List.getLast?_eq_head?_reverse, hrev]
      rfl
    have hb : b ≠ 13 := by
      intro heq
      rw [hlast, heq] at hcr
      exact hcr rfl
    rw [dropWhile_cons_of_neg (by simpa using hb), ← hrev, reverse_reverse]

theorem scanLines_line (cur : Bytes) {name : Bytes} (hnewline : 10 ∉ name)
    (hshort : cur.length + name.length < 65536) (rest : Bytes) :
    scanLines cur (line name ++ rest) = (scanLines [] rest).map (dropCR (cur ++ name) :: ·) := by
  induction name generalizing cur with
  | nil => simp [line, scanLines]
  | cons b name ih =>
    rw [mem_cons, not_or] at hnewline
    rw [length_cons] at hshort
    rw [line, cons_append, cons_append, scanLines, if_neg (Ne.symm hnewline.1),
      if_pos (by omega)]
    have hrest := ih (cur ++ [b]) hnewline.2 (by simp; omega)
    rw [line, append_assoc cur [b] name] at hrest
    exact hrest

variable {names : List Bytes}

/-- What was written is read back. -/
theorem scanLines_lines (h : ∀ n ∈ names, ValidName n) :
    scanLines [] (names.flatMap line) = some names := by
  induction names with
  | nil => rfl
  | cons n names ih =>
    rw [forall_mem_cons] at h
    rw [flatMap_cons, scanLines_line [] h.1.newline (by simpa using h.1.short), ih h.2,
      nil_append, h.1.dropCR]
    rfl

/-- Lines end in a newline. -/
theorem dropWhile_reverse_lines (names : List Bytes) :
    (names.flatMap line).reverse.dropWhile (fun b => decide (b ≠ 10)) =
      (names.flatMap line).reverse := by
  cases names using List.reverseRecOn with
  | nil => rfl
  | append_singleton names n => simp [line]

/-- **An open reads the names back** and drops a part of a line. -/
theorem openModelTable_lines (h : ∀ n ∈ names, ValidName n) {frag : Bytes} (hfrag : 10 ∉ frag) :
    openModelTable (names.flatMap line ++ frag) =
      (names.flatMap line, some (ofRows names)) := by
  have hcomplete : ((names.flatMap line ++ frag).reverse.dropWhile
      (fun b => decide (b ≠ 10))).reverse = names.flatMap line := by
    rw [reverse_append, dropWhile_append_of_pos, dropWhile_reverse_lines,
      reverse_reverse]
    intro b hb
    rw [mem_reverse] at hb
    rw [decide_eq_true_eq]
    intro heq
    exact hfrag (heq ▸ hb)
  have htrim : names.map trimCR = names := by
    rw [map_congr_left fun n hn => (h n hn).trimCR, map_id']
  simp only [openModelTable, hcomplete, scanLines_lines h, Option.map_some, htrim]

/-! ### Appends -/

/-- How an append ends: on disk, cut back, or in a crash with so many bytes of it in the file. -/
inductive Append where
  | written
  | failed
  | crashed (bytes : Nat)

/-- Why a call gives no index. -/
inductive Stop where
  | failed
  | crashed
  deriving DecidableEq

/-- `append`, and the row that the table gets for it. -/
def putRow (file : Bytes) (t : ModelTable) (name : Bytes) :
    Append → Bytes × ModelTable × Except Stop Unit
  | .written => (file ++ line name, t.add name, .ok ())
  | .failed => (file, t, .error .failed)
  | .crashed bytes => (file ++ (line name).take bytes, t, .error .crashed)

/-- The row that keeps index 0 for no name. -/
def reserveRow (file : Bytes) (t : ModelTable) (reserve : Append) :
    Bytes × ModelTable × Except Stop Unit :=
  if t.names = [] then putRow file t [] reserve else (file, t, .ok ())

/-- `Index`: the index of a name, with a new row if it has none. -/
def index (file : Bytes) (t : ModelTable) (name : Bytes) (reserve row : Append) :
    Bytes × ModelTable × Except Stop Nat :=
  if name = [] then (file, t, .ok 0)
  else
    match t.index name with
    | some idx => (file, t, .ok idx)
    | none =>
      match reserveRow file t reserve with
      | (file, t, .error e) => (file, t, .error e)
      | (file, t, .ok ()) =>
        if 65535 ≤ t.names.length then (file, t, .error .failed)
        else
          match putRow file t name row with
          | (file, t', .error e) => (file, t', .error e)
          | (file, t', .ok ()) => (file, t', .ok (t.names.length % 2 ^ 16))

/-- Rows of a table: the first is no name's, and no name has two. -/
structure Rows (names : List Bytes) : Prop where
  head : names ≠ [] → names[0]? = some []
  nodup : names.Nodup
  valid : ∀ n ∈ names, ValidName n
  length : names.length ≤ 65535

theorem rows_nil : Rows [] :=
  ⟨fun h => absurd rfl h, nodup_nil, by simp, by simp⟩

variable {n file : Bytes} {α : Type} {t : ModelTable} {r : Except Stop α} {p : Bytes × Nat}
  {s : TableSys}

theorem Rows.concat (h : Rows names) (hn : n ∉ names) (hvalid : ValidName n)
    (hlen : names.length < 65535) (hhead : names = [] → n = []) :
    Rows (names ++ [n]) where
  head _ := by
    by_cases hnil : names = []
    · simp [hnil, hhead hnil]
    · rw [List.getElem?_append_left (length_pos_iff.2 hnil), h.head hnil]
  nodup := by
    rw [nodup_append]
    refine ⟨h.nodup, nodup_singleton n, ?_⟩
    intro a ha b hb heq
    rw [mem_singleton] at hb
    exact hn (hb ▸ heq ▸ ha)
  valid := by
    intro m hm
    rw [mem_append, mem_singleton] at hm
    obtain hm | rfl := hm
    · exact h.valid m hm
    · exact hvalid
  length := by
    rw [length_append, length_singleton]
    omega

/-- What a call leaves: the lines of some names, after a crash with a part of a line behind them. -/
structure Leaves {α : Type} (names : List Bytes) (out : Bytes × ModelTable × Except Stop α) :
    Prop where
  rows : Rows names
  file : ∃ frag, 10 ∉ frag ∧ out.1 = names.flatMap line ++ frag ∧
    (out.2.2 ≠ .error .crashed → frag = [])
  table : out.2.2 ≠ .error .crashed → out.2.1 = ofRows names

/-- What a call leaves does not depend on what it returns, but for the crash. -/
theorem Leaves.congr {β : Type} {r' : Except Stop β} (h : Leaves names (file, t, r))
    (hr : r' ≠ .error .crashed → r ≠ .error .crashed) : Leaves names (file, t, r') := by
  obtain ⟨frag, hfrag, hfile, hnil⟩ := h.file
  exact ⟨h.rows, ⟨frag, hfrag, hfile, fun hne => hnil (hr hne)⟩, fun hne => h.table (hr hne)⟩

theorem Rows.leaves (h : Rows names) (r : Except Stop α) :
    Leaves names (names.flatMap line, ofRows names, r) :=
  ⟨h, ⟨[], by simp, by simp, fun _ => rfl⟩, fun _ => rfl⟩

/-- What is in the file of an append that a crash cut short. -/
theorem take_line {name : Bytes} (hname : 10 ∉ name) (bytes : Nat) :
    10 ∉ (line name).take bytes ∨ (line name).take bytes = line name := by
  by_cases h : bytes ≤ name.length
  · left
    rw [line, take_append_of_le_length h]
    exact fun hmem => hname (mem_of_mem_take hmem)
  · right
    refine take_of_length_le ?_
    rw [line, length_append, length_singleton]
    omega

/-- **One append**: the row is there, or the call stops and the names have grown by it or not. -/
theorem putRow_cases (h : Rows names) (hrows : Rows (names ++ [n])) (a : Append) :
    putRow (names.flatMap line) (ofRows names) n a =
        ((names ++ [n]).flatMap line, ofRows (names ++ [n]), .ok ()) ∨
      ∃ names' file t e, names <+: names' ∧
        putRow (names.flatMap line) (ofRows names) n a = (file, t, .error e) ∧
        Leaves names' ((file, t, .error e) : Bytes × ModelTable × Except Stop Unit) := by
  have hlines : (names ++ [n]).flatMap line = names.flatMap line ++ line n := by simp
  cases a with
  | written =>
    left
    rw [putRow, hlines, ofRows_concat]
  | failed => exact .inr ⟨names, _, _, _, prefix_rfl, rfl, h.leaves _⟩
  | crashed bytes =>
    right
    have hnewline := (hrows.valid n (by simp)).newline
    obtain hpart | hwhole := take_line hnewline bytes
    · exact ⟨names, _, _, _, prefix_rfl, rfl, h, ⟨_, hpart, rfl, fun hne => absurd rfl hne⟩,
        fun hne => absurd rfl hne⟩
    · -- the whole line is in the file, and nobody was told
      refine ⟨names ++ [n], _, _, _, prefix_append _ _, rfl, hrows,
        ⟨[], by simp, ?_, fun _ => rfl⟩, fun hne => absurd rfl hne⟩
      rw [hwhole, hlines, append_nil]

theorem validName_nil : ValidName [] := ⟨by simp, by simp, by simp⟩

/-- **The reserved row**: it is there, or the call stops. -/
theorem reserveRow_cases (h : Rows names) (reserve : Append) :
    (∃ names', names <+: names' ∧ names' ≠ [] ∧ Rows names' ∧ (∀ n ∈ names', n = [] ∨ n ∈ names) ∧
      reserveRow (names.flatMap line) (ofRows names) reserve =
        (names'.flatMap line, ofRows names', .ok ())) ∨
    ∃ names' file t e, names <+: names' ∧
      reserveRow (names.flatMap line) (ofRows names) reserve = (file, t, .error e) ∧
      Leaves names' ((file, t, .error e) : Bytes × ModelTable × Except Stop Unit) := by
  unfold reserveRow
  rw [ofRows_names]
  by_cases hempty : names = []
  · rw [if_pos hempty]
    have hrows : Rows (names ++ [[]]) :=
      h.concat (by simp [hempty]) validName_nil (by simp [hempty]) fun _ => rfl
    obtain hput | hstop := putRow_cases h hrows reserve
    · left
      refine ⟨names ++ [[]], prefix_append _ _, by simp, hrows, ?_, hput⟩
      intro n hn
      rw [mem_append, mem_singleton] at hn
      exact hn.symm
    · exact .inr hstop
  · rw [if_neg hempty]
    exact .inl ⟨names, prefix_rfl, hempty, h, fun n hn => .inr hn, rfl⟩

/-- **One call**: the names grow, and the index is that of the name's row. -/
theorem index_leaves (h : Rows names) {name : Bytes} (hname : ValidName name)
    (reserve row : Append) :
    ∃ names', names <+: names' ∧
      Leaves names' (index (names.flatMap line) (ofRows names) name reserve row) ∧
      ∀ i, (index (names.flatMap line) (ofRows names) name reserve row).2.2 = .ok i →
        (name = [] ∧ i = 0) ∨ (name ≠ [] ∧ names'[i]? = some name) := by
  unfold index
  by_cases hnil : name = []
  · rw [if_pos hnil]
    refine ⟨names, prefix_rfl, h.leaves _, ?_⟩
    intro i hi
    exact .inl ⟨hnil, (Except.ok.inj hi).symm⟩
  rw [if_neg hnil]
  cases hidx : (ofRows names).index name with
  | some idx =>
    refine ⟨names, prefix_rfl, h.leaves _, ?_⟩
    intro i hi
    obtain rfl := Except.ok.inj hi
    exact .inr ⟨hnil, (ofRows_index h.nodup h.length).1 hidx⟩
  | none =>
    have hnew : name ∉ names := by
      intro hmem
      obtain ⟨i, hi⟩ := mem_iff_getElem?.1 hmem
      rw [(ofRows_index h.nodup h.length).2 hi] at hidx
      cases hidx
    obtain ⟨names₁, hpre, hne, hrows, hsame, hres⟩ | ⟨names₁, file, t, e, hpre, hres, hleaves⟩ :=
      reserveRow_cases h reserve
    · simp only [hres, ofRows_names]
      by_cases hfull : 65535 ≤ names₁.length
      · rw [if_pos hfull]
        exact ⟨names₁, hpre, hrows.leaves _, by simp⟩
      rw [if_neg hfull]
      have hnew₁ : name ∉ names₁ := fun hmem => (hsame name hmem).elim hnil hnew
      have hrows₂ : Rows (names₁ ++ [name]) :=
        hrows.concat hnew₁ hname (by omega) fun h => absurd h hne
      obtain hput | ⟨names₂, file, t, e, hpre₂, hput, hleaves⟩ := putRow_cases hrows hrows₂ row
      · simp only [hput]
        refine ⟨names₁ ++ [name], hpre.trans (prefix_append _ _), hrows₂.leaves _, ?_⟩
        intro i hi
        obtain rfl := Except.ok.inj hi
        rw [Nat.mod_eq_of_lt (by omega), List.getElem?_concat_length]
        exact .inr ⟨hnil, rfl⟩
      · simp only [hput]
        exact ⟨names₂, hpre.trans hpre₂, hleaves.congr (by simp), by simp⟩
    · simp only [hres]
      exact ⟨names₁, hpre, hleaves.congr (by simp), by simp⟩

/-! ### Runs -/

/-- The file, the table of the process if one is up, and the indices handed out so far. -/
structure TableSys where
  file : Bytes
  up : Option ModelTable
  given : List (Bytes × Nat)

/-- A call with the ends of its appends, a stop between calls, and an open. -/
inductive TableAct where
  | index (name : Bytes) (reserve row : Append)
  | stop
  | reopen

namespace TableSys

/-- No file, and no process. -/
def init : TableSys := ⟨[], none, []⟩

def step (s : TableSys) : TableAct → Option TableSys
  | .index name reserve row =>
    match s.up with
    | none => none
    | some t =>
      match Energy.index s.file t name reserve row with
      | (file, t, .ok i) => some ⟨file, some t, s.given ++ [(name, i)]⟩
      | (file, t, .error .failed) => some ⟨file, some t, s.given⟩
      | (file, _, .error .crashed) => some ⟨file, none, s.given⟩
  | .stop => some { s with up := none }
  | .reopen => some ⟨(openModelTable s.file).1, (openModelTable s.file).2, s.given⟩

end TableSys

/-- A name handed out has its index's row; the empty name has index 0. -/
def GivenIn (names : List Bytes) (p : Bytes × Nat) : Prop :=
  (p.1 = [] ∧ p.2 = 0) ∨ (p.1 ≠ [] ∧ names[p.2]? = some p.1)

theorem GivenIn.mono {names' : List Bytes} (hpre : names <+: names') (h : GivenIn names p) :
    GivenIn names' p := by
  obtain ⟨more, rfl⟩ := hpre
  obtain hzero | ⟨hne, hrow⟩ := h
  · exact .inl hzero
  · refine .inr ⟨hne, ?_⟩
    rw [List.getElem?_append_left (List.getElem?_eq_some_iff.1 hrow).1, hrow]

/-- **The invariant**: the file is the rows and a part of a line, which is not there while a process
is up, and what was handed out is in the rows. -/
structure TableInv (names : List Bytes) (s : TableSys) : Prop where
  rows : Rows names
  file : ∃ frag, 10 ∉ frag ∧ s.file = names.flatMap line ++ frag ∧ (s.up ≠ none → frag = [])
  up : ∀ t, s.up = some t → t = ofRows names
  given : ∀ p ∈ s.given, GivenIn names p

/-- What a call leaves, with its table up or, after a crash, with none. -/
theorem Leaves.inv (h : Leaves names (file, t, r)) {up : Option ModelTable}
    {given : List (Bytes × Nat)} (hup : up = none ∨ up = some t ∧ r ≠ .error .crashed)
    (hgiven : ∀ p ∈ given, GivenIn names p) : TableInv names ⟨file, up, given⟩ := by
  obtain ⟨frag, hfrag, hfile, hnil⟩ := h.file
  obtain rfl | ⟨rfl, hr⟩ := hup
  · exact ⟨h.rows, ⟨frag, hfrag, hfile, fun hne => absurd rfl hne⟩, by simp, hgiven⟩
  · refine ⟨h.rows, ⟨frag, hfrag, hfile, fun _ => hnil hr⟩, ?_, hgiven⟩
    intro t' ht'
    rw [← Option.some.inj ht']
    exact h.table hr

/-- The calls are made with names that a line can hold. -/
def TableAct.Valid : TableAct → Prop
  | .index name _ _ => ValidName name
  | .stop => True
  | .reopen => True

instance : DecidablePred TableAct.Valid
  | .index name _ _ => inferInstanceAs (Decidable (ValidName name))
  | .stop => isTrue trivial
  | .reopen => isTrue trivial

/-- **Step lemma.** -/
theorem TableInv.step {s' : TableSys} (h : TableInv names s) {a : TableAct} (ha : a.Valid)
    (hstep : s.step a = some s') : ∃ names', TableInv names' s' := by
  obtain ⟨frag, hfrag, hfile, hnil⟩ := h.file
  cases a with
  | stop =>
    obtain rfl := Option.some.inj hstep
    exact ⟨names, h.rows, ⟨frag, hfrag, hfile, fun hne => absurd rfl hne⟩, by simp, h.given⟩
  | reopen =>
    obtain rfl := Option.some.inj hstep
    rw [hfile, openModelTable_lines h.rows.valid hfrag]
    refine ⟨names, h.rows, ⟨[], by simp, by simp, fun _ => rfl⟩, ?_, h.given⟩
    intro t ht
    exact (Option.some.inj ht).symm
  | index name reserve row =>
    cases hup : s.up with
    | none => simp [TableSys.step, hup] at hstep
    | some t =>
      obtain rfl := h.up t hup
      rw [hnil (by simp [hup]), append_nil] at hfile
      obtain ⟨names', hpre, hleaves, hok⟩ := index_leaves h.rows ha reserve row
      simp only [TableSys.step, hup, hfile] at hstep
      rcases hindex : index (names.flatMap line) (ofRows names) name reserve row with
        ⟨file, t, r⟩
      rw [hindex] at hleaves hok
      simp only [hindex] at hstep
      have hgiven : ∀ p ∈ s.given, GivenIn names' p := fun p hp => (h.given p hp).mono hpre
      cases r with
      | ok i =>
        obtain rfl := Option.some.inj hstep
        refine ⟨names', hleaves.inv (.inr ⟨rfl, by simp⟩) ?_⟩
        rw [forall_mem_append, forall_mem_singleton]
        exact ⟨hgiven, hok i rfl⟩
      | error e =>
        cases e with
        | failed =>
          obtain rfl := Option.some.inj hstep
          exact ⟨names', hleaves.inv (.inr ⟨rfl, by simp⟩) hgiven⟩
        | crashed =>
          obtain rfl := Option.some.inj hstep
          exact ⟨names', hleaves.inv (.inl rfl) hgiven⟩

/-- **Run lemma.** -/
theorem tableInv_run {acts : List TableAct} (h : ∀ a ∈ acts, a.Valid)
    (hrun : run TableSys.step .init acts = some s) : ∃ names, TableInv names s := by
  refine run_invariant TableSys.step (I := fun s => ∃ names, TableInv names s) ?_ ?_
    (runMeets_of_forall TableSys.step .init h) hrun
  · intro s a s' hI ha hstep
    obtain ⟨names, hinv⟩ := hI
    exact hinv.step ha hstep
  · exact ⟨[], rows_nil, ⟨[], by simp, rfl, fun _ => rfl⟩, by simp [TableSys.init],
      by simp [TableSys.init]⟩

/-- The table with the rows resolves what was handed out. -/
theorem GivenIn.name (hrows : Rows names) (h : GivenIn names p) :
    (ofRows names).name p.2 = p.1 := by
  rw [ModelTable.name, ofRows_names]
  obtain ⟨hname, hzero⟩ | ⟨-, hrow⟩ := h
  · rw [hname, hzero]
    by_cases hnil : names = []
    · rw [hnil]
      rfl
    · rw [hrows.head hnil]
      rfl
  · rw [hrow]
    rfl

/-- A name has one index. -/
theorem GivenIn.index_eq {q : Bytes × Nat} (hp : GivenIn names p) (hq : GivenIn names q)
    (hnodup : names.Nodup) (heq : p.1 = q.1) : p.2 = q.2 := by
  obtain ⟨hpn, hp0⟩ | ⟨hpne, hprow⟩ := hp <;> obtain ⟨hqn, hq0⟩ | ⟨hqne, hqrow⟩ := hq
  · rw [hp0, hq0]
  · exact absurd (heq ▸ hpn) hqne
  · exact absurd (heq ▸ hqn) hpne
  · rw [← heq] at hqrow
    exact (List.getElem?_inj (List.getElem?_eq_some_iff.1 hprow).1 hnodup).1
      (hprow.trans hqrow.symm)

/-- **Indices are stable**: in every state of every run an index that was handed out resolves to its
name, in the table of the process that is up and in that of the next open, which succeeds; names
with one index are the same, a name has one index, and index 0 is no name's. -/
theorem indices_stable {acts : List TableAct} (h : ∀ a ∈ acts, a.Valid) {s : TableSys}
    (hrun : run TableSys.step .init acts = some s) :
    (∀ t, s.up = some t → ∀ p ∈ s.given, t.name p.2 = p.1) ∧
      (∃ t, (openModelTable s.file).2 = some t ∧ ∀ p ∈ s.given, t.name p.2 = p.1) ∧
      (∀ p ∈ s.given, ∀ q ∈ s.given, p.1 = q.1 ↔ p.2 = q.2) ∧
      ∀ p ∈ s.given, p.1 ≠ [] → p.2 ≠ 0 := by
  obtain ⟨names, hinv⟩ := tableInv_run h hrun
  obtain ⟨frag, hfrag, hfile, -⟩ := hinv.file
  have hname : ∀ p ∈ s.given, (ofRows names).name p.2 = p.1 := fun p hp =>
    (hinv.given p hp).name hinv.rows
  have hzero : ∀ p ∈ s.given, p.1 ≠ [] → p.2 ≠ 0 := by
    intro p hp hne hp0
    obtain ⟨hnil, -⟩ | ⟨-, hrow⟩ := hinv.given p hp
    · exact hne hnil
    · have hnames : names ≠ [] := by
        intro hnil
        rw [hnil] at hrow
        cases hrow
      rw [hp0, hinv.rows.head hnames] at hrow
      exact hne (Option.some.inj hrow).symm
  refine ⟨?_, ?_, ?_, hzero⟩
  · intro t ht
    rw [hinv.up t ht]
    exact hname
  · refine ⟨ofRows names, ?_, hname⟩
    rw [hfile, openModelTable_lines hinv.rows.valid hfrag]
  · intro p hp q hq
    constructor
    · exact fun heq => (hinv.given p hp).index_eq (hinv.given q hq) hinv.rows.nodup heq
    · intro heq
      rw [← hname p hp, ← hname q hq, heq]

/-- A name, an append that fails, one that a crash cuts short, and after the open another name. -/
def torn : List TableAct :=
  [.reopen, .index [97] .written .written, .index [98, 98] .written .failed,
    .index [98, 98] .written (.crashed 1), .reopen, .index [99] .written .written]

theorem indices_stable_torn :
    ∃ s, run TableSys.step .init torn = some s ∧ s.given = [([97], 1), ([99], 2)] ∧
      ∃ t, (openModelTable s.file).2 = some t ∧ ∀ p ∈ s.given, t.name p.2 = p.1 := by
  have hvalid : ∀ a ∈ torn, a.Valid := by decide
  exact ⟨_, rfl, rfl, (indices_stable hvalid rfl).2.1⟩

end Viiwork.Energy

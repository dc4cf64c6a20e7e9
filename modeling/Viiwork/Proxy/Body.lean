import Viiwork.Lib.Json

/-!
# Viiwork.Proxy.Body

The model of a request body (`extractModelFast` of `body.go`) and the decoder it stands in for
(`Decode` of `dialect_openai.go`).

The fast path stops at the first `model` key, and takes from the absence of byte patterns that no
later key says otherwise. That holds for the keys as they are written, and not for another spelling
of a key: the decoder matches names without regard to case.
-/

namespace Viiwork.Proxy

open Viiwork.Lib List Json

/-! ### The decoder -/

/-- The fields that are decoded. -/
inductive Field
  | model | think | task
  deriving Repr, DecidableEq

def Field.name : Field → Bytes
  | model => ascii "model"
  | think => ascii "think"
  | task => ascii "task"

/-- The field that a key is for: the one of this name, else the one of this name but for case. -/
def fieldOf (key : Bytes) : Option Field :=
  ([.model, .think, .task].find? fun f : Field => f.name = key).or
    ([.model, .think, .task].find? fun f : Field => foldName f.name = foldName key)

structure Fields where
  model : Bytes := []
  think : Option Bool := none
  task : Bytes := []
  deriving Repr, DecidableEq

/-- A value into a string: anything but a string leaves it as it is. -/
def stringOf : Json → Option Bytes
  | .str raw => some (unquote raw)
  | _ => none

/-- A value into a `*bool`: a value of another type is an error, but the pointer is set by then. -/
def boolInto (old : Option Bool) : Json → Option Bool
  | .null => none
  | .bool b => some b
  | _ => some (old.getD false)

def Fields.set (f : Fields) (m : Bytes × Json) : Fields :=
  match fieldOf (unquote m.1) with
  | some .model => { f with model := (stringOf m.2).getD f.model }
  | some .think => { f with think := boolInto f.think m.2 }
  | some .task => { f with task := (stringOf m.2).getD f.task }
  | none => f

/-- `json.Unmarshal` of an object: the members in order. An error for one of them does not keep
the others from being decoded. -/
def Fields.decode (ms : List (Bytes × Json)) : Fields := ms.foldl Fields.set {}

/-! ### The fast path -/

/-- A value that `Token` returns whole; a number as far as it fits a `float64`. -/
def isScalar (fits : Bytes → Bool) : Token → Bool
  | .str _ => true
  | .num raw => fits raw
  | .bool _ => true
  | .null => true
  | _ => false

/-- A token that is a string. -/
def stringToken : Token → Option Bytes
  | .str raw => some (unquote raw)
  | _ => none

/-- The scan of the members, from a key on. -/
def scanModel (fits : Bytes → Bool) : List Token → Option Bytes
  | .str k :: .colon :: v :: rest =>
    if unquote k = Field.think.name ∨ unquote k = Field.task.name then none
    else if isScalar fits v = false then none
    else if unquote k = Field.model.name then stringToken v
    else match rest with
      | .comma :: rest => scanModel fits rest
      | _ => none
  | _ => none

/-- A quoted key. -/
def keyJSON (f : Field) : Bytes := (Token.str f.name).bytes

def escapePrefix : Bytes := [92, 117]

def extractModelFast (fits : Bytes → Bool) (body : Bytes) : Option Bytes :=
  if keyJSON .think <:+: body ∨ keyJSON .task <:+: body then none
  else if escapePrefix <:+: body then none
  else if count (keyJSON .model) body ≠ 1 then none
  else match (tokens body).1 with
    | .lbrace :: rest => scanModel fits rest
    | _ => none

/-- `Decode`, as far as it reads the body: the fast path, else the decoder. -/
def decode (fits : Bytes → Bool) (body : Bytes) : Fields :=
  match extractModelFast fits body with
  | some m => { model := m }
  | none =>
    match parse body with
    | some (.obj ms) => Fields.decode ms
    | _ => {}

example : decode (fun _ => true) (ascii "\x7b\"model\": \"m\", \"messages\": []\x7d") =
    { model := ascii "m" } := by decide +kernel

/-! ### Other spellings -/

/-- The key spells the name of the field in another way. -/
def otherSpelling (f : Field) (key : Bytes) : Bool :=
  unquote key ≠ f.name && foldName (unquote key) = foldName f.name

/-- The strings that members under another spelling of the field have. -/
def strayStrings (f : Field) (ms : List (Bytes × Json)) : List Bytes :=
  ms.filterMap fun m => if otherSpelling f m.1 then stringOf m.2 else none

/-- The members after the `model` key. -/
def afterModel (ms : List (Bytes × Json)) : List (Bytes × Json) :=
  (ms.dropWhile fun m => unquote m.1 ≠ Field.model.name).tail

def isNull : Json → Bool
  | .null => true
  | _ => false

/-- **Undisturbed.** Members under another spelling of a field have no effect: after the `model`
key, the last string for `model` is the same model; the last value for `think` is null; the last
string for `task` is empty. -/
def Undisturbed (ms : List (Bytes × Json)) (m : Bytes) : Prop :=
  (∀ s ∈ (strayStrings .model (afterModel ms)).getLast?, s = m) ∧
  (∀ x ∈ (ms.filter fun x => otherSpelling .think x.1).getLast?, isNull x.2 = true) ∧
  (∀ s ∈ (strayStrings .task ms).getLast?, s = [])

/-! ### What is decoded -/

variable {f : Field} {v : Json} {fits : Bytes → Bool} {k m body : Bytes} {ms : List (Bytes × Json)}
  {x : Bytes × Json}

theorem Field.eq_of_foldName {g : Field} (h : foldName f.name = foldName g.name) : f = g := by
  revert h
  cases f <;> cases g <;> decide

theorem fieldOf_eq_some_iff {key : Bytes} :
    fieldOf key = some f ↔ foldName key = foldName f.name := by
  have hmem : f ∈ [Field.model, .think, .task] := by cases f <;> simp
  unfold fieldOf
  constructor
  · intro h
    rcases Option.or_eq_some_iff.1 h with h | ⟨-, h⟩
    · have hname := find?_some h
      rw [decide_eq_true_eq] at hname
      rw [hname]
    · have hname := find?_some h
      rw [decide_eq_true_eq] at hname
      exact hname.symm
  · intro h
    cases hexact : [Field.model, .think, .task].find? fun f : Field => f.name = key with
    | some g =>
      have hname := find?_some hexact
      rw [decide_eq_true_eq] at hname
      rw [Option.some_or, Field.eq_of_foldName (f := g) (g := f) (by rw [hname, h])]
    | none =>
      rw [Option.none_or]
      cases hfold : [Field.model, .think, .task].find?
          fun f : Field => foldName f.name = foldName key with
      | some g =>
        have hname := find?_some hfold
        rw [decide_eq_true_eq] at hname
        rw [Field.eq_of_foldName (f := g) (g := f) (by rw [hname, h])]
      | none =>
        have hno := find?_eq_none.1 hfold f hmem
        rw [decide_eq_true_eq] at hno
        exact absurd h.symm hno

/-- The last value that is given, if one is. -/
theorem foldl_getD {α β : Type} (f : α → Option β) (xs : List α) (b : β) :
    xs.foldl (fun b x => (f x).getD b) b = (xs.filterMap f).getLast?.getD b := by
  induction xs using reverseRecOn with
  | nil => rfl
  | append_singleton xs x ih =>
    rw [foldl_append, filterMap_append, ih]
    cases hx : f x <;> simp [hx]

/-- The strings for a field, under any spelling. -/
def strings (f : Field) (ms : List (Bytes × Json)) : List Bytes :=
  ms.filterMap fun m => if fieldOf (unquote m.1) = some f then stringOf m.2 else none

/-- A field that takes strings ends with the last one it is given. -/
theorem decode_string (get : Fields → Bytes) (ms : List (Bytes × Json))
    (hset : ∀ (g : Fields) (m : Bytes × Json), get (g.set m) =
      (if fieldOf (unquote m.1) = some f then stringOf m.2 else none).getD (get g)) :
    get (Fields.decode ms) = (strings f ms).getLast?.getD (get {}) := by
  have hfold : ∀ g : Fields, get (ms.foldl Fields.set g) = ms.foldl (fun s m =>
      (if fieldOf (unquote m.1) = some f then stringOf m.2 else none).getD s) (get g) := by
    induction ms with
    | nil => exact fun _ => rfl
    | cons m ms ih =>
      intro g
      rw [foldl_cons, foldl_cons, ih, hset]
  rw [Fields.decode, hfold, foldl_getD]
  rfl

theorem decode_model (ms : List (Bytes × Json)) :
    (Fields.decode ms).model = (strings .model ms).getLast?.getD [] := by
  refine decode_string Fields.model ms fun g m => ?_
  unfold Fields.set
  split <;> rename_i hfield <;> rw [hfield] <;> rfl

theorem decode_task (ms : List (Bytes × Json)) :
    (Fields.decode ms).task = (strings .task ms).getLast?.getD [] := by
  refine decode_string Fields.task ms fun g m => ?_
  unfold Fields.set
  split <;> rename_i hfield <;> rw [hfield] <;> rfl

theorem boolInto_eq_none_iff {old : Option Bool} : boolInto old v = none ↔ isNull v = true := by
  cases v <;> simp [boolInto, isNull]

theorem decode_think_eq_none_iff (ms : List (Bytes × Json)) :
    (Fields.decode ms).think = none ↔
      ∀ x ∈ (ms.filter fun x => fieldOf (unquote x.1) = some .think).getLast?,
        isNull x.2 = true := by
  induction ms using reverseRecOn with
  | nil => simp [Fields.decode]
  | append_singleton ms x ih =>
    have hstep : Fields.decode (ms ++ [x]) = (Fields.decode ms).set x := by
      rw [Fields.decode, foldl_append]
      rfl
    rw [hstep, filter_append]
    by_cases hfield : fieldOf (unquote x.1) = some .think
    · have hset : ((Fields.decode ms).set x).think = boolInto (Fields.decode ms).think x.2 := by
        rw [Fields.set, hfield]
      rw [hset, boolInto_eq_none_iff]
      simp [hfield]
    · have hset : ((Fields.decode ms).set x).think = (Fields.decode ms).think := by
        unfold Fields.set
        split <;> first | rfl | exact absurd ‹_› hfield
      rw [hset, ih]
      simp [hfield]

/-! ### What the scan finds -/

/-- The scan of a member whose value begins with the token `t`: it has the model, or the scan goes
on after a comma. -/
theorem scanModel_cons {t : Token} {rest : List Token}
    (h : scanModel fits (.str k :: .colon :: t :: rest) = some m) :
    isScalar fits t = true ∧
      ((unquote k = Field.model.name ∧ ∃ raw, t = .str raw ∧ m = unquote raw) ∨
      (unquote k ≠ Field.model.name ∧ ∃ rest', rest = .comma :: rest' ∧
        scanModel fits rest' = some m)) := by
  unfold scanModel at h
  split_ifs at h with hname hscalar hmodel
  · refine ⟨Bool.not_eq_false _ ▸ hscalar, .inl ⟨hmodel, ?_⟩⟩
    unfold stringToken at h
    split at h
    · cases h
      exact ⟨_, rfl, rfl⟩
    · cases h
  · refine ⟨Bool.not_eq_false _ ▸ hscalar, .inr ⟨hmodel, ?_⟩⟩
    split at h
    · exact ⟨_, rfl, h⟩
    · cases h

/-- The same of a member of the document, whose value must be a scalar. -/
theorem scanModel_member {rest : List Token}
    (h : scanModel fits (member (k, v) ++ rest) = some m) :
    (unquote k = Field.model.name ∧ ∃ raw, v = .str raw ∧ m = unquote raw) ∨
    (unquote k ≠ Field.model.name ∧ ∃ rest', rest = .comma :: rest' ∧
      scanModel fits rest' = some m) := by
  cases v with
  | str raw =>
    obtain ⟨-, ⟨hk, raw', heq, hm⟩ | hmore⟩ := scanModel_cons h
    · cases heq
      exact .inl ⟨hk, raw, rfl, hm⟩
    · exact .inr hmore
  | arr vs =>
    cases vs <;>
    · have hscalar := (scanModel_cons h).1
      cases hscalar
  | obj ms =>
    cases ms <;>
    · have hscalar := (scanModel_cons h).1
      cases hscalar
  | _ =>
    obtain ⟨-, ⟨-, raw, heq, -⟩ | hmore⟩ := scanModel_cons h
    · cases heq
    · exact .inr hmore

/-- The scan stops at the first `model` key, and its value is a string. -/
theorem scanModel_eq_some :
    ∀ {n : Bytes × Json},
      scanModel fits (member n ++ (ms.flatMap (fun n => .comma :: member n) ++
        [.rbrace])) = some m →
      ∃ pre k raw post, n :: ms = pre ++ (k, .str raw) :: post ∧
        unquote k = Field.model.name ∧ m = unquote raw ∧
        ∀ x ∈ pre, unquote x.1 ≠ Field.model.name := by
  induction ms with
  | nil =>
    rintro ⟨k, v⟩ h
    rcases scanModel_member h with ⟨hk, raw, rfl, hm⟩ | ⟨-, rest', heq, -⟩
    · exact ⟨[], k, raw, [], rfl, hk, hm, nofun⟩
    · cases heq
  | cons n' ms ih =>
    rintro ⟨k, v⟩ h
    rcases scanModel_member h with ⟨hk, raw, rfl, hm⟩ | ⟨hne, rest', heq, hscan⟩
    · exact ⟨[], k, raw, n' :: ms, rfl, hk, hm, nofun⟩
    · rw [flatMap_cons, cons_append, cons_append, append_assoc] at heq
      obtain ⟨-, rfl⟩ := cons.inj heq
      obtain ⟨pre, k', raw, post, hms, hk, hm, hpre⟩ := ih hscan
      refine ⟨(k, v) :: pre, k', raw, post, ?_, hk, hm, ?_⟩
      · rw [hms]
        rfl
      · intro x hx
        rcases mem_cons.1 hx with rfl | hx
        · exact hne
        · exact hpre x hx

/-! ### Keys and patterns -/

/-- The tokens of an object have its keys, as often as it has them. -/
theorem countP_key_le (k : Bytes) (ms : List (Bytes × Json)) :
    (ms.countP fun m => m.1 = k) ≤ (spell (.obj ms)).count (.str k) := by
  have hmember : ∀ m : Bytes × Json,
      (if m.1 = k then 1 else 0) ≤ (member m).count (.str k) := by
    intro m
    split
    · rename_i hk
      rw [member, hk, count_cons_self]
      omega
    · exact Nat.zero_le _
  have hmore : ∀ ms : List (Bytes × Json), (ms.countP fun m => m.1 = k) ≤
      (ms.flatMap fun m => .comma :: member m).count (.str k) := by
    intro ms
    induction ms with
    | nil => exact le_rfl
    | cons m ms ih =>
      have hm := hmember m
      simp only [countP_cons, flatMap_cons, count_append, count_cons,
        decide_eq_true_eq]
      split_ifs at hm ⊢ <;> omega
  rw [spell_obj]
  cases ms with
  | nil => exact Nat.zero_le _
  | cons m ms =>
    have hm := hmember m
    have hms := hmore ms
    simp only [openedObj, countP_cons, count_append, count_cons,
      decide_eq_true_eq]
    split_ifs at hm ⊢ <;> omega

theorem mem_spell_of_mem {m : Bytes × Json} (h : m ∈ ms) : .str m.1 ∈ spell (.obj ms) := by
  rw [← count_pos_iff]
  refine lt_of_lt_of_le ?_ (countP_key_le m.1 ms)
  exact countP_pos_iff.2 ⟨m, h, decide_eq_true rfl⟩

theorem isName_name (f : Field) : ∀ b ∈ f.name, isName b = true := by
  cases f <;> decide +kernel

/-- Without `\u` in the text, a key for the name of a field is spelled as it. -/
theorem key_eq_name (htokens : (tokens body).1 = spell (.obj ms))
    (hescape : ¬escapePrefix <:+: body) (hx : x ∈ ms) (hkey : unquote x.1 = f.name) :
    x.1 = f.name := by
  have hmem : .str x.1 ∈ (tokens body).1 := htokens ▸ mem_spell_of_mem hx
  have hin : x.1 <:+: body := by
    refine List.IsInfix.trans ⟨[34], [34], rfl⟩ (isInfix_of_mem_tokens hmem)
  exact eq_of_unquote (literal_of_mem_tokens hmem) (fun hu => hescape (hu.trans hin))
    (isName_name f) hkey

/-- A key that the text does not have as bytes is no key of the document. -/
theorem key_ne_name (htokens : (tokens body).1 = spell (.obj ms))
    (hescape : ¬escapePrefix <:+: body) (habsent : ¬keyJSON f <:+: body) (hx : x ∈ ms) :
    unquote x.1 ≠ f.name := by
  intro hkey
  have hmem : .str x.1 ∈ (tokens body).1 := htokens ▸ mem_spell_of_mem hx
  rw [key_eq_name htokens hescape hx hkey] at hmem
  exact habsent (isInfix_of_mem_tokens hmem)

/-- Where the name itself is no key, the members for a field are those under another spelling. -/
theorem fieldOf_iff_otherSpelling (h : unquote x.1 ≠ f.name) :
    fieldOf (unquote x.1) = some f ↔ otherSpelling f x.1 = true := by
  rw [fieldOf_eq_some_iff, otherSpelling, Bool.and_eq_true, decide_eq_true_eq, decide_eq_true_eq]
  exact ⟨fun hfold => ⟨h, hfold⟩, fun hfold => hfold.2⟩

theorem strings_eq_strayStrings (h : ∀ x ∈ ms, unquote x.1 ≠ f.name) :
    strings f ms = strayStrings f ms := by
  refine filterMap_congr fun x hx => ?_
  by_cases hfield : fieldOf (unquote x.1) = some f
  · rw [if_pos hfield, if_pos ((fieldOf_iff_otherSpelling (h x hx)).1 hfield)]
  · rw [if_neg hfield, if_neg fun hother => hfield ((fieldOf_iff_otherSpelling (h x hx)).2 hother)]

/-- What the fast path knows of the members: the first `model` key has the model as a string, there
is no other, and none for the other fields. -/
theorem members_of_fast (hbody : parse body = some (.obj ms))
    (hfast : extractModelFast fits body = some m) :
    (∃ pre k raw post, ms = pre ++ (k, .str raw) :: post ∧ unquote k = Field.model.name ∧
      m = unquote raw ∧ (∀ x ∈ pre, unquote x.1 ≠ Field.model.name) ∧
      ∀ x ∈ post, unquote x.1 ≠ Field.model.name) ∧
    (∀ x ∈ ms, unquote x.1 ≠ Field.think.name) ∧ ∀ x ∈ ms, unquote x.1 ≠ Field.task.name := by
  have htokens : (tokens body).1 = spell (.obj ms) := by
    unfold parse at hbody
    split at hbody
    · exact spell_of_read hbody
    · cases hbody
  unfold extractModelFast at hfast
  split_ifs at hfast with habsent hescape hcount
  obtain ⟨hthink, htask⟩ := not_or.1 habsent
  refine ⟨?_, fun x hx => key_ne_name htokens hescape hthink hx,
    fun x hx => key_ne_name htokens hescape htask hx⟩
  obtain ⟨pre, k, raw, post, rfl, hk, hm, hpre⟩ : ∃ pre k raw post,
      ms = pre ++ (k, .str raw) :: post ∧ unquote k = Field.model.name ∧ m = unquote raw ∧
        ∀ x ∈ pre, unquote x.1 ≠ Field.model.name := by
    rw [htokens, spell_obj] at hfast
    cases ms with
    | nil => cases hfast
    | cons n ms =>
      rw [openedObj, cons_append, append_assoc] at hfast
      exact scanModel_eq_some hfast
  refine ⟨pre, k, raw, post, rfl, hk, hm, hpre, ?_⟩
  -- Another one would be found as bytes once more.
  intro x hx hkey
  have hone := not_not.1 hcount
  have hkeys : 2 ≤ (pre ++ (k, str raw) :: post).countP fun m => m.1 = Field.model.name := by
    have hkey₁ := key_eq_name (f := .model) htokens hescape
      (mem_append_right pre mem_cons_self) hk
    have hkey₂ := key_eq_name (f := .model) htokens hescape
      (mem_append_right pre (mem_cons_of_mem _ hx)) hkey
    have hpost : 0 < post.countP fun m => m.1 = Field.model.name :=
      countP_pos_iff.2 ⟨x, hx, decide_eq_true hkey₂⟩
    rw [countP_append, countP_cons, if_pos (decide_eq_true hkey₁)]
    omega
  have htwo := hkeys.trans (countP_key_le Field.model.name _)
  rw [← htokens] at htwo
  have hcontra := htwo.trans count_tokens_le
  rw [← keyJSON, hone] at hcontra
  omega

/-- The members after the `model` key, when that is the first one. -/
theorem afterModel_eq {pre post : List (Bytes × Json)}
    (hpre : ∀ x ∈ pre, unquote x.1 ≠ Field.model.name) (hk : unquote k = Field.model.name) :
    afterModel (pre ++ (k, v) :: post) = post := by
  unfold afterModel
  rw [dropWhile_append_of_pos fun x hx => decide_eq_true (hpre x hx), dropWhile_cons,
    if_neg (by simp [hk])]
  rfl

/-- **The fast path reads what the decoder reads** exactly when no member under another spelling of
a field disturbs it. -/
theorem extractModelFast_iff {fits : Bytes → Bool} {body m : Bytes} {ms : List (Bytes × Json)}
    (hbody : parse body = some (.obj ms)) (hfast : extractModelFast fits body = some m) :
    Fields.decode ms = { model := m } ↔ Undisturbed ms m := by
  obtain ⟨⟨pre, k, raw, post, rfl, hk, rfl, hpre, hpost⟩, hthink, htask⟩ :=
    members_of_fast hbody hfast
  have hmodel : (Fields.decode (pre ++ (k, .str raw) :: post)).model = unquote raw ↔
      ∀ s ∈ (strayStrings .model (afterModel (pre ++ (k, .str raw) :: post))).getLast?,
        s = unquote raw := by
    have hstrings : strings .model (pre ++ (k, .str raw) :: post) =
        strings .model pre ++ unquote raw :: strayStrings .model post := by
      have hfield : fieldOf (unquote k) = some .model := by
        rw [fieldOf_eq_some_iff, hk]
      rw [← strings_eq_strayStrings hpost]
      simp [strings, hfield, stringOf]
    rw [decode_model, hstrings, afterModel_eq hpre hk]
    cases hlast : (strayStrings .model post).getLast? with
    | none =>
      rw [getLast?_eq_none_iff.1 hlast]
      simp
    | some s =>
      have hne : strayStrings .model post ≠ [] := by
        intro hnil
        rw [hnil] at hlast
        cases hlast
      rw [getLast?_append_of_ne_nil _ (cons_ne_nil _ _), getLast?_cons, hlast]
      simp
  have hthink' : (Fields.decode (pre ++ (k, .str raw) :: post)).think = none ↔
      ∀ x ∈ ((pre ++ (k, .str raw) :: post).filter fun x => otherSpelling .think x.1).getLast?,
        isNull x.2 = true := by
    rw [decode_think_eq_none_iff]
    have hfilter : ((pre ++ (k, .str raw) :: post).filter
        fun x => decide (fieldOf (unquote x.1) = some .think)) =
        (pre ++ (k, .str raw) :: post).filter fun x => otherSpelling .think x.1 := by
      refine filter_congr fun x hx => ?_
      rw [Bool.eq_iff_iff, decide_eq_true_eq]
      exact fieldOf_iff_otherSpelling (hthink x hx)
    rw [hfilter]
  have htask' : (Fields.decode (pre ++ (k, .str raw) :: post)).task = [] ↔
      ∀ s ∈ (strayStrings .task (pre ++ (k, .str raw) :: post)).getLast?, s = [] := by
    rw [decode_task, strings_eq_strayStrings htask]
    cases (strayStrings .task (pre ++ (k, .str raw) :: post)).getLast? <;> simp
  unfold Undisturbed
  rw [← hmodel, ← hthink', ← htask']
  constructor
  · intro h
    rw [h]
    exact ⟨rfl, rfl, rfl⟩
  · rintro ⟨h₁, h₂, h₃⟩
    cases hdecode : Fields.decode (pre ++ (k, .str raw) :: post) with
    | mk model think task =>
      rw [hdecode] at h₁ h₂ h₃
      cases h₁
      cases h₂
      cases h₃
      rfl

/-- A chat request. -/
def chatBody : Bytes := ascii "\x7b\"model\":\"m\",\"messages\":[]\x7d"

theorem extractModelFast_iff_chat :
    extractModelFast (fun _ => true) chatBody = some (ascii "m") ∧
      Fields.decode [(ascii "model", .str (ascii "m")), (ascii "messages", .arr [])] =
        { model := ascii "m" } := by
  have htokens : tokens chatBody = ([.lbrace, .str (ascii "model"), .colon, .str (ascii "m"),
      .comma, .str (ascii "messages"), .colon, .lbracket, .rbracket, .rbrace], true) := by
    decide +kernel
  have hbody : parse chatBody =
      some (.obj [(ascii "model", .str (ascii "m")), (ascii "messages", .arr [])]) := by
    rw [parse, htokens]
    rfl
  have hfast : extractModelFast (fun _ => true) chatBody = some (ascii "m") := by decide +kernel
  refine ⟨hfast, (extractModelFast_iff hbody hfast).2 ⟨?_, ?_, ?_⟩⟩ <;> decide +kernel

/-- The decoder reads `Model` as well. -/
def twoModels : Bytes := ascii "\x7b\"model\":\"a\",\"Model\":\"b\",\"THINK\":true\x7d"

/-- **A key in another case is not seen.** The request is routed to the model `a`, and decoded in
full it asks for `b`, thinking. -/
theorem extractModelFast_disagrees :
    ∃ ms, parse twoModels = some (.obj ms) ∧
      extractModelFast (fun _ => true) twoModels = some (ascii "a") ∧
      Fields.decode ms = { model := ascii "b", think := some true } := by
  have htokens : tokens twoModels = ([.lbrace, .str (ascii "model"), .colon, .str (ascii "a"),
      .comma, .str (ascii "Model"), .colon, .str (ascii "b"), .comma, .str (ascii "THINK"), .colon,
      .bool true, .rbrace], true) := by
    decide +kernel
  refine ⟨[(ascii "model", .str (ascii "a")), (ascii "Model", .str (ascii "b")),
    (ascii "THINK", .bool true)], ?_, ?_, ?_⟩
  · rw [parse, htokens]
    rfl
  · decide +kernel
  · decide +kernel

end Viiwork.Proxy

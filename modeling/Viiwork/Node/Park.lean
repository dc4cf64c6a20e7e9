import Viiwork.Lib.Json
import Viiwork.Lib.Text

/-!
# Viiwork.Node.Park

Parking models (`park.go`): the handler of `/v1/models/down` and `/v1/models/up`, and `Park`.

No models in a request means every model of the node, so the handler looks at the body for what was
meant: without any `models` key it must be `{}`. What it then parks is the list that `encoding/json`
leaves, and a null leaves none: a body whose last value for `models` is null is taken for every
model (`serve_null`). Every other body acts as it asks (`onlyAsAsked_iff`).
-/

namespace Viiwork.Node

open Viiwork.Lib List Json

/-! ### The request -/

/-- Why a request is refused. -/
inductive Refusal
  | method
  | tooLarge
  | unauthorised (status : Nat) (msg : String)
  | notAnObject
  | noModels
  | badModels
  | unknown (names configured : List Bytes)
  | apply (text : String)
  deriving Repr, DecidableEq

def Refusal.status : Refusal → Nat
  | method => 405
  | tooLarge => 413
  | unauthorised status _ => status
  | apply _ => 500
  | _ => 400

def modelsKey : Bytes := ascii "models"

/-- A slice while it is decoded: its elements, and those of the array beyond its length. -/
structure Slice where
  elems : List Bytes := []
  spare : List Bytes := []
  deriving Repr, DecidableEq

/-- A value into a string that is `old`. -/
def element (old : Bytes) : Json → Option Bytes
  | .str raw => some (unquote raw)
  | .null => some old
  | _ => none

/-- The values of an array, one by one into the strings of another. -/
def elements : List Bytes → List Json → Option (List Bytes)
  | _, [] => some []
  | old, v :: vs => do
      let e ← element (old.headD []) v
      let es ← elements old.tail vs
      return e :: es

/-- A value into a slice of strings; `none` for a value of another type. An array is decoded into
the one that is there. -/
def Slice.set (s : Slice) : Json → Option Slice
  | .null => some {}
  | .arr [] => some {}
  | .arr vs => do
      let es ← elements (s.elems ++ s.spare) vs
      return { elems := es, spare := (s.elems ++ s.spare).drop vs.length }
  | _ => none

/-- The key is for `models`, in any case. -/
def isModels (key : Bytes) : Bool := foldName (unquote key) = foldName modelsKey

def Slice.member (s : Slice) (m : Bytes × Json) : Option Slice :=
  if isModels m.1 then s.set m.2 else some s

/-- `json.Unmarshal` into a `ParkRequest`: the members in order. -/
def decodeModels (ms : List (Bytes × Json)) : Option Slice := ms.foldlM Slice.member {}

/-- What the handler makes of a body: the names it passes on, none for every model. -/
def request (body : Bytes) : Except Refusal (List Bytes) :=
  if trimSpace body = [] then .ok []
  else match parse body with
  | some (.obj ms) =>
    if (ms.all fun m => unquote m.1 ≠ modelsKey) && !ms.isEmpty then .error .noModels
    else match decodeModels ms with
      | none => .error .badModels
      | some s => .ok s.elems
  | _ => .error .notAnObject

/-! ### Park -/

/-- The node as far as parking goes. A model's name is never empty: the configuration refuses
one. -/
structure State where
  configured : List Bytes
  named : ∀ m ∈ configured, m ≠ []
  parked : Bytes → Bool
  /-- The first apply is done. -/
  applied : Bool

/-- What `Park` says of a model. -/
structure ModelPark where
  name : Bytes
  parked : Bool
  changed : Bool
  deriving Repr, DecidableEq

/-- Appends a name that is not there. -/
def note (names : List Bytes) (name : Bytes) : List Bytes :=
  if name ∈ names then names else names ++ [name]

/-- The names to act on and the unknown ones, each once. -/
def sift (configured : List Bytes) (acc : List Bytes × List Bytes) (name : Bytes) :
    List Bytes × List Bytes :=
  if name ∉ configured then (acc.1, note acc.2 name) else (note acc.1 name, acc.2)

/-- The node with the models down or up. -/
def State.set (n : State) (want : List Bytes) (down : Bool) : State :=
  { n with parked := fun name => if name ∈ want then down else n.parked name }

/-- What is said of the models. -/
def State.report (n : State) (want : List Bytes) (down : Bool) : List ModelPark :=
  want.map fun name => ⟨name, down, n.parked name != down⟩

/-- No names are every model. -/
def State.asked (n : State) (names : List Bytes) : List Bytes :=
  if names = [] then n.configured else names

/-- `Park`, where `apply` is what the supervisor says of the models that are to run. -/
def State.park (n : State) (apply : List Bytes → Option String) (names : List Bytes)
    (down : Bool) : State × Except Refusal (List ModelPark) :=
  let sifted := (n.asked names).foldl (sift n.configured) ([], [])
  let done := (n.set sifted.1 down, .ok (n.report sifted.1 down))
  if sifted.2 ≠ [] then (n, .error (.unknown sifted.2 n.configured))
  else if (n.report sifted.1 down).all fun r => !r.changed then done
  else if n.applied then
    match apply (n.configured.filter fun m => !(n.set sifted.1 down).parked m) with
    | some text => (n, .error (.apply text))
    | none => done
  else done

/-! ### The handler -/

def maxParkBody : Nat := 64 * 1024

/-- What a request meets besides its body. -/
structure Env where
  post : Bool
  /-- The status and message of a refusal. -/
  authorize : Option (Nat × String)
  apply : List Bytes → Option String

def serve (env : Env) (n : State) (down : Bool) (body : Bytes) :
    State × Except Refusal (List ModelPark) :=
  if !env.post then (n, .error .method)
  else if maxParkBody < body.length then (n, .error .tooLarge)
  else match env.authorize with
  | some (status, msg) => (n, .error (.unauthorised status msg))
  | none =>
    match request body with
    | .error r => (n, .error r)
    | .ok names => n.park env.apply names down

/-! ### What a body asks for -/

/-- The last value that the body has for `models`. -/
def lastModels (ms : List (Bytes × Json)) : Option Json :=
  ((ms.filter fun m => isModels m.1).getLast?).map Prod.snd

/-- **Asked.** The body asks for every model: it is blank, or `{}`, or has the empty list. -/
def Asked (body : Bytes) : Prop :=
  trimSpace body = [] ∨
    ∃ ms, parse body = some (.obj ms) ∧ (ms = [] ∨ lastModels ms = some (.arr []))

/-- The body has the name in a list for `models`. -/
def Names (body name : Bytes) : Prop :=
  ∃ ms key vs raw, parse body = some (.obj ms) ∧ (key, .arr vs) ∈ ms ∧ isModels key = true ∧
    .str raw ∈ vs ∧ unquote raw = name

/-- **Nulled.** A body that is not refused, whose last value for `models` is null. -/
def Nulled (body : Bytes) : Prop :=
  body.length ≤ maxParkBody ∧ trimSpace body ≠ [] ∧ (∃ names, request body = .ok names) ∧
    ∃ ms, parse body = some (.obj ms) ∧ lastModels ms = some .null

/-- **Only as asked.** Whatever a request with the body meets: refused, it changes nothing; else it
acts on every model where the body asks for that, and otherwise on the models of the list that is
decoded, which the body names and the node has. No other model changes. -/
def OnlyAsAsked (n : State) (body : Bytes) : Prop :=
  ∀ (env : Env) (down : Bool), match serve env n down body with
    | (n', .error _) => n' = n
    | (n', .ok resp) =>
      ((Asked body ∧ ∀ m, m ∈ resp.map ModelPark.name ↔ m ∈ n.configured) ∨
        ∃ names, request body = .ok names ∧ names ≠ [] ∧
          (∀ m, m ∈ resp.map ModelPark.name ↔ m ∈ names) ∧
          ∀ m ∈ names, Names body m ∧ m ∈ n.configured) ∧
      ∀ m, n'.parked m = if m ∈ resp.map ModelPark.name then down else n.parked m

/-! ### The decoded list -/

theorem decodeModels_append (ms : List (Bytes × Json)) (m : Bytes × Json) :
    decodeModels (ms ++ [m]) = (decodeModels ms).bind fun s => s.member m := by
  rw [decodeModels, foldlM_append]
  refine Option.bind_congr fun s _ => ?_
  rw [foldlM_cons]
  cases s.member m <;> rfl

variable {vs : List Json} {v : Json} {m : Bytes}

theorem length_elements : ∀ {old es : List Bytes}, elements old vs = some es →
    es.length = vs.length := by
  induction vs with
  | nil =>
    intro old es h
    cases h
    rfl
  | cons v vs ih =>
    intro old es h
    obtain ⟨e, -, h⟩ := Option.bind_eq_some_iff.1 h
    obtain ⟨es', hes, h⟩ := Option.bind_eq_some_iff.1 h
    cases h
    rw [length_cons, length_cons, ih hes]

/-- What a value leaves of a slice: nothing, or the elements of an array that is not empty. -/
theorem set_cases {s s' : Slice} (h : s.set v = some s') :
    ((v = .null ∨ v = .arr []) ∧ s' = {}) ∨
    ∃ vs es, v = .arr vs ∧ vs ≠ [] ∧ elements (s.elems ++ s.spare) vs = some es ∧
      s' = { elems := es, spare := (s.elems ++ s.spare).drop vs.length } := by
  cases v with
  | null =>
    cases h
    exact .inl ⟨.inl rfl, rfl⟩
  | arr vs =>
    cases vs with
    | nil =>
      cases h
      exact .inl ⟨.inr rfl, rfl⟩
    | cons v vs =>
      obtain ⟨es, hes, h⟩ := Option.bind_eq_some_iff.1 h
      cases h
      exact .inr ⟨v :: vs, es, rfl, cons_ne_nil _ _, hes, rfl⟩
  | _ => cases h

/-- A slice is empty after the empty list and after null, and only then. -/
theorem set_elems_eq_nil_iff {s s' : Slice} (h : s.set v = some s') :
    s'.elems = [] ↔ v = .null ∨ v = .arr [] := by
  rcases set_cases h with ⟨hv, rfl⟩ | ⟨vs, es, rfl, hne, hes, rfl⟩
  · exact ⟨fun _ => hv, fun _ => rfl⟩
  · have hlen := length_elements hes
    rw [← length_eq_zero_iff, hlen, length_eq_zero_iff]
    simp

theorem lastModels_append (ms : List (Bytes × Json)) (m : Bytes × Json) :
    lastModels (ms ++ [m]) = if isModels m.1 then some m.2 else lastModels ms := by
  unfold lastModels
  rw [filter_append]
  split <;> rename_i hkey <;> simp [hkey]

variable {ms : List (Bytes × Json)} {names : List Bytes} {body : Bytes}

/-- The list is empty exactly when the last value is the empty list or null, or there is none. -/
theorem elems_eq_nil_iff : ∀ {s : Slice}, decodeModels ms = some s →
    (s.elems = [] ↔ lastModels ms = none ∨ lastModels ms = some .null ∨
      lastModels ms = some (.arr [])) := by
  induction ms using List.reverseRecOn with
  | nil =>
    intro s h
    cases h
    simp [lastModels]
  | append_singleton ms m ih =>
    intro s h
    rw [decodeModels_append] at h
    obtain ⟨s₁, hs₁, h⟩ := Option.bind_eq_some_iff.1 h
    unfold Slice.member at h
    rw [lastModels_append]
    split at h
    · rename_i hkey
      rw [if_pos hkey, set_elems_eq_nil_iff h]
      simp
    · rename_i hkey
      cases h
      rw [if_neg hkey]
      exact ih hs₁

/-- An element is a string of the array, or one that was there. -/
theorem mem_of_elements : ∀ {old es : List Bytes}, elements old vs = some es →
    ∀ e ∈ es, (e = [] ∨ e ∈ old) ∨ ∃ raw, .str raw ∈ vs ∧ unquote raw = e := by
  induction vs with
  | nil =>
    intro old es h
    cases h
    nofun
  | cons v vs ih =>
    intro old es h e he
    obtain ⟨e₀, he₀, h⟩ := Option.bind_eq_some_iff.1 h
    obtain ⟨es', hes, h⟩ := Option.bind_eq_some_iff.1 h
    cases h
    rcases mem_cons.1 he with rfl | he
    · cases v with
      | str raw =>
        cases he₀
        exact .inr ⟨raw, mem_cons_self, rfl⟩
      | null =>
        cases he₀
        cases old with
        | nil => exact .inl (.inl rfl)
        | cons o old => exact .inl (.inr mem_cons_self)
      | _ => cases he₀
    · rcases ih hes e he with (hnil | hold) | ⟨raw, hraw, heq⟩
      · exact .inl (.inl hnil)
      · exact .inl (.inr (mem_of_mem_tail hold))
      · exact .inr ⟨raw, mem_cons_of_mem v hraw, heq⟩

/-- Every name of the list is a string of the body, or empty. -/
theorem names_of_mem_elems : ∀ {s : Slice}, decodeModels ms = some s →
    ∀ name ∈ s.elems ++ s.spare, name = [] ∨
      ∃ key vs raw, (key, .arr vs) ∈ ms ∧ isModels key = true ∧ .str raw ∈ vs ∧
        unquote raw = name := by
  induction ms using List.reverseRecOn with
  | nil =>
    intro s h
    cases h
    nofun
  | append_singleton ms m ih =>
    intro s h name hname
    rw [decodeModels_append] at h
    obtain ⟨s₁, hs₁, h⟩ := Option.bind_eq_some_iff.1 h
    have hold : name ∈ s₁.elems ++ s₁.spare → name = [] ∨
        ∃ key vs raw, (key, .arr vs) ∈ ms ++ [m] ∧ isModels key = true ∧ .str raw ∈ vs ∧
          unquote raw = name := by
      intro hmem
      rcases ih hs₁ name hmem with hnil | ⟨key, vs, raw, hin, hrest⟩
      · exact .inl hnil
      · exact .inr ⟨key, vs, raw, mem_append_left _ hin, hrest⟩
    obtain ⟨key, v⟩ := m
    unfold Slice.member at h
    split at h
    · rename_i hkey
      rcases set_cases h with ⟨-, rfl⟩ | ⟨vs, es, rfl, -, hes, rfl⟩
      · cases hname
      · rcases mem_append.1 hname with hname | hname
        · rcases mem_of_elements hes name hname with (hnil | hmem) | ⟨raw, hraw, heq⟩
          · exact .inl hnil
          · exact hold hmem
          · exact .inr ⟨key, vs, raw, mem_append_right _ mem_cons_self, hkey, hraw, heq⟩
        · exact hold (mem_of_mem_drop hname)
    · cases h
      exact hold hname

/-! ### Park -/

theorem mem_note {name : Bytes} : m ∈ note names name ↔ m ∈ names ∨ m = name := by
  unfold note
  split
  · rename_i hmem
    exact ⟨.inl, fun h => h.elim id fun heq => heq ▸ hmem⟩
  · simp

/-- Names are sifted without finding an unknown one exactly when all are known. -/
theorem sift_known {configured : List Bytes} : ∀ (acc : List Bytes × List Bytes),
    ((names.foldl (sift configured) acc).2 = [] ↔ acc.2 = [] ∧ ∀ m ∈ names, m ∈ configured) ∧
      ((∀ m ∈ names, m ∈ configured) →
        ∀ m, m ∈ (names.foldl (sift configured) acc).1 ↔ m ∈ acc.1 ∨ m ∈ names) := by
  induction names with
  | nil =>
    intro acc
    simp
  | cons name names ih =>
    intro acc
    obtain ⟨hnone, hwant⟩ := ih (sift configured acc name)
    rw [foldl_cons, hnone]
    unfold sift at hwant ⊢
    by_cases hknown : name ∈ configured
    · rw [if_neg (not_not.2 hknown)] at hwant ⊢
      refine ⟨by simp [hknown], ?_⟩
      intro hall m
      rw [hwant fun x hx => hall x (mem_cons_of_mem name hx), mem_note, mem_cons,
        or_assoc]
    · rw [if_pos hknown]
      have hne : note acc.2 name ≠ [] := ne_nil_of_mem (mem_note.2 (.inr rfl))
      simp [hknown, hne]

theorem report_names (n : State) (want : List Bytes) (down : Bool) :
    (n.report want down).map ModelPark.name = want := by
  rw [State.report, map_map]
  exact map_id want

/-- What `Park` does: nothing when a name is unknown or the models cannot be applied; else it sets
the models that are asked for, all of which the node has. -/
theorem park_cases (n : State) (apply : List Bytes → Option String) (names : List Bytes)
    (down : Bool) :
    ((∃ r, n.park apply names down = (n, .error r)) ∧
      ((∃ m ∈ names, m ∉ n.configured) ∨ ∃ ms text, apply ms = some text)) ∨
    ∃ want, n.park apply names down = (n.set want down, .ok (n.report want down)) ∧
      (∀ m ∈ names, m ∈ n.configured) ∧
      ∀ m, m ∈ want ↔ m ∈ n.asked names := by
  have hasked : (∀ m ∈ n.asked names, m ∈ n.configured) ↔ ∀ m ∈ names, m ∈ n.configured := by
    unfold State.asked
    split
    · rename_i hnil
      simp [hnil]
    · rfl
  obtain ⟨hnone, hwant⟩ := @sift_known (n.asked names) n.configured ([], [])
  rw [hasked] at hnone hwant
  unfold State.park
  dsimp only
  split_ifs with hunknown hsame happlied
  · refine .inl ⟨⟨_, rfl⟩, .inl ?_⟩
    by_contra hall
    push Not at hall
    exact hunknown (hnone.2 ⟨rfl, hall⟩)
  · have hall := (hnone.1 (not_not.1 hunknown)).2
    exact .inr ⟨_, rfl, hall, fun m => (hwant hall m).trans (by simp)⟩
  · have hall := (hnone.1 (not_not.1 hunknown)).2
    split
    · rename_i text hfail
      exact .inl ⟨⟨_, rfl⟩, .inr ⟨_, text, hfail⟩⟩
    · exact .inr ⟨_, rfl, hall, fun m => (hwant hall m).trans (by simp)⟩
  · have hall := (hnone.1 (not_not.1 hunknown)).2
    exact .inr ⟨_, rfl, hall, fun m => (hwant hall m).trans (by simp)⟩

/-! ### The handler -/

/-- A body that is not refused is blank, or an object that has `models` or nothing. -/
theorem request_eq_ok (h : request body = .ok names) :
    (trimSpace body = [] ∧ names = []) ∨
    (trimSpace body ≠ [] ∧ ∃ ms s, parse body = some (.obj ms) ∧
      decodeModels ms = some s ∧ s.elems = names ∧ (lastModels ms = none → ms = [])) := by
  unfold request at h
  split at h
  · rename_i hblank
    cases h
    exact .inl ⟨hblank, rfl⟩
  rename_i hblank
  split at h
  case h_2 => cases h
  rename_i ms hparse
  split at h
  · cases h
  rename_i hkeys
  split at h
  · cases h
  rename_i s hdecode
  cases h
  refine .inr ⟨hblank, ms, s, hparse, hdecode, rfl, fun hnone => ?_⟩
  by_contra hne
  refine hkeys (Bool.and_eq_true_iff.2 ⟨all_eq_true.2 fun x hx => ?_, by simpa using hne⟩)
  rw [decide_eq_true_eq]
  intro hkey
  have hmem : x ∈ ms.filter fun m => isModels m.1 :=
    mem_filter.2 ⟨hx, decide_eq_true (congrArg foldName hkey)⟩
  rw [lastModels, Option.map_eq_none_iff, List.getLast?_eq_none_iff] at hnone
  rw [hnone] at hmem
  cases hmem

/-- The handler takes a body for every model when the body asks for that, and when its last value is
null. -/
theorem request_nil_cases (h : request body = .ok []) :
    Asked body ∨ trimSpace body ≠ [] ∧ ∃ ms, parse body = some (.obj ms) ∧
      lastModels ms = some .null := by
  rcases request_eq_ok h with ⟨hblank, -⟩ | ⟨hblank, ms, s, hparse, hdecode, hnil, hnone⟩
  · exact .inl (.inl hblank)
  · rcases (elems_eq_nil_iff hdecode).1 hnil with hlast | hnull | hempty
    · exact .inl (.inr ⟨ms, hparse, .inl (hnone hlast)⟩)
    · exact .inr ⟨hblank, ms, hparse, hnull⟩
    · exact .inl (.inr ⟨ms, hparse, .inr hempty⟩)

/-- The names that the handler takes from a body are in it, but for the empty one. -/
theorem names_of_request (h : request body = .ok names) (hm : m ∈ names) :
    m = [] ∨ Names body m := by
  rcases request_eq_ok h with ⟨-, rfl⟩ | ⟨-, ms, s, hparse, hdecode, rfl, -⟩
  · cases hm
  · rcases names_of_mem_elems hdecode m (mem_append_left _ hm) with
      hempty | ⟨key, vs, raw, hin, hkey, hraw, heq⟩
    · exact .inl hempty
    · exact .inr ⟨ms, key, vs, raw, hparse, hin, hkey, hraw, heq⟩

theorem request_of_null (h : request body = .ok names) (hparse : parse body = some (.obj ms))
    (hnull : lastModels ms = some .null) : names = [] := by
  rcases request_eq_ok h with ⟨-, hnil⟩ | ⟨-, ms', s, hparse', hdecode, rfl, -⟩
  · exact hnil
  · rw [hparse] at hparse'
    cases hparse'
    exact (elems_eq_nil_iff hdecode).2 (.inr (.inl hnull))

/-- A request is refused and changes nothing, or passes its names to `Park`. -/
theorem serve_cases (env : Env) (n : State) (down : Bool) (body : Bytes) :
    (∃ r, serve env n down body = (n, .error r)) ∨
    ∃ names, request body = .ok names ∧ body.length ≤ maxParkBody ∧
      serve env n down body = n.park env.apply names down := by
  unfold serve
  split
  · exact .inl ⟨_, rfl⟩
  split
  · exact .inl ⟨_, rfl⟩
  rename_i hlen
  split
  · exact .inl ⟨_, rfl⟩
  split
  · exact .inl ⟨_, rfl⟩
  · rename_i names hnames
    exact .inr ⟨names, hnames, not_lt.1 hlen, rfl⟩

theorem not_asked_of_null (hblank : trimSpace body ≠ [])
    (hparse : parse body = some (.obj ms)) (hnull : lastModels ms = some .null) :
    ¬Asked body := by
  rintro (h | ⟨ms', hparse', h⟩)
  · exact hblank h
  · rw [hparse] at hparse'
    cases hparse'
    rcases h with rfl | hempty
    · cases hnull
    · rw [hnull] at hempty
      cases hempty

/-- **A park request acts on everything only when asked to**, exactly when its last value for
`models` is not null. -/
theorem onlyAsAsked_iff (n : State) (body : Bytes) : OnlyAsAsked n body ↔ ¬Nulled body := by
  constructor
  · rintro h ⟨hlen, hblank, ⟨names, hnames⟩, ms, hparse, hnull⟩
    obtain rfl := request_of_null hnames hparse hnull
    -- A request that is let through and whose models can be applied.
    have hserve : serve ⟨true, none, fun _ => none⟩ n true body =
        n.park (fun _ => none) [] true := by
      unfold serve
      rw [hnames]
      simp [not_lt.2 hlen]
    rcases park_cases n (fun _ => none) [] true with
      ⟨-, ⟨m, hm, -⟩ | ⟨ms, text, htext⟩⟩ | ⟨want, hpark, -, -⟩
    · cases hm
    · cases htext
    · have hdone := h ⟨true, none, fun _ => none⟩ true
      rw [hserve, hpark] at hdone
      rcases hdone.1 with ⟨hasked, -⟩ | ⟨names, hnames', hne, -⟩
      · exact not_asked_of_null hblank hparse hnull hasked
      · rw [hnames] at hnames'
        cases hnames'
        exact hne rfl
  · intro hnull env down
    rcases serve_cases env n down body with ⟨r, hserve⟩ | ⟨names, hnames, hlen, hserve⟩
    · rw [hserve]
    · rw [hserve]
      rcases park_cases n env.apply names down with ⟨⟨r, hpark⟩, -⟩ | ⟨want, hpark, hall, hwant⟩
      · rw [hpark]
      · rw [hpark]
        refine ⟨?_, fun m => ?_⟩
        · rw [report_names]
          by_cases hnil : names = []
          · subst hnil
            rcases request_nil_cases hnames with hasked | ⟨hblank, ms, hparse, hlast⟩
            · exact .inl ⟨hasked, hwant⟩
            · exact absurd ⟨hlen, hblank, ⟨_, hnames⟩, ms, hparse, hlast⟩ hnull
          · refine .inr ⟨names, hnames, hnil, ?_, fun m hm => ⟨?_, hall m hm⟩⟩
            · intro m
              rw [hwant, State.asked, if_neg hnil]
            · rcases names_of_request hnames hm with rfl | hnamed
              · exact absurd rfl (n.named _ (hall _ hm))
              · exact hnamed
        · rw [report_names]
          rfl

/-! ### A null -/

/-- A node with two models, all up. -/
def twoModels : State where
  configured := [ascii "a", ascii "b"]
  named := by decide
  parked _ := false
  applied := true

def nullBody : Bytes := ascii "\x7b\"models\":null\x7d"

theorem parse_nullBody : parse nullBody = some (.obj [(modelsKey, .null)]) := by
  have htokens : tokens nullBody = ([.lbrace, .str modelsKey, .colon, .null, .rbrace], true) := by
    decide +kernel
  rw [parse, htokens]
  rfl

/-- **A null parks the whole node.** -/
theorem serve_null :
    (∃ n', serve ⟨true, none, fun _ => none⟩ twoModels true nullBody =
      (n', .ok [⟨ascii "a", true, true⟩, ⟨ascii "b", true, true⟩])) ∧ ¬Asked nullBody := by
  have hblank : trimSpace nullBody ≠ [] := by decide +kernel
  have hkey : unquote modelsKey = modelsKey := by decide +kernel
  have hmodels : isModels modelsKey = true := by decide +kernel
  have hlast : lastModels [(modelsKey, .null)] = some .null := by
    simp [lastModels, hmodels]
  have hrequest : request nullBody = .ok [] := by
    have hdecode : decodeModels [(modelsKey, .null)] = some {} := by
      simp [decodeModels, Slice.member, hmodels, Slice.set]
    rw [request, if_neg hblank, parse_nullBody]
    simp [hkey, hdecode]
  refine ⟨?_, not_asked_of_null hblank parse_nullBody hlast⟩
  have hserve : serve ⟨true, none, fun _ => none⟩ twoModels true nullBody =
      twoModels.park (fun _ => none) [] true := by
    unfold serve
    rw [hrequest]
    rfl
  rw [hserve]
  exact ⟨twoModels.set [ascii "a", ascii "b"] true, rfl⟩

/-- A body that names a model. -/
def namedBody : Bytes := ascii "\x7b\"models\":[\"a\"]\x7d"

theorem onlyAsAsked_named : OnlyAsAsked twoModels namedBody := by
  have htokens : tokens namedBody = ([.lbrace, .str modelsKey, .colon, .lbracket,
      .str (ascii "a"), .rbracket, .rbrace], true) := by
    decide +kernel
  have hparse : parse namedBody = some (.obj [(modelsKey, .arr [.str (ascii "a")])]) := by
    rw [parse, htokens]
    rfl
  have hmodels : isModels modelsKey = true := by decide +kernel
  rw [onlyAsAsked_iff]
  rintro ⟨-, -, -, ms, hparse', hnull⟩
  rw [hparse] at hparse'
  cases hparse'
  simp [lastModels, hmodels] at hnull

end Viiwork.Node

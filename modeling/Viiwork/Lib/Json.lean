import Viiwork.Lib.JsonText
import Viiwork.Lib.Run

/-!
# Viiwork.Lib.Json

JSON values as they are spelled, and the **machine** that reads them from tokens: a stack of the
arrays and objects that are open, as deep as the decoder allows, and what may come next.

A value is spelled by its tokens (`Json.spell`), and what the machine accepts is the value whose
tokens it was given (`spell_of_read`).
-/

namespace Viiwork.Lib

/-- A value, with the bytes of its strings and numbers. -/
inductive Json
  | null
  | bool (b : Bool)
  | num (raw : Bytes)
  | str (raw : Bytes)
  | arr (vs : List Json)
  | obj (ms : List (Bytes × Json))

namespace Json

/-! ### The tokens of a value -/

mutual

/-- The tokens that spell a value. -/
def spell : Json → List Token
  | null => [.null]
  | bool b => [.bool b]
  | num raw => [.num raw]
  | str raw => [.str raw]
  | arr [] => [.lbracket, .rbracket]
  | arr (v :: vs) => .lbracket :: (spell v ++ spellElems vs)
  | obj [] => [.lbrace, .rbrace]
  | obj ((k, v) :: ms) => .lbrace :: .str k :: .colon :: (spell v ++ spellMembers ms)

/-- The elements that follow in an array, and its end. -/
def spellElems : List Json → List Token
  | [] => [.rbracket]
  | v :: vs => .comma :: (spell v ++ spellElems vs)

/-- The members that follow in an object, and its end. -/
def spellMembers : List (Bytes × Json) → List Token
  | [] => [.rbrace]
  | (k, v) :: ms => .comma :: .str k :: .colon :: (spell v ++ spellMembers ms)

end

/-! ### The machine -/

/-- What is open: an array with the elements before the one that is read, or an object with the
members before, and the key. -/
inductive Frame
  | arr (vs : List Json)
  | obj (ms : List (Bytes × Json)) (key : Bytes)

/-- What may come next. -/
inductive Mode
  | value
  /-- After `[`. -/
  | elemOrEnd
  /-- After the elements of an array, the last of which is `v`. -/
  | afterElem (vs : List Json) (v : Json)
  /-- After `{`. -/
  | keyOrEnd
  /-- After a comma in an object with these members. -/
  | key (ms : List (Bytes × Json))
  | colon (ms : List (Bytes × Json)) (key : Bytes)
  /-- After the members of an object, the last of which is `m`. -/
  | afterMember (ms : List (Bytes × Json)) (m : Bytes × Json)
  | done (v : Json)

structure Machine where
  /-- Innermost first. -/
  stack : List Frame
  mode : Mode

/-- `maxNestingDepth` of `encoding/json`. -/
def maxDepth : Nat := 10000

/-- A value is complete. -/
def put (v : Json) : List Frame → Machine
  | [] => ⟨[], .done v⟩
  | .arr vs :: fs => ⟨fs, .afterElem vs v⟩
  | .obj ms k :: fs => ⟨fs, .afterMember ms (k, v)⟩

/-- A value begins. -/
def begin (fs : List Frame) : Token → Option Machine
  | .null => some (put .null fs)
  | .bool b => some (put (.bool b) fs)
  | .num raw => some (put (.num raw) fs)
  | .str raw => some (put (.str raw) fs)
  | .lbracket => if fs.length < maxDepth then some ⟨fs, .elemOrEnd⟩ else none
  | .lbrace => if fs.length < maxDepth then some ⟨fs, .keyOrEnd⟩ else none
  | _ => none

namespace Machine

def step (m : Machine) (t : Token) : Option Machine :=
  match m.mode, t with
  | .value, t => begin m.stack t
  | .elemOrEnd, .rbracket => some (put (.arr []) m.stack)
  | .elemOrEnd, t => begin (.arr [] :: m.stack) t
  | .afterElem vs v, .comma => some ⟨.arr (vs ++ [v]) :: m.stack, .value⟩
  | .afterElem vs v, .rbracket => some (put (.arr (vs ++ [v])) m.stack)
  | .keyOrEnd, .rbrace => some (put (.obj []) m.stack)
  | .keyOrEnd, .str k => some ⟨m.stack, .colon [] k⟩
  | .key ms, .str k => some ⟨m.stack, .colon ms k⟩
  | .colon ms k, .colon => some ⟨.obj ms k :: m.stack, .value⟩
  | .afterMember ms m', .comma => some ⟨m.stack, .key (ms ++ [m'])⟩
  | .afterMember ms m', .rbrace => some (put (.obj (ms ++ [m'])) m.stack)
  | _, _ => none

end Machine

def result : Option Machine → Option Json
  | some ⟨[], .done v⟩ => some v
  | _ => none

/-- The value that the tokens spell. -/
def read (ts : List Token) : Option Json := result (run Machine.step ⟨[], .value⟩ ts)

/-- The value that a text spells, with nothing but space around it. -/
def parse (s : Bytes) : Option Json := if (tokens s).2 then read (tokens s).1 else none

/-! ### Nothing else is read -/

/-- An array up to these elements. -/
def opened : List Json → List Token
  | [] => [.lbracket]
  | v :: vs => .lbracket :: (spell v ++ vs.flatMap fun v => .comma :: spell v)

/-- A member of an object. -/
def member (m : Bytes × Json) : List Token := .str m.1 :: .colon :: spell m.2

/-- An object up to these members. -/
def openedObj : List (Bytes × Json) → List Token
  | [] => [.lbrace]
  | m :: ms => .lbrace :: (member m ++ ms.flatMap fun m => .comma :: member m)

/-- The comma that comes before one more. -/
def sep {α : Type} (xs : List α) : List Token := if xs.isEmpty then [] else [.comma]

theorem spellElems_eq (vs : List Json) :
    spellElems vs = (vs.flatMap fun v => .comma :: spell v) ++ [.rbracket] := by
  induction vs with
  | nil => rfl
  | cons v vs ih => simp [spellElems, ih]

variable (ms : List (Bytes × Json))

theorem spellMembers_eq :
    spellMembers ms = (ms.flatMap fun m => .comma :: member m) ++ [.rbrace] := by
  induction ms with
  | nil => rfl
  | cons m ms ih => simp [spellMembers, member, ih]

theorem spell_arr (vs : List Json) : spell (.arr vs) = opened vs ++ [.rbracket] := by
  cases vs with
  | nil => rfl
  | cons v vs => simp [spell, opened, spellElems_eq]

theorem spell_obj : spell (.obj ms) = openedObj ms ++ [.rbrace] := by
  cases ms with
  | nil => rfl
  | cons m ms => simp [spell, openedObj, spellMembers_eq, member]

theorem opened_append (vs : List Json) (v : Json) :
    opened (vs ++ [v]) = opened vs ++ sep vs ++ spell v := by
  cases vs <;> simp [opened, sep]

theorem openedObj_append (m : Bytes × Json) :
    openedObj (ms ++ [m]) = openedObj ms ++ sep ms ++ member m := by
  cases ms <;> simp [openedObj, sep]

/-- The tokens of what is open. -/
def Frame.spell : Frame → List Token
  | .arr vs => opened vs ++ sep vs
  | .obj ms k => openedObj ms ++ sep ms ++ [.str k, .colon]

/-- The tokens since the innermost frame. -/
def Mode.spell : Mode → List Token
  | .value => []
  | .elemOrEnd => [.lbracket]
  | .afterElem vs v => opened (vs ++ [v])
  | .keyOrEnd => [.lbrace]
  | .key ms => openedObj ms ++ sep ms
  | .colon ms k => openedObj ms ++ sep ms ++ [.str k]
  | .afterMember ms m => openedObj (ms ++ [m])
  | .done v => Json.spell v

/-- The tokens that the machine has read. -/
def Machine.spell (m : Machine) : List Token := m.stack.reverse.flatMap Frame.spell ++ m.mode.spell

theorem spell_put (v : Json) (fs : List Frame) :
    (put v fs).spell = fs.reverse.flatMap Frame.spell ++ spell v := by
  cases fs with
  | nil => rfl
  | cons f fs =>
    cases f with
    | arr vs => simp [put, Machine.spell, Mode.spell, Frame.spell, opened_append]
    | obj ms k => simp [put, Machine.spell, Mode.spell, Frame.spell, openedObj_append, member]

variable {fs : List Frame} {t : Token} {m : Machine}

theorem spell_begin (h : begin fs t = some m) :
    m.spell = fs.reverse.flatMap Frame.spell ++ [t] := by
  unfold begin at h
  split at h
  case h_5 =>
    split at h
    · cases h
      rfl
    · cases h
  case h_6 =>
    split at h
    · cases h
      rfl
    · cases h
  case h_7 => cases h
  all_goals
    cases h
    rw [spell_put]
    rfl

/-- A value begins in an array as anywhere. -/
theorem Machine.step_elemOrEnd (ht : t ≠ .rbracket) :
    Machine.step ⟨fs, .elemOrEnd⟩ t = begin (.arr [] :: fs) t := by
  cases t <;> first | rfl | exact absurd rfl ht

/-- **Step lemma.** A step reads its token. -/
theorem Machine.spell_step {m' : Machine} (h : m.step t = some m') : m'.spell = m.spell ++ [t] := by
  obtain ⟨fs, mode⟩ := m
  cases mode with
  | value =>
    rw [spell_begin h]
    simp [Machine.spell, Mode.spell]
  | elemOrEnd =>
    by_cases ht : t = .rbracket
    · subst ht
      cases h
      rw [spell_put]
      simp [Machine.spell, Mode.spell, Json.spell]
    · rw [step_elemOrEnd ht] at h
      rw [spell_begin h]
      simp [Machine.spell, Mode.spell, Frame.spell, opened, sep]
  | afterElem vs v =>
    cases t with
    | comma =>
      cases h
      simp [Machine.spell, Mode.spell, Frame.spell, sep]
    | rbracket =>
      cases h
      rw [spell_put, spell_arr]
      simp [Machine.spell, Mode.spell]
    | _ => cases h
  | keyOrEnd =>
    cases t with
    | rbrace =>
      cases h
      rw [spell_put]
      simp [Machine.spell, Mode.spell, Json.spell]
    | str k =>
      cases h
      simp [Machine.spell, Mode.spell, openedObj, sep]
    | _ => cases h
  | key ms =>
    cases t with
    | str k =>
      cases h
      simp [Machine.spell, Mode.spell]
    | _ => cases h
  | colon ms k =>
    cases t with
    | colon =>
      cases h
      simp [Machine.spell, Mode.spell, Frame.spell]
    | _ => cases h
  | afterMember ms n =>
    cases t with
    | comma =>
      cases h
      simp [Machine.spell, Mode.spell, sep]
    | rbrace =>
      cases h
      rw [spell_put, spell_obj]
      simp [Machine.spell, Mode.spell]
    | _ => cases h
  | done v => cases h

/-- **What is read is spelled by the tokens.** -/
theorem spell_of_read {ts : List Token} {v : Json} (h : read ts = some v) : ts = spell v := by
  have hrun : ∀ {ts : List Token} {m m' : Machine}, run Machine.step m ts = some m' →
      m'.spell = m.spell ++ ts := by
    intro ts
    induction ts with
    | nil =>
      intro m m' h
      cases h
      exact (List.append_nil _).symm
    | cons t ts ih =>
      intro m m' h
      rw [run] at h
      split at h
      · cases h
      · rename_i m₁ hstep
        rw [ih h, Machine.spell_step hstep, List.append_assoc]
        rfl
  unfold read result at h
  split at h
  · rename_i v' hread
    cases h
    exact (hrun hread).symm
  · cases h

end Json

end Viiwork.Lib

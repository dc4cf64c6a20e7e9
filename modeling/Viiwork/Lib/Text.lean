import Viiwork.Lib.Bytes

/-!
# Viiwork.Lib.Text

Byte strings as text: lowercase hexadecimal, standard base64 and the white space around a
text. Everything is on bytes, so that text that is not UTF-8 is read as well.
-/

namespace Viiwork.Lib

open List

/-! ### Separators -/

/-- A string is split at its first separator in one way. -/
theorem append_sep_inj {α : Type*} {sep : α} {x y a b : List α} (hx : sep ∉ x) (hy : sep ∉ y)
    (h : x ++ sep :: a = y ++ sep :: b) : x = y ∧ a = b := by
  rcases append_eq_append_iff.1 h with ⟨c, rfl, hc⟩ | ⟨c, rfl, hc⟩
  · cases c with
    | nil => exact ⟨(append_nil x).symm, (List.cons.inj hc).2⟩
    | cons d c =>
      cases (List.cons.inj hc).1
      exact absurd (mem_append_right x mem_cons_self) hy
  · cases c with
    | nil => exact ⟨append_nil y, (List.cons.inj hc).2.symm⟩
    | cons d c =>
      cases (List.cons.inj hc).1
      exact absurd (mem_append_right y mem_cons_self) hx

/-! ### Hexadecimal -/

/-- A lowercase hexadecimal digit, as a byte. -/
def hexDigit (n : Nat) : UInt8 := UInt8.ofNat (if n < 10 then 48 + n else 87 + n)

def hex (b : Bytes) : Bytes := b.flatMap fun x => [hexDigit (x.toNat / 16), hexDigit (x.toNat % 16)]

def isHexDigit (b : UInt8) : Bool := (48 ≤ b && b ≤ 57) || (97 ≤ b && b ≤ 102)

def hexValue (b : UInt8) : Nat := if b ≤ 57 then b.toNat - 48 else b.toNat - 87

/-- The bytes that pairs of digits stand for. -/
def unhex : Bytes → Bytes
  | a :: b :: rest => UInt8.ofNat (16 * hexValue a + hexValue b) :: unhex rest
  | _ => []

theorem hexDigit_pair : ∀ x : UInt8, UInt8.ofNat (16 * hexValue (hexDigit (x.toNat / 16)) +
    hexValue (hexDigit (x.toNat % 16))) = x := by
  decide +kernel

@[simp] theorem unhex_hex (b : Bytes) : unhex (hex b) = b := by
  induction b with
  | nil => rfl
  | cons x b ih =>
    rw [hex, flatMap_cons, cons_append, cons_append, nil_append, unhex,
      hexDigit_pair, ← hex, ih]

theorem hex_injective : Function.Injective hex :=
  Function.LeftInverse.injective unhex_hex

/-! ### White space -/

/-- The white space of Unicode, in UTF-8. -/
def spaces : List Bytes :=
  [[9], [10], [11], [12], [13], [32], [0xC2, 0x85], [0xC2, 0xA0], [0xE1, 0x9A, 0x80],
    [0xE2, 0x80, 0x80], [0xE2, 0x80, 0x81], [0xE2, 0x80, 0x82], [0xE2, 0x80, 0x83],
    [0xE2, 0x80, 0x84], [0xE2, 0x80, 0x85], [0xE2, 0x80, 0x86], [0xE2, 0x80, 0x87],
    [0xE2, 0x80, 0x88], [0xE2, 0x80, 0x89], [0xE2, 0x80, 0x8A], [0xE2, 0x80, 0xA8],
    [0xE2, 0x80, 0xA9], [0xE2, 0x80, 0xAF], [0xE2, 0x81, 0x9F], [0xE3, 0x80, 0x80]]

/-- Without the strings of `sp` in front, of which `fuel` are looked for. -/
def dropSpaces (sp : List Bytes) : Nat → Bytes → Bytes
  | 0, b => b
  | fuel + 1, b =>
    match sp.find? fun s => s.isPrefixOf b with
    | none => b
    | some s => dropSpaces sp fuel (b.drop s.length)

def trimSpace (b : Bytes) : Bytes :=
  let b := dropSpaces spaces b.length b
  (dropSpaces (spaces.map List.reverse) b.length b.reverse).reverse

/-! ### Base64 -/

/-- The six bits that a character of the standard alphabet stands for. -/
def base64Value (b : UInt8) : Option Nat :=
  if 65 ≤ b ∧ b ≤ 90 then some (b.toNat - 65)
  else if 97 ≤ b ∧ b ≤ 122 then some (b.toNat - 71)
  else if 48 ≤ b ∧ b ≤ 57 then some (b.toNat + 4)
  else if b = 43 then some 62
  else if b = 47 then some 63
  else none

/-- Four characters at a time; the last four may end in padding. -/
def base64Quanta : Bytes → Option Bytes
  | [] => some []
  | a :: b :: c :: d :: rest => do
      let a ← base64Value a
      let b ← base64Value b
      if c = 61 then
        if d = 61 ∧ rest = [] then some [UInt8.ofNat (a * 4 + b / 16)] else none
      else
        let c ← base64Value c
        if d = 61 then
          if rest = [] then some [UInt8.ofNat (a * 4 + b / 16), UInt8.ofNat (b * 16 + c / 4)]
          else none
        else
          let d ← base64Value d
          let rest ← base64Quanta rest
          some (UInt8.ofNat (a * 4 + b / 16) :: UInt8.ofNat (b * 16 + c / 4) ::
            UInt8.ofNat (c * 64 + d) :: rest)
  | _ => none

/-- Line breaks anywhere are skipped. -/
def base64Decode (b : Bytes) : Option Bytes := base64Quanta (b.filter fun x => x ≠ 10 ∧ x ≠ 13)

end Viiwork.Lib

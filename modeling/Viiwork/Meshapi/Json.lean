import Viiwork.Meshapi.Aliases

/-!
# Viiwork.Meshapi.Json

The JSON text of a broadcast, as `encoding/json` writes it. The alias code reads
one thing off it, its length in bytes, which decides whether a write is refused
and whether a broadcast is sent.

A broadcast carries no history (`omitempty` leaves the field out), and the
fallbacks of a published entry are never nil, so the two absent forms `null` and
a history list do not occur.
-/

namespace Viiwork.Meshapi

/-- `\u` and four lower-case hexadecimal digits. -/
def jsonHex (n : Nat) : List Char :=
  ['\\', 'u', Nat.digitChar (n / 4096 % 16), Nat.digitChar (n / 256 % 16),
    Nat.digitChar (n / 16 % 16), Nat.digitChar (n % 16)]

/-- One character of a string, with HTML escaping on as `json.Marshal` has it. -/
def jsonChar (c : Char) : List Char :=
  if c = '\x22' || c = '\\' then ['\\', c]
  else if c = '\x08' then ['\\', 'b']
  else if c = '\x0c' then ['\\', 'f']
  else if c = '\n' then ['\\', 'n']
  else if c = '\r' then ['\\', 'r']
  else if c = '\t' then ['\\', 't']
  else if c.toNat < 0x20 || c = '<' || c = '>' || c = '&' || c.toNat = 0x2028 || c.toNat = 0x2029
  then jsonHex c.toNat
  else [c]

def jsonString (s : String) : List Char :=
  '\x22' :: s.toList.flatMap jsonChar ++ ['\x22']

def jsonStrings (ss : List String) : List Char :=
  '[' :: [','].intercalate (ss.map jsonString) ++ [']']

def jsonNat (n : Nat) : List Char := Nat.toDigits 10 n

def jsonInt (n : Int) : List Char :=
  if n < 0 then '-' :: jsonNat n.natAbs else jsonNat n.natAbs

def jsonBool (b : Bool) : List Char := if b then "true".toList else "false".toList

/-- A field of an object: its quoted name, a colon and its value. -/
def jsonField (name : String) (value : List Char) : List Char :=
  jsonString name ++ ':' :: value

def jsonObject (fields : List (List Char)) : List Char :=
  '\x7b' :: [','].intercalate fields ++ ['\x7d']

/-- An entry without history. -/
def jsonEntry (e : AliasEntry) : List Char :=
  jsonObject [jsonField "target" (jsonString e.target),
    jsonField "fallbacks" (jsonStrings e.fallbacks), jsonField "ver" (jsonNat e.ver),
    jsonField "ts" (jsonInt e.ts), jsonField "by" (jsonString e.byNode),
    jsonField "deleted" (jsonBool e.deleted)]

/-- `json.Marshal` of a broadcast. -/
def marshal (b : AliasBroadcast) : List Char :=
  jsonObject [jsonField "name" (jsonString b.name), jsonField "entry" (jsonEntry b.entry)]

/-- `len(raw)`: the bytes of the text. -/
def byteLen (raw : List Char) : Nat := (raw.map Char.utf8Size).sum

end Viiwork.Meshapi

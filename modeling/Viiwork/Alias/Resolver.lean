import Viiwork.Meshapi.Json
import Viiwork.Alias.Store

/-!
# Viiwork.Alias.Resolver

The checks a local write passes before it is stored (`ValidateWrite`). Which
models exist is the `View`, taken as it answers during the call.
-/

namespace Viiwork.Alias

open Viiwork.Meshapi

/-- Bounds a broadcast so that it fits one gossip packet. -/
def maxBroadcastBytes : Nat := 1000

/-- What the node knows of models while it checks a write: the `Exists` of its
`ServedView`, the names of its pipelines, and its clock in Unix milliseconds. -/
structure View where
  modelExists : String → Bool
  pipelineNames : List String
  now : Int

namespace View

def isPipeline (v : View) (name : String) : Bool := v.pipelineNames.any (· == name)

/-- Whether a name is a real model or a pipeline name. -/
def real (v : View) (name : String) : Bool := v.modelExists name || v.isPipeline name

end View

/-- A refused alias write. -/
inductive WriteError
  | badName (name : String)
  | realName (name : String)
  | targetRequired
  | isAlias (x : String)
  | isPipeline (x : String)
  | notServed (x : String)
  | listedTwice (f : String)
  | tableFull
  | tooLarge (name : String) (bytes : Nat)
  | notFound (name : String)
  | noPrevious (name : String)
  deriving Repr, DecidableEq

namespace WriteError

def status : WriteError → Nat
  | notFound _ => 404
  | _ => 409

/-- The message for the operator; `quote` is Go's `%q`. -/
def message (quote : String → String) : WriteError → String
  | badName n => "alias name " ++ quote n ++ " must match [A-Za-z0-9._-]\x7b1,64\x7d"
  | realName n => quote n ++ " is the name of a real model or pipeline"
  | targetRequired => "target is required"
  | isAlias x => quote x ++ " is an alias; aliases cannot point at aliases"
  | isPipeline x => quote x ++ " is a pipeline: an alias is replicated to every node, but a " ++
      "pipeline runs only on the node that configures it"
  | notServed x => quote x ++ " is not served by any node (use --force to pre-stage it)"
  | listedTwice f => "fallback " ++ quote f ++ " is listed twice"
  | tableFull => "alias table is full (" ++ toString maxAliases ++ ")"
  | tooLarge n bytes => "alias " ++ quote n ++ " is too large to gossip (" ++ toString bytes ++
      " bytes, limit " ++ toString maxBroadcastBytes ++ ")"
  | notFound n => "alias " ++ quote n ++ " not found"
  | noPrevious n => "alias " ++ quote n ++ " has no previous version to revert to"

end WriteError

/-- A name that is an alias now. -/
def Store.isLive (s : Store) (name : String) : Bool := (s.lookup name).any fun e => !e.deleted

/-- The first fallback that was seen before. -/
def firstRepeat (seen : List String) : List String → Option String
  | [] => none
  | f :: fs => if f ∈ seen then some f else firstRepeat (f :: seen) fs

/-- The broadcast a write would make, by which its size is judged. `Ver` is a
`uint64`. -/
def nextBroadcast (s : Store) (v : View) (name : String) (req : AliasWriteRequest) :
    AliasBroadcast :=
  { name := name
    entry := { target := req.target, fallbacks := req.fallbacks,
               ver := (((s.lookup name).getD default).ver + 1) % 2 ^ 64, ts := v.now,
               byNode := s.self } }

/-- `ValidateWrite` checks a local write before it is stored. -/
def validateWrite (s : Store) (v : View) (name : String) (req : AliasWriteRequest) :
    Except WriteError Unit :=
  let refs := req.target :: req.fallbacks
  if !validAliasName name then .error (.badName name)
  else if v.real name then .error (.realName name)
  else if req.target = "" then .error .targetRequired
  else
    match refs.find? s.isLive with
    | some x => .error (.isAlias x)
    | none =>
    match refs.find? v.isPipeline with
    | some x => .error (.isPipeline x)
    | none =>
    match (if req.force then none else refs.find? fun x => !v.modelExists x) with
    | some x => .error (.notServed x)
    | none =>
    match firstRepeat [req.target] req.fallbacks with
    | some f => .error (.listedTwice f)
    | none =>
      if !s.isLive name && decide (s.liveLocked ≥ maxAliases) then .error .tableFull
      else
        let bytes := byteLen (marshal (nextBroadcast s v name req))
        if bytes > maxBroadcastBytes then .error (.tooLarge name bytes) else .ok ()

/-- What a validated write promises. -/
theorem validateWrite_ok {s : Store} {v : View} {name : String} {req : AliasWriteRequest}
    (h : validateWrite s v name req = .ok ()) :
    validAliasName name = true ∧ v.real name = false ∧ req.target ≠ "" ∧
      (∀ x ∈ req.target :: req.fallbacks, s.isLive x = false) ∧
      (s.isLive name = true ∨ s.liveLocked < maxAliases) := by
  unfold validateWrite at h
  simp only at h
  split at h
  · cases h
  · rename_i hname
    split at h
    · cases h
    · rename_i hreal
      split at h
      · cases h
      · rename_i htarget
        split at h
        · cases h
        · rename_i halias
          split at h
          · cases h
          · split at h
            · cases h
            · split at h
              · cases h
              · split at h
                · cases h
                · rename_i hfull
                  refine ⟨by simpa using hname, by simpa using hreal, htarget, fun x hx => ?_, ?_⟩
                  · have hx' := List.find?_eq_none.mp halias x hx
                    simpa using hx'
                  · cases hlive : s.isLive name with
                    | true => exact .inl rfl
                    | false => exact .inr (by simpa [hlive] using hfull)

end Viiwork.Alias

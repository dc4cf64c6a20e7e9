import Mathlib

/-!
# Viiwork.Proxy.Execute

One attempt at a request (`execute.go`): on a local backend or on a peer. What the other side
does is arbitrary, and so is what the client does meanwhile; both are the attempt's `Upstream`.

An attempt that another may follow has written nothing to the client
(`serveLocal_writes_of_retryable`, `forwardToPeer_writes_of_retryable`): the response headers go
out after the last point where one is given up.

Left out are the bytes of a response and what the rewriting of a think block does to them: here
only that something was written counts.
-/

namespace Viiwork.Proxy

/-! ### Results -/

inductive Outcome
  /-- A response went to the client, possibly cut short, or the client is gone. -/
  | served
  /-- Nothing was written to the client; another route may serve it. -/
  | retryable
  deriving Repr, DecidableEq

structure ExecResult where
  outcome : Outcome
  status : Nat := 0
  aborted : Bool := false
  /-- The upstream failed after the headers went out. -/
  truncated : Bool := false
  /-- A 429 or 503, a backend with no process, or no connection at all. -/
  refusal : Bool := false
  deriving Repr, DecidableEq

def retryable : ExecResult := { outcome := .retryable }

def refused : ExecResult := { outcome := .retryable, refusal := true }

/-- A call on the client's `ResponseWriter`. -/
inductive Write
  | header (status : Nat)
  | body
  deriving Repr, DecidableEq

/-! ### The other side -/

/-- An error of `Do`, as far as it is looked at. -/
structure DoErr where
  /-- The client's context has ended by then. -/
  ctxEnded : Bool
  noConnection : Bool
  deriving Repr, DecidableEq

/-- One read of the body: the writes made for it, and whether the client took them. -/
structure Piece where
  writes : Nat
  taken : Bool
  deriving Repr, DecidableEq

structure Response where
  status : Nat
  /-- The content type is an event stream. -/
  sse : Bool
  /-- `io.ReadAll` returns the body. -/
  whole : Bool
  pieces : List Piece
  /-- The body ends with `io.EOF`. -/
  eof : Bool
  /-- The client's context has ended when the response is over. -/
  ctxEnded : Bool
  deriving Repr, DecidableEq

structure Upstream where
  /-- A backend's address, empty without a process. -/
  addr : String
  /-- `http.NewRequestWithContext` builds the request. -/
  built : Bool
  signed : Bool
  reply : Except DoErr Response

/-! ### The end of a response -/

/-- The writes of the pieces, up to the first that the client does not take, and whether there is
one. -/
def copy : List Piece → Nat × Bool
  | [] => (0, false)
  | p :: ps =>
    if p.taken then
      let (n, gone) := copy ps
      (p.writes + n, gone)
    else (p.writes, true)

/-- `stream`: how many writes, whether the client is gone, and whether the upstream failed while
it was there. Without a `Flusher` the two cannot be told apart. -/
def stream (flusher : Bool) (resp : Response) : Nat × Bool × Bool :=
  match copy resp.pieces with
  | (n, true) => if flusher then (n, true, false) else (n, false, true)
  | (n, false) => (n, false, !resp.eof)

def endStream (res : ExecResult) (ctxEnded clientGone upstreamErr : Bool) : ExecResult :=
  let aborted := clientGone || ctxEnded
  { res with aborted, truncated := res.truncated || (upstreamErr && !aborted) }

/-- The headers, then the body piece by piece. -/
def passOn (flusher : Bool) (resp : Response) : List Write × ExecResult :=
  let (n, clientGone, upstreamErr) := stream flusher resp
  (.header resp.status :: List.replicate n .body,
   endStream { outcome := .served, status := resp.status } resp.ctxEnded clientGone upstreamErr)

/-! ### The two kinds of attempt -/

/-- What an error of `Do` comes to. -/
def failed (e : DoErr) : ExecResult :=
  if e.ctxEnded then { outcome := .served, aborted := true }
  else if e.noConnection then refused
  else retryable

/-- The other side has no room. -/
def isRefusal (status : Nat) : Bool := status == 429 || status == 503

def serveLocal (flusher thinkDisabled : Bool) (u : Upstream) : List Write × ExecResult :=
  if u.addr = "" then ([], refused)
  else if !u.built then ([], retryable)
  else match u.reply with
  | .error e => ([], failed e)
  | .ok resp =>
    if isRefusal resp.status then ([], refused)
    else if thinkDisabled && !resp.sse then
      -- The whole body is read before the client's headers are touched, and then written at
      -- once.
      if !resp.whole then ([], retryable)
      else
        ([.header resp.status, .body],
         endStream { outcome := .served, status := resp.status } resp.ctxEnded
           (copy resp.pieces).2 false)
    else passOn flusher resp

def forwardToPeer (flusher : Bool) (u : Upstream) : List Write × ExecResult :=
  if !u.built then ([], retryable)
  else if !u.signed then ([], retryable)
  else match u.reply with
  | .error e => ([], failed e)
  | .ok resp => if isRefusal resp.status then ([], refused) else passOn flusher resp

/-! ### Before the first byte -/

theorem passOn_outcome (flusher : Bool) (resp : Response) :
    (passOn flusher resp).2.outcome = .served := rfl

theorem serveLocal_writes_of_retryable {flusher thinkDisabled : Bool} {u : Upstream}
    (h : (serveLocal flusher thinkDisabled u).2.outcome = .retryable) :
    (serveLocal flusher thinkDisabled u).1 = [] := by
  unfold serveLocal at h ⊢
  split_ifs with haddr hbuilt
  · rfl
  · rfl
  rw [if_neg haddr, if_neg hbuilt] at h
  split
  · rfl
  rename_i resp hreply
  rw [hreply] at h
  dsimp only at h
  split_ifs at h ⊢ with hrefusal hjson hwhole
  · rfl
  · rfl
  · -- The response was written, so the result is not retryable.
    cases h
  · rw [passOn_outcome] at h
    cases h

theorem forwardToPeer_writes_of_retryable {flusher : Bool} {u : Upstream}
    (h : (forwardToPeer flusher u).2.outcome = .retryable) :
    (forwardToPeer flusher u).1 = [] := by
  unfold forwardToPeer at h ⊢
  split_ifs with hbuilt hsigned
  · rfl
  · rfl
  rw [if_neg hbuilt, if_neg hsigned] at h
  split
  · rfl
  rename_i resp hreply
  rw [hreply] at h
  dsimp only at h
  split_ifs at h ⊢ with hrefusal
  · rfl
  · rw [passOn_outcome] at h
    cases h

end Viiwork.Proxy

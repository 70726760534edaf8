import KubeBrain.Server.WatchStream

/-! One stream of the etcd watch server (`pkg/server/etcd/watch.go`): the loop that receives
requests, the goroutine of every watch and range stream, and the responses that are sent. What the
backend and the client do is left to the scheduler. -/
namespace KubeBrain.Watcher

open Interleaving

/-- `etcdserverpb.WatchCreateRequest`; a negative revision asks for a range stream. -/
structure CreateRequest where
  key : Bytes
  rangeEnd : Bytes
  startRevision : ℤ

/-- `etcdserverpb.WatchRequest`. -/
inductive Request where
  | create (r : CreateRequest)
  | cancel (id : ℤ)
  | progress
  | unsupported

/-- `etcdserverpb.WatchResponse`; `revision` is the one of the header. -/
structure Response where
  revision : ℤ
  watchId : ℤ
  created : Bool
  canceled : Bool
  cancelReason : String
  compactRevision : ℤ
  events : List EtcdEvent
  deriving DecidableEq, Repr

def createdOf (id : ℤ) : Response := ⟨0, id, true, false, "", 0, []⟩

def canceledOf (id : ℤ) (compact : Bool) : Response :=
  ⟨0, id, false, true, "watch closed", if compact then 1 else 0, []⟩

def progressOf (revision : ℕ) : Response := ⟨revision, -1, false, false, "", 0, []⟩

def eventsOf (id : ℤ) (events : List EtcdEvent) : Response :=
  ⟨(events.getLast?.map fun e => (e.kv.modRevision : ℤ)).getD 0, id, false, false, "", 0, events⟩

/-- What the shim sends for a range stream. -/
structure StreamMessage where
  canceled : Bool
  cancelReason : Bytes
  events : List EtcdEvent

def getPartitionMagic : ℕ := 1888

/-- The event that tells the client where a range stream ends. -/
def eofOf (reason : Bytes) : EtcdEvent :=
  ⟨.put, ⟨[101, 111, 102], reason, 0, getPartitionMagic⟩, none⟩

def streamedOf (id : ℤ) (r : CreateRequest) (m : StreamMessage) : Response :=
  if m.canceled then ⟨-1, id, false, false, "", 0, [eofOf m.cancelReason]⟩
  else ⟨r.startRevision * -1, id, false, false, "", 0, m.events⟩

/-- The goroutines that `Start` starts. -/
inductive Task where
  | watch (id : ℤ) (r : CreateRequest)
  | list (id : ℤ) (r : CreateRequest)

def Task.id : Task → ℤ
  | watch id _ | list id _ => id

inductive Op where
  | recv
  | isLeader
  | etcdProxyEnabled
  | getCurrentRevision
  | addWatch
  | removeWatch (id : ℤ)
  /-- The removal at the end of a range stream. -/
  | closeRange (id : ℤ)
  | send (r : Response)
  | wgAdd
  | go (t : Task)
  | wgDone
  | wgWait
  | syncReadRevision
  | watchBackend (leader : Bool) (key : Bytes) (revision : ℕ)
  | listByStream (key rangeEnd : Bytes) (revision : ℕ)
  | recvEvents (ch : ℕ)
  | recvStream (ch : ℕ)

/-- `send`, `syncReadRevision` and the two calls of the backend may fail. -/
abbrev Op.Res : Op → Type
  | recv => Option Request
  | isLeader | etcdProxyEnabled | send _ | syncReadRevision => Bool
  | getCurrentRevision => ℕ
  | addWatch => ℤ
  | removeWatch _ | closeRange _ | wgAdd | go _ | wgDone | wgWait => Unit
  | watchBackend .. | listByStream .. => Option ℕ
  | recvEvents _ => Option (List EtcdEvent)
  | recvStream _ => Option StreamMessage

abbrev sig : Sig := ⟨Op, Op.Res⟩

abbrev M (α : Type) := Prog sig α

abbrev call (o : Op) : M o.Res := Prog.call (S := sig) o

/-- Where a goroutine is between two passes of its loop. -/
inductive Outcome where
  | receiving
  | closed
  | watching (id : ℤ) (ch : ℕ) (sendErr : Bool)
  | listing (id : ℤ) (ch : ℕ) (r : CreateRequest)
  | done

def cancel (id : ℤ) (compact : Bool) : M Unit := do
  call (.removeWatch id)
  let _ ← call (.send (canceledOf id compact))
  pure ()

def start (r : CreateRequest) : M Unit := do
  let id ← call .addWatch
  if ← call (.send (createdOf id)) then do
    call .wgAdd
    call (.go (if r.startRevision < 0 then .list id r else .watch id r))
  else cancel id false

/-- A watch has to be served by the leader. -/
def misdirected (r : CreateRequest) : M Bool := do
  if 0 ≤ r.startRevision ∧ isPureWatchRequest r.key = true then
    if ← call .isLeader then pure false
    else do
      let proxy ← call .etcdProxyEnabled
      pure !proxy
  else pure false

def close : M Outcome := do
  call .wgWait
  pure .closed

/-- One message of the stream, in `RPCServer.Watch`. -/
def serve : Outcome → M Outcome
  | .receiving => do
    match ← call .recv with
    | none => close
    | some (.create r) =>
      if ← misdirected r then close
      else do
        start r
        pure .receiving
    | some (.cancel id) => do
      cancel id false
      pure .receiving
    | some .progress => do
      let revision ← call .getCurrentRevision
      if ← call (.send (progressOf revision)) then pure .receiving else close
    | some .unsupported => pure .receiving
  | a => pure a

def finish : M Outcome := do
  call .wgDone
  pure .done

/-- `watcher.Watch` up to its loop. -/
def watch (id : ℤ) (r : CreateRequest) : M Outcome := do
  if isPureWatchRequest r.key = true then do
    let leader ← call .isLeader
    match ← call (.watchBackend leader r.key r.startRevision.toNat) with
    | none =>
      cancel id true
      finish
    | some ch => pure (.watching id ch false)
  else do
    cancel id true
    finish

/-- One batch of a watch; after a failed `Send` the channel is only drained. -/
def watchEvents : Outcome → M Outcome
  | .watching id ch sendErr => do
    match ← call (.recvEvents ch) with
    | none =>
      cancel id false
      finish
    | some events =>
      if sendErr = true ∨ events = [] then pure (.watching id ch sendErr)
      else if ← call (.send (eventsOf id events)) then pure (.watching id ch false)
      else do
        cancel id false
        pure (.watching id ch true)
  | a => pure a

/-- `watcher.List` up to its loop. -/
def list (id : ℤ) (r : CreateRequest) : M Outcome := do
  if ← call .syncReadRevision then
    match ← call (.listByStream r.key r.rangeEnd (r.startRevision * -1).toNat) with
    | none =>
      cancel id true
      finish
    | some ch => pure (.listing id ch r)
  else do
    cancel id true
    finish

/-- One message of a range stream. -/
def listEvents : Outcome → M Outcome
  | .listing id ch r => do
    match ← call (.recvStream ch) with
    | none =>
      call (.closeRange id)
      finish
    | some m =>
      if ← call (.send (streamedOf id r m)) then pure (.listing id ch r)
      else do
        cancel id true
        pure (.listing id ch r)
  | a => pure a

abbrev Goroutine := Thread sig Outcome

def goroutine : Task → Goroutine
  | .watch id r => ⟨watch id r, some watchEvents⟩
  | .list id r => ⟨list id r, some listEvents⟩

def server : Goroutine := ⟨.ret .receiving, some serve⟩

/-- `watchID` counts the watches of all streams. -/
structure State where
  watchID : ℕ
  watches : List ℤ
  wg : ℕ
  sent : List Response
  /-- A `Send` has failed. -/
  broken : Bool
  /-- Range streams that have ended and that the client has not canceled since. -/
  ended : List ℤ

inductive Choice where
  | none
  | request (r : Option Request)
  | flag (b : Bool)
  | number (n : ℕ)
  | channel (ch : Option ℕ)
  | events (evs : Option (List EtcdEvent))
  | message (m : Option StreamMessage)

def received (s : State) : Option Request → State
  | some (.cancel id) => { s with ended := s.ended.erase id }
  | _ => s

def exec (s : State) (_ : List (Option Outcome)) (_ : ℕ) :
    (o : Op) → Choice → Option (State × o.Res × Option Goroutine)
  | .recv, .request r => some (received s r, r, none)
  | .isLeader, .flag b => some (s, b, none)
  | .etcdProxyEnabled, .flag b => some (s, b, none)
  | .getCurrentRevision, .number n => some (s, n, none)
  | .addWatch, _ =>
    if s.watchID + 1 < 2 ^ 63 then
      some ({ s with watchID := s.watchID + 1, watches := s.watches ++ [(s.watchID + 1 : ℤ)] },
        s.watchID + 1, none)
    else none
  | .removeWatch id, _ => some ({ s with watches := s.watches.erase id }, (), none)
  | .closeRange id, _ =>
    some ({ s with watches := s.watches.erase id, ended := s.ended ++ [id] }, (), none)
  | .send r, .flag true => some ({ s with sent := s.sent ++ [r] }, true, none)
  | .send _, .flag false => some ({ s with broken := true }, false, none)
  | .wgAdd, _ => some ({ s with wg := s.wg + 1 }, (), none)
  | .go t, _ => some (s, (), some (goroutine t))
  | .wgDone, _ => some ({ s with wg := s.wg - 1 }, (), none)
  | .wgWait, _ => if s.wg = 0 then some (s, (), none) else none
  | .syncReadRevision, .flag b => some (s, b, none)
  | .watchBackend .., .channel ch => some (s, ch, none)
  | .listByStream .., .channel ch => some (s, ch, none)
  | .recvEvents _, .events evs => some (s, evs, none)
  | .recvStream _, .message m => some (s, m, none)
  | _, _ => none

/-- Watches are started on other streams. -/
def env (s : State) : Choice → Option State
  | .none => if s.watchID + 1 < 2 ^ 63 then some { s with watchID := s.watchID + 1 } else none
  | _ => none

def machine : Machine sig Outcome := ⟨State, Choice, exec, env⟩

/-- A stream that a client has opened after `n` watches on other streams. -/
def init (n : ℕ) : Interleaving.Config machine := ⟨⟨n, [], 0, [], false, []⟩, [server]⟩

end KubeBrain.Watcher

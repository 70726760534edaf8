import KubeBrain.Backend.Ops

/-! The write path of `pkg/backend`: dealing revisions, the creator, `Create`, `Update`,
`Delete` and the publication of their results in the event ring buffer. -/
namespace KubeBrain

open Coder

/-- `GetCurrentRevision`, also `tso.GetRevision`. -/
def getCurrentRevision : M ℕ := call .getRevision

/-- `SetCurrentRevision`, that is `tso.Commit`. -/
def setCurrentRevision (revision : ℕ) : M Unit := do
  call (.storeCommitted revision)
  let preTSO ← call .loadDeal
  if preTSO < revision then call (.casDeal preTSO revision) else pure ()

def DealSite.prevRevision : DealSite → ℕ
  | create => 0
  | update p => p
  | delete p => p
  | mustDeal p => p
  | overwrite => 0

/-- The dealt revision is returned even when it is behind the client's. -/
def deal (site : DealSite) : M (ℕ × Option Err) := do
  let rev ← call (.deal site)
  if 0 < site.prevRevision ∧ rev < site.prevRevision then
    pure (rev, some .revisionDriftBack)
  else
    pure (rev, none)

def mustDeal (prevRev : ℕ) : M ℕ := do
  let (rev, _) ← deal (.mustDeal prevRev)
  pure rev

/-- Publish a result in the slot of its revision. The subtraction is unsigned, so a
revision below the current one counts as a full buffer. -/
def notify (key val : Bytes) (revision preRevision : ℕ) (valid : Bool) (eventType : Verb)
    (err : Option Err) : M Unit :=
  if revision = 0 then pure ()
  else do
    let cur ← getCurrentRevision
    if revision < cur ∨ watchersChanCapacity ≤ revision - cur then panics
    else
      call (.ringStore (revision % watchersChanCapacity)
        (some ⟨revision, preRevision, eventType, valid, key, val, err⟩))

namespace Creator

def create (writer : Writer) (revisionKey objectKey value revision : Bytes) (lease : ℤ) :
    M (Option Err) :=
  kvCall (.commit writer [.putIfNotExist revisionKey revision lease, .put objectKey value lease])

def update (writer : Writer) (revisionKey objectKey value newRevision oldRevision : Bytes)
    (lease : ℤ) : M (Option Err) :=
  kvCall (.commit writer [.cas revisionKey newRevision oldRevision lease,
    .put objectKey value lease])

/-- Revision bytes that made a creation fail: the ones in the conflict, or read again. -/
def oldRevision (err : Err) (key : Bytes) : M (Except Err Bytes) :=
  match err with
  | .conflict 0 _ val => pure (.ok val)
  | _ => kvCall (.get (encodeRevisionKey key))

def createWithTTL (key val : Bytes) (revision : ℕ) (ttl : ℤ) : M (Option Err) := do
  let writer := Writer.create key revision
  let revisionKey := encodeRevisionKey key
  let objectKey := encodeObjectKey key revision
  let revisionBytes := uint64ToBytes revision
  match ← create writer revisionKey objectKey val revisionBytes ttl with
  | none => pure none
  | some err =>
    if err.isCASFailed then
      match ← oldRevision err key with
      | .error .keyNotFound => create writer revisionKey objectKey val revisionBytes ttl
      | .error _ => pure (some .unavailable)
      | .ok oldRev =>
        match parseRevision oldRev with
        | .invalidFormat => pure (some .invalidRevFormat)
        | .ok prevRevision isTombstone =>
          if isTombstone ∧ prevRevision < revision then
            update writer revisionKey objectKey val revisionBytes oldRev ttl
          else
            pure (some .casFailed)
    else
      pure (some err)

end Creator

/-- Newest version of a key at or below a revision, tombstones included. -/
def getInternalVal (reader : Reader) (key : Bytes) (revision : ℕ) : M (Except Err (Bytes × ℕ)) := do
  let revision := if revision = 0 then maxUint64 else revision
  match ← kvCall (.iter reader (encodeObjectKey key revision) (encodeObjectKey key 0) 0 1) with
  | .error err => pure (.error err)
  | .ok ⟨[], none⟩ => pure (.error .keyNotFound)
  | .ok ⟨[], some err⟩ => pure (.error err)
  | .ok ⟨(k, v) :: _, _⟩ =>
    match decode k with
    | .panic => panics
    | .ok userKey modRev =>
      if modRev = 0 ∨ userKey ≠ key then pure (.error .keyNotFound) else pure (.ok (v, modRev))
    | _ => pure (.error .keyNotFound)

/-- Newest value of a key at or below a revision that users see. -/
def get (key : Bytes) (revision : ℕ) : M (Except Err (Bytes × ℕ)) := do
  match ← getInternalVal .point key revision with
  | .ok (val, modRevision) =>
    if val = tombStoneBytes then pure (.error .keyNotFound) else pure (.ok (val, modRevision))
  | .error err => pure (.error err)

def create (key value : Bytes) (lease : ℤ) : M (ℕ × Option Err) := do
  match ← deal .create with
  | (_, some err) => pure (0, some err)
  | (revision, none) =>
    let ttl : ℤ := if contains key events then eventsTTL else lease
    let err ← Creator.createWithTTL key value revision ttl
    pure (revision, err)

def update (oldRevision : ℕ) (key value : Bytes) : M (ℕ × Option Err) := do
  match ← deal (.update oldRevision) with
  | (_, some err) => pure (0, some err)
  | (newRevision, none) =>
    let err ← kvCall (.commit (.update key newRevision oldRevision)
      [.cas (encodeRevisionKey key) (uint64ToBytes newRevision) (uint64ToBytes oldRevision) 0,
        .put (encodeObjectKey key newRevision) value 0])
    pure (newRevision, err)

structure KeyVal where
  key : Bytes
  val : Bytes
  revision : ℕ
  deriving DecidableEq

def delete (oldRevision : ℕ) (key : Bytes) : M (ℕ × KeyVal × Option Err) := do
  match ← get key 0 with
  | .error err =>
    let getRev ← mustDeal oldRevision
    pure (getRev, ⟨[], [], 0⟩, some err)
  | .ok (oldVal, modRevision) =>
    match ← deal (.delete oldRevision) with
    | (_, some err) => pure (0, ⟨[], [], 0⟩, some err)
    | (newRevision, none) =>
      let old : KeyVal := ⟨key, oldVal, modRevision⟩
      if 0 < oldRevision ∧ oldRevision ≠ modRevision then
        pure (newRevision, old, some .casFailed)
      else if newRevision ≤ modRevision then
        pure (newRevision, old, some (.newRevisionTooOld newRevision modRevision))
      else
        let expectedRevision := if 0 < oldRevision then oldRevision else modRevision
        let err ← kvCall (.commit (.delete key newRevision expectedRevision)
          [.cas (encodeRevisionKey key) (uint64ToBytes newRevision ++ [0])
              (uint64ToBytes expectedRevision) 0,
            .put (encodeObjectKey key newRevision) tombStoneBytes 0])
        pure (newRevision, old, err)

/-- `Create`. -/
def handleCreate (put : CreateRequest) : M (Except Err CreateResponse) := do
  let (revision, err) ← create put.key put.value put.lease
  notify put.key put.value revision 0 err.isNone .create err
  match err with
  | none => pure (.ok ⟨revision, true⟩)
  | some e => if e.isCASFailed then pure (.ok ⟨revision, false⟩) else pure (.error e)

/-- `Delete`. -/
def handleDelete (r : DeleteRequest) : M (Except Err DeleteResponse) := do
  let (rev, old, err) ← delete r.revision r.key
  notify r.key old.val rev old.revision err.isNone .delete err
  match err with
  | none => pure (.ok ⟨rev, true, some ⟨old.key, old.val, old.revision⟩⟩)
  | some e =>
    if e = .keyNotFound then pure (.ok ⟨rev, false, none⟩)
    else if e.isCASFailed then
      match ← get r.key 0 with
      | .error _ => pure (.ok ⟨rev, false, some ⟨r.key, old.val, old.revision⟩⟩)
      | .ok (val, modRevision) =>
        pure (.ok ⟨max rev modRevision, false, some ⟨r.key, val, modRevision⟩⟩)
    else pure (.error e)

/-- The write of `Update`: an update from revision zero is a creation. -/
def writeUpdate (r : UpdateRequest) : M (ℕ × Option Err) :=
  if r.kv.revision = 0 then do
    let (curRev, err) ← create r.kv.key r.kv.value r.lease
    notify r.kv.key r.kv.value curRev r.kv.revision err.isNone .create err
    pure (curRev, err)
  else do
    let (curRev, err) ← update r.kv.revision r.kv.key r.kv.value
    notify r.kv.key r.kv.value curRev r.kv.revision err.isNone .put err
    pure (curRev, err)

/-- `Update`. -/
def handleUpdate (r : UpdateRequest) : M (Except Err UpdateResponse) := do
  let (curRev, err) ← writeUpdate r
  match err with
  | none => pure (.ok ⟨curRev, true, none⟩)
  | some e =>
    if e.isCASFailed then
      match ← get r.kv.key 0 with
      | .error .keyNotFound => pure (.ok ⟨curRev, false, none⟩)
      | .error getErr => pure (.error getErr)
      | .ok (val, modRevision) =>
        pure (.ok ⟨max curRev modRevision, false, some ⟨r.kv.key, val, modRevision⟩⟩)
    else pure (.error e)

end KubeBrain

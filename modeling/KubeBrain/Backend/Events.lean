import KubeBrain.Backend.Txn

/-! The goroutines behind the writes: the consumer of the event ring buffer and the worker
that overwrites uncertain writes (`pkg/backend/retry`). -/
namespace KubeBrain

open Coder

/-- The event that watchers get for a write event. -/
def WatchEvent.toEvent (w : WatchEvent) : Event :=
  ⟨w.verb, w.revision, ⟨w.key, w.value,
    if w.verb = .delete then w.prevRevision else w.revision⟩⟩

def WatchEvent.isUncertain (w : WatchEvent) : Bool := w.err.any Err.isUncertain

/-- One pass of the inner loop of `collectStorageWriteEvents`: `batch` holds the events
that were found since the last send. -/
def collectStorageWriteEvents (batch : List Event) : M (List Event) :=
  if batch.length < eventBatchSize then do
    let cur ← getCurrentRevision
    match ← call (.ringLoad ((cur + 1) % watchersChanCapacity)) with
    | none =>
      if batch = [] then pure []
      else do
        call (.chanSend batch)
        pure []
    | some watchEvent =>
      call (.ringStore (watchEvent.revision % watchersChanCapacity) none)
      if watchEvent.valid then do
        setCurrentRevision watchEvent.revision
        call (.cacheAdd watchEvent.toEvent)
        pure (batch ++ [watchEvent.toEvent])
      else if watchEvent.isUncertain then do
        call (.queuePush watchEvent)
        setCurrentRevision watchEvent.revision
        pure batch
      else do
        setCurrentRevision watchEvent.revision
        pure batch
  else do
    call (.chanSend batch)
    pure []

/-- The batch of an overwrite; a tombstone keeps the deletion flag in the revision key. -/
def overwriteBatch (key val : Bytes) (rev prevOpRev : ℕ) : List BatchOp :=
  let deleted := decide (val = tombStoneBytes)
  [.cas (encodeRevisionKey key) (indexValue rev deleted) (indexValue prevOpRev deleted) 0,
    .put (encodeObjectKey key rev) val 0]

/-- Write the newest version of a key again, under a new revision, when it is the one that
an uncertain operation wrote. -/
def overwrite (key : Bytes) (prevOpRev : ℕ) : M (ℕ × Option Err) := do
  match ← getInternalVal (.retry prevOpRev) key 0 with
  | .error .keyNotFound => pure (0, none)
  | .error err => pure (0, some err)
  | .ok (val, modRev) =>
    if val = [] ∨ modRev ≠ prevOpRev then pure (0, none)
    else do
      let rev ← call (.deal .overwrite)
      let err ← kvCall (.commit (.overwrite key rev prevOpRev)
        (overwriteBatch key val rev prevOpRev))
      pure (rev, err)

/-- One call of `retry`; the answer tells the loop to wait for the next tick. -/
def retry : M Bool := do
  match ← call .queueHead with
  | none => pure true
  | some (event, time) =>
    let start ← call .now
    if start - time < retryInterval then pure true
    else do
      let (rev, err) ← overwrite event.key event.revision
      if rev = 0 then
        match err with
        | some _ => pure true
        | none =>
          call .queuePop
          pure false
      else do
        notify event.key event.value rev event.prevRevision err.isNone event.verb err
        call .queuePop
        pure false

end KubeBrain

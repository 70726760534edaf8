import KubeBrain.Backend.Txn

/-! Watches: `pkg/backend/watch.go` and the hub that fans batches out to subscribers. -/
namespace KubeBrain

def resultChanLength : ℕ := 100

def watchBuffer : ℕ := 10000

def filterByPrefix (evs : List Event) (p : Bytes) : List Event :=
  evs.filter fun e => p.isPrefixOf e.kv.key

/-- Drop the events before `rev`; the events of a batch are in revision order. -/
def filterByRevision (evs : List Event) (rev : ℕ) : List Event :=
  evs.dropWhile fun e => e.revision < rev

/-- Register a subscriber that is removed when its context is done. -/
def addWatcher (ctx : ℕ) : M ℕ := do
  let sub ← call .addSub
  let _ ← call (.spawn (.deleteWatcherOnDone ctx sub))
  pure sub

/-- Send to each subscriber, or start removing it when its buffer is full. -/
def sendAll (item : List Event) : List ℕ → M Unit
  | [] => pure ()
  | sub :: subs => do
    if ← call (.subSend sub item) then sendAll item subs
    else do
      let _ ← call (.spawn (.deleteWatcher sub))
      sendAll item subs

/-- One pass of `Stream` over the watch channel, which nobody closes. -/
def stream : M Unit := do
  let item ← call .chanRecv
  let subs ← call .hubRLock
  sendAll item subs
  call .hubRUnlock

def sendBatches (out batchSize : ℕ) : ℕ → List Event → M Unit
  | 0, _ => pure ()
  | fuel + 1, evs =>
    if batchSize < evs.length then do
      call (.resultSend out (evs.take batchSize))
      sendBatches out batchSize fuel (evs.drop batchSize)
    else call (.resultSend out evs)

/-- Send cached events in batches that fit the result channel. -/
def catchUpEvents (out : ℕ) (evs : List Event) : M Unit :=
  let batchSize :=
    if resultChanLength * eventBatchSize < evs.length then evs.length / (resultChanLength - 1)
    else eventBatchSize
  sendBatches out batchSize (evs.length + 1) evs

/-- One pass of the loop of `processEvents`. -/
def processEvents (ctx out sub : ℕ) (keyPrefix : Bytes) (revision : ℕ) : M Unit := do
  match ← call (.subRecv sub) with
  | some evs =>
    let evs := filterByPrefix (filterByRevision evs revision) keyPrefix
    if evs = [] then pure () else call (.resultSend out evs)
  | none =>
    call (.resultClose out)
    call (.cancel ctx)
    let e ← call .exit
    nomatch e

/-- `Watch`: the channel of the events from `revision` on. -/
def handleWatch (keyPrefix : Bytes) (revision : ℕ) : M (Except Err ℕ) := do
  let ctx ← call .withCancel
  let sub ← addWatcher ctx
  let out ← call .makeResult
  let live (from_ : ℕ) : M (Except Err ℕ) := do
    let _ ← call (.spawn (.processEvents ctx out sub keyPrefix from_))
    pure (.ok out)
  if revision = 0 then live revision
  else
    match ← call (.cacheFind revision) with
    | .empty =>
      let cur ← getCurrentRevision
      if cur < revision then live revision
      else do
        let currentRevision ← getCurrentRevision
        call (.cancel ctx)
        pure (.error (.emptyCache currentRevision))
    | .high => live revision
    | .low oldest =>
      call (.cancel ctx)
      pure (.error (.tooOld oldest.revision (revision + 1)))
    | .found newest evs =>
      let evs := filterByPrefix evs keyPrefix
      if evs = [] then live revision
      else do
        catchUpEvents out evs
        live (newest.revision + 1)

end KubeBrain

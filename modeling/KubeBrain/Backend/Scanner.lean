import KubeBrain.Backend.Txn
import Mathlib.Data.List.Sort

/-! Range scans and compaction scans: `pkg/backend/scanner`. -/
namespace KubeBrain

open Coder

def scanBackoffSteps : ℕ := 3

def rangeStreamBatch : ℕ := 300

namespace Receiver

def needMore : Receiver → Bool
  | common result limit => if 0 < limit then decide ((result.length : ℤ) < limit) else true
  | _ => true

def append (key value : Bytes) (revision : ℕ) : Receiver → M Receiver
  | empty => pure empty
  | common result limit => pure (common (result ++ [⟨key, value, revision⟩]) limit)
  | stream readRev id batch =>
    let batch := batch ++ [⟨key, value, revision⟩]
    if rangeStreamBatch ≤ batch.length then do
      call (.streamSend id ⟨⟨readRev, batch, true⟩, none⟩)
      pure (stream readRev id [])
    else
      pure (stream readRev id batch)

def flush : Receiver → M Receiver
  | stream readRev id batch =>
    if batch = [] then pure (stream readRev id [])
    else do
      call (.streamSend id ⟨⟨readRev, batch, true⟩, none⟩)
      pure (stream readRev id [])
  | r => pure r

def reset : Receiver → Receiver
  | empty => empty
  | common _ limit => common [] limit
  | stream readRev id _ => stream readRev id []

/-- The receiver of one worker; a forked stream receiver has no read revision. -/
def fork : Receiver → Receiver
  | empty => empty
  | common _ limit => common [] limit
  | stream _ id _ => stream 0 id []

def merge : Receiver → Receiver → Receiver
  | common result limit, common sub _ =>
    if limit ≤ 0 ∨ ((result.length + sub.length : ℕ) : ℤ) ≤ limit then common (result ++ sub) limit
    else common (result ++ sub.take (limit.toNat - result.length)) limit
  | r, _ => r

def close (r : Receiver) : M Receiver :=
  match r with
  | stream .. => r.flush
  | r => pure r

/-- Pairs a common receiver has collected. -/
def result : Receiver → List KeyValue
  | common result _ => result
  | _ => []

end Receiver

namespace Worker

/-- Local state of one run over an iterator. `failedKey` is `lastCompactFailedRawKey`. -/
structure State where
  prevUserKey : Bytes
  prevRevision : ℕ
  prevValue : Bytes
  count : ℕ
  receiver : Receiver
  failedKey : Bytes

def isSkippedRawKey (failedKey rawKey : Bytes) : Bool := failedKey ≠ [] && failedKey = rawKey

def updateSkippedRawKey (failedKey rawKey : Bytes) : Option Err → Bytes
  | none => failedKey
  | some err => if err.isCASFailed then failedKey else rawKey

/-- Delete the pair under the iterator if it is unchanged; returns the key to skip. -/
def compactCurrent (w : WorkerConfig) (key val rawKey failedKey : Bytes) : M Bytes :=
  if isSkippedRawKey failedKey rawKey then pure failedKey
  else do
    let err ← kvCall (.delCurrent w.revision key val)
    pure (updateSkippedRawKey failedKey rawKey err)

/-- Delete a key; returns the key to skip. -/
def compactKey (w : WorkerConfig) (key rawKey failedKey : Bytes) : M Bytes :=
  if isSkippedRawKey failedKey rawKey then pure failedKey
  else do
    let err ← kvCall (.del w.revision key)
    pure (updateSkippedRawKey failedKey rawKey err)

/-- The TTL branch, for storages that do not expire keys: whether the pair is expired. -/
def compactIfExpired (supportTTL : Bool) (w : WorkerConfig) (key rawKey : Bytes) (revision : ℕ)
    (value failedKey : Bytes) : M (Bool × Bytes) :=
  if supportTTL ∨ w.timeoutRevision = 0 ∨ ¬ contains rawKey events then pure (false, failedKey)
  else if revision = 0 then
    if value.length < 8 then panics
    else if Bytes.toNatBE (value.take 8) ≤ w.timeoutRevision then do
      let failedKey ← compactCurrent w key value rawKey failedKey
      pure (true, failedKey)
    else pure (false, failedKey)
  else if revision ≤ w.timeoutRevision then do
    let failedKey ← compactKey w key rawKey failedKey
    pure (true, failedKey)
  else pure (false, failedKey)

/-- The previous version is reported when a new key starts, and deleted when the same key
goes on. -/
def processPrev (w : WorkerConfig) (curUserKey : Bytes) (st : State) : M State :=
  if curUserKey ≠ st.prevUserKey then
    if 0 < st.prevRevision ∧ st.prevValue ≠ tombStoneBytes then do
      let receiver ← st.receiver.append st.prevUserKey st.prevValue st.prevRevision
      pure { st with receiver, count := st.count + 1 }
    else pure st
  else if w.compact ∧ 0 < st.prevRevision then do
    let failedKey ← compactKey w (encodeObjectKey st.prevUserKey st.prevRevision)
      st.prevUserKey st.failedKey
    pure { st with failedKey }
  else pure st

def compactTombstone (w : WorkerConfig) (key value curUserKey : Bytes) (st : State) : M State :=
  if w.compact ∧ value = tombStoneBytes then do
    let failedKey ← compactKey w key curUserKey st.failedKey
    pure { st with failedKey }
  else pure st

/-- Body of the loop for a pair whose key decodes and that is not expired. An index key
whose deletion is newer than the compaction is passed over without a trace. -/
def process (w : WorkerConfig) (key value curUserKey : Bytes) (curRevision : ℕ) (st : State) :
    M State :=
  if w.revision < curRevision then pure st
  else do
    let st ← processPrev w curUserKey st
    let st ← compactTombstone w key value curUserKey st
    if w.compact ∧ curRevision = 0 ∧ value.length = 9 then
      if w.revision < Bytes.toNatBE (value.take 8) then pure st
      else do
        let failedKey ← compactCurrent w key value curUserKey st.failedKey
        pure { st with failedKey, prevUserKey := curUserKey, prevRevision := curRevision,
                       prevValue := value }
    else
      pure { st with prevUserKey := curUserKey, prevRevision := curRevision, prevValue := value }

def step (supportTTL : Bool) (w : WorkerConfig) (key value : Bytes) (st : State) : M State :=
  match decode key with
  | .panic => panics
  | .ok curUserKey curRevision => do
    let (expired, failedKey) ←
      compactIfExpired supportTTL w key curUserKey curRevision value st.failedKey
    if expired then pure { st with failedKey }
    else process w key value curUserKey curRevision { st with failedKey }
  | _ => pure st

/-- How the loop over an iterator ends. -/
inductive Exit where
  | canceled
  | enough
  | ended (err : Option Err)

def loop (supportTTL : Bool) (w : WorkerConfig) (err : Option Err) :
    List (Bytes × Bytes) → State → M (State × Exit)
  | items, st =>
    if st.receiver.needMore then do
      if ← call .ctxDone then pure (st, .canceled)
      else match items with
        | [] => pure (st, .ended err)
        | (key, value) :: items => do
          let st ← step supportTTL w key value st
          loop supportTTL w err items st
    else pure (st, .enough)

/-- Add the last pair and hand over what is left. -/
def finish (st : State) : M (Receiver × ℕ) := do
  if 0 < st.prevRevision ∧ st.prevValue ≠ tombStoneBytes ∧ st.receiver.needMore then do
    let receiver ← st.receiver.append st.prevUserKey st.prevValue st.prevRevision
    let receiver ← receiver.flush
    pure (receiver, st.count + 1)
  else do
    let receiver ← st.receiver.flush
    pure (receiver, st.count)

/-- One attempt over the partition. A run that stops because the receiver has enough
returns a zero count and no error. -/
def run (supportTTL : Bool) (w : WorkerConfig) (receiver : Receiver) (failedKey : Bytes) :
    M (Receiver × Bytes × Except Err ℕ) := do
  let reader : Reader := if w.compact then .compact w.revision else .list w.revision
  match ← kvCall (.iter reader w.partition.start w.partition.stop w.tso 0) with
  | .error err => pure (receiver, failedKey, .error err)
  | .ok it =>
    let (st, exit) ← loop supportTTL w it.err it.items ⟨[], 0, [], 0, receiver.reset, failedKey⟩
    match exit with
    | .canceled => pure (st.receiver, st.failedKey, .error .workerCanceled)
    | .enough => pure (st.receiver, st.failedKey, .ok 0)
    | .ended (some err) => pure (st.receiver, st.failedKey, .error err)
    | .ended none =>
      let (receiver, count) ← finish st
      pure (receiver, st.failedKey, .ok count)

/-- Up to `steps` attempts; `latest` is the error of the last one. -/
def attempts (supportTTL : Bool) (w : WorkerConfig) :
    ℕ → Receiver → Bytes → Err → M (Receiver × Except Err ℕ)
  | 0, receiver, _, latest => pure (receiver, .error (.maxRetry w.idx scanBackoffSteps latest))
  | steps + 1, receiver, failedKey, _ => do
    if ← call .ctxDone then pure (receiver, .error .contextCanceled)
    else
      match ← run supportTTL w receiver failedKey with
      | (receiver, _, .ok count) => pure (receiver, .ok count)
      | (receiver, failedKey, .error err) => attempts supportTTL w steps receiver failedKey err

def runWithBackoffRetry (supportTTL : Bool) (w : WorkerConfig) (receiver : Receiver) :
    M (Receiver × Except Err ℕ) :=
  attempts supportTTL w scanBackoffSteps receiver [] (.other 0)

end Worker

namespace Scanner

/-- End border of a partition that is not the last: moved back to the first internal key
of its user key. -/
def adjustEnd (stop : Bytes) : Option Bytes :=
  match decode stop with
  | .panic => none
  | .ok userKey revision => if revision ≠ 0 then some (encodeRevisionKey userKey) else some stop
  | _ => some stop

def adjustFrom : Option Bytes → List Partition → Option (List Partition)
  | _, [] => some []
  | prevEnd, [p] => some [{ p with start := prevEnd.getD p.start }]
  | prevEnd, p :: q :: ps =>
    match adjustEnd p.stop with
    | none => none
    | some stop =>
      match adjustFrom (some stop) (q :: ps) with
      | none => none
      | some rest => some (⟨prevEnd.getD p.start, stop⟩ :: rest)

/-- No two workers scan internal keys of one user key; `none` is an index out of range. -/
def adjustPartitionsBorders (ps : List Partition) : Option (List Partition) :=
  adjustFrom none (ps.insertionSort fun p q => p.start ≤ q.start)

/-- Set the compact revision, or refuse to read below it. -/
def checkCompactRace (cfg : Config) (revision : ℕ) (compact : Bool) : M (Option Err) :=
  if compact then
    kvCall (.commit (.record revision)
      [.put (getCompactKey cfg.keyPrefix) (uint64ToBytes revision) 0])
  else do
    match ← kvCall (.get (getCompactKey cfg.keyPrefix)) with
    | .error .keyNotFound => pure none
    | .error err => pure (some err)
    | .ok val =>
      if val.length < 8 then panics
      else
        let compactRevision := Bytes.toNatBE (val.take 8)
        if revision < compactRevision then pure (some (.compacted revision compactRevision))
        else pure none

/-- Records at the head of the compact history that are older than the TTL, and the
revision of the last of them. -/
def popExpired (time : ℕ) : List (ℕ × ℕ) → ℕ → ℕ × List (ℕ × ℕ)
  | [], prev => (prev, [])
  | (revision, t) :: rest, prev =>
    if time - t < eventsTTL then (prev, (revision, t) :: rest) else popExpired time rest revision

def getTimeoutRevision (cfg : Config) : M ℕ :=
  if cfg.supportTTL then pure 0
  else do
    let time ← call .now
    call (.historyTimeout time)

/-- Only compactions look at the compact history. -/
def timeoutRevision (cfg : Config) (compact : Bool) : M ℕ :=
  if compact then getTimeoutRevision cfg else pure 0

def spawnAll : List Task → M (List ℕ)
  | [] => pure []
  | t :: ts => do
    let id ← call (.spawn t)
    let ids ← spawnAll ts
    pure (id :: ids)

def joinAll : List ℕ → M (List (Receiver × Except Err ℕ))
  | [] => pure []
  | id :: ids => do
    let r ← call (.join id)
    let rs ← joinAll ids
    pure (r :: rs)

/-- Merge the forked receivers in the order of the partitions, unless a worker failed. -/
def mergeAll (receiver : Receiver) (count : ℕ) :
    List (Receiver × Except Err ℕ) → M (Receiver × Except Err ℕ)
  | [] => pure (receiver, .ok count)
  | (r, c) :: rs => do
    let _ ← r.close
    mergeAll (receiver.merge r) (count + (match c with | .ok n => n | .error _ => 0)) rs

def firstError : List (Receiver × Except Err ℕ) → Option Err
  | [] => none
  | (_, .error err) :: _ => some err
  | _ :: rs => firstError rs

def workers (ps : List Partition) (tso revision : ℕ) (compact : Bool) (timeoutRevision : ℕ)
    (receiver : Receiver) : List Task :=
  ps.mapIdx fun idx partition =>
    .worker ⟨idx, partition, tso, revision, compact, timeoutRevision⟩ receiver.fork

/-- Scan a range with one worker for each partition. -/
def scan (cfg : Config) (start stop : Bytes) (revision : ℕ) (compact : Bool)
    (receiver : Receiver) : M (Receiver × Except Err ℕ) := do
  match ← kvCall .getTimestampOracle with
  | .error err => pure (receiver, .error err)
  | .ok tso =>
    match ← checkCompactRace cfg revision compact with
    | some err => pure (receiver, .error err)
    | none =>
      match ← kvCall (.getPartitions start stop) with
      | .error err => pure (receiver, .error err)
      | .ok ps =>
        match adjustPartitionsBorders ps with
        | none => panics
        | some ps =>
          let timeout ← timeoutRevision cfg compact
          let ids ← spawnAll (workers ps tso revision compact timeout receiver)
          let results ← joinAll ids
          match firstError results with
          | some err => pure (receiver, .error err)
          | none => mergeAll receiver 0 results

def rangeWithLimit (cfg : Config) (start stop : Bytes) (revision : ℕ) (limit : ℤ) :
    M (Except Err (List KeyValue)) := do
  match ← kvCall .getTimestampOracle with
  | .error err => pure (.error err)
  | .ok tso =>
    match ← checkCompactRace cfg revision false with
    | some err => pure (.error err)
    | none =>
      match ← Worker.run cfg.supportTTL ⟨0, ⟨start, stop⟩, tso, revision, false, 0⟩
          (.common [] limit) [] with
      | (_, _, .error err) => pure (.error err)
      | (receiver, _, .ok _) => pure (.ok receiver.result)

def range (cfg : Config) (start stop : Bytes) (revision : ℕ) (limit : ℤ) :
    M (Except Err (List KeyValue)) :=
  if 0 < limit then rangeWithLimit cfg start stop revision limit
  else do
    match ← scan cfg start stop revision false (.common [] 0) with
    | (_, .error err) => pure (.error err)
    | (receiver, .ok _) => pure (.ok receiver.result)

def count (cfg : Config) (start stop : Bytes) (revision : ℕ) : M (Except Err ℕ) := do
  let (_, r) ← scan cfg start stop revision false .empty
  pure r

/-- The goroutine of `RangeStream`. -/
def rangeStream (cfg : Config) (start stop : Bytes) (revision stream : ℕ) : M Unit := do
  let (_, r) ← scan cfg start stop revision false (.stream revision stream [])
  let err := match r with | .ok _ => none | .error e => some e
  call (.streamSend stream ⟨⟨revision, [], false⟩, err⟩)
  call (.streamClose stream)

/-- `Compact` of the scanner; its outcome is dropped. -/
def compact (cfg : Config) (start stop : Bytes) (revision : ℕ) : M Unit := do
  let time ← call .now
  call (.historyPush revision time)
  let _ ← scan cfg start stop revision true .empty
  pure ()

end Scanner
end KubeBrain

import KubeBrain.Coder

/-! The storage interface of `pkg/storage`: its errors, the operations of a batch and the
calls the backend makes. -/
namespace KubeBrain

/-- Error values that the backend tells apart. An uncertain result wraps an error of the
engine's client, which is never a failed compare. -/
inductive Err where
  | keyNotFound
  | casFailed
  | conflict (idx : ℕ) (key val : Bytes)
  | uncertain (origin : ℕ)
  | unavailable
  | invalidRevFormat
  | revisionDriftBack
  | newRevisionTooOld (newRevision modRevision : ℕ)
  | invalidNilEnd
  | invalidRangeEnd
  | compacted (revision compactRevision : ℕ)
  | contextCanceled
  | workerCanceled
  | maxRetry (idx steps : ℕ) (latest : Err)
  | emptyCache (currentRevision : ℕ)
  | tooOld (oldest requested : ℕ)
  | other (n : ℕ)
  deriving DecidableEq, Repr

namespace Err

/-- `errors.Is(err, ErrCASFailed)`. -/
def isCASFailed : Err → Bool
  | casFailed | conflict .. => true
  | _ => false

/-- `errors.Is(err, ErrUncertainResult)`. -/
def isUncertain : Err → Bool
  | uncertain _ => true
  | _ => false

end Err

/-- Operations of a `BatchWrite`. -/
inductive BatchOp where
  | putIfNotExist (key val : Bytes) (ttl : ℤ)
  | cas (key newVal oldVal : Bytes) (ttl : ℤ)
  | put (key val : Bytes) (ttl : ℤ)
  | del (key : Bytes)
  deriving DecidableEq, Repr

/-- The caller of a batch commit, with the revisions it works with. Storages ignore it. -/
inductive Writer where
  | create (key : Bytes) (rev : ℕ)
  | update (key : Bytes) (rev expected : ℕ)
  | delete (key : Bytes) (rev expected : ℕ)
  | overwrite (key : Bytes) (rev observed : ℕ)
  | record (rev : ℕ)
  deriving DecidableEq, Repr

/-- The caller of an iteration. Storages ignore it. -/
inductive Reader where
  | point
  | retry (prevOpRev : ℕ)
  | list (rev : ℕ)
  | compact (rev : ℕ)
  deriving DecidableEq, Repr

structure Partition where
  start : Bytes
  stop : Bytes
  deriving DecidableEq, Repr

/-- What draining an iterator yields: the pairs, and the error it stopped with if it did
not reach the end. -/
structure Iter where
  items : List (Bytes × Bytes)
  err : Option Err
  deriving DecidableEq, Repr

/-- Calls on a `KvStorage`. Deletions carry the revision of the compaction they belong to. -/
inductive KvOp where
  | getTimestampOracle
  | getPartitions (start stop : Bytes)
  | get (key : Bytes)
  | iter (reader : Reader) (start stop : Bytes) (timestamp limit : ℕ)
  | commit (writer : Writer) (batch : List BatchOp)
  | del (gcRev : ℕ) (key : Bytes)
  | delCurrent (gcRev : ℕ) (key val : Bytes)
  deriving DecidableEq, Repr

abbrev KvOp.Res : KvOp → Type
  | getTimestampOracle => Except Err ℕ
  | getPartitions .. => Except Err (List Partition)
  | get _ => Except Err Bytes
  | iter .. => Except Err Iter
  | commit .. => Option Err
  | del .. => Option Err
  | delCurrent .. => Option Err

/-- A storage as the backend sees it: any state, any nondeterminism. -/
structure KvStorage where
  State : Type
  Choice : Type
  exec : State → (o : KvOp) → Choice → Option (State × o.Res)
  env : State → Choice → Option State

end KubeBrain

import KubeBrain.Lib.SortedMap
import KubeBrain.Storage.Interface

/-! A storage engine that meets the interface: a sorted map with atomic batches, snapshots
by timestamp, batches whose fate the client does not learn, and calls that fail. -/
namespace KubeBrain

abbrev Store := SortedMap Bytes Bytes

namespace BatchOp

/-- The key that an operation of a batch writes. -/
def key : BatchOp → Bytes
  | putIfNotExist key .. | cas key .. | put key .. | del key => key

/-- Effect of one operation of a batch; `none` is a failed compare. -/
def apply (s : Store) : BatchOp → Option Store
  | putIfNotExist key val _ => if s.get key = none then some (s.insert key val) else none
  | cas key newVal oldVal _ => if s.get key = some oldVal then some (s.insert key newVal) else none
  | put key val _ => some (s.insert key val)
  | del key => some (s.erase key)

/-- A batch takes effect as a whole or not at all. -/
def applyAll (s : Store) : List BatchOp → Option Store
  | [] => some s
  | o :: os => match o.apply s with
    | none => none
    | some s' => applyAll s' os

end BatchOp

structure Batch where
  writer : Writer
  ops : List BatchOp
  deriving DecidableEq

namespace Engine

/-- Which store an iterator reads: the one its timestamp names, or the current one. -/
inductive Policy where
  | atTimestamp
  | atCreation
  deriving DecidableEq

structure State where
  now : Store
  /-- Earlier contents, oldest first; timestamps count from one. -/
  past : List Store
  /-- Batches that were answered with an uncertain error and are still undecided. -/
  pending : List Batch
  /-- Batches that took effect, each with the contents it met. -/
  landed : List (Batch × Store)
  /-- Greatest revision of a compaction that has called a deletion. -/
  gcRev : ℕ

inductive Choice where
  | ok
  | fail (e : Err)
  /-- The call takes effect and an error is returned. -/
  | failApplied (e : Err)
  /-- The iterator stops early. -/
  | stopAfter (n : ℕ) (e : Err)
  | partitions (ps : List Partition)
  | pend (origin : ℕ)
  | landPending (i : ℕ)
  | discardPending (i : ℕ)

def init (s : Store) : State := ⟨s, [], [], [], 0⟩

namespace State

/-- Replace the contents. -/
def write (s : State) (now : Store) : State := { s with now, past := s.past ++ [s.now] }

def timestamp (s : State) : ℕ := s.past.length + 1

def snapshot (s : State) (ts : ℕ) : Store :=
  if ts = 0 then s.now else ((s.past ++ [s.now])[ts - 1]?).getD s.now

/-- A batch takes effect, when its compares hold. -/
def land (s : State) (b : Batch) : Option State :=
  match BatchOp.applyAll s.now b.ops with
  | none => none
  | some now => some { s.write now with landed := s.landed ++ [(b, s.now)] }

end State

/-- Pairs of an iterator, ascending in `[start, stop)` or, for `stop < start`, descending
in `(stop, start]`. -/
def items (s : Store) (start stop : Bytes) (limit : ℕ) : List (Bytes × Bytes) :=
  let all := if stop < start then s.rangeDesc start stop else s.range start stop
  if limit = 0 then all else all.take limit

def execIter (p : Policy) (s : State) (start stop : Bytes) (ts limit : ℕ) :
    Choice → Option (Except Err Iter)
  | .ok => some (.ok ⟨view, none⟩)
  | .fail e => if e = .keyNotFound then none else some (.error e)
  | .stopAfter n e => if e = .keyNotFound then none else some (.ok ⟨view.take n, some e⟩)
  | _ => none
where
  view := match p with
    | .atTimestamp => items (s.snapshot ts) start stop limit
    | .atCreation => items s.now start stop limit

/-- Some compare of the batch is with a key that is not there. -/
def misses (s : Store) (b : Batch) : Bool :=
  b.ops.any fun
    | .cas key .. => decide (s.get key = none)
    | _ => false

def execCommit (s : State) (b : Batch) : Choice → Option (State × Option Err)
  | .ok => (s.land b).map fun s' => (s', none)
  | .fail e =>
    if e.isUncertain ∨ e = .keyNotFound ∧ misses s.now b = false then none else some (s, some e)
  | .failApplied e => if e.isUncertain then (s.land b).map fun s' => (s', some e) else none
  | .pend origin => some ({ s with pending := s.pending ++ [b] }, some (.uncertain origin))
  | _ => none

def execDel (s : State) (gcRev : ℕ) (key : Bytes) : Choice → Option (State × Option Err)
  | .ok => some ({ s.write (s.now.erase key) with gcRev := max s.gcRev gcRev }, none)
  | .fail e => if e.isCASFailed then none
      else some ({ s with gcRev := max s.gcRev gcRev }, some e)
  | .failApplied e => if e.isCASFailed then none
      else some ({ s.write (s.now.erase key) with gcRev := max s.gcRev gcRev }, some e)
  | _ => none

/-- Deletion of a pair that must be unchanged since the iterator read it. -/
def execDelCurrent (s : State) (gcRev : ℕ) (key val : Bytes) (ch : Choice) :
    Option (State × Option Err) :=
  if s.now.get key = some val then execDel s gcRev key ch
  else match ch with
    | .fail e => some ({ s with gcRev := max s.gcRev gcRev }, some e)
    | _ => none

def exec (p : Policy) (s : State) : (o : KvOp) → Choice → Option (State × o.Res)
  | .getTimestampOracle, .ok => some (s, .ok s.timestamp)
  | .getTimestampOracle, .fail e => some (s, .error e)
  | .getPartitions .., .partitions ps => some (s, .ok ps)
  | .getPartitions .., .fail e => some (s, .error e)
  | .get key, .ok => some (s, match s.now.get key with
      | none => .error .keyNotFound
      | some v => .ok v)
  | .get _, .fail e => if e = .keyNotFound then none else some (s, .error e)
  | .iter _ start stop ts limit, ch => (execIter p s start stop ts limit ch).map fun r => (s, r)
  | .commit w ops, ch => execCommit s ⟨w, ops⟩ ch
  | .del gcRev key, ch => execDel s gcRev key ch
  | .delCurrent gcRev key val, ch => execDelCurrent s gcRev key val ch
  | _, _ => none

/-- Undecided batches take effect or are dropped at any moment. -/
def env (s : State) : Choice → Option State
  | .landPending i => match s.pending[i]? with
    | none => none
    | some b => ({ s with pending := s.pending.eraseIdx i }).land b
  | .discardPending i => match s.pending[i]? with
    | none => none
    | some _ => some { s with pending := s.pending.eraseIdx i }
  | _ => none

end Engine

/-- The engine as a storage. -/
def engine (p : Engine.Policy) : KvStorage where
  State := Engine.State
  Choice := Engine.Choice
  exec := Engine.exec p
  env := Engine.env

end KubeBrain

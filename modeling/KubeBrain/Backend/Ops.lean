import KubeBrain.Lib.Prog
import KubeBrain.Storage.Interface
import KubeBrain.Backend.Ring

/-! Data of the leader's goroutines and the atomic operations they are made of. A
goroutine is a program over these operations; `Leader` gives them their meaning. -/
namespace KubeBrain

open Interleaving

def watchersChanCapacity : ℕ := 100000

def eventBatchSize : ℕ := 300

def historyCapacity : ℕ := 200000

/-- The bytes of `tombstone`. -/
def tombStoneBytes : Bytes := [116, 111, 109, 98, 115, 116, 111, 110, 101]

/-- The bytes of `/events/`. -/
def events : Bytes := [47, 101, 118, 101, 110, 116, 115, 47]

/-- Seconds. -/
def eventsTTL : ℕ := 3600

def retryInterval : ℕ := 5

def contains (b sub : Bytes) : Bool := b.tails.any fun t => sub.isPrefixOf t

/-- `backend.Config`, and whether the storage in use expires keys itself. -/
structure Config where
  enableEtcdCompatibility : Bool
  keyPrefix : Bytes
  skippedPrefixes : List Bytes
  watchCacheSize : ℤ
  supportTTL : Bool

/-- `Config.complete`. -/
def Config.cacheSize (c : Config) : ℕ :=
  if c.watchCacheSize ≤ 0 then historyCapacity else c.watchCacheSize.toNat

theorem Config.cacheSize_pos (c : Config) : 0 < c.cacheSize := by
  unfold cacheSize historyCapacity
  split <;> omega

/-- `{prefix}/compact_key`. -/
def getCompactKey (keyPrefix : Bytes) : Bytes :=
  keyPrefix ++ [47, 99, 111, 109, 112, 97, 99, 116, 95, 107, 101, 121]

/-- The write event that `notify` publishes in the ring buffer. -/
structure WatchEvent where
  revision : ℕ
  prevRevision : ℕ
  verb : Verb
  valid : Bool
  key : Bytes
  value : Bytes
  err : Option Err
  deriving DecidableEq, Repr

structure CreateRequest where
  key : Bytes
  value : Bytes
  lease : ℤ

structure UpdateRequest where
  kv : KeyValue
  lease : ℤ

structure DeleteRequest where
  key : Bytes
  revision : ℕ

structure GetRequest where
  key : Bytes
  revision : ℕ

structure RangeRequest where
  key : Bytes
  stop : Bytes
  revision : ℕ
  limit : ℤ

structure CreateResponse where
  header : ℕ
  succeeded : Bool
  deriving DecidableEq

structure UpdateResponse where
  header : ℕ
  succeeded : Bool
  kv : Option KeyValue
  deriving DecidableEq

structure DeleteResponse where
  header : ℕ
  succeeded : Bool
  kv : Option KeyValue
  deriving DecidableEq

structure GetResponse where
  header : ℕ
  kv : Option KeyValue
  deriving DecidableEq

structure RangeResponse where
  header : ℕ
  kvs : List KeyValue
  more : Bool
  deriving DecidableEq

structure StreamRangeResponse where
  range : RangeResponse
  err : Option Err
  deriving DecidableEq

/-- Where scan workers put what they find. -/
inductive Receiver where
  | empty
  | common (result : List KeyValue) (limit : ℤ)
  | stream (readRev : ℕ) (id : ℕ) (batch : List KeyValue)
  deriving DecidableEq

structure WorkerConfig where
  idx : ℕ
  partition : Partition
  tso : ℕ
  revision : ℕ
  compact : Bool
  timeoutRevision : ℕ
  deriving DecidableEq

inductive Request where
  | create (r : CreateRequest)
  | update (r : UpdateRequest)
  | delete (r : DeleteRequest)
  | get (r : GetRequest)
  | list (r : RangeRequest)
  | count (key stop : Bytes)
  | compact (revision : ℕ)
  | watch (keyPrefix : Bytes) (revision : ℕ)
  | listByStream (start stop : Bytes) (revision : ℕ)

/-- Goroutines that are started while the leader runs. -/
inductive Task where
  | request (r : Request)
  | worker (w : WorkerConfig) (receiver : Receiver)
  | rangeStream (start stop : Bytes) (revision : ℕ) (stream : ℕ)
  | processEvents (ctx out sub : ℕ) (keyPrefix : Bytes) (revision : ℕ)
  | deleteWatcher (sub : ℕ)
  | deleteWatcherOnDone (ctx sub : ℕ)

/-- What a goroutine returns. -/
inductive Outcome where
  | none
  | batch (events : List Event)
  | created (r : Except Err CreateResponse)
  | updated (r : Except Err UpdateResponse)
  | deleted (r : Except Err DeleteResponse)
  | got (r : Except Err GetResponse)
  | listed (r : Except Err RangeResponse)
  | counted (r : Except Err (ℕ × ℕ))
  | compacted (header : ℕ) (err : Option Err)
  | watching (r : Except Err ℕ)
  | streaming (stream : ℕ)
  | scanned (receiver : Receiver) (r : Except Err ℕ)
  deriving DecidableEq

/-- The call of `Deal`, with the revision of the client's request where there is one. -/
inductive DealSite where
  | create
  | update (prevRevision : ℕ)
  | delete (prevRevision : ℕ)
  | mustDeal (prevRevision : ℕ)
  | overwrite
  deriving DecidableEq

inductive Op where
  -- tso
  | deal (site : DealSite)
  | getRevision
  | storeCommitted (revision : ℕ)
  | loadDeal
  | casDeal (old new : ℕ)
  -- storage
  | kv (o : KvOp)
  -- event ring buffer
  | ringLoad (idx : ℕ)
  | ringStore (idx : ℕ) (ev : Option WatchEvent)
  -- retry queue
  | queuePush (ev : WatchEvent)
  | queueHead
  | queuePop
  | now
  -- watch cache and watch channel
  | cacheAdd (e : Event)
  | cacheFind (revision : ℕ)
  | chanSend (batch : List Event)
  | chanRecv
  -- watcher hub
  | addSub
  | deleteSub (sub : ℕ)
  | hubRLock
  | hubRUnlock
  | subSend (sub : ℕ) (item : List Event)
  | subRecv (sub : ℕ)
  -- contexts and the channels handed to clients
  | withCancel
  | cancel (ctx : ℕ)
  | waitDone (ctx : ℕ)
  | makeResult
  | resultSend (out : ℕ) (events : List Event)
  | resultClose (out : ℕ)
  | makeStream
  | streamSend (stream : ℕ) (resp : StreamRangeResponse)
  | streamClose (stream : ℕ)
  -- compact history
  | historyPush (revision time : ℕ)
  | historyTimeout (time : ℕ)
  -- leader election
  | isLeader
  -- goroutines
  | ctxDone
  | accept
  | spawn (t : Task)
  | join (thread : ℕ)
  | exit
  | panic

abbrev Op.Res : Op → Type
  | deal _ => ℕ
  | getRevision => ℕ
  | loadDeal => ℕ
  | kv o => o.Res
  | ringLoad _ => Option WatchEvent
  | queueHead => Option (WatchEvent × ℕ)
  | now => ℕ
  | cacheFind _ => Ring.FindRet
  | chanRecv => List Event
  | addSub => ℕ
  | hubRLock => List ℕ
  | subSend .. => Bool
  | subRecv _ => Option (List Event)
  | withCancel => ℕ
  | makeResult => ℕ
  | makeStream => ℕ
  | historyTimeout _ => ℕ
  | isLeader => Bool
  | ctxDone => Bool
  | spawn _ => ℕ
  | join _ => Receiver × Except Err ℕ
  | exit => Empty
  | panic => Empty
  | _ => Unit

abbrev sig : Sig := ⟨Op, Op.Res⟩

/-- Programs of the leader's goroutines. -/
abbrev M (α : Type) := Prog sig α

abbrev call (o : Op) : M o.Res := Prog.call (S := sig) o

abbrev kvCall (o : KvOp) : M o.Res := call (.kv o)

/-- A Go panic ends the goroutine and, with nobody recovering, the process. -/
def panics {α : Type} : M α := do
  let e ← call .panic
  nomatch e

end KubeBrain

import KubeBrain.Storage.Engine
import KubeBrain.Backend.Events
import KubeBrain.Backend.Range
import KubeBrain.Backend.Watch

/-! The leader as a machine: its shared state, the meaning of the atomic operations and
the goroutines it starts with. Requests arrive at any time. -/
namespace KubeBrain

open Interleaving

/-- Channel of a subscriber of the hub; it is closed when the subscriber is removed. -/
structure Sub where
  buf : List (List Event)
  registered : Bool

/-- Channel of a watch, with what its client has received. -/
structure ResultChan where
  buf : List (List Event)
  closed : Bool
  delivered : List (List Event)

/-- What has happened so far. No operation reads it. -/
structure Journal where
  /-- Dealt revisions, with the goroutine that got them. -/
  dealt : List (ℕ × ℕ)
  notified : List WatchEvent
  /-- Events that were in a slot when another one was published there. -/
  clobbered : List WatchEvent
  commits : List ℕ
  appended : List WatchEvent
  added : List Event
  sent : List (List Event)

structure LeaderState (K : KvStorage) where
  committedRevision : ℕ
  dealRevision : ℕ
  kv : K.State
  ring : ℕ → Option WatchEvent
  queue : List (WatchEvent × ℕ)
  clock : ℕ
  cache : Ring
  watchChan : List (List Event)
  subs : List Sub
  /-- The hub holds its read lock. -/
  streaming : Bool
  contexts : List Bool
  results : List ResultChan
  streams : List (List StreamRangeResponse × Bool)
  compactHistories : List (ℕ × ℕ)
  journal : Journal

/-- What a scheduler decides besides the next goroutine. -/
inductive LeaderChoice (K : KvStorage) where
  | none
  | kv (c : K.Choice)
  | flag (b : Bool)
  | order (subs : List ℕ)
  | request (r : Request)
  | tick
  | cancel (ctx : ℕ)
  | receive (out : ℕ)

namespace Leader

def handle (cfg : Config) : Request → M Outcome
  | .create r => do let a ← handleCreate r; pure (.created a)
  | .update r => do let a ← handleUpdate r; pure (.updated a)
  | .delete r => do let a ← handleDelete r; pure (.deleted a)
  | .get r => do let a ← handleGet r; pure (.got a)
  | .list r => do let a ← handleList cfg r; pure (.listed a)
  | .count key stop => do let a ← handleCount cfg key stop; pure (.counted a)
  | .compact revision => do let (h, err) ← handleCompact cfg revision; pure (.compacted h err)
  | .watch p revision => do let a ← handleWatch p revision; pure (.watching a)
  | .listByStream start stop rev => do
    let a ← handleListByStream start stop rev
    pure (.streaming a)

abbrev Goroutine := Thread sig Outcome

def goroutine (cfg : Config) : Task → Goroutine
  | .request r => ⟨handle cfg r, none⟩
  | .worker w receiver =>
    ⟨do let (receiver, r) ← Worker.runWithBackoffRetry cfg.supportTTL w receiver
        pure (.scanned receiver r), none⟩
  | .rangeStream start stop revision stream =>
    ⟨do Scanner.rangeStream cfg start stop revision stream; pure .none, none⟩
  | .processEvents ctx out sub p revision =>
    ⟨.ret .none, some fun _ => do processEvents ctx out sub p revision; pure .none⟩
  | .deleteWatcher sub => ⟨do call (.deleteSub sub); pure .none, none⟩
  | .deleteWatcherOnDone ctx sub =>
    ⟨do call (.waitDone ctx); call (.deleteSub sub); pure .none, none⟩

def consumer : Goroutine where
  prog := .ret (.batch [])
  again := some fun a => match a with
    | .batch evs => do let evs ← collectStorageWriteEvents evs; pure (.batch evs)
    | a => pure a

def retryWorker : Goroutine where
  prog := .ret .none
  again := some fun _ => do let _ ← retry; pure .none

def hub : Goroutine where
  prog := .ret .none
  again := some fun _ => do stream; pure .none

/-- The RPC server accepts requests. -/
def server : Goroutine where
  prog := .ret .none
  again := some fun _ => do call .accept; pure .none

variable {K : KvStorage}

abbrev State (K : KvStorage) := LeaderState K

abbrev Choice (K : KvStorage) := LeaderChoice K

def pushItem (item : List Event) (s : Sub) : Sub := { s with buf := s.buf ++ [item] }

/-- Identifiers of the registered subscribers. -/
def registered (subs : List Sub) : List ℕ :=
  (List.range subs.length).filter fun i => (subs[i]?).any Sub.registered

/-- Publish an event in a slot, or clear it. -/
def storeSlot (s : State K) (idx : ℕ) : Option WatchEvent → State K
  | none => { s with ring := Function.update s.ring idx none }
  | some ev =>
    { s with
      ring := Function.update s.ring idx (some ev)
      journal := { s.journal with
        notified := s.journal.notified ++ [ev]
        clobbered := s.journal.clobbered ++ (s.ring idx).toList } }

def execSub (s : State K) (sub : ℕ) : Option (State K × Option (List Event)) :=
  match s.subs[sub]? with
  | none => none
  | some ⟨item :: rest, reg⟩ => some ({ s with subs := s.subs.set sub ⟨rest, reg⟩ }, some item)
  | some ⟨[], true⟩ => none
  | some ⟨[], false⟩ => some (s, none)

def execResult (s : State K) (out : ℕ) (evs : List Event) : Option (State K) :=
  match s.results[out]? with
  | none => none
  | some r =>
    if r.closed ∨ resultChanLength ≤ r.buf.length then none
    else some { s with results := s.results.set out { r with buf := r.buf ++ [evs] } }

def exec (cfg : Config) (s : State K) (outs : List (Option Outcome)) (i : ℕ) :
    (o : Op) → Choice K → Option (State K × o.Res × Option Goroutine)
  | .deal _, _ =>
    if s.dealRevision + 1 < 2 ^ 63 then
      some ({ s with
        dealRevision := s.dealRevision + 1
        journal := { s.journal with dealt := s.journal.dealt ++ [(i, s.dealRevision + 1)] } },
        s.dealRevision + 1, none)
    else none
  | .getRevision, _ => some (s, s.committedRevision, none)
  | .storeCommitted revision, _ =>
    some ({ s with
      committedRevision := revision
      journal := { s.journal with commits := s.journal.commits ++ [revision] } }, (), none)
  | .loadDeal, _ => some (s, s.dealRevision, none)
  | .casDeal old new, _ =>
    some ({ s with dealRevision := if s.dealRevision = old then new else s.dealRevision }, (), none)
  | .kv o, .kv c => (K.exec s.kv o c).map fun (kv, r) => ({ s with kv }, r, none)
  | .ringLoad idx, _ => some (s, s.ring idx, none)
  | .ringStore idx ev, _ => some (storeSlot s idx ev, (), none)
  | .queuePush ev, _ =>
    some ({ s with
      queue := s.queue ++ [(ev, s.clock)]
      journal := { s.journal with appended := s.journal.appended ++ [ev] } }, (), none)
  | .queueHead, _ => some (s, s.queue.head?, none)
  | .queuePop, _ => if s.queue = [] then none else some ({ s with queue := s.queue.tail }, (), none)
  | .now, _ => some (s, s.clock, none)
  | .cacheAdd e, _ =>
    some ({ s with
      cache := s.cache.add e
      journal := { s.journal with added := s.journal.added ++ [e] } }, (), none)
  | .cacheFind revision, _ => some (s, s.cache.findEvents revision, none)
  | .chanSend batch, _ =>
    if s.watchChan.length < watchersChanCapacity then
      some ({ s with
        watchChan := s.watchChan ++ [batch]
        journal := { s.journal with sent := s.journal.sent ++ [batch] } }, (), none)
    else none
  | .chanRecv, _ => match s.watchChan with
    | [] => none
    | batch :: rest => some ({ s with watchChan := rest }, batch, none)
  | .addSub, _ =>
    if s.streaming then none
    else some ({ s with subs := s.subs ++ [⟨[], true⟩] }, s.subs.length, none)
  | .deleteSub sub, _ =>
    if s.streaming then none
    else
      some ({ s with subs := s.subs.modify sub fun x => { x with registered := false } }, (), none)
  | .hubRLock, .order subs =>
    if subs.isPerm (registered s.subs) then some ({ s with streaming := true }, subs, none)
    else none
  | .hubRUnlock, _ => some ({ s with streaming := false }, (), none)
  | .subSend sub item, _ =>
    if (s.subs[sub]?).any fun x => decide (x.buf.length < watchBuffer) then
      some ({ s with subs := s.subs.modify sub (pushItem item) }, true, none)
    else some (s, false, none)
  | .subRecv sub, _ => (execSub s sub).map fun (s, r) => (s, r, none)
  | .withCancel, _ => some ({ s with contexts := s.contexts ++ [false] }, s.contexts.length, none)
  | .cancel ctx, _ => some ({ s with contexts := s.contexts.set ctx true }, (), none)
  | .waitDone ctx, _ => if s.contexts[ctx]? = some true then some (s, (), none) else none
  | .makeResult, _ =>
    some ({ s with results := s.results ++ [⟨[], false, []⟩] }, s.results.length, none)
  | .resultSend out evs, _ => (execResult s out evs).map fun s => (s, (), none)
  | .resultClose out, _ =>
    some ({ s with results := s.results.modify out fun r => { r with closed := true } }, (), none)
  | .makeStream, _ =>
    some ({ s with streams := s.streams ++ [([], false)] }, s.streams.length, none)
  | .streamSend stream resp, _ =>
    some ({ s with streams := s.streams.modify stream fun x => (x.1 ++ [resp], x.2) }, (), none)
  | .streamClose stream, _ =>
    some ({ s with streams := s.streams.modify stream fun x => (x.1, true) }, (), none)
  | .historyPush revision time, _ =>
    some ({ s with compactHistories := s.compactHistories ++ [(revision, time)] }, (), none)
  | .historyTimeout time, _ =>
    let r := Scanner.popExpired time s.compactHistories 0
    some ({ s with compactHistories := r.2 }, r.1, none)
  | .isLeader, .flag b => some (s, b, none)
  | .ctxDone, .flag b => some (s, b, none)
  | .accept, .request r => some (s, (), some (goroutine cfg (.request r)))
  | .spawn t, _ => some (s, outs.length, some (goroutine cfg t))
  | .join thread, _ => match outs[thread]? with
    | some (some (.scanned receiver r)) => some (s, (receiver, r), none)
    | _ => none
  | _, _ => none

/-- Time passes, clients cancel and receive, and the storage moves on its own. -/
def env (s : State K) : Choice K → Option (State K)
  | .tick => some { s with clock := s.clock + 1 }
  | .cancel ctx => some { s with contexts := s.contexts.set ctx true }
  | .receive out => match s.results[out]? with
    | some ⟨evs :: rest, closed, delivered⟩ =>
      some { s with results := s.results.set out ⟨rest, closed, delivered ++ [evs]⟩ }
    | _ => none
  | .kv c => (K.env s.kv c).map fun kv => { s with kv }
  | _ => none

end Leader

/-- The machine on which the goroutines of a leader run. -/
def leader (cfg : Config) (K : KvStorage) : Machine sig Outcome where
  State := LeaderState K
  Choice := LeaderChoice K
  exec := Leader.exec cfg
  env := Leader.env

namespace Leader

/-- State of a node whose sequencer starts at `start`. -/
def initState (cfg : Config) (K : KvStorage) (start : ℕ) (kv : K.State) : State K where
  committedRevision := start
  dealRevision := start
  kv := kv
  ring := fun _ => none
  queue := []
  clock := 0
  cache := Ring.new cfg.cacheSize cfg.cacheSize_pos
  watchChan := []
  subs := []
  streaming := false
  contexts := []
  results := []
  streams := []
  compactHistories := []
  journal := ⟨[], [], [], [], [], [], []⟩

def init (cfg : Config) (K : KvStorage) (start : ℕ) (kv : K.State) :
    Interleaving.Config (leader cfg K) :=
  ⟨initState cfg K start kv, [consumer, retryWorker, hub, server]⟩

end Leader
end KubeBrain

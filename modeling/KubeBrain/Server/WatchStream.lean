import KubeBrain.Watch.Delivery

/-! A watch stream of the etcd server on the leader (`pkg/server/etcd/watch.go`), with the shim
between the stream and the backend (`pkg/server/etcd/backendshim.go`). -/
namespace KubeBrain

open Interleaving

/-- `mvccpb.KeyValue`. -/
structure EtcdKeyValue where
  key : Bytes
  value : Bytes
  createRevision : ℕ
  modRevision : ℕ
  deriving DecidableEq, Repr

inductive EtcdEventType where
  | put
  | delete
  deriving DecidableEq, Repr

/-- `mvccpb.Event`. -/
structure EtcdEvent where
  type : EtcdEventType
  kv : EtcdKeyValue
  prevKv : Option EtcdKeyValue
  deriving DecidableEq, Repr

def kvToEtcdKv (kv : KeyValue) : EtcdKeyValue := ⟨kv.key, kv.value, 0, kv.revision⟩

/-- What `transformResponseFunc` makes of an event. -/
def toEtcdEvent (e : Event) : EtcdEvent :=
  match e.type with
  | .create | .put => ⟨.put, { kvToEtcdKv e.kv with createRevision := e.kv.revision }, none⟩
  | .delete => ⟨.delete, ⟨e.kv.key, [], 0, e.revision⟩, some (kvToEtcdKv e.kv)⟩

/-- `etcdserverpb.WatchResponse`; `revision` is the one of the header. -/
structure WatchResponse where
  revision : ℕ
  watchId : ℤ
  created : Bool
  canceled : Bool
  cancelReason : String
  compactRevision : ℕ
  events : List EtcdEvent
  deriving DecidableEq, Repr

namespace WatchResponse

def createdOf (id : ℤ) : WatchResponse := ⟨0, id, true, false, "", 0, []⟩

def canceledOf (id : ℤ) (compact : Bool) : WatchResponse :=
  ⟨0, id, false, true, "watch closed", if compact then 1 else 0, []⟩

def eventsOf (id : ℤ) (events : List EtcdEvent) : WatchResponse :=
  ⟨(events.getLast?.map fun e => e.kv.modRevision).getD 0, id, false, false, "", 0, events⟩

/-- The broadcast progress response. -/
def progressOf (revision : ℕ) : WatchResponse := ⟨revision, -1, false, false, "", 0, []⟩

end WatchResponse

/-- One watch of a stream, with the goroutines that work for it. -/
structure StreamWatch where
  key : Bytes
  startRevision : ℕ
  /-- Goroutine of the leader that runs `Watch` of the backend. -/
  call : Option ℕ
  /-- Events that the shim has transformed and not handed on. -/
  shim : Option (List EtcdEvent)
  /-- Events that are about to be sent. -/
  sender : Option (List EtcdEvent)
  canceled : Bool

/-- A stream of the leader; watch `i` has identifier `i + 1`. -/
structure WatchStream (cfg : Config) (K : KvStorage) where
  node : Interleaving.Config (watchedLeader cfg K)
  watches : List StreamWatch
  /-- Revision that was read for the progress request at hand. -/
  progress : Option ℕ
  sent : List WatchResponse

/-- Keys of watches start with a slash; others belong to range streams. -/
def isPureWatchRequest (key : Bytes) : Bool := key.head? == some 47

inductive StreamAction (cfg : Config) (K : KvStorage) where
  | node (l : Label (watchedLeader cfg K))
  | create (key : Bytes) (startRevision : ℕ)
  | start (i : ℕ)
  | reject (i : ℕ)
  | receive (i : ℕ)
  | hand (i : ℕ)
  | send (i : ℕ)
  | readProgress
  | sendProgress

namespace WatchStream

variable {cfg : Config} {K : KvStorage}

def idOf (i : ℕ) : ℤ := i + 1

/-- The channel that a request for a watch has returned. -/
def channelOf (node : Interleaving.Config (watchedLeader cfg K)) (n : ℕ) : Option ℕ :=
  match node.outcomes[n]? with
  | some (some (.watching (.ok out))) => some out
  | _ => none

/-- The channel belongs to a client outside of the stream. -/
def foreign (s : WatchStream cfg K) (out : ℕ) : Bool :=
  (List.range s.node.outcomes.length).any fun n =>
    channelOf s.node n == some out && !s.watches.any fun w => w.call == some n

/-- What the leader does on its own; the channels of the stream are left to the stream. -/
def allowed (s : WatchStream cfg K) : Label (watchedLeader cfg K) → Bool
  | .env (.receive out) => s.foreign out
  | _ => true

def cancel (s : WatchStream cfg K) (i : ℕ) (w : StreamWatch) (compact : Bool) : WatchStream cfg K :=
  { s with
    watches := s.watches.set i { w with canceled := true }
    sent := s.sent ++ [.canceledOf (idOf i) compact] }

/-- The leader is ready to run another request. -/
def accepting (node : Interleaving.Config (watchedLeader cfg K)) : Bool :=
  match (node.threads[3]? : Option (Thread sig Outcome)) with
  | some ⟨.op .accept _, _⟩ => true
  | _ => false

/-- A goroutine of `Watch` that starts: it calls the backend when the key is one of a watch. -/
def startWatch (s : WatchStream cfg K) (i : ℕ) (w : StreamWatch) : Option (WatchStream cfg K) :=
  if w.call.isSome ∨ w.canceled then none
  else if isPureWatchRequest w.key then
    if accepting s.node then
      (s.node.step (.thread 3 (.request (.watch w.key w.startRevision)))).map fun node =>
        { s with
          node
          watches := s.watches.set i { w with call := some s.node.threads.length } }
    else none
  else some (s.cancel i w true)

/-- The backend has returned an error. -/
def rejectWatch (s : WatchStream cfg K) (i : ℕ) (w : StreamWatch) : Option (WatchStream cfg K) :=
  match w.call.bind fun n => s.node.outcomes[n]? with
  | some (some (.watching (.error _))) => if w.canceled then none else some (s.cancel i w true)
  | _ => none

/-- The shim receives a batch and transforms it. -/
def receiveBatch (s : WatchStream cfg K) (i : ℕ) (w : StreamWatch) : Option (WatchStream cfg K) :=
  match w.call.bind (channelOf s.node), w.shim with
  | some out, none =>
    match (LeaderState.results s.node.state.1)[out]? with
    | some ⟨evs :: _, _, _⟩ => (s.node.step (.env (.receive out))).map fun node =>
      { s with node, watches := s.watches.set i { w with shim := some (evs.map toEtcdEvent) } }
    | _ => none
  | _, _ => none

/-- The channel between the shim and the sender has no buffer. -/
def handBatch (s : WatchStream cfg K) (i : ℕ) (w : StreamWatch) : Option (WatchStream cfg K) :=
  match w.shim, w.sender with
  | some evs, none =>
    some { s with watches := s.watches.set i { w with shim := none, sender := some evs } }
  | _, _ => none

def sendBatch (s : WatchStream cfg K) (i : ℕ) (w : StreamWatch) : Option (WatchStream cfg K) :=
  match w.sender with
  | none => none
  | some evs =>
    some { s with
      watches := s.watches.set i { w with sender := none }
      sent := if evs = [] then s.sent else s.sent ++ [.eventsOf (idOf i) evs] }

def step (s : WatchStream cfg K) : StreamAction cfg K → Option (WatchStream cfg K)
  | .node l => if s.allowed l then (s.node.step l).map fun node => { s with node } else none
  | .create key startRevision =>
    -- the receive loop handles one message after the other
    if s.progress.isSome then none
    else some { s with
      watches := s.watches ++ [⟨key, startRevision, none, none, none, false⟩]
      sent := s.sent ++ [.createdOf (idOf s.watches.length)] }
  | .start i => s.watches[i]?.bind (s.startWatch i)
  | .reject i => s.watches[i]?.bind (s.rejectWatch i)
  | .receive i => s.watches[i]?.bind (s.receiveBatch i)
  | .hand i => s.watches[i]?.bind (s.handBatch i)
  | .send i => s.watches[i]?.bind (s.sendBatch i)
  | .readProgress =>
    if s.progress.isSome then none
    else some { s with progress := some (LeaderState.committedRevision s.node.state.1) }
  | .sendProgress => s.progress.map fun revision =>
    { s with progress := none, sent := s.sent ++ [.progressOf revision] }

/-- A fresh leader on which a stream has been opened. -/
def init (cfg : Config) (K : KvStorage) (start : ℕ) (kv : K.State) : WatchStream cfg K :=
  ⟨Watch.init cfg K start kv, [], none, []⟩

abbrev Condition (cfg : Config) (K : KvStorage) := WatchStream cfg K → StreamAction cfg K → Prop

def Step (G : Condition cfg K) (s s' : WatchStream cfg K) : Prop :=
  ∃ a, s.step a = some s' ∧ G s a

/-- Runs all of whose steps meet the condition. -/
abbrev Reach (G : Condition cfg K) : WatchStream cfg K → WatchStream cfg K → Prop :=
  Relation.ReflTransGen (Step G)

def run (ok : WatchStream cfg K → StreamAction cfg K → Bool) (s : WatchStream cfg K) :
    List (StreamAction cfg K) → Option (WatchStream cfg K)
  | [] => some s
  | a :: as =>
    if ok s a then
      match s.step a with
      | none => none
      | some s' => run ok s' as
    else none

theorem reach_of_run {G : Condition cfg K} {ok : WatchStream cfg K → StreamAction cfg K → Bool}
    (hok : ∀ s a, ok s a = true → G s a) (as : List (StreamAction cfg K)) {s s' : WatchStream cfg K}
    (h : s.run ok as = some s') : Reach G s s' := by
  induction as generalizing s with
  | nil =>
    obtain rfl := Option.some.inj h
    exact .refl
  | cons a as ih =>
    simp only [run] at h
    split at h
    · next ha =>
      split at h
      · cases h
      · next s₁ hs => exact .head ⟨a, hs, hok s a ha⟩ (ih h)
    · cases h

theorem exists_of_run {G : Condition cfg K} {ok : WatchStream cfg K → StreamAction cfg K → Bool}
    (hok : ∀ s a, ok s a = true → G s a) (as : List (StreamAction cfg K)) {s : WatchStream cfg K}
    {P : WatchStream cfg K → Prop} [DecidablePred P]
    (h : (s.run ok as).any (fun s' => decide (P s')) = true) : ∃ s', Reach G s s' ∧ P s' := by
  obtain ⟨s', hs', hP⟩ := (Option.any_eq_true _ _).mp h
  exact ⟨s', reach_of_run hok as hs', of_decide_eq_true hP⟩

/-- The events that were sent for a watch. -/
def eventsFor (sent : List WatchResponse) (i : ℕ) : List EtcdEvent :=
  (sent.filter fun r => r.watchId == idOf i).flatMap WatchResponse.events

def sentEvents (s : WatchStream cfg K) (i : ℕ) : List EtcdEvent := eventsFor s.sent i

theorem eventsFor_append (sent : List WatchResponse) (r : WatchResponse) (i : ℕ) :
    eventsFor (sent ++ [r]) i = eventsFor sent i ++ if r.watchId = idOf i then r.events
      else [] := by
  by_cases h : r.watchId = idOf i <;> simp [eventsFor, List.filter_append, h]

theorem eventsFor_append_nil (sent : List WatchResponse) {r : WatchResponse} (h : r.events = [])
    (i : ℕ) : eventsFor (sent ++ [r]) i = eventsFor sent i := by
  rw [eventsFor_append, h, ite_self, List.append_nil]

end WatchStream
end KubeBrain

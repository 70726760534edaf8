import KubeBrain.Backend.Leader
import KubeBrain.Scan.Tally
import KubeBrain.Storage.Tikv

/-! Scans on a leader where nothing else happens and no call of the storage fails. Every
worker reads the same store, so its answers do not depend on the order in which the workers
run; here each one runs when it is started. -/
namespace KubeBrain

open Interleaving Coder

/-- What the calls of a scan see. -/
structure Frozen where
  /-- Contents as of the timestamp that iterators are given. -/
  store : Store
  /-- Answer of the placement driver for an interval. -/
  regions : Bytes → Bytes → List Tikv.Region
  timestamp : ℕ
  committedRevision : ℕ
  timeoutRevision : ℕ

/-- What the calls have done. -/
structure Traced where
  deleted : List Bytes
  sent : List StreamRangeResponse
  /-- Outcomes of the goroutines that have been started. -/
  outs : List Outcome

namespace Traced

def fresh : Traced := ⟨[], [], []⟩

/-- Pairs that were sent to the stream. -/
def kvs (sent : List StreamRangeResponse) : List KeyValue := sent.flatMap fun r => r.range.kvs

def note (t : Traced) : Op → Traced
  | .kv (.del _ key) | .kv (.delCurrent _ key _) => { t with deleted := t.deleted ++ [key] }
  | .streamSend _ resp => { t with sent := t.sent ++ [resp] }
  | _ => t

end Traced

namespace Frozen

def answer (f : Frozen) : (o : Op) → Option o.Res
  | .getRevision => some f.committedRevision
  | .kv .getTimestampOracle => some (.ok f.timestamp)
  | .kv (.getPartitions start stop) =>
    some (.ok (Tikv.getPartitions (f.regions start stop) start stop))
  | .kv (.get key) => some (match f.store.get key with
    | none => .error .keyNotFound
    | some v => .ok v)
  | .kv (.iter _ start stop _ limit) => some (.ok ⟨Engine.items f.store start stop limit, none⟩)
  | .kv (.commit ..) | .kv (.del ..) | .kv (.delCurrent ..) => some none
  | .now => some 0
  | .historyTimeout _ => some f.timeoutRevision
  | .makeStream => some 0
  | .streamSend .. | .streamClose .. | .historyPush .. => some ()
  | .ctxDone => some false
  | _ => none

/-- Goroutines may start others down to the given depth. -/
def exec (cfg : Config) (f : Frozen) : ℕ → (o : Op) → Traced → Option (o.Res × Traced)
  | depth + 1, .spawn t, s =>
    match (Leader.goroutine cfg t).prog.eval (exec cfg f depth) s with
    | none => none
    | some (out, s) => some (s.outs.length, { s with outs := s.outs ++ [out] })
  | _, .join id, s =>
    match s.outs[id]? with
    | some (.scanned receiver r) => some ((receiver, r), s)
    | _ => none
  | _, o, s => (f.answer o).map fun r => (r, s.note o)

/-- Run a call of the backend to its end. -/
def call {α : Type} (cfg : Config) (f : Frozen) (p : M α) : Option (α × Traced) :=
  p.eval (exec cfg f 2) .fresh

variable {cfg : Config} {f : Frozen} {depth : ℕ}

theorem exec_get (key : Bytes) (s : Traced) : f.exec cfg depth (.kv (.get key)) s =
    some (match f.store.get key with | none => .error .keyNotFound | some v => .ok v, s) := by
  cases depth <;> rfl

theorem exec_iter (reader : Reader) (start stop : Bytes) (ts limit : ℕ) (s : Traced) :
    f.exec cfg depth (.kv (.iter reader start stop ts limit)) s =
      some (.ok ⟨Engine.items f.store start stop limit, none⟩, s) := by
  cases depth <;> rfl

theorem exec_ctxDone (s : Traced) : f.exec cfg depth .ctxDone s = some (false, s) := by
  cases depth <;> rfl

theorem exec_streamSend (id : ℕ) (resp : StreamRangeResponse) (s : Traced) :
    f.exec cfg depth (.streamSend id resp) s = some ((), { s with sent := s.sent ++ [resp] }) := by
  cases depth <;> rfl

theorem exec_join_eq (id : ℕ) (s : Traced) : f.exec cfg depth (.join id) s = match s.outs[id]? with
    | some (.scanned receiver r) => some ((receiver, r), s)
    | _ => none := by
  cases depth <;> rfl

theorem exec_join {id : ℕ} {s : Traced} {receiver : Receiver} {r : Except Err ℕ}
    (h : s.outs[id]? = some (.scanned receiver r)) :
    f.exec cfg depth (.join id) s = some ((receiver, r), s) := by
  rw [exec_join_eq, h]

theorem exec_spawn_eq (t : Task) (s : Traced) : f.exec cfg (depth + 1) (.spawn t) s =
    match (Leader.goroutine cfg t).prog.eval (f.exec cfg depth) s with
    | none => none
    | some (out, s) => some (s.outs.length, { s with outs := s.outs ++ [out] }) := rfl

theorem exec_spawn {t : Task} {s s' : Traced} {out : Outcome}
    (h : (Leader.goroutine cfg t).prog.eval (f.exec cfg depth) s = some (out, s')) :
    f.exec cfg (depth + 1) (.spawn t) s =
      some (s'.outs.length, { s' with outs := s'.outs ++ [out] }) := by
  rw [exec_spawn_eq, h]

theorem eval_panics {α : Type} (s : Traced) : (panics : M α).eval (f.exec cfg depth) s = none := by
  cases depth <;> rfl

end Frozen

/-- The receiver of a worker after it has found `all`. -/
def Receiver.kept (all : List KeyValue) : Receiver → Receiver
  | .empty => .empty
  | .common _ limit => .common all limit
  | .stream readRev id _ => .stream readRev id []

/-- The receiver takes all there is. -/
def Receiver.Unlimited : Receiver → Prop
  | .common _ limit => limit ≤ 0
  | _ => True

/-- What a worker that finds `all` sends on its own. -/
def Receiver.streamed (all : List KeyValue) : Receiver → List KeyValue
  | .stream .. => all
  | _ => []

/-- The revision that a receiver puts into its messages. -/
def Receiver.header : Receiver → ℕ
  | .stream readRev .. => readRev
  | _ => 0

/-- A message with pairs of a scan that goes on. -/
structure StreamRangeResponse.Partial (header : ℕ) (m : StreamRangeResponse) : Prop where
  header : m.range.header = header
  more : m.range.more = true
  filled : m.range.kvs ≠ []
  few : m.range.kvs.length ≤ rangeStreamBatch
  err : m.err = none

/-- `r` and what was sent are those of a worker that was given `r₀` and has found `found`. -/
def Receiver.Holds (r₀ : Receiver) (sent₀ : List StreamRangeResponse) (found : List KeyValue)
    (r : Receiver) (sent : List StreamRangeResponse) : Prop :=
  match r₀ with
  | .empty => r = .empty ∧ sent = sent₀
  | .common _ limit => r = .common found limit ∧ sent = sent₀
  | .stream readRev id _ => ∃ batch msgs, r = .stream readRev id batch ∧ sent = sent₀ ++ msgs ∧
      batch.length < rangeStreamBatch ∧
      (∀ m ∈ msgs, m.Partial readRev ∧ rangeStreamBatch ≤ m.range.kvs.length) ∧
      Traced.kvs msgs ++ batch = found

/-- A worker that was given `r₀` and has found `all` has sent what it sends on its own. -/
def Receiver.Sends (r₀ : Receiver) (sent₀ : List StreamRangeResponse) (all : List KeyValue)
    (sent : List StreamRangeResponse) : Prop :=
  ∃ msgs, sent = sent₀ ++ msgs ∧ (∀ m ∈ msgs, m.Partial r₀.header) ∧
    Traced.kvs msgs = r₀.streamed all

namespace Receiver

variable {cfg : Config} {f : Frozen} {depth : ℕ} {r₀ r : Receiver}
  {sent₀ sent : List StreamRangeResponse} {found : List KeyValue} {s : Traced}

theorem kvs_append (sent sent' : List StreamRangeResponse) :
    Traced.kvs (sent ++ sent') = Traced.kvs sent ++ Traced.kvs sent' := List.flatMap_append

theorem Sends.nil (r : Receiver) (sent : List StreamRangeResponse) : Sends r sent [] sent :=
  ⟨[], (List.append_nil _).symm, by simp, by cases r <;> rfl⟩

theorem Sends.trans {sent' : List StreamRangeResponse} {found' : List KeyValue}
    (h : Sends r₀ sent₀ found sent) (h' : Sends r₀ sent found' sent') :
    Sends r₀ sent₀ (found ++ found') sent' := by
  obtain ⟨msgs, rfl, hmsgs, hkvs⟩ := h
  obtain ⟨msgs', rfl, hmsgs', hkvs'⟩ := h'
  refine ⟨msgs ++ msgs', List.append_assoc _ _ _, List.forall_mem_append.mpr ⟨hmsgs, hmsgs'⟩, ?_⟩
  rw [kvs_append, hkvs, hkvs']
  cases r₀ <;> rfl

theorem kvs_send (msgs : List StreamRangeResponse) (rev : ℕ) (batch : List KeyValue) :
    Traced.kvs (msgs ++ [⟨⟨rev, batch, true⟩, none⟩]) = Traced.kvs msgs ++ batch := by
  simp [Traced.kvs]

theorem Holds.needMore (h : Holds r₀ sent₀ found r sent) (hr : r₀.Unlimited) :
    r.needMore = true := by
  cases r₀ with
  | empty => rw [h.1]; rfl
  | common _ limit =>
    rw [h.1]
    exact if_neg (not_lt.mpr hr)
  | stream =>
    obtain ⟨batch, msgs, rfl, -⟩ := h
    rfl

variable (cfg f depth)

theorem Holds.append (h : Holds r₀ sent₀ found r s.sent) (key value : Bytes) (rev : ℕ) :
    ∃ r' sent', (r.append key value rev).eval (f.exec cfg depth) s =
      some (r', { s with sent := sent' }) ∧
      Holds r₀ sent₀ (found ++ [⟨key, value, rev⟩]) r' sent' := by
  cases r₀ with
  | empty =>
    obtain ⟨rfl, hsent⟩ := h
    exact ⟨_, _, rfl, rfl, hsent⟩
  | common _ limit =>
    obtain ⟨rfl, hsent⟩ := h
    exact ⟨_, _, rfl, rfl, hsent⟩
  | stream readRev id _ =>
    obtain ⟨batch, msgs, rfl, hsent, hlt, hmsgs, rfl⟩ := h
    unfold Receiver.append
    dsimp only
    split
    · next hfull =>
      rw [Prog.eval_call_bind (Frozen.exec_streamSend _ _ _)]
      rw [List.length_append, List.length_singleton] at hfull
      refine ⟨_, _, rfl, [], msgs ++ [_], rfl, by rw [hsent, List.append_assoc], by decide, ?_, ?_⟩
      · exact List.forall_mem_snoc.mpr ⟨hmsgs, ⟨rfl, rfl, by simp, by simp; omega, rfl⟩,
          by simpa using hfull⟩
      · rw [kvs_send, List.append_nil, List.append_assoc]
    · next hfull =>
      exact ⟨_, _, rfl, _, msgs, rfl, hsent, not_le.mp hfull, hmsgs, by rw [List.append_assoc]⟩

theorem Holds.flush (h : Holds r₀ sent₀ found r s.sent) :
    ∃ sent', r.flush.eval (f.exec cfg depth) s = some (r₀.kept found, { s with sent := sent' }) ∧
      Sends r₀ sent₀ found sent' := by
  have hnone : s.sent = sent₀ → (∀ all, r₀.streamed all = []) → Sends r₀ sent₀ found s.sent :=
    fun hsent hnil => ⟨[], by rw [hsent, List.append_nil], nofun, (hnil found).symm⟩
  cases r₀ with
  | empty =>
    obtain ⟨rfl, hsent⟩ := h
    exact ⟨_, rfl, hnone hsent fun _ => rfl⟩
  | common _ limit =>
    obtain ⟨rfl, hsent⟩ := h
    exact ⟨_, rfl, hnone hsent fun _ => rfl⟩
  | stream readRev id _ =>
    obtain ⟨batch, msgs, rfl, hsent, hlt, hmsgs, hkvs⟩ := h
    unfold Receiver.flush
    dsimp only
    split
    · next hnil =>
      subst hnil
      exact ⟨_, rfl, msgs, hsent, fun m hm => (hmsgs m hm).1, by rw [← hkvs, List.append_nil]; rfl⟩
    · next hnil =>
      rw [Prog.eval_call_bind (Frozen.exec_streamSend _ _ _)]
      refine ⟨_, rfl, msgs ++ [_], by rw [hsent, List.append_assoc],
        ?_, by rw [kvs_send, hkvs]; rfl⟩
      exact List.forall_mem_snoc.mpr ⟨fun m hm => (hmsgs m hm).1, rfl, rfl, hnil, hlt.le, rfl⟩

end Receiver

namespace Worker

variable {cfg : Config} {f : Frozen} {depth : ℕ} {ttl : Bool} {w : WorkerConfig}

/-- The state of a worker and what was done so far are those of a tally. -/
structure Counts (r₀ : Receiver) (s₀ : Traced) (t : Tally) (st : State) (s : Traced) : Prop where
  seen : (st.prevUserKey, st.prevRevision, st.prevValue) = t.seen
  count : st.count = t.found.length
  failedKey : st.failedKey = []
  deleted : s.deleted = s₀.deleted ++ t.deleted
  outs : s.outs = s₀.outs
  holds : r₀.Holds s₀.sent t.found st.receiver s.sent

variable {r₀ : Receiver} {s₀ s : Traced} {t : Tally} {st : State}

theorem eval_compactKey (key rawKey : Bytes) (s : Traced) :
    (compactKey w key rawKey []).eval (f.exec cfg depth) s =
      some ([], { s with deleted := s.deleted ++ [key] }) := by
  cases depth <;> rfl

theorem eval_compactCurrent (key val rawKey : Bytes) (s : Traced) :
    (compactCurrent w key val rawKey []).eval (f.exec cfg depth) s =
      some ([], { s with deleted := s.deleted ++ [key] }) := by
  cases depth <;> rfl

section

variable (h : Counts r₀ s₀ t st s)

include h

theorem Counts.state_eq : ∃ receiver,
    st = ⟨t.prevUserKey, t.prevRevision, t.prevValue, t.found.length, receiver, []⟩ := by
  obtain ⟨k, r, v, count, receiver, failedKey⟩ := st
  obtain ⟨rfl, rfl, rfl⟩ : k = t.prevUserKey ∧ r = t.prevRevision ∧ v = t.prevValue := by
    simpa [Tally.seen] using h.seen
  obtain rfl : count = t.found.length := h.count
  obtain rfl : failedKey = [] := h.failedKey
  exact ⟨receiver, rfl⟩

theorem Counts.delete (key : Bytes) : Counts r₀ s₀ (t.delete key) { st with failedKey := [] }
      { s with deleted := s.deleted ++ [key] } where
  seen := h.seen
  count := h.count
  failedKey := rfl
  deleted := by rw [h.deleted, List.append_assoc]; rfl
  outs := h.outs
  holds := h.holds

theorem Counts.see (k : Bytes) (r : ℕ) (value : Bytes) : Counts r₀ s₀ (t.see k r value)
      { st with prevUserKey := k, prevRevision := r, prevValue := value } s :=
  ⟨rfl, h.count, h.failedKey, h.deleted, h.outs, h.holds⟩

/-- The program leaves the worker with the tally. -/
def Ends (cfg : Config) (f : Frozen) (depth : ℕ) (r₀ : Receiver) (s₀ : Traced) (t : Tally)
    (p : M State) (s : Traced) : Prop :=
  ∃ st s', p.eval (f.exec cfg depth) s = some (st, s') ∧ Counts r₀ s₀ t st s'

theorem ends_pure : Ends cfg f depth r₀ s₀ t (pure st) s :=
  ⟨st, s, rfl, h⟩

end

theorem Ends.bind {p : M State} {q : State → M State} {t' : Tally}
    (h : Ends cfg f depth r₀ s₀ t p s)
    (hq : ∀ st s, Counts r₀ s₀ t st s → Ends cfg f depth r₀ s₀ t' (q st) s) :
    Ends cfg f depth r₀ s₀ t' (p >>= q) s := by
  obtain ⟨st, s', hp, hst⟩ := h
  obtain ⟨st', s'', hq', hst'⟩ := hq st s' hst
  exact ⟨st', s'', by rw [Prog.eval_bind_some hp, hq'], hst'⟩

theorem ends_processPrev (h : Counts r₀ s₀ t st s) (k : Bytes) :
    Ends cfg f depth r₀ s₀ (t.prev w k) (processPrev w k st) s := by
  obtain ⟨receiver, rfl⟩ := h.state_eq
  unfold processPrev Tally.prev
  dsimp only
  split
  · split
    · next hlast =>
      obtain ⟨r', sent', heval, hholds'⟩ := h.holds.append cfg f depth
        t.prevUserKey t.prevValue t.prevRevision
      refine ⟨_, _, Prog.eval_bind_some heval _, rfl, ?_, rfl, h.deleted, h.outs, ?_⟩
      · simp [Tally.all, Tally.last, hlast]
      · simpa [Tally.all, Tally.last, hlast] using hholds'
    · next hlast =>
      have hall : t.all = t.found := by simp [Tally.all, Tally.last, hlast]
      rw [hall]
      exact ends_pure h
  · split
    · exact ⟨_, _, Prog.eval_bind_some (eval_compactKey _ _ _) _, h.delete _⟩
    · exact ends_pure h

theorem ends_compactTombstone (h : Counts r₀ s₀ t st s) (key value k : Bytes) :
    Ends cfg f depth r₀ s₀ (t.tombstone w key value) (compactTombstone w key value k st) s := by
  unfold compactTombstone Tally.tombstone
  rw [h.failedKey]
  split
  · exact ⟨_, _, Prog.eval_bind_some (eval_compactKey _ _ _) _, h.delete _⟩
  · exact ends_pure h

theorem ends_process (h : Counts r₀ s₀ t st s) (key value k : Bytes) (r : ℕ) :
    Ends cfg f depth r₀ s₀ (t.pair w key value k r) (process w key value k r st) s := by
  unfold process Tally.pair
  split
  · exact ends_pure h
  · apply (ends_processPrev h k).bind
    intro st₁ s₁ h₁
    apply (ends_compactTombstone h₁ key value k).bind
    intro st₂ s₂ h₂
    unfold Tally.current
    split
    · split
      · exact ends_pure h₂
      · rw [h₂.failedKey]
        exact ⟨_, _, Prog.eval_bind_some (eval_compactCurrent _ _ _ _) _,
          (h₂.delete key).see k r value⟩
    · exact ends_pure (h₂.see k r value)

/-- The TTL branch, on a pair whose index value it can read. -/
theorem eval_compactIfExpired (key k : Bytes) (r : ℕ) (value : Bytes) (s : Traced)
    (hform : ¬ (¬ (ttl ∨ w.timeoutRevision = 0 ∨ ¬ contains k events) ∧ r = 0 ∧
      value.length < 8)) :
    (compactIfExpired ttl w key k r value []).eval (f.exec cfg depth) s =
      some ((expired ttl w k r value, []),
        if expired ttl w k r value then { s with deleted := s.deleted ++ [key] } else s) := by
  unfold compactIfExpired expired
  split
  · rfl
  · next hopen =>
    split
    · next h0 =>
      rw [if_neg fun hlt => hform ⟨hopen, h0, hlt⟩]
      split
      · next hle =>
        rw [Prog.eval_bind_some (eval_compactCurrent _ _ _ _)]
        simp [hle]
      · next hle => simp [hle]
    · split
      · next hle =>
        rw [Prog.eval_bind_some (eval_compactKey _ _ _)]
        simp [hle]
      · next hle => simp [hle]

variable (cfg f depth) in
theorem ends_step (h : Counts r₀ s₀ t st s) {e : Bytes × Bytes} (he : ¬ Malformed ttl w e) :
    Ends cfg f depth r₀ s₀ (t.add ttl w e) (step ttl w e.1 e.2 st) s := by
  unfold Malformed at he
  unfold step Tally.add
  cases hdec : decode e.1 with
  | panic => simp [hdec] at he
  | ok k r =>
    rw [hdec] at he
    simp only
    rw [h.failedKey]
    unfold Ends
    rw [Prog.eval_bind_some (eval_compactIfExpired e.1 k r e.2 s he)]
    dsimp only
    split
    · exact ends_pure (h.delete e.1)
    · apply ends_process
      exact ⟨h.seen, h.count, rfl, h.deleted, h.outs, h.holds⟩
  | badMagic => exact ends_pure h
  | badSplit => exact ends_pure h

theorem eval_step_malformed {e : Bytes × Bytes} (he : Malformed ttl w e) :
    (step ttl w e.1 e.2 st).eval (f.exec cfg depth) s = none := by
  unfold Malformed at he
  unfold step
  split
  · exact Frozen.eval_panics s
  · next k r hdec =>
    rw [hdec] at he
    obtain ⟨hopen, h0, hlt⟩ := he
    apply Prog.eval_bind_none
    unfold compactIfExpired
    rw [if_neg hopen, if_pos h0, if_pos hlt]
    exact Frozen.eval_panics s
  · next hno₁ hno₂ =>
    exfalso
    split at he
    · next hp => exact hno₁ hp
    · next k r hk => exact hno₂ k r hk
    · exact he

variable (cfg f depth) in
/-- The loop over well-formed pairs ends with their tally. -/
theorem eval_loop (hr : r₀.Unlimited) (err : Option Err) (items : List (Bytes × Bytes))
    (hitems : ∀ e ∈ items, ¬ Malformed ttl w e) (h : Counts r₀ s₀ t st s) :
    ∃ st' s', (loop ttl w err items st).eval (f.exec cfg depth) s =
      some ((st', .ended err), s') ∧ Counts r₀ s₀ (t.addAll ttl w items) st' s' := by
  induction items generalizing st s t with
  | nil =>
    refine ⟨st, s, ?_, h⟩
    unfold loop
    rw [if_pos (h.holds.needMore hr), Prog.eval_call_bind (Frozen.exec_ctxDone s)]
    rfl
  | cons e items ih =>
    obtain ⟨st₁, s₁, heval, h₁⟩ := ends_step cfg f depth h (hitems e List.mem_cons_self)
    obtain ⟨st', s', hloop, h'⟩ := ih (fun e' he' => hitems e' (List.mem_cons_of_mem _ he')) h₁
    refine ⟨st', s', ?_, h'⟩
    unfold loop
    rw [if_pos (h.holds.needMore hr), Prog.eval_call_bind (Frozen.exec_ctxDone s)]
    exact (Prog.eval_bind_some heval _).trans hloop

variable (cfg f depth) in
theorem eval_loop_malformed (hr : r₀.Unlimited) (items : List (Bytes × Bytes))
    (hitems : ∃ e ∈ items, Malformed ttl w e) (h : Counts r₀ s₀ t st s) :
    (loop ttl w none items st).eval (f.exec cfg depth) s = none := by
  induction items generalizing st s t with
  | nil => simp at hitems
  | cons e items ih =>
    unfold loop
    rw [if_pos (h.holds.needMore hr), Prog.eval_call_bind (Frozen.exec_ctxDone s)]
    by_cases he : Malformed ttl w e
    · exact Prog.eval_bind_none (eval_step_malformed he) _
    · obtain ⟨st₁, s₁, heval, h₁⟩ := ends_step cfg f depth h he
      refine (Prog.eval_bind_some heval _).trans (ih ?_ h₁)
      obtain ⟨e', he', hbad⟩ := hitems
      rcases List.mem_cons.mp he' with rfl | he'
      · exact absurd hbad he
      · exact ⟨e', he', hbad⟩

variable (cfg f depth) in
theorem eval_finish (hmore : st.receiver.needMore = true) (h : Counts r₀ s₀ t st s) :
    ∃ sent', (finish st).eval (f.exec cfg depth) s =
      some ((r₀.kept t.all, t.all.length), ⟨s₀.deleted ++ t.deleted, sent', s₀.outs⟩) ∧
      r₀.Sends s₀.sent t.all sent' := by
  obtain ⟨receiver, rfl⟩ := h.state_eq
  unfold finish
  rw [hmore]
  split
  · next hlast =>
    have hall : t.all = t.found ++ [⟨t.prevUserKey, t.prevValue, t.prevRevision⟩] := by
      simp [Tally.all, Tally.last, hlast.1, hlast.2.1]
    obtain ⟨r', sent₁, heval, hholds⟩ := h.holds.append cfg f depth
      t.prevUserKey t.prevValue t.prevRevision
    obtain ⟨sent', hflush, hkvs⟩ := Receiver.Holds.flush cfg f depth
      (s := ⟨s.deleted, sent₁, s.outs⟩) hholds
    rw [hall]
    refine ⟨sent', ?_, hkvs⟩
    rw [Prog.eval_bind_some heval, Prog.eval_bind_some hflush]
    simp [h.deleted, h.outs]
  · next hlast =>
    have hall : t.all = t.found := by
      have : ¬ (0 < t.prevRevision ∧ t.prevValue ≠ tombStoneBytes) :=
        fun h' => hlast ⟨h'.1, h'.2, rfl⟩
      simp [Tally.all, Tally.last, this]
    obtain ⟨sent', hflush, hkvs⟩ := h.holds.flush cfg f depth
    rw [hall]
    refine ⟨sent', ?_, hkvs⟩
    rw [Prog.eval_bind_some hflush]
    simp [h.deleted, h.outs]

/-- Tally of a worker over its partition. -/
def tally (ttl : Bool) (w : WorkerConfig) (st : Store) : Tally :=
  Tally.start.addAll ttl w (Engine.items st w.partition.start w.partition.stop 0)

/-- No pair of the partition makes the worker panic. -/
def WellFormed (ttl : Bool) (w : WorkerConfig) (st : Store) : Prop :=
  ∀ e ∈ Engine.items st w.partition.start w.partition.stop 0, ¬ Malformed ttl w e

theorem counts_start (r : Receiver) (s : Traced) :
    Counts r s Tally.start ⟨[], 0, [], 0, r.reset, []⟩ s where
  seen := rfl
  count := rfl
  failedKey := rfl
  deleted := (List.append_nil _).symm
  outs := rfl
  holds := by
    cases r with
    | empty => exact ⟨rfl, rfl⟩
    | common => exact ⟨rfl, rfl⟩
    | stream => exact ⟨[], [], rfl, (List.append_nil _).symm, by decide, nofun, rfl⟩

variable (cfg f depth) in
/-- A worker reports and deletes what its tally says. -/
theorem eval_runWithBackoffRetry (r : Receiver) (hr : r.Unlimited)
    (hw : WellFormed ttl w f.store) (s : Traced) :
    ∃ sent', (runWithBackoffRetry ttl w r).eval (f.exec cfg depth) s =
      some ((r.kept (tally ttl w f.store).all, .ok (tally ttl w f.store).all.length),
        ⟨s.deleted ++ (tally ttl w f.store).deleted, sent', s.outs⟩) ∧
      r.Sends s.sent (tally ttl w f.store).all sent' := by
  obtain ⟨st, s₁, hloop, h₁⟩ := eval_loop cfg f depth hr none
    (Engine.items f.store w.partition.start w.partition.stop 0) hw (counts_start r s)
  obtain ⟨sent', hfinish, hkvs⟩ := eval_finish cfg f depth (h₁.holds.needMore hr) h₁
  refine ⟨sent', ?_, hkvs⟩
  unfold runWithBackoffRetry scanBackoffSteps attempts
  rw [Prog.eval_call_bind (Frozen.exec_ctxDone s)]
  have hrun : (run ttl w r []).eval (f.exec cfg depth) s =
      some ((r.kept (tally ttl w f.store).all, [], .ok (tally ttl w f.store).all.length),
        ⟨s.deleted ++ (tally ttl w f.store).deleted, sent', s.outs⟩) := by
    unfold run
    dsimp only
    rw [Prog.eval_call_bind (Frozen.exec_iter _ _ _ _ _ s)]
    dsimp only
    rw [Prog.eval_bind_some hloop]
    dsimp only
    rw [Prog.eval_bind_some hfinish, h₁.failedKey]
    rfl
  exact Prog.eval_bind_some hrun _

variable (cfg f depth) in
theorem eval_runWithBackoffRetry_malformed (r : Receiver) (hr : r.Unlimited)
    (hw : ¬ WellFormed ttl w f.store) (s : Traced) :
    (runWithBackoffRetry ttl w r).eval (f.exec cfg depth) s = none := by
  have hbad : ∃ e ∈ Engine.items f.store w.partition.start w.partition.stop 0,
      Malformed ttl w e := by
    simpa [WellFormed] using hw
  have hloop := eval_loop_malformed cfg f depth hr
    (Engine.items f.store w.partition.start w.partition.stop 0) hbad (counts_start r s)
  unfold runWithBackoffRetry scanBackoffSteps attempts
  rw [Prog.eval_call_bind (Frozen.exec_ctxDone s)]
  have hrun : (run ttl w r []).eval (f.exec cfg depth) s = none := by
    unfold run
    dsimp only
    rw [Prog.eval_call_bind (Frozen.exec_iter _ _ _ _ _ s)]
    exact Prog.eval_bind_none hloop _
  exact Prog.eval_bind_none hrun _

end Worker
end KubeBrain

import KubeBrain.Compaction.Collect
import KubeBrain.Compaction.Expiry
import KubeBrain.Scan.Partitions
import KubeBrain.Writes.Apart

/-! Writes and compactions that run one after another while the storage serves every call:
which events the compactions leave behind. -/
namespace KubeBrain

open Interleaving Coder Scanner

/-- A leader between two requests. -/
structure Serial where
  data : Solo.State
  /-- Contents as of the last timestamp that was handed out. -/
  view : Store
  clock : ℕ
  compactHistories : List (ℕ × ℕ)
  /-- All records that compactions have made, those that were taken off included. -/
  recorded : List (ℕ × ℕ)
  outs : List Outcome

namespace Serial

def erase (s : Serial) (key : Bytes) : Serial :=
  { s with data := { s.data with store := s.data.store.erase key } }

/-- Operations of a compaction. No write is uncertain, and no deletion fails. -/
def step (regions : Bytes → Bytes → List Tikv.Region) : (o : Op) → Serial → Option (o.Res × Serial)
  | .getRevision, s => some (s.data.committedRevision, s)
  | .queueHead, s => some (none, s)
  | .kv .getTimestampOracle, s => some (.ok 0, { s with view := s.data.store })
  | .kv (.getPartitions start stop), s =>
    some (.ok (Tikv.getPartitions (regions start stop) start stop), s)
  | .kv (.get key), s => some (match s.data.store.get key with
      | none => .error .keyNotFound
      | some v => .ok v, s)
  | .kv (.iter _ start stop _ limit), s =>
    some (.ok ⟨Engine.items s.view start stop limit, none⟩, s)
  | .kv (.commit _ ops), s =>
    some ((Solo.execCommit s.data ops).1, { s with data := (Solo.execCommit s.data ops).2 })
  | .kv (.del _ key), s => some (none, s.erase key)
  | .kv (.delCurrent _ key _), s => some (none, s.erase key)
  | .now, s => some (s.clock, s)
  | .historyPush revision time, s => some ((), { s with
      compactHistories := s.compactHistories ++ [(revision, time)]
      recorded := s.recorded ++ [(revision, time)] })
  | .historyTimeout time, s => some ((popExpired time s.compactHistories 0).1,
      { s with compactHistories := (popExpired time s.compactHistories 0).2 })
  | .makeStream, s => some (0, s)
  | .streamSend .., s => some ((), s)
  | .streamClose .., s => some ((), s)
  | .ctxDone, s => some (false, s)
  | _, _ => none

/-- Goroutines run when they are started, down to the given depth. -/
def exec (cfg : Config) (regions : Bytes → Bytes → List Tikv.Region) :
    ℕ → (o : Op) → Serial → Option (o.Res × Serial)
  | depth + 1, .spawn t, s =>
    match (Leader.goroutine cfg t).prog.eval (exec cfg regions depth) s with
    | none => none
    | some (out, s) => some (s.outs.length, { s with outs := s.outs ++ [out] })
  | _, .join id, s =>
    match s.outs[id]? with
    | some (.scanned receiver r) => some ((receiver, r), s)
    | _ => none
  | _, o, s => step regions o s

/-- What happens to the leader. -/
inductive Act where
  | write (r : Request)
  /-- The consumer passes on the events of the next `n` revisions. -/
  | publish (n : ℕ)
  | tick (n : ℕ)
  /-- A compaction, and the regions that the placement driver reports to it. -/
  | compact (revision : ℕ) (regions : Bytes → Bytes → List Tikv.Region)

def act (cfg : Config) : Act → Serial → Option Serial
  | .write r, s =>
    if r.written.isSome ∧ Solo.Room 1 s.data then
      ((Leader.handle cfg r).eval Solo.exec s.data).map fun x => { s with data := x.2 }
    else none
  | .publish n, s => some { s with data := { s.data with
      committedRevision := min (s.data.committedRevision + n) s.data.dealRevision } }
  | .tick n, s => some { s with clock := s.clock + n }
  | .compact revision regions, s =>
    ((handleCompact cfg revision).eval (exec cfg regions 2) s).map Prod.snd

def run (cfg : Config) (acts : List Act) (s : Serial) : Option Serial :=
  acts.foldlM (fun s a => act cfg a s) s

/-- A leader that has made no compaction yet. -/
def fresh (store : Store) (dealRevision committedRevision clock : ℕ) : Serial :=
  ⟨⟨store, dealRevision, committedRevision⟩, store, clock, [], [], []⟩

end Serial

/-- In the interval, the versions and index values of events hold revisions above `t`. -/
def EventsAbove (t : ℕ) (st : Store) (lo hi : Bytes) : Prop :=
  ∀ k r val, r < 2 ^ 64 → st.get (encodeObjectKey k r) = some val → lo ≤ encodeObjectKey k r →
    encodeObjectKey k r < hi → contains k events → t < heldRevision r val

/-- The last record that is as old as the TTL. -/
def lastExpired (time : ℕ) (recorded : List (ℕ × ℕ)) : Option (ℕ × ℕ) :=
  (recorded.filter fun h => h.2 + eventsTTL ≤ time).getLast?

/-- Contents that the leader has written. -/
structure WellEncoded (cfg : Config) (st : Store) : Prop where
  readable : ∀ key val, st.get key = some val → decode key ≠ .panic
  index : ∀ k val, st.get (encodeRevisionKey k) = some val →
    8 ≤ val.length ∧ 0 < Bytes.toNatBE (val.take 8)
  record : ∀ val, st.get (getCompactKey cfg.keyPrefix) = some val → val.length = 8

/-- The adjusted partitions of the regions make up the interval. -/
def Divided (regs : List Tikv.Region) (lo hi : Bytes) : Prop :=
  ∃ ps, adjustPartitionsBorders (Tikv.getPartitions regs lo hi) = some ps ∧
    ∀ st : Store, ∀ e, e ∈ Engine.items st lo hi 0 ↔
      ∃ p ∈ ps, e ∈ Engine.items st p.start p.stop 0

section Contents

variable {cfg : Config} {st st' : Store} {t : ℕ} {lo hi : Bytes}

theorem EventsAbove.of_shrinks (h : EventsAbove t st lo hi)
    (hsub : ∀ k r val, st'.get (encodeObjectKey k r) = some val →
      st.get (encodeObjectKey k r) = some val) : EventsAbove t st' lo hi :=
  fun k r val hr hget => h k r val hr (hsub k r val hget)

theorem eventsAbove_zero (h : WellEncoded cfg st) : EventsAbove 0 st lo hi := by
  intro k r val _ hget _ _ _
  unfold heldRevision
  split
  · next h0 =>
    subst h0
    exact (h.index k val hget).2
  · omega

theorem tidy_empty : WellEncoded cfg .empty where
  readable _ _ h := by cases h
  index _ _ h := by cases h
  record _ h := by cases h

theorem WellEncoded.erased (h : WellEncoded cfg st) (keys : List Bytes) :
    WellEncoded cfg (erased st keys) where
  readable key val hget := h.readable key val (get_of_get_erased hget).2
  index k val hget := h.index k val (get_of_get_erased hget).2
  record val hget := h.record val (get_of_get_erased hget).2

theorem decode_getCompactKey (p : Bytes) : decode (getCompactKey p) ≠ .panic := by
  have hlen : 12 ≤ (getCompactKey p).length := by simp [getCompactKey]
  have hmagic : magicBytes.length = 4 := rfl
  unfold decode
  rw [if_neg (by omega)]
  split
  · simp
  · rw [if_neg (by omega)]
    split <;> simp

theorem WellEncoded.insert_record (h : WellEncoded cfg st) {val : Bytes} (hlen : val.length = 8) :
    WellEncoded cfg (st.insert (getCompactKey cfg.keyPrefix) val) where
  readable key v hget := by
    rw [SortedMap.get_insert] at hget
    split at hget
    · next heq =>
      rw [heq]
      exact decode_getCompactKey _
    · exact h.readable key v hget
  index k v hget := by
    rw [SortedMap.get_insert, if_neg] at hget
    · exact h.index k v hget
    · exact fun heq => not_internal_getCompactKey _ ⟨k, 0, heq.symm⟩
  record v hget := by
    rw [SortedMap.get_insert] at hget
    split at hget
    · obtain rfl := Option.some.inj hget
      exact hlen
    · exact h.record v hget

/-- A pair of a user key that comes to tidy contents. -/
theorem WellEncoded.insert (h : WellEncoded cfg st) {k v : Bytes} {r : ℕ} (hr : r < 2 ^ 64)
    (hindex : r = 0 → 8 ≤ v.length ∧ 0 < Bytes.toNatBE (v.take 8)) :
    WellEncoded cfg (st.insert (encodeObjectKey k r) v) where
  readable key val hget := by
    rw [SortedMap.get_insert] at hget
    split at hget
    · next heq =>
      rw [heq, decode_encodeObjectKey k hr]
      nofun
    · exact h.readable key val hget
  index k' val hget := by
    rw [SortedMap.get_insert] at hget
    split at hget
    · next heq =>
      obtain ⟨-, h0⟩ := encodeObjectKey_injective (by decide) hr heq
      obtain rfl := Option.some.inj hget
      exact hindex h0.symm
    · exact h.index k' val hget
  record val hget := by
    rw [SortedMap.get_insert, if_neg] at hget
    · exact h.record val hget
    · exact fun heq => not_internal_getCompactKey _ ⟨k, r, heq⟩

theorem EventsAbove.insert (h : EventsAbove t st lo hi) {k v : Bytes} {r : ℕ} (hr : r < 2 ^ 64)
    (hlt : t < heldRevision r v) : EventsAbove t (st.insert (encodeObjectKey k r) v) lo hi := by
  intro k' r' val hr' hget hlo hhi hevent
  rw [SortedMap.get_insert] at hget
  split at hget
  · next heq =>
    obtain ⟨rfl, rfl⟩ := encodeObjectKey_injective hr' hr heq
    obtain rfl := Option.some.inj hget
    exact hlt
  · exact h k' r' val hr' hget hlo hhi hevent

theorem heldRevision_indexValue {q : ℕ} (hq : q < 2 ^ 64) (d : Bool) :
    heldRevision 0 (indexValue q d) = q := by
  rw [heldRevision, if_pos rfl, toNat_take_indexValue hq]

variable {s : Solo.State}

theorem WellEncoded.wrote (h : WellEncoded cfg s.store) (hroom : Solo.Room 1 s)
    (k v : Bytes) (d : Bool) :
    WellEncoded cfg (s.wrote k v d).store := by
  have hlt : s.dealRevision + 1 < 2 ^ 64 := hroom.2.2.trans (by decide)
  refine WellEncoded.insert (WellEncoded.insert h (k := k) (r := 0) (by decide) fun _ => ?_)
    hlt (by omega)
  rw [length_indexValue, toNat_take_indexValue hlt]
  exact ⟨by split <;> omega, by omega⟩

theorem EventsAbove.wrote (h : EventsAbove t s.store lo hi) (hroom : Solo.Room 1 s)
    (ht : t ≤ s.dealRevision) (k v : Bytes) (d : Bool) :
    EventsAbove t (s.wrote k v d).store lo hi := by
  have hlt : s.dealRevision + 1 < 2 ^ 64 := hroom.2.2.trans (by decide)
  refine EventsAbove.insert (EventsAbove.insert h (k := k) (r := 0) (by decide) ?_) hlt ?_
  · rw [heldRevision_indexValue hlt]
    omega
  · rw [heldRevision, if_neg (by omega)]
    omega

end Contents

namespace Serial

/-- The leader after what the workers of a scan have done so far. -/
def after (s : Serial) (t : Traced) : Serial :=
  { s with data := { s.data with store := erased s.data.store t.deleted }, outs := t.outs }

/-- What the workers of a scan see. -/
def frozen (s : Serial) (timeoutRevision : ℕ) : Frozen :=
  ⟨s.view, fun _ _ => [], 0, s.data.committedRevision, timeoutRevision⟩

/-- Operations of a scan from the start of its workers on. -/
def Scans : Op → Prop
  | .kv (.iter ..) | .kv (.del ..) | .kv (.delCurrent ..) | .spawn (.worker ..) | .join _ => True
  | o => o.kind ∈ [OpKind.stream, .control]

variable {cfg : Config} {regions : Bytes → Bytes → List Tikv.Region}

theorem scans_of_kind {o : Op} (h : o.kind ∈ [OpKind.stream, .control]) : Scans o := by
  unfold Scans
  split <;> trivial

variable (cfg) in
theorem only_worker (w : WorkerConfig) (r : Receiver) :
    (Leader.goroutine cfg (.worker w r)).prog.Only Scans := by
  refine .bind ?_ fun _ => Prog.only_pure _
  apply Worker.only_attempts
  · exact fun o ho => scans_of_kind ho
  · exact fun _ _ _ _ _ => trivial
  · exact fun _ _ _ _ => trivial
  · exact fun _ _ => trivial
  · trivial

theorem erased_concat (st : Store) (keys : List Bytes) (key : Bytes) :
    erased st (keys ++ [key]) = (erased st keys).erase key := List.foldl_concat ..

theorem exec_join_eq (depth id : ℕ) (s : Serial) : exec cfg regions depth (.join id) s =
    match s.outs[id]? with
    | some (.scanned receiver r) => some ((receiver, r), s)
    | _ => none := by
  cases depth <;> rfl

theorem exec_spawn_eq (depth : ℕ) (t : Task) (s : Serial) :
    exec cfg regions (depth + 1) (.spawn t) s =
      match (Leader.goroutine cfg t).prog.eval (exec cfg regions depth) s with
      | none => none
      | some (out, s) => some (s.outs.length, { s with outs := s.outs ++ [out] }) := rfl

variable (cfg regions) in
theorem exec_after_sequential (s : Serial) (timeout depth : ℕ) {o : Op} (ho : Scans o)
    (hnot : (¬ ∃ task, o = .spawn task) ∨ depth = 0) (t : Traced) :
    exec cfg regions depth o (s.after t) =
      ((s.frozen timeout).exec cfg depth o t).map fun x => (x.1, s.after x.2) := by
  have herase (key : Bytes) :
      (s.after t).erase key = s.after { t with deleted := t.deleted ++ [key] } := by
    unfold after erase
    rw [erased_concat]
  cases o with
  | kv o =>
    cases o with
    | iter => cases depth <;> rfl
    | del C key =>
      have hexec : exec cfg regions depth (.kv (.del C key)) (s.after t) =
          some (none, (s.after t).erase key) := by cases depth <;> rfl
      rw [hexec, herase]
      cases depth <;> rfl
    | delCurrent C key val =>
      have hexec : exec cfg regions depth (.kv (.delCurrent C key val)) (s.after t) =
          some (none, (s.after t).erase key) := by cases depth <;> rfl
      rw [hexec, herase]
      cases depth <;> rfl
    | commit w ops => cases w <;> exact absurd ho (by simp [Scans])
    | _ => exact absurd ho (by simp [Scans])
  | spawn task =>
    rcases hnot with hnot | rfl
    · exact absurd ⟨task, rfl⟩ hnot
    · rfl
  | join id =>
    have houts : (s.after t).outs[id]? = t.outs[id]? := rfl
    rw [exec_join_eq, Frozen.exec_join_eq, houts]
    rcases t.outs[id]? with _ | out
    · rfl
    · cases out <;> rfl
  | ringStore idx ev => cases ev <;> exact absurd ho (by simp [Scans])
  | makeStream | streamSend | streamClose | isLeader | ctxDone | exit | panic =>
    cases depth <;> rfl
  | _ => exact absurd ho (by simp [Scans])

variable (cfg regions) in
/-- Workers run as they do on contents that stay as they are. -/
theorem exec_after (s : Serial) (timeout depth : ℕ) {o : Op} (ho : Scans o) (t : Traced) :
    exec cfg regions depth o (s.after t) =
      ((s.frozen timeout).exec cfg depth o t).map fun x => (x.1, s.after x.2) := by
  induction depth generalizing o t with
  | zero => exact exec_after_sequential cfg regions s timeout 0 ho (.inr rfl) t
  | succ depth ih =>
    by_cases hspawn : ∃ task, o = .spawn task
    · obtain ⟨task, rfl⟩ := hspawn
      cases task with
      | worker w r =>
        have hworker := (only_worker cfg w r).eval_frame s.after (fun o ho t => ih ho t) t
        rw [exec_spawn_eq, Frozen.exec_spawn_eq, hworker]
        cases (Leader.goroutine cfg (.worker w r)).prog.eval
            ((s.frozen timeout).exec cfg depth) t with
        | none => rfl
        | some x => rfl
      | _ => exact absurd ho (by simp [Scans, Task.kind])
    · exact exec_after_sequential cfg regions s timeout (depth + 1) ho (.inl hspawn) t

theorem only_scanning (ps : List Partition) (tso revision : ℕ) (compact : Bool) (timeout : ℕ)
    (r : Receiver) :
    (do
      let ids ← spawnAll (workers ps tso revision compact timeout r)
      let results ← joinAll ids
      match firstError results with
      | some err => pure (r, .error err)
      | none => mergeAll r 0 results : M (Receiver × Except Err ℕ)).Only Scans := by
  have hspawn (ts : List Task) (hts : ∀ t ∈ ts, Scans (.spawn t)) : (spawnAll ts).Only Scans := by
    induction ts with
    | nil => exact Prog.only_pure _
    | cons t ts ih =>
      exact .bind (Prog.only_call (hts t List.mem_cons_self)) fun _ =>
        .bind (ih fun t' ht' => hts t' (List.mem_cons_of_mem _ ht')) fun _ => Prog.only_pure _
  have hjoin (ids : List ℕ) : (joinAll ids).Only Scans := by
    induction ids with
    | nil => exact Prog.only_pure _
    | cons id ids ih =>
      exact .bind (Prog.only_call trivial) fun _ => .bind ih fun _ => Prog.only_pure _
  refine .bind (hspawn _ fun t ht => ?_) fun ids => .bind (hjoin ids) fun results => ?_
  · obtain ⟨i, hi, rfl⟩ := List.mem_mapIdx.mp ht
    trivial
  · split
    · exact Prog.only_pure _
    · exact Prog.Only.mono (fun o ho =>
        scans_of_kind (List.mem_cons.mpr (.inl (List.mem_singleton.mp ho.1))))
        (within_mergeAll _ _ _)

/-- The records up to now, with that of a compaction at `C`, and what is popped of them. -/
def pop (s : Serial) (C : ℕ) : ℕ × List (ℕ × ℕ) :=
  popExpired s.clock (s.compactHistories ++ [(C, s.clock)]) 0

/-- The leader when the workers of a compaction of an interval at `C` start. -/
def starting (cfg : Config) (s : Serial) (C : ℕ) : Serial where
  data := { s.data with
    store := s.data.store.insert (getCompactKey cfg.keyPrefix) (uint64ToBytes C) }
  view := s.data.store
  clock := s.clock
  compactHistories := (s.pop C).2
  recorded := s.recorded ++ [(C, s.clock)]
  outs := s.outs

variable {s : Serial} {C : ℕ} {lo hi : Bytes}

theorem eval_compact_workers {ps : List Partition} (httl : cfg.supportTTL = false)
    (hps : adjustPartitionsBorders (Tikv.getPartitions (regions lo hi) lo hi) = some ps)
    (hform : ∀ p ∈ ps, FormedIn cfg ((starting cfg s C).frozen (s.pop C).1) C true p) :
    ∃ outs, (Scanner.compact cfg lo hi C).eval (exec cfg regions 2) s =
      some ((), (starting cfg s C).after ⟨deletedIn cfg ((starting cfg s C).frozen (s.pop C).1)
        C true ps, [], outs⟩) := by
  obtain ⟨t, heval, hdel, -⟩ := eval_workers 1 (r := .empty) trivial rfl hform ⟨[], [], s.outs⟩
  have htimeout : timeoutOf cfg ((starting cfg s C).frozen (s.pop C).1) true = (s.pop C).1 := by
    simp [timeoutOf, httl, frozen]
  rw [htimeout] at heval
  have hrest := (only_scanning ps 0 C true (s.pop C).1 .empty).eval_frame (starting cfg s C).after
    (fun o ho t => exec_after cfg regions (starting cfg s C) (s.pop C).1 2 ho t) ⟨[], [], s.outs⟩
  replace hrest := hrest.trans (congrArg (Option.map _) heval)
  rw [List.nil_append] at hdel
  let s₁ : Serial := { s with
    compactHistories := s.compactHistories ++ [(C, s.clock)]
    recorded := s.recorded ++ [(C, s.clock)] }
  let s₂ : Serial := { s₁ with view := s.data.store }
  let s₃ : Serial := { s₂ with data := (starting cfg s C).data }
  have hnow : exec cfg regions 2 .now s = some (s.clock, s) := rfl
  have hpush : exec cfg regions 2 (.historyPush C s.clock) s = some ((), s₁) := rfl
  have htso : exec cfg regions 2 (.kv .getTimestampOracle) s₁ = some (.ok 0, s₂) := rfl
  have hrace : (checkCompactRace cfg C true).eval (exec cfg regions 2) s₂ = some (none, s₃) := rfl
  have hparts : exec cfg regions 2 (.kv (.getPartitions lo hi)) s₃ =
      some (.ok (Tikv.getPartitions (regions lo hi) lo hi), s₃) := rfl
  have hpop : (timeoutRevision cfg true).eval (exec cfg regions 2) s₃ =
      some ((s.pop C).1, starting cfg s C) := by
    unfold timeoutRevision getTimeoutRevision
    rw [httl]
    rfl
  have hscan : (scan cfg lo hi C true .empty).eval (exec cfg regions 2) s₁ =
      some ((.empty, .ok (foundIn cfg ((starting cfg s C).frozen (s.pop C).1) C true ps).length),
        (starting cfg s C).after t) := by
    unfold scan
    rw [Prog.eval_call_bind htso]
    dsimp only
    rw [Prog.eval_bind_some hrace]
    dsimp only
    rw [Prog.eval_call_bind hparts]
    dsimp only
    rw [hps]
    dsimp only
    rw [Prog.eval_bind_some hpop]
    exact hrest
  refine ⟨t.outs, ?_⟩
  unfold Scanner.compact
  rw [Prog.eval_call_bind hnow, Prog.eval_call_bind hpush, Prog.eval_bind_some hscan, ← hdel]
  rfl

/-- The interval was compacted at `C`, and its events up to the popped revision are gone. -/
structure Compacts (cfg : Config) (C : ℕ) (lo hi : Bytes) (s s' : Serial) : Prop where
  clock : s'.clock = s.clock
  dealRevision : s'.data.dealRevision = s.data.dealRevision
  committedRevision : s'.data.committedRevision = s.data.committedRevision
  compactHistories : s'.compactHistories = (s.pop C).2
  recorded : s'.recorded = s.recorded ++ [(C, s.clock)]
  tidy : WellEncoded cfg s'.data.store
  shrinks : ∀ k r val, s'.data.store.get (encodeObjectKey k r) = some val →
    s.data.store.get (encodeObjectKey k r) = some val
  expires : EventsAbove (s.pop C).1 s'.data.store lo hi

theorem get_after {t : Traced} {k val : Bytes} {r : ℕ}
    (h : ((starting cfg s C).after t).data.store.get (encodeObjectKey k r) = some val) :
    encodeObjectKey k r ∉ t.deleted ∧ s.data.store.get (encodeObjectKey k r) = some val := by
  obtain ⟨hnot, hget⟩ := get_of_get_erased h
  have hget' : (s.data.store.insert (getCompactKey cfg.keyPrefix) (uint64ToBytes C)).get
      (encodeObjectKey k r) = some val := hget
  rw [SortedMap.get_insert, if_neg] at hget'
  · exact ⟨hnot, hget'⟩
  · exact fun heq => not_internal_getCompactKey _ ⟨k, r, heq.symm⟩

theorem not_malformed (htidy : WellEncoded cfg s.data.store) (hle : lo ≤ hi) (ttl : Bool)
    (w : WorkerConfig) {e : Bytes × Bytes} (he : e ∈ Engine.items s.data.store lo hi 0) :
    ¬ Worker.Malformed ttl w e := by
  rw [items_eq_range _ hle] at he
  obtain ⟨hget, -⟩ := SortedMap.mem_range.mp he
  unfold Worker.Malformed
  split
  · next hpanic => exact absurd hpanic (htidy.readable _ _ hget)
  · next k r hdec =>
    rintro ⟨-, rfl, hshort⟩
    rw [(encode_of_decode hdec).1] at hget
    have := (htidy.index k _ hget).1
    omega
  · exact not_false

theorem eval_compact (httl : cfg.supportTTL = false) (htidy : WellEncoded cfg s.data.store)
    (hle : lo ≤ hi) (hdiv : Divided (regions lo hi) lo hi) :
    ∃ s', (Scanner.compact cfg lo hi C).eval (exec cfg regions 2) s = some ((), s') ∧
      Compacts cfg C lo hi s s' := by
  obtain ⟨ps, hps, hitems⟩ := hdiv
  have hform : ∀ p ∈ ps, FormedIn cfg ((starting cfg s C).frozen (s.pop C).1) C true p :=
    fun p hp e he => not_malformed htidy hle _ _ ((hitems s.data.store e).mpr ⟨p, hp, he⟩)
  obtain ⟨outs, heval⟩ := eval_compact_workers httl hps hform
  have htidy' : WellEncoded cfg ((starting cfg s C).after ⟨deletedIn cfg
      ((starting cfg s C).frozen (s.pop C).1) C true ps, [], outs⟩).data.store :=
    (htidy.insert_record (length_uint64ToBytes C)).erased _
  refine ⟨_, heval, rfl, rfl, rfl, rfl, rfl, htidy', fun k r val h => (get_after h).2, ?_⟩
  intro k r val hr hget hlo hhi hevent
  by_cases hzero : (s.pop C).1 = 0
  · rw [hzero]
    exact eventsAbove_zero htidy' k r val hr hget hlo hhi hevent
  · -- the worker of the partition that holds the pair deletes it if it is expired
    by_contra hle'
    obtain ⟨hkept, hget'⟩ := get_after hget
    have hmem : (encodeObjectKey k r, val) ∈ Engine.items s.data.store lo hi 0 := by
      rw [items_eq_range _ hle]
      exact SortedMap.mem_range.mpr ⟨hget', hlo, hhi⟩
    obtain ⟨p, hp, hin⟩ := (hitems _ _).mp hmem
    apply hkept
    refine List.mem_flatMap.mpr ⟨p, hp, Worker.Tally.mem_deleted_of_expired hin
      (decode_encodeObjectKey k hr) ?_⟩
    have hopen : ¬ (cfg.supportTTL = true ∨ (workerOf cfg ((starting cfg s C).frozen (s.pop C).1)
        C true p).timeoutRevision = 0 ∨ ¬ contains k events) := by
      simp [httl, hevent, workerOf, timeoutOf, frozen, hzero]
    have htimeout : (workerOf cfg ((starting cfg s C).frozen (s.pop C).1) C true
        p).timeoutRevision = (s.pop C).1 := by simp [workerOf, timeoutOf, httl, frozen]
    unfold heldRevision at hle'
    unfold Worker.expired
    rw [if_neg hopen, htimeout]
    split
    · next h0 =>
      rw [if_pos h0] at hle'
      exact decide_eq_true (not_lt.mp hle')
    · next h0 =>
      rw [if_neg h0] at hle'
      exact decide_eq_true (not_lt.mp hle')

/-- The leader after a new compact record. -/
def storing (cfg : Config) (s : Serial) (C : ℕ) : Serial :=
  { s with data := { s.data with
    store := s.data.store.insert (getCompactKey cfg.keyPrefix) (uint64ToBytes C) } }

variable (regions) in
theorem eval_setCompactRecord (htidy : WellEncoded cfg s.data.store) (C : ℕ) :
    ∃ s', (setCompactRecord cfg C).eval (exec cfg regions 2) s = some (none, s') ∧
      (s' = s ∨ s' = s.storing cfg C) := by
  unfold setCompactRecord
  cases hget : s.data.store.get (getCompactKey cfg.keyPrefix) with
  | none =>
    have hread : exec cfg regions 2 (.kv (.get (getCompactKey cfg.keyPrefix))) s =
        some (.error .keyNotFound, s) := by simp only [exec, step, hget]
    have hcommit : exec cfg regions 2 (.kv (.commit (.record C)
        [.putIfNotExist (getCompactKey cfg.keyPrefix) (uint64ToBytes C) 0])) s =
          some (none, s.storing cfg C) := by
      simp [exec, step, Solo.execCommit, BatchOp.applyFrom, BatchOp.apply, hget, storing]
    rw [Prog.eval_call_bind hread]
    exact ⟨_, Prog.eval_op hcommit, .inr rfl⟩
  | some val =>
    have hread : exec cfg regions 2 (.kv (.get (getCompactKey cfg.keyPrefix))) s =
        some (.ok val, s) := by simp only [exec, step, hget]
    have hlen := htidy.record val hget
    rw [Prog.eval_call_bind hread]
    cases val with
    | nil => cases hlen
    | cons b bs =>
      dsimp only
      rw [if_neg (by omega)]
      split
      · exact ⟨s, rfl, .inl rfl⟩
      · have hcommit : exec cfg regions 2 (.kv (.commit (.record C)
            [.cas (getCompactKey cfg.keyPrefix) (uint64ToBytes C) (b :: bs) 0])) s =
              some (none, s.storing cfg C) := by
          simp [exec, step, Solo.execCommit, BatchOp.applyFrom, BatchOp.apply, hget, storing]
        exact ⟨_, Prog.eval_op hcommit, .inr rfl⟩

theorem Compacts.of_storing {s' : Serial} (h : Compacts cfg C lo hi (s.storing cfg C) s') :
    Compacts cfg C lo hi s s' where
  clock := h.clock
  dealRevision := h.dealRevision
  committedRevision := h.committedRevision
  compactHistories := h.compactHistories
  recorded := h.recorded
  tidy := h.tidy
  shrinks k r val hget := by
    have hget' : (s.data.store.insert (getCompactKey cfg.keyPrefix) (uint64ToBytes C)).get
        (encodeObjectKey k r) = some val := h.shrinks k r val hget
    rw [SortedMap.get_insert, if_neg] at hget'
    · exact hget'
    · exact fun heq => not_internal_getCompactKey _ ⟨k, r, heq.symm⟩
  expires := h.expires

variable (regions) in
/-- A compaction of the only interval succeeds. -/
theorem eval_handleCompact (httl : cfg.supportTTL = false) (htidy : WellEncoded cfg s.data.store)
    (hone : pairs (getCompactBorders cfg) = [(lo, hi)]) (hle : lo ≤ hi)
    (hdiv : Divided (regions lo hi) lo hi) (revision : ℕ) :
    ∃ C s', (handleCompact cfg revision).eval (exec cfg regions 2) s = some ((C, none), s') ∧
      C ≤ s.data.committedRevision ∧ Compacts cfg C lo hi s s' := by
  let C := if revision = 0 ∨ s.data.committedRevision < revision then s.data.committedRevision
    else revision
  have hC : C ≤ s.data.committedRevision := by
    change (if _ then _ else _) ≤ _
    split <;> omega
  obtain ⟨s₁, hrecord, hs₁⟩ := eval_setCompactRecord regions htidy C
  have htidy₁ : WellEncoded cfg s₁.data.store := by
    rcases hs₁ with rfl | rfl
    · exact htidy
    · exact htidy.insert_record (length_uint64ToBytes C)
  obtain ⟨s', hcompact, hs'⟩ := eval_compact (C := C) httl htidy₁ hle hdiv
  refine ⟨C, s', ?_, hC, ?_⟩
  · have hcur : exec cfg regions 2 .getRevision s = some (s.data.committedRevision, s) := rfl
    have hmin : minRevision.eval (exec cfg regions 2) s = some (0, s) := rfl
    unfold handleCompact getCurrentRevision
    rw [Prog.eval_call_bind hcur, Prog.eval_bind_some hmin]
    dsimp only
    rw [if_neg (by omega)]
    have hall : (compact cfg C).eval (exec cfg regions 2) s = some (none, s') := by
      unfold compact
      rw [Prog.eval_bind_some hrecord, hone]
      exact Prog.eval_bind_some (Prog.eval_bind_some hcompact _) _
    exact Prog.eval_bind_some hall _
  · rcases hs₁ with rfl | rfl
    · exact hs'
    · exact hs'.of_storing

end Serial

/-- What is popped of records in the order of their times. -/
theorem popExpired_spec (time : ℕ) {hs : List (ℕ × ℕ)}
    (hsorted : hs.Pairwise fun h h' => h.2 ≤ h'.2) (prev : ℕ) :
    ∃ popped, hs = popped ++ (popExpired time hs prev).2 ∧
      (popExpired time hs prev).1 = (popped.getLast?.map Prod.fst).getD prev ∧
      (∀ h ∈ popped, h.2 + eventsTTL ≤ time) ∧
      ∀ h ∈ (popExpired time hs prev).2, time < h.2 + eventsTTL := by
  induction hs generalizing prev with
  | nil => exact ⟨[], rfl, rfl, nofun, nofun⟩
  | cons h hs ih =>
    obtain ⟨revision, t⟩ := h
    obtain ⟨hfirst, hsorted⟩ := List.pairwise_cons.mp hsorted
    have hpos : 0 < eventsTTL := by decide
    unfold popExpired
    split
    · next hyoung =>
      refine ⟨[], rfl, rfl, nofun, fun h hh => ?_⟩
      have hle : t ≤ h.2 := by
        rcases List.mem_cons.mp hh with rfl | hh
        · exact le_rfl
        · exact hfirst h hh
      omega
    · next hold =>
      obtain ⟨popped, hsplit, hrev, hpopped, hrest⟩ := ih hsorted revision
      refine ⟨(revision, t) :: popped, congrArg _ hsplit, ?_, ?_, hrest⟩
      · rw [hrev]
        cases popped with
        | nil => rfl
        | cons h popped =>
          rw [List.getLast?_cons_cons, List.getLast?_cons]
          rfl
      · intro h hh
        rcases List.mem_cons.mp hh with rfl | hh
        · exact (show t + eventsTTL ≤ time by omega)
        · exact hpopped h hh

namespace Serial

/-- The contents are tidy, the records stand in the order of their times, and of the events up
to the record that was popped last none is left in the interval. -/
structure Inv (cfg : Config) (lo hi : Bytes) (s : Serial) : Prop where
  tidy : WellEncoded cfg s.data.store
  behind : s.data.committedRevision ≤ s.data.dealRevision
  sorted : s.recorded.Pairwise fun h h' => h.2 ≤ h'.2
  past : ∀ h ∈ s.recorded, h.1 ≤ s.data.committedRevision ∧ h.2 ≤ s.clock
  popped : ∃ popped, s.recorded = popped ++ s.compactHistories ∧
    (∀ h ∈ popped, h.2 + eventsTTL ≤ s.clock) ∧
    ∀ h, popped.getLast? = some h → EventsAbove h.1 s.data.store lo hi

variable {cfg : Config} {s s' : Serial} {C : ℕ} {lo hi : Bytes}

/-- A compaction leaves no event up to the last expired record. -/
theorem Compacts.inv (h : Compacts cfg C lo hi s s') (hinv : Inv cfg lo hi s)
    (hC : C ≤ s.data.committedRevision) : Inv cfg lo hi s' ∧
      ∀ h, lastExpired s.clock s.recorded = some h → EventsAbove h.1 s'.data.store lo hi := by
  obtain ⟨popped, hsplit, hold, habove⟩ := hinv.popped
  have hsorted : (s.recorded ++ [(C, s.clock)]).Pairwise fun h h' => h.2 ≤ h'.2 :=
    List.pairwise_snoc.mpr ⟨hinv.sorted, fun h hh => (hinv.past h hh).2⟩
  have hrecords : s.recorded ++ [(C, s.clock)] =
      popped ++ (s.compactHistories ++ [(C, s.clock)]) := by rw [hsplit, List.append_assoc]
  obtain ⟨now, hnow, hrev, hexpired, hrest⟩ := popExpired_spec s.clock
    (List.pairwise_append.mp (hrecords ▸ hsorted)).2.1 0
  have hall : ∀ x ∈ popped ++ now, x.2 + eventsTTL ≤ s.clock :=
    List.forall_mem_append.mpr ⟨hold, hexpired⟩
  have hlast : ∀ x, (popped ++ now).getLast? = some x → EventsAbove x.1 s'.data.store lo hi := by
    intro x hx
    rw [List.getLast?_append] at hx
    cases hn : now.getLast? with
    | some y =>
      rw [hn] at hx hrev
      obtain rfl := Option.some.inj hx
      have hpop : (s.pop C).1 = y.1 := hrev
      exact hpop ▸ h.expires
    | none =>
      rw [hn] at hx
      exact (habove x hx).of_shrinks h.shrinks
  have hsplit' : s'.recorded = (popped ++ now) ++ s'.compactHistories := by
    rw [h.recorded, h.compactHistories, hrecords, hnow, List.append_assoc]
    rfl
  constructor
  · refine ⟨h.tidy, ?_, h.recorded ▸ hsorted, ?_, popped ++ now, hsplit', ?_, hlast⟩
    · rw [h.committedRevision, h.dealRevision]
      exact hinv.behind
    · rw [h.committedRevision, h.clock, h.recorded]
      exact List.forall_mem_snoc.mpr ⟨hinv.past, hC, le_rfl⟩
    · rw [h.clock]
      exact hall
  · intro x hx
    apply hlast
    rw [← hx, lastExpired]
    have hpos : 0 < eventsTTL := by decide
    have hyoung : ¬ s.clock + eventsTTL ≤ s.clock := by omega
    have hfilter : (s.recorded ++ [(C, s.clock)]).filter (fun h => h.2 + eventsTTL ≤ s.clock) =
        s.recorded.filter fun h => h.2 + eventsTTL ≤ s.clock := by
      simp [hyoung]
    rw [← hfilter, hrecords, hnow, ← List.append_assoc, List.filter_append,
      List.filter_eq_self.mpr, List.filter_eq_nil_iff.mpr, List.append_nil]
    · intro y hy
      have := hrest y hy
      simpa using this
    · intro y hy
      simpa using hall y hy

/-- The step may be taken: the regions of a compaction make up the intervals it goes over. -/
def Act.Regular (cfg : Config) : Act → Prop
  | .compact _ regions => ∀ range ∈ pairs (getCompactBorders cfg),
      Divided (regions range.1 range.2) range.1 range.2
  | _ => True

theorem inv_act (httl : cfg.supportTTL = false) (hone : pairs (getCompactBorders cfg) = [(lo, hi)])
    (hle : lo ≤ hi) (hinv : Inv cfg lo hi s) {a : Act} (ha : a.Regular cfg)
    (h : act cfg a s = some s') : Inv cfg lo hi s' := by
  obtain ⟨popped, hsplit, hold, habove⟩ := hinv.popped
  cases a with
  | write r =>
    simp only [act] at h
    split at h
    · next hroom =>
      obtain ⟨k, hk⟩ := Option.isSome_iff_exists.mp hroom.1
      obtain ⟨x, hx, rfl⟩ := Option.map_eq_some_iff.mp h
      obtain ⟨out, data⟩ := x
      rcases Solo.eval_written hroom.2 hk hx with rfl | ⟨v, d, rfl⟩
      · exact ⟨hinv.tidy, hinv.behind.trans (Nat.le_succ _), hinv.sorted, hinv.past, popped, hsplit,
          hold, habove⟩
      · refine ⟨hinv.tidy.wrote hroom.2 k v d, hinv.behind.trans (Nat.le_succ _), hinv.sorted,
          hinv.past, popped, hsplit, hold, fun h hh => (habove h hh).wrote hroom.2 ?_ k v d⟩
        have hmem : h ∈ s.recorded := hsplit ▸ List.mem_append_left _ (List.mem_of_getLast? hh)
        exact (hinv.past h hmem).1.trans hinv.behind
    · cases h
  | publish n =>
    obtain rfl := Option.some.inj h
    refine ⟨hinv.tidy, min_le_right _ _, hinv.sorted, fun h hh => ?_, popped, hsplit, hold, habove⟩
    obtain ⟨hrev, htime⟩ := hinv.past h hh
    exact ⟨le_min (hrev.trans (Nat.le_add_right _ _)) (hrev.trans hinv.behind), htime⟩
  | tick n =>
    obtain rfl := Option.some.inj h
    refine ⟨hinv.tidy, hinv.behind, hinv.sorted, fun h hh => ?_, popped, hsplit, fun h hh => ?_,
      habove⟩
    · obtain ⟨hrev, htime⟩ := hinv.past h hh
      exact ⟨hrev, htime.trans (Nat.le_add_right _ _)⟩
    · exact (hold h hh).trans (Nat.le_add_right _ _)
  | compact revision regions =>
    have hdiv := ha (lo, hi) (by simp [hone])
    obtain ⟨C, s₁, heval, hC, hcompacts⟩ :=
      eval_handleCompact regions httl hinv.tidy hone hle hdiv revision
    simp only [act, heval] at h
    obtain rfl := Option.some.inj h
    exact (hcompacts.inv hinv hC).1

theorem inv_run (httl : cfg.supportTTL = false) (hone : pairs (getCompactBorders cfg) = [(lo, hi)])
    (hle : lo ≤ hi) {acts : List Act} (hacts : ∀ a ∈ acts, a.Regular cfg) (hinv : Inv cfg lo hi s)
    (h : run cfg acts s = some s') : Inv cfg lo hi s' := by
  induction acts generalizing s with
  | nil =>
    obtain rfl := Option.some.inj h
    exact hinv
  | cons a acts ih =>
    obtain ⟨s₁, hact, hrest⟩ := Option.bind_eq_some_iff.mp h
    exact ih (fun b hb => hacts b (List.mem_cons_of_mem _ hb))
      (inv_act httl hone hle hinv (hacts a List.mem_cons_self) hact) hrest

/-- After a compaction no interval holds an event up to the last expired record. -/
def Expires (cfg : Config) (s s' : Serial) : Prop :=
  ∀ h, lastExpired s.clock s.recorded = some h → ∀ range ∈ pairs (getCompactBorders cfg),
    EventsAbove h.1 s'.data.store range.1 range.2

theorem pairs_of_no_skipped (h : cfg.skippedPrefixes = []) :
    ∃ lo hi, pairs (getCompactBorders cfg) = [(lo, hi)] ∧ lo ≤ hi := by
  unfold getCompactBorders
  rw [h]
  simp only [List.flatMap_cons, List.flatMap_nil, List.append_nil, List.insertionSort_cons,
    List.insertionSort_nil, List.orderedInsert]
  split
  · next hle => exact ⟨_, _, rfl, hle⟩
  · next hlt => exact ⟨_, _, rfl, (not_le.mp hlt).le⟩

/-- Without skipped prefixes, on every sequence of writes and compactions: a compaction returns
and leaves no event up to the last expired record. -/
theorem compact_expires_events (cfg : Config) (httl : cfg.supportTTL = false)
    (hskip : cfg.skippedPrefixes = []) {store : Store} (htidy : WellEncoded cfg store)
    {deal committed : ℕ} (hbehind : committed ≤ deal) (clock : ℕ)
    {acts : List Act} (hacts : ∀ a ∈ acts, a.Regular cfg)
    (hrun : run cfg acts (fresh store deal committed clock) = some s) (revision : ℕ)
    (regions : Bytes → Bytes → List Tikv.Region)
    (hregions : (Act.compact revision regions).Regular cfg) :
    ∃ C s', (handleCompact cfg revision).eval (exec cfg regions 2) s = some ((C, none), s') ∧
      Expires cfg s s' := by
  obtain ⟨lo, hi, hone, hle⟩ := pairs_of_no_skipped hskip
  have hinv : Inv cfg lo hi s :=
    inv_run httl hone hle hacts ⟨htidy, hbehind, .nil, (fun _ h => by cases h), [], rfl,
      nofun, nofun⟩ hrun
  obtain ⟨C, s', heval, hC, hcompacts⟩ := eval_handleCompact regions httl hinv.tidy hone
    hle (hregions (lo, hi) (by simp [hone])) revision
  refine ⟨C, s', heval, fun h hh range hrange => ?_⟩
  rw [hone] at hrange
  obtain rfl := List.mem_singleton.mp hrange
  exact (hcompacts.inv hinv hC).2 h hh

/-- An event, and the record of a compaction that is as old as the TTL. -/
def eventActs : List Act :=
  [.write (.create ⟨eventKey, [98], 0⟩), .publish 1, .compact 0 fun _ _ => [], .tick 3600]

theorem compact_expires_events_once : ∃ s C s',
    run eventConfig eventActs (fresh .empty 0 0 0) = some s ∧
      (handleCompact eventConfig 0).eval (exec eventConfig (fun _ _ => []) 2) s =
        some ((C, none), s') ∧
      lastExpired s.clock s.recorded = some (1, 0) ∧ Expires eventConfig s s' := by
  have hrun : (run eventConfig eventActs (fresh .empty 0 0 0)).map
      (fun s => lastExpired s.clock s.recorded) = some (some (1, 0)) := by decide
  obtain ⟨s, hs, hlast⟩ := Option.map_eq_some_iff.mp hrun
  have hdiv (lo hi : Bytes) : Divided [] lo hi :=
    ⟨[⟨lo, hi⟩], rfl, fun st e => by simp⟩
  have hacts : ∀ a ∈ eventActs, a.Regular eventConfig := by
    simp [eventActs, Act.Regular, hdiv]
  obtain ⟨C, s', heval, hexp⟩ := compact_expires_events eventConfig rfl rfl tidy_empty le_rfl 0
    hacts hs 0 (fun _ _ => []) fun range _ => hdiv _ _
  exact ⟨s, C, s', hs, heval, hlast, hexp⟩

/-- A node that leaves out the keys under one prefix. -/
def skippingConfig : Config := { eventConfig with skippedPrefixes := [[47, 114, 47, 97]] }

/-- With two intervals the first takes the record off, so the event in the second one stays. -/
theorem compact_keeps_expired_of_two_ranges : ∃ s C s',
    run skippingConfig eventActs (fresh .empty 0 0 0) = some s ∧
      (handleCompact skippingConfig 0).eval (exec skippingConfig (fun _ _ => []) 2) s =
        some ((C, none), s') ∧ ¬ Expires skippingConfig s s' := by
  have hrun : ((run skippingConfig eventActs (fresh .empty 0 0 0)).bind fun s =>
      ((handleCompact skippingConfig 0).eval (exec skippingConfig (fun _ _ => []) 2) s).map fun x =>
        (lastExpired s.clock s.recorded, x.1, x.2.data.store.get (encodeObjectKey eventKey 1))) =
      some (some (1, 0), (1, none), some [98]) := by decide
  obtain ⟨s, hs, hrest⟩ := Option.bind_eq_some_iff.mp hrun
  obtain ⟨⟨x, s'⟩, heval, hx⟩ := Option.map_eq_some_iff.mp hrest
  simp only [Prod.mk.injEq] at hx
  obtain ⟨hlast, rfl, hget⟩ := hx
  refine ⟨s, 1, s', hs, heval, fun hexp => ?_⟩
  have hrange : (encodeObjectKey [47, 114, 47, 97, 48] 0, encodeObjectKey [47, 114, 48] 0) ∈
      pairs (getCompactBorders skippingConfig) := by decide
  have habove := hexp _ hlast _ hrange eventKey 1 [98] (by decide) hget (by decide)
    (by decide) (by decide)
  exact absurd habove (by decide)

end Serial
end KubeBrain

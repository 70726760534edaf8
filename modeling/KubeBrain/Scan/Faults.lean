import KubeBrain.Backend.ScanFootprint
import KubeBrain.Scan.Aligned
import KubeBrain.Scan.Pages

/-! Streams of a scan whose iterators fail. A worker starts again from the start of its
partition, and what a failed attempt has sent stays sent. -/
namespace KubeBrain

open Interleaving Coder Scanner

/-- How an iteration fails. -/
inductive Fault where
  | fail (e : Err)
  | stopAfter (n : ℕ) (e : Err)

/-- What has been done, and how the next iterations over each interval go; `none` is one that
reaches its end. -/
structure Flaky where
  traced : Traced
  faults : Partition → List (Option Fault)

/-- Answer of an iteration over pairs. -/
def iterate (view : List (Bytes × Bytes)) : Option Fault → Except Err Iter
  | none => .ok ⟨view, none⟩
  | some (.fail e) => .error e
  | some (.stopAfter n e) => .ok ⟨view.take n, some e⟩

namespace Flaky

/-- How the iterations fail, one after the other, until one reaches its end. -/
def failures : List (Option Fault) → List Fault
  | some x :: rest => x :: failures rest
  | _ => []

/-- How the next iteration over an interval goes. -/
def next (s : Flaky) (p : Partition) : Option Fault := (s.faults p).head?.join

def advance (s : Flaky) (p : Partition) : Flaky :=
  { s with faults := Function.update s.faults p (s.faults p).tail }

end Flaky

namespace Frozen

/-- The leader of `Frozen.exec` on a storage whose iterators fail as foreseen. -/
def execFlaky (cfg : Config) (f : Frozen) : ℕ → (o : Op) → Flaky → Option (o.Res × Flaky)
  | depth + 1, .spawn t, s =>
    match (Leader.goroutine cfg t).prog.eval (execFlaky cfg f depth) s with
    | none => none
    | some (out, s) => some (s.traced.outs.length,
        { s with traced := { s.traced with outs := s.traced.outs ++ [out] } })
  | _, .kv (.iter _ start stop _ limit), s =>
    some (iterate (Engine.items f.store start stop limit) (s.next ⟨start, stop⟩),
      s.advance ⟨start, stop⟩)
  | _, o, s => (f.exec cfg 0 o s.traced).map fun x => (x.1, { s with traced := x.2 })

/-- Operations that do not depend on the faults. -/
def FaultFree (cfg : Config) (f : Frozen) (depth : ℕ) (o : Op) : Prop :=
  ∀ s, f.execFlaky cfg depth o s =
    (f.exec cfg 0 o s.traced).map fun x => (x.1, { s with traced := x.2 })

variable {cfg : Config} {f : Frozen} {depth : ℕ}

theorem faultFree_of_kind {o : Op} (h : o.kind ∈ [OpKind.stream, .control]) :
    FaultFree cfg f depth o := by
  intro s
  cases o with
  | kv o =>
    cases o with
    | iter reader => cases reader <;> exact absurd h (by simp)
    | commit w => cases w <;> exact absurd h (by simp)
    | _ => exact absurd h (by simp)
  | spawn t =>
    exfalso
    have hk : t.kind = .stream ∨ t.kind = .control := by simpa using h
    have hmem := t.kind_mem
    rcases hk with hk | hk
    · simp [hk] at hmem
    · simp [hk] at hmem
  | _ => cases depth <;> rfl

/-- A program of such operations runs as it does without faults. -/
theorem eval_flaky {α : Type} {p : M α} (hp : p.Only (FaultFree cfg f depth)) {t t' : Traced}
    {a : α} (heval : p.eval (f.exec cfg 0) t = some (a, t'))
    (faults : Partition → List (Option Fault)) :
    p.eval (f.execFlaky cfg depth) ⟨t, faults⟩ = some (a, ⟨t', faults⟩) := by
  have hframe : p.eval (f.execFlaky cfg depth) ⟨t, faults⟩ =
      (p.eval (f.exec cfg 0) t).map fun x => (x.1, ⟨x.2, faults⟩) :=
    hp.eval_frame (fun t => (⟨t, faults⟩ : Flaky)) (fun o ho t => ho ⟨t, faults⟩) t
  rw [hframe, heval]
  rfl

end Frozen

namespace Worker

variable {cfg : Config} {f : Frozen} {depth : ℕ} {ttl : Bool} {w : WorkerConfig} {i j : ℕ}
  {batch : List KeyValue} {s s' : Flaky}

/-- What a worker finds in the first `n` pairs of its partition. -/
def foundAfter (ttl : Bool) (w : WorkerConfig) (st : Store) (n : ℕ) : List KeyValue :=
  (Tally.start.addAll ttl w ((Engine.items st w.partition.start w.partition.stop 0).take n)).found

/-- The attempt fails before a batch is full. -/
def Silent (ttl : Bool) (w : WorkerConfig) (st : Store) : Fault → Prop
  | .stopAfter n _ => (foundAfter ttl w st n).length < rangeStreamBatch
  | .fail _ => True

/-- `s'` comes after `s` with the messages of the worker of a partition between them. -/
structure Follows (p : Partition) (s : Flaky) (msgs : List StreamRangeResponse) (s' : Flaky) :
    Prop where
  sent : s'.traced.sent = s.traced.sent ++ msgs
  shape : ∀ m ∈ msgs, m.Partial 0
  faults : ∀ q, q ≠ p → s'.faults q = s.faults q

theorem Follows.trans {p : Partition} {s'' : Flaky} {msgs msgs' : List StreamRangeResponse}
    (h : Follows p s msgs s') (h' : Follows p s' msgs' s'') : Follows p s (msgs ++ msgs') s'' where
  sent := by rw [h'.sent, h.sent, List.append_assoc]
  shape := List.forall_mem_append.mpr ⟨h.shape, h'.shape⟩
  faults q hq := (h'.faults q hq).trans (h.faults q hq)

theorem faults_advance_of_ne (s : Flaky) {p q : Partition} (hq : q ≠ p) :
    (s.advance p).faults q = s.faults q := Function.update_of_ne hq _ _

/-- Either the next iteration reaches its end, or its failure is the first one left. -/
theorem failures_next (s : Flaky) (p : Partition) : match s.next p with
    | none => Flaky.failures (s.faults p) = []
    | some x => Flaky.failures (s.faults p) = x :: Flaky.failures ((s.advance p).faults p) := by
  have hadvance : (s.advance p).faults p = (s.faults p).tail := Function.update_self ..
  rw [hadvance, Flaky.next]
  rcases s.faults p with _ | ⟨_ | x, rest⟩
  · rfl
  · rfl
  · rfl

theorem exec_iter_flaky (reader : Reader) (p : Partition) (ts limit : ℕ) (s : Flaky) :
    f.execFlaky cfg depth (.kv (.iter reader p.start p.stop ts limit)) s =
      some (iterate (Engine.items f.store p.start p.stop limit) (s.next p), s.advance p) := by
  cases depth <;> rfl

/-- A worker finds at most one pair for each one it reads. -/
theorem Tally.length_found_addAll (t : Tally) (items : List (Bytes × Bytes)) :
    (t.addAll ttl w items).found.length ≤ t.found.length + items.length := by
  induction items generalizing t with
  | nil => exact le_rfl
  | cons e items ih =>
    have hone : (t.add ttl w e).found.length ≤ t.found.length + 1 := by
      rcases found_add ttl w t e with h | h
      · rw [h]
        omega
      · have := t.length_last_le
        rw [h, all_eq, List.length_append]
        omega
    have hrest := ih (t.add ttl w e)
    rw [List.length_cons]
    exact hrest.trans (by omega)

theorem silent_of_lt {st : Store} {n : ℕ} {e : Err} (h : n < rangeStreamBatch) :
    Silent ttl w st (.stopAfter n e) := by
  have hle : (foundAfter ttl w st n).length ≤ 0 +
      ((Engine.items st w.partition.start w.partition.stop 0).take n).length :=
    Tally.start.length_found_addAll _
  rw [List.length_take] at hle
  change (foundAfter ttl w st n).length < rangeStreamBatch
  omega

section Attempt

variable (cfg f depth) (hlist : w.compact = false) (htimeout : w.timeoutRevision = 0)
  (hw : WellFormed ttl w f.store)

include hlist htimeout

theorem only_loop_flaky (err : Option Err) (items : List (Bytes × Bytes)) (receiver : Receiver) :
    (loop ttl w err items ⟨[], 0, [], 0, receiver, []⟩).Only (Frozen.FaultFree cfg f depth) := by
  have hquiet {P : Prop} (h : w.compact = true ∨ w.timeoutRevision ≠ 0) : P := by
    rcases h with h | h
    · rw [hlist] at h
      cases h
    · exact absurd htimeout h
  apply only_loop ttl w (fun o ho => Frozen.faultFree_of_kind ho) (fun h => hquiet h)
    (fun h => hquiet h) (fun h k (_ : True) => hquiet h) err (fun _ _ => trivial) (by norm_num)

include hw

/-- The loop over the first pairs of the partition. -/
theorem eval_loop_flaky (err : Option Err) (n : ℕ) (batch : List KeyValue) (s : Flaky) :
    ∃ st t', (loop ttl w err ((Engine.items f.store w.partition.start w.partition.stop 0).take n)
        ⟨[], 0, [], 0, (Receiver.stream i j batch).reset, []⟩).eval (f.execFlaky cfg depth) s =
      some ((st, .ended err), ⟨t', s.faults⟩) ∧
      Counts (.stream i j batch) s.traced (Tally.start.addAll ttl w
        ((Engine.items f.store w.partition.start w.partition.stop 0).take n)) st t' := by
  have hunlimited : (Receiver.stream i j batch).Unlimited := trivial
  obtain ⟨st, t', hloop, hcounts⟩ := eval_loop cfg f 0 hunlimited err
    ((Engine.items f.store w.partition.start w.partition.stop 0).take n)
    (fun e he => hw e (List.mem_of_mem_take he)) (counts_start (.stream i j batch) s.traced)
  exact ⟨st, t', Frozen.eval_flaky (only_loop_flaky cfg f depth hlist htimeout err _ _) hloop
    s.faults, hcounts⟩

/-- An attempt that passes sends all that the worker finds. -/
theorem eval_run_passes (batch : List KeyValue) {s : Flaky} (hnext : s.next w.partition = none) :
    ∃ msgs t', (run ttl w (.stream i j batch) []).eval (f.execFlaky cfg depth) s =
        some ((.stream i j [], [], .ok (tally ttl w f.store).all.length),
          ⟨t', (s.advance w.partition).faults⟩) ∧
      t'.outs = s.traced.outs ∧ t'.sent = s.traced.sent ++ msgs ∧ (∀ m ∈ msgs, m.Partial i) ∧
      Traced.kvs msgs = (tally ttl w f.store).all := by
  obtain ⟨st, t', hloop, hcounts⟩ := eval_loop_flaky cfg f depth hlist htimeout hw (i := i)
    (j := j) none (Engine.items f.store w.partition.start w.partition.stop 0).length batch
    (s.advance w.partition)
  rw [List.take_length] at hloop hcounts
  obtain ⟨sent', hfinish, msgs, hsent, hshape, hkvs⟩ := eval_finish cfg f 0
    (hcounts.holds.needMore trivial) hcounts
  have honly : (finish st).Only (Frozen.FaultFree cfg f depth) :=
    only_finish (fun o ho => Frozen.faultFree_of_kind ho) st
  have hfinish' := Frozen.eval_flaky honly hfinish (s.advance w.partition).faults
  refine ⟨msgs, ⟨s.traced.deleted ++ (tally ttl w f.store).deleted, sent', s.traced.outs⟩, ?_, rfl,
    hsent, hshape, hkvs⟩
  unfold run
  dsimp only
  rw [Prog.eval_call_bind (exec_iter_flaky _ _ _ _ _), hnext]
  dsimp only [iterate]
  rw [Prog.eval_bind_some hloop]
  dsimp only
  rw [Prog.eval_bind_some hfinish', hcounts.failedKey]
  rfl

/-- An attempt that stops has sent the full batches of what it found. -/
theorem eval_run_stops (batch : List KeyValue) {s : Flaky} {n : ℕ} {e : Err}
    (hnext : s.next w.partition = some (.stopAfter n e)) :
    ∃ batch' msgs t', (run ttl w (.stream i j batch) []).eval (f.execFlaky cfg depth) s =
        some ((.stream i j batch', [], .error e), ⟨t', (s.advance w.partition).faults⟩) ∧
      t'.outs = s.traced.outs ∧ t'.sent = s.traced.sent ++ msgs ∧
      batch'.length < rangeStreamBatch ∧
      (∀ m ∈ msgs, m.Partial i ∧ rangeStreamBatch ≤ m.range.kvs.length) ∧
      Traced.kvs msgs ++ batch' = foundAfter ttl w f.store n := by
  obtain ⟨st, t', hloop, hcounts⟩ := eval_loop_flaky cfg f depth hlist htimeout hw (i := i)
    (j := j) (some e) n batch (s.advance w.partition)
  obtain ⟨batch', msgs, hreceiver, hsent, hlt, hmsgs, hkvs⟩ := hcounts.holds
  refine ⟨batch', msgs, t', ?_, hcounts.outs, hsent, hlt, hmsgs, hkvs⟩
  unfold run
  dsimp only
  rw [Prog.eval_call_bind (exec_iter_flaky _ _ _ _ _), hnext]
  dsimp only [iterate]
  rw [Prog.eval_bind_some hloop, hcounts.failedKey, hreceiver]
  rfl

omit hlist htimeout hw in
/-- An attempt sends nothing exactly if it fails before a batch is full. -/
theorem kvs_eq_nil_iff {msgs : List StreamRangeResponse} {batch' : List KeyValue} {n : ℕ} {e : Err}
    (hmsgs : ∀ m ∈ msgs, m.Partial i ∧ rangeStreamBatch ≤ m.range.kvs.length)
    (hlt : batch'.length < rangeStreamBatch)
    (hkvs : Traced.kvs msgs ++ batch' = foundAfter ttl w f.store n) :
    Traced.kvs msgs = [] ↔ Silent ttl w f.store (.stopAfter n e) := by
  show _ ↔ (foundAfter ttl w f.store n).length < rangeStreamBatch
  rw [← hkvs, List.length_append]
  constructor
  · intro hnil
    rw [hnil, List.length_nil, Nat.zero_add]
    exact hlt
  · intro hfew
    cases msgs with
    | nil => rfl
    | cons m msgs =>
      have hfull := (hmsgs m List.mem_cons_self).2
      simp only [Traced.kvs, List.flatMap_cons, List.length_append] at hfew
      omega

omit hlist htimeout hw in
theorem foundAfter_subset (n : ℕ) : foundAfter ttl w f.store n ⊆ (tally ttl w f.store).all := by
  have htally : tally ttl w f.store = (Tally.start.addAll ttl w
      ((Engine.items f.store w.partition.start w.partition.stop 0).take n)).addAll ttl w
        ((Engine.items f.store w.partition.start w.partition.stop 0).drop n) := by
    unfold tally Tally.addAll
    rw [← List.foldl_append, List.take_append_drop]
  intro kv hkv
  rw [htally, Tally.all_eq]
  exact List.mem_append_left _ ((Tally.found_prefix_addAll _ _).subset hkv)

/-- A worker succeeds if it fails less often than it tries. Then it has sent all that it finds,
after pairs of it that attempts which were not silent had sent. -/
theorem eval_attempts_flaky (n : ℕ) (batch : List KeyValue) (latest : Err) (s : Flaky) :
    ∃ r' res msgs s', (attempts ttl w n (.stream 0 j batch) [] latest).eval
        (f.execFlaky cfg depth) s = some ((r', res), s') ∧
      s'.traced.outs = s.traced.outs ∧ Follows w.partition s msgs s' ∧
      ((∃ c, res = .ok c) ↔ (Flaky.failures (s.faults w.partition)).length < n) ∧
      ∀ c, res = .ok c → r' = .stream 0 j [] ∧ ∃ extra,
        Traced.kvs msgs = extra ++ (tally ttl w f.store).all ∧
        extra ⊆ (tally ttl w f.store).all ∧ (extra = [] ↔
          ∀ x ∈ Flaky.failures (s.faults w.partition), Silent ttl w f.store x) := by
  induction n generalizing batch latest s with
  | zero =>
    refine ⟨_, _, [], s, rfl, rfl, ⟨(List.append_nil _).symm, by simp, fun _ _ => rfl⟩, ?_, ?_⟩
    · simp
    · simp
  | succ n ih =>
    have hctx : f.execFlaky cfg depth .ctxDone s = some (false, s) := by cases depth <;> rfl
    have hfailures := failures_next s w.partition
    have hother := fun q (hq : q ≠ w.partition) => faults_advance_of_ne s hq
    unfold attempts
    rw [Prog.eval_call_bind hctx]
    rcases hnext : s.next w.partition with _ | e | ⟨n', e⟩
    · obtain ⟨msgs, t', hrun, houts, hsent, hshape, hkvs⟩ :=
        eval_run_passes cfg f depth hlist htimeout hw (i := 0) (j := j) batch hnext
      rw [hnext] at hfailures
      refine ⟨_, _, msgs, _, Prog.eval_bind_some hrun _, houts, ⟨hsent, hshape, hother⟩, ?_, ?_⟩
      · simp [hfailures]
      · intro c _
        exact ⟨rfl, [], hkvs, List.nil_subset _, by simp [hfailures]⟩
    · have hrun : (run ttl w (.stream 0 j batch) []).eval (f.execFlaky cfg depth) s =
          some ((.stream 0 j batch, [], .error e), s.advance w.partition) := by
        unfold run
        dsimp only
        rw [Prog.eval_call_bind (exec_iter_flaky _ _ _ _ _), hnext]
        rfl
      rw [hnext] at hfailures
      obtain ⟨r', res, msgs, s', heval, houts, hfollows, hok, hall⟩ :=
        ih batch e (s.advance w.partition)
      refine ⟨r', res, msgs, s', (Prog.eval_bind_some hrun _).trans heval, houts,
        ⟨hfollows.sent, hfollows.shape, fun q hq => (hfollows.faults q hq).trans (hother q hq)⟩,
        ?_, ?_⟩
      · rw [hok, hfailures, List.length_cons, Nat.add_lt_add_iff_right]
      · intro c hc
        obtain ⟨hr', extra, hkvs, hsub, hnil⟩ := hall c hc
        refine ⟨hr', extra, hkvs, hsub, ?_⟩
        rw [hnil, hfailures, List.forall_mem_cons]
        exact (and_iff_right trivial).symm
    · obtain ⟨batch', msgs, t', hrun, houts, hsent, hlt, hmsgs, hfound⟩ :=
        eval_run_stops cfg f depth hlist htimeout hw (i := 0) (j := j) batch hnext
      rw [hnext] at hfailures
      obtain ⟨r', res, msgs', s', heval, houts', hfollows, hok, hall⟩ :=
        ih batch' e ⟨t', (s.advance w.partition).faults⟩
      have hfirst : Follows w.partition s msgs ⟨t', (s.advance w.partition).faults⟩ :=
        ⟨hsent, fun m hm => (hmsgs m hm).1, hother⟩
      refine ⟨r', res, msgs ++ msgs', s', (Prog.eval_bind_some hrun _).trans heval,
        houts'.trans houts, hfirst.trans hfollows, ?_, ?_⟩
      · rw [hok, hfailures, List.length_cons, Nat.add_lt_add_iff_right]
      · intro c hc
        obtain ⟨hr', extra, hkvs, hsub, hnil⟩ := hall c hc
        refine ⟨hr', Traced.kvs msgs ++ extra, ?_, ?_, ?_⟩
        · rw [Receiver.kvs_append, hkvs, List.append_assoc]
        · refine List.append_subset.mpr ⟨fun kv hkv => ?_, hsub⟩
          exact foundAfter_subset f n' (hfound ▸ List.mem_append_left _ hkv)
        · rw [List.append_eq_nil_iff, hnil, hfailures, List.forall_mem_cons,
            kvs_eq_nil_iff f hmsgs hlt hfound]

end Attempt

end Worker

namespace Scanner

variable {cfg : Config} {f : Frozen} {depth : ℕ}

open Worker

/-- Attempts over the partition that fail have sent nothing. -/
def SilentFailures (cfg : Config) (f : Frozen) (R : ℕ) (faults : Partition → List (Option Fault))
    (p : Partition) : Prop :=
  ∀ x ∈ Flaky.failures (faults p), Silent cfg.supportTTL (workerOf cfg f R false p) f.store x

/-- Some attempt of the worker of the partition reaches its end. -/
def Passes (faults : Partition → List (Option Fault)) (p : Partition) : Prop :=
  (Flaky.failures (faults p)).length < scanBackoffSteps

variable (cfg f depth) in
/-- The workers of the partitions, one after the other. -/
theorem eval_spawnAll_flaky {R : ℕ} (j k : ℕ) {ps : List Partition} (hnodup : ps.Nodup)
    (hform : ∀ p ∈ ps, FormedIn cfg f R false p) (s : Flaky) :
    ∃ results msgs s', (spawnAll (ps.mapIdx fun i p =>
        .worker ⟨i + k, p, f.timestamp, R, false, 0⟩ (.stream 0 j []))).eval
          (f.execFlaky cfg (depth + 1)) s =
        some (List.range' s.traced.outs.length results.length, s') ∧
      s'.traced.outs = s.traced.outs ++ results.map (fun x => .scanned x.1 x.2) ∧
      s'.traced.sent = s.traced.sent ++ msgs ∧ (∀ m ∈ msgs, m.Partial 0) ∧
      (firstError results = none ↔ ∀ p ∈ ps, Passes s.faults p) ∧
      (firstError results = none → (∀ x ∈ results, x.1 = .stream 0 j []) ∧
        ((∀ p ∈ ps, SilentFailures cfg f R s.faults p) →
          Traced.kvs msgs = foundIn cfg f R false ps) ∧
        (¬ (∀ p ∈ ps, SilentFailures cfg f R s.faults p) → ¬ (Traced.kvs msgs).Nodup)) := by
  induction ps generalizing k s with
  | nil =>
    refine ⟨[], [], s, rfl, (List.append_nil _).symm, (List.append_nil _).symm, by simp, ?_, ?_⟩
    · simp [firstError]
    · intro _
      refine ⟨by simp, fun _ => rfl, fun h => ?_⟩
      exact absurd (by simp) h
  | cons p ps ih =>
    obtain ⟨hp, hnodup⟩ := List.nodup_cons.mp hnodup
    obtain ⟨r', res, msgs, s₁, heval, houts, hfollows, hok, hall⟩ := eval_attempts_flaky cfg f depth
      (w := ⟨0 + k, p, f.timestamp, R, false, 0⟩) rfl rfl (hform p List.mem_cons_self)
      (j := j) scanBackoffSteps [] (.other 0) s
    obtain ⟨results, msgs', s', hrest, houts', hsent', hshape', hok', hall'⟩ :=
      ih (k + 1) hnodup (fun q hq => hform q (List.mem_cons_of_mem _ hq))
        ⟨{ s₁.traced with outs := s₁.traced.outs ++ [.scanned r' res] }, s₁.faults⟩
    have hspawn : f.execFlaky cfg (depth + 1)
        (.spawn (.worker ⟨0 + k, p, f.timestamp, R, false, 0⟩ (.stream 0 j []))) s =
          some (s.traced.outs.length,
            ⟨{ s₁.traced with outs := s₁.traced.outs ++ [.scanned r' res] }, s₁.faults⟩) := by
      have hprog : (Leader.goroutine cfg (.worker ⟨0 + k, p, f.timestamp, R, false, 0⟩
          (.stream 0 j []))).prog.eval (f.execFlaky cfg depth) s = some (.scanned r' res, s₁) :=
        Prog.eval_bind_some heval _
      simp only [Frozen.execFlaky, hprog, houts]
    -- the worker has left the failures of the other partitions alone
    have hothers : ∀ q ∈ ps, s₁.faults q = s.faults q := by
      intro q hq
      refine hfollows.faults q ?_
      rintro rfl
      exact hp hq
    have hpasses : (∀ q ∈ ps, Passes s₁.faults q) ↔ ∀ q ∈ ps, Passes s.faults q :=
      forall₂_congr fun q hq => by rw [Passes, Passes, hothers q hq]
    have hsilent : (∀ q ∈ ps, SilentFailures cfg f R s₁.faults q) ↔
        ∀ q ∈ ps, SilentFailures cfg f R s.faults q :=
      forall₂_congr fun q hq => by rw [SilentFailures, SilentFailures, hothers q hq]
    refine ⟨(r', res) :: results, msgs ++ msgs', s', ?_, ?_, ?_, ?_, ?_, ?_⟩
    · have hindex (ps : List Partition) : (ps.mapIdx fun i p =>
          Task.worker ⟨i + 1 + k, p, f.timestamp, R, false, 0⟩ (.stream 0 j [])) =
            ps.mapIdx fun i p =>
              .worker ⟨i + (k + 1), p, f.timestamp, R, false, 0⟩ (.stream 0 j []) := by
        simp only [Nat.add_assoc, Nat.add_comm 1 k]
      rw [List.mapIdx_cons, spawnAll, Prog.eval_call_bind hspawn, hindex, Prog.eval_bind_some hrest]
      simp [houts, List.range'_succ]
    · rw [houts', houts]
      simp
    · rw [hsent', hfollows.sent, List.append_assoc]
    · exact List.forall_mem_append.mpr ⟨hfollows.shape, hshape'⟩
    · rw [List.forall_mem_cons, ← hpasses, ← hok']
      cases res with
      | error e =>
        refine iff_of_false (by simp [firstError]) fun h => ?_
        simpa using hok.mpr h.1
      | ok c => exact (and_iff_right (hok.mp ⟨c, rfl⟩)).symm
    · intro herr
      cases res with
      | error e => cases herr
      | ok c =>
        obtain ⟨hempty, hkvs', hdup'⟩ := hall' herr
        obtain ⟨hr', extra, hkvs, hsub, hnil⟩ := hall c rfl
        rw [hsilent] at hkvs' hdup'
        refine ⟨List.forall_mem_cons.mpr ⟨hr', hempty⟩, fun hs => ?_, fun hs hnodup => ?_⟩
        · obtain ⟨hsp, hs⟩ := List.forall_mem_cons.mp hs
          rw [Receiver.kvs_append, hkvs, hnil.mpr hsp, hkvs' hs]
          rfl
        · rw [Receiver.kvs_append] at hnodup
          obtain ⟨hfirst, hlater, -⟩ := List.nodup_append.mp hnodup
          by_cases hsp : SilentFailures cfg f R s.faults p
          · exact hdup' (fun h => hs (List.forall_mem_cons.mpr ⟨hsp, h⟩)) hlater
          · obtain ⟨kv, hkv⟩ := List.exists_mem_of_ne_nil extra fun h => hsp (hnil.mp h)
            rw [hkvs] at hfirst
            exact (List.nodup_append.mp hfirst).2.2 kv hkv kv (hsub hkv) rfl

theorem eval_joinAll_flaky (results : List (Receiver × Except Err ℕ)) (outs : List Outcome)
    {s : Flaky} (houts : s.traced.outs = outs ++ results.map fun x => .scanned x.1 x.2) :
    (joinAll (List.range' outs.length results.length)).eval (f.execFlaky cfg depth) s =
      some (results, s) := by
  induction results generalizing outs with
  | nil => rfl
  | cons x results ih =>
    have hjoin : f.execFlaky cfg depth (.join outs.length) s = some (x, s) := by
      have hget : s.traced.outs[outs.length]? = some (.scanned x.1 x.2) := by simp [houts]
      have hstep : f.execFlaky cfg depth (.join outs.length) s =
          (f.exec cfg 0 (.join outs.length) s.traced).map fun x => (x.1, ⟨x.2, s.faults⟩) := by
        cases depth <;> rfl
      rw [hstep, Frozen.exec_join hget]
      rfl
    have hrest := ih (outs ++ [.scanned x.1 x.2]) (by simp [houts])
    rw [List.length_append, List.length_singleton] at hrest
    rw [List.length_cons, List.range'_succ, joinAll, Prog.eval_call_bind hjoin,
      Prog.eval_bind_some hrest]
    rfl

/-- Closing receivers that hold nothing sends nothing. -/
theorem eval_mergeAll_flaky {i j n : ℕ} (batch : List KeyValue)
    {results : List (Receiver × Except Err ℕ)} (hempty : ∀ x ∈ results, x.1 = .stream 0 j [])
    (s : Flaky) : ∃ c, (mergeAll (.stream i j batch) n results).eval (f.execFlaky cfg depth) s =
      some ((.stream i j batch, .ok c), s) := by
  induction results generalizing n with
  | nil => exact ⟨n, rfl⟩
  | cons x results ih =>
    obtain ⟨r, c⟩ := x
    obtain rfl : r = .stream 0 j [] := hempty (r, c) List.mem_cons_self
    exact ih fun y hy => hempty y (List.mem_cons_of_mem _ hy)

section Stream

variable {R j : ℕ} {start stop : Bytes} {ps : List Partition}

/-- After the scan one more message is sent. -/
theorem eval_rangeStream_of_scan {r : Receiver} {res : Except Err ℕ}
    {msgs : List StreamRangeResponse} {s s' : Flaky}
    (hscan : (scan cfg start stop R false (.stream R j [])).eval (f.execFlaky cfg depth) s =
      some ((r, res), s')) (hmsgs : s'.traced.sent = s.traced.sent ++ msgs) :
    ∃ last s'', (rangeStream cfg start stop R j).eval (f.execFlaky cfg depth) s = some ((), s'') ∧
      s''.traced.sent = s.traced.sent ++ (msgs ++ [last]) ∧ last.range = ⟨R, [], false⟩ ∧
      (last.err = none ↔ ∃ c, res = .ok c) := by
  have hsend (err : Option Err) :
      (do call (.streamSend j ⟨⟨R, [], false⟩, err⟩); call (.streamClose j) : M Unit).eval
        (f.execFlaky cfg depth) s' = some ((), ⟨{ s'.traced with
          sent := s'.traced.sent ++ [⟨⟨R, [], false⟩, err⟩] }, s'.faults⟩) := by
    cases depth <;> rfl
  have hsent (m : StreamRangeResponse) :
      s'.traced.sent ++ [m] = s.traced.sent ++ (msgs ++ [m]) := by
    rw [hmsgs, List.append_assoc]
  unfold rangeStream
  cases res with
  | ok c => exact ⟨_, _, (Prog.eval_bind_some hscan _).trans (hsend none), hsent _, rfl,
      fun _ => ⟨c, rfl⟩, fun _ => rfl⟩
  | error e =>
    refine ⟨_, _, (Prog.eval_bind_some hscan _).trans (hsend (some e)), hsent _, rfl, nofun, ?_⟩
    rintro ⟨c, hc⟩
    cases hc

variable (cfg R depth) in
theorem only_checkCompactRace :
    (checkCompactRace cfg R false).Only (Frozen.FaultFree cfg f depth) := by
  unfold checkCompactRace
  refine .bind (Prog.only_call fun s => by cases depth <;> rfl) fun res => ?_
  split
  · exact Prog.only_pure _
  · exact Prog.only_pure _
  · split
    · exact ⟨Frozen.faultFree_of_kind (by simp), nofun⟩
    · dsimp only
      split <;> exact Prog.only_pure _

/-- A scan for a stream, when its workers have ended. -/
theorem eval_scan_flaky {results : List (Receiver × Except Err ℕ)} {s s' : Flaky}
    (hps : adjustPartitionsBorders (Tikv.getPartitions (f.regions start stop) start stop) = some ps)
    (hrace : race cfg f.store R false = some none)
    (hspawn : (spawnAll (workers ps f.timestamp R false 0 (.stream R j []))).eval
      (f.execFlaky cfg (depth + 1)) s = some (List.range' s.traced.outs.length results.length, s'))
    (houts : s'.traced.outs = s.traced.outs ++ results.map fun x => .scanned x.1 x.2) :
    (scan cfg start stop R false (.stream R j [])).eval (f.execFlaky cfg (depth + 1)) s =
      (match firstError results with
        | some err => (pure (.stream R j [], .error err) : M (Receiver × Except Err ℕ))
        | none => mergeAll (.stream R j []) 0 results).eval (f.execFlaky cfg (depth + 1)) s' := by
  have hts : f.execFlaky cfg (depth + 1) (.kv .getTimestampOracle) s = some (.ok f.timestamp, s) :=
    rfl
  have hparts : f.execFlaky cfg (depth + 1) (.kv (.getPartitions start stop)) s =
      some (.ok (Tikv.getPartitions (f.regions start stop) start stop), s) := rfl
  have hcheck := Frozen.eval_flaky (only_checkCompactRace cfg (depth + 1) R)
    ((eval_checkCompactRace R false s.traced).trans (congrArg _ hrace)) s.faults
  have hjoin : (joinAll (List.range' s.traced.outs.length results.length)).eval
      (f.execFlaky cfg (depth + 1)) s' = some (results, s') := eval_joinAll_flaky results _ houts
  unfold scan
  rw [Prog.eval_call_bind hts]
  dsimp only
  rw [Prog.eval_bind_some hcheck]
  dsimp only
  rw [Prog.eval_call_bind hparts]
  dsimp only
  rw [hps]
  exact (Prog.eval_bind_some hspawn _).trans (Prog.eval_bind_some hjoin _)

variable (cfg f depth) in
/-- What a stream carries: the pairs of the workers, and a last message that ends it. -/
theorem eval_rangeStream_flaky
    (hps : adjustPartitionsBorders (Tikv.getPartitions (f.regions start stop) start stop) = some ps)
    (hnodup : ps.Nodup) (hrace : race cfg f.store R false ≠ none)
    (hform : ∀ p ∈ ps, FormedIn cfg f R false p) (s : Flaky) :
    ∃ msgs last s', (rangeStream cfg start stop R j).eval (f.execFlaky cfg (depth + 1)) s =
        some ((), s') ∧
      s'.traced.sent = s.traced.sent ++ (msgs ++ [last]) ∧ (∀ m ∈ msgs, m.Partial 0) ∧
      last.range = ⟨R, [], false⟩ ∧
      (last.err = none ↔ race cfg f.store R false = some none ∧ ∀ p ∈ ps, Passes s.faults p) ∧
      (last.err = none → ((∀ p ∈ ps, SilentFailures cfg f R s.faults p) →
          Traced.kvs msgs = foundIn cfg f R false ps) ∧
        (¬ (∀ p ∈ ps, SilentFailures cfg f R s.faults p) → ¬ (Traced.kvs msgs).Nodup)) := by
  obtain ⟨x, hx⟩ := Option.ne_none_iff_exists'.mp hrace
  cases x with
  | some err =>
    have hts : f.execFlaky cfg (depth + 1) (.kv .getTimestampOracle) s =
        some (.ok f.timestamp, s) := rfl
    have hcheck := Frozen.eval_flaky (only_checkCompactRace cfg (depth + 1) R)
      ((eval_checkCompactRace R false s.traced).trans (congrArg _ hx)) s.faults
    have hscan : (scan cfg start stop R false (.stream R j [])).eval
        (f.execFlaky cfg (depth + 1)) s = some ((.stream R j [], .error err), s) := by
      unfold scan
      rw [Prog.eval_call_bind hts]
      dsimp only
      rw [Prog.eval_bind_some hcheck]
      rfl
    obtain ⟨last, s'', heval, hsent, hrange, hok⟩ := eval_rangeStream_of_scan hscan
      (List.append_nil _).symm
    have herr : last.err ≠ none := hok.not.mpr (by simp)
    refine ⟨[], last, s'', heval, hsent, by simp, hrange, ?_, fun h => absurd h herr⟩
    rw [hx]
    exact iff_of_false herr (by simp)
  | none =>
    obtain ⟨results, msgs, s', hspawn, houts, hsent, hshape, hok, hall⟩ :=
      eval_spawnAll_flaky cfg f depth j 0 hnodup hform s
    have hscan := eval_scan_flaky hps hx hspawn houts
    rw [hx, ← hok]
    cases herr : firstError results with
    | some err =>
      rw [herr] at hscan
      obtain ⟨last, s'', heval, hsent, hrange, hlast⟩ := eval_rangeStream_of_scan hscan hsent
      have herr' : last.err ≠ none := hlast.not.mpr (by simp)
      refine ⟨msgs, last, s'', heval, hsent, hshape, hrange, ?_, fun h => absurd h herr'⟩
      exact iff_of_false herr' (by simp)
    | none =>
      obtain ⟨hempty, hkvs⟩ := hall herr
      obtain ⟨c, hmerge⟩ : ∃ c, (mergeAll (.stream R j []) 0 results).eval
          (f.execFlaky cfg (depth + 1)) s' = some ((.stream R j [], .ok c), s') :=
        eval_mergeAll_flaky [] hempty s'
      rw [herr, hmerge] at hscan
      obtain ⟨last, s'', heval, hsent, hrange, hlast⟩ := eval_rangeStream_of_scan hscan hsent
      refine ⟨msgs, last, s'', heval, hsent, hshape, hrange, ?_, fun _ => hkvs⟩
      exact iff_of_true (hlast.mpr ⟨c, rfl⟩) (by simp)

end Stream

end Scanner

/-- What makes a stream over key-aligned partitions right: the read is refused, or a worker gives
up, so that the stream ends with an error; or no failed attempt had sent a batch, and no version is
interrupted. -/
def StreamsRight (cfg : Config) (f : Frozen) (R : ℕ) (start stop : Bytes) (ps : List Partition)
    (faults : Partition → List (Option Fault)) : Prop :=
  race cfg f.store R false ≠ some none ∨ (∃ p ∈ ps, ¬ Passes faults p) ∨
    (∀ p ∈ ps, SilentFailures cfg f R faults p) ∧ ¬ Interrupted f.store start stop R

/-- A stream ends with one message that has no pairs; the others go on, each with at most a batch.
If it ends without error it carries the live pairs, exactly under these conditions. -/
theorem rangeStream_exact_iff (cfg : Config) (f : Frozen) (R j : ℕ) {start stop : Bytes}
    {bs : List Bytes}
    (hps : adjustPartitionsBorders (Tikv.getPartitions (f.regions start stop) start stop) =
      some (Tikv.pieces start bs stop)) (hnodup : (Tikv.pieces start bs stop).Nodup)
    (hchain : (start :: bs).Pairwise (· ≤ ·)) (hstop : ∀ c ∈ start :: bs, c ≤ stop)
    (haligned : ∀ c ∈ stop :: bs, KeyAligned f.store c)
    (hinternal : ∀ key v, f.store.get key = some v → start ≤ key → key < stop →
      ∃ k r, r < 2 ^ 64 ∧ key = encodeObjectKey k r)
    (hrecord : ∀ val, f.store.get (getCompactKey cfg.keyPrefix) = some val → 8 ≤ val.length)
    (faults : Partition → List (Option Fault)) :
    ∃ msgs last s', (rangeStream cfg start stop R j).eval (f.execFlaky cfg 1) ⟨.fresh, faults⟩ =
        some ((), s') ∧
      s'.traced.sent = msgs ++ [last] ∧
      (∀ m ∈ msgs, m.range.more = true ∧ m.range.kvs.length ≤ rangeStreamBatch) ∧
      last.range.more = false ∧
      ((last.err = none →
          ∃ all, LiveIn f.store start stop R all ∧ (Traced.kvs msgs).Perm all) ↔
        StreamsRight cfg f R start stop (Tikv.pieces start bs stop) faults) := by
  have hle : start ≤ stop := hstop start List.mem_cons_self
  obtain ⟨hend, hbs⟩ := List.forall_mem_cons.mp haligned
  have hrace : race cfg f.store R false ≠ none := by
    unfold Scanner.race
    rw [if_neg (by decide)]
    cases hval : f.store.get (getCompactKey cfg.keyPrefix) with
    | none => simp
    | some val =>
      dsimp only
      rw [if_neg (not_lt.mpr (hrecord val hval))]
      split <;> simp
  have hform : ∀ p ∈ Tikv.pieces start bs stop, FormedIn cfg f R false p := by
    apply (formed_pieces hchain hstop).mpr
    intro p hp e he
    obtain rfl := List.mem_singleton.mp hp
    obtain ⟨hget, hl, hh⟩ := (mem_items hle).mp he
    obtain ⟨k, r, hr, heq⟩ := hinternal _ _ hget hl hh
    unfold Worker.Malformed
    rw [heq, decode_encodeObjectKey k hr]
    rintro ⟨hopen, -⟩
    exact hopen (.inr (.inl rfl))
  obtain ⟨msgs, last, s', heval, hsent, hshape, hrange, hok, hall⟩ :=
    eval_rangeStream_flaky cfg f 0 (j := j) hps hnodup hrace hform ⟨.fresh, faults⟩
  refine ⟨msgs, last, s', heval, hsent, fun m hm => ⟨(hshape m hm).more, (hshape m hm).few⟩,
    by rw [hrange], ?_⟩
  unfold StreamsRight
  by_cases herr : last.err = none
  · obtain ⟨hrace', hpasses⟩ := hok.mp herr
    obtain ⟨hsilent, hrepeats⟩ := hall herr
    have hnever : ¬ ∃ p ∈ Tikv.pieces start bs stop, ¬ Passes faults p := by
      simpa using hpasses
    rw [foundIn_aligned cfg f hchain hstop hbs] at hsilent
    simp only [herr, forall_const, hrace', ne_eq, not_true_eq_false, false_or, hnever]
    by_cases hs : ∀ p ∈ Tikv.pieces start bs stop, SilentFailures cfg f R faults p
    · rw [hsilent hs, liveIn_listing_iff hle hend, and_iff_right hs]
    · refine iff_of_false ?_ fun h => hs h.1
      rintro ⟨all, hlive, hperm⟩
      exact hrepeats hs (hperm.nodup_iff.mpr (List.Nodup.of_map _ hlive.nodup))
  · refine iff_of_true (fun h => absurd h herr) ?_
    by_contra hno
    obtain ⟨hrace', hrest⟩ := not_or.mp hno
    refine herr (hok.mpr ⟨not_not.mp hrace', fun p hp => ?_⟩)
    by_contra hp'
    exact hrest (.inl ⟨p, hp, hp'⟩)

/-- The first iteration over an interval stops after its first pair. -/
def stopOnce : Partition → List (Option Fault) := fun _ => [some (.stopAfter 1 (.other 0))]

theorem rangeStream_exact_stopOnce :
    ∃ msgs last s', (rangeStream plainConfig (encodeObjectKey [100] 0) (encodeObjectKey [104] 0)
        4 0).eval (atFour.execFlaky plainConfig 1) ⟨.fresh, stopOnce⟩ = some ((), s') ∧
      s'.traced.sent = msgs ++ [last] ∧
      Traced.kvs s'.traced.sent = [⟨[101], [7], 1⟩, ⟨[103], [9], 4⟩] ∧
      (last.err = none → ∃ all, LiveIn twoLive (encodeObjectKey [100] 0) (encodeObjectKey [104] 0) 4
        all ∧ (Traced.kvs msgs).Perm all) := by
  have hkeyed := spaced_twoLive.keyed [100] [104] 0 0
  obtain ⟨msgs, last, s', heval, hsent, -, -, hiff⟩ := @rangeStream_exact_iff plainConfig atFour 4 0
    (encodeObjectKey [100] 0) (encodeObjectKey [104] 0) [] rfl (List.nodup_singleton _)
    (List.pairwise_singleton _ _) (List.forall_mem_singleton.mpr (by decide))
    (List.forall_mem_singleton.mpr (keyAligned_of_plain (by decide +kernel) spaced_twoLive))
    (fun key v hget hl hh => by
      obtain ⟨k, r, -, hr, heq⟩ := hkeyed key v hget hl hh
      exact ⟨k, r, hr, heq⟩)
    (fun val hval => (notCompacted_twoLive 4 val hval).1) stopOnce
  have hright : StreamsRight plainConfig atFour 4 (encodeObjectKey [100] 0)
      (encodeObjectKey [104] 0) (Tikv.pieces (encodeObjectKey [100] 0) []
        (encodeObjectKey [104] 0)) stopOnce := by
    refine .inr (.inr ⟨fun p _ x hx => ?_, not_interrupted hkeyed⟩)
    obtain rfl := List.mem_singleton.mp hx
    exact Worker.silent_of_lt (by decide)
  have hkvs : ((rangeStream plainConfig (encodeObjectKey [100] 0) (encodeObjectKey [104] 0)
      4 0).eval (atFour.execFlaky plainConfig 1) ⟨.fresh, stopOnce⟩).map
        (fun x => Traced.kvs x.2.traced.sent) = some [⟨[101], [7], 1⟩, ⟨[103], [9], 4⟩] := by
    decide +kernel
  rw [heval] at hkvs
  exact ⟨msgs, last, s', heval, hsent, Option.some.inj hkvs, hiff.mpr hright⟩

section Repeats

/-- The first iteration over an interval stops in the place of its end. -/
def stopAtEnd (f : Frozen) : Partition → List (Option Fault) := fun p =>
  [some (.stopAfter (Engine.items f.store p.start p.stop 0).length (.other 0))]

theorem not_silent_stopAtEnd {cfg : Config} {f : Frozen} {R : ℕ} {p : Partition}
    (hlong : rangeStreamBatch + 1 ≤ (tallyOf cfg f R false p).all.length) :
    ¬ SilentFailures cfg f R (stopAtEnd f) p := by
  intro h
  have hfew : (Worker.foundAfter cfg.supportTTL (workerOf cfg f R false p) f.store
      (Engine.items f.store p.start p.stop 0).length).length < rangeStreamBatch :=
    h _ List.mem_cons_self
  have hfound : Worker.foundAfter cfg.supportTTL (workerOf cfg f R false p) f.store
      (Engine.items f.store p.start p.stop 0).length = (tallyOf cfg f R false p).found := by
    unfold Worker.foundAfter tallyOf Worker.tally workerOf
    dsimp only
    rw [List.take_length]
  have hlast := (tallyOf cfg f R false p).length_last_le
  rw [Worker.Tally.all_eq, List.length_append] at hlong
  rw [hfound] at hfew
  omega

theorem stopAtEnd_repeats {cfg : Config} {f : Frozen} {R j : ℕ} {a b : Bytes} (ha : Plain a)
    (hb : Plain b) (hab : a < b) (hst : Spaced f.store)
    (hregions : f.regions (encodeObjectKey a 0) (encodeObjectKey b 0) = [⟨[], []⟩])
    (hrecord : NotCompacted cfg f.store R)
    (hlong : ∀ all, Listing f.store a b R all → rangeStreamBatch + 1 ≤ all.length) :
    ∃ msgs last s', (rangeStream cfg (encodeObjectKey a 0) (encodeObjectKey b 0) R j).eval
        (f.execFlaky cfg 1) ⟨.fresh, stopAtEnd f⟩ = some ((), s') ∧
      s'.traced.sent = msgs ++ [last] ∧ last.err = none ∧
      ∀ all, Listing f.store a b R all → ¬ (Traced.kvs msgs).Perm all := by
  have hlt := encodeObjectKey_lt ha hb hab
  have hlisting := listing_tallyOf cfg f R ha hb hab.le hst
  have hps : adjustPartitionsBorders (Tikv.getPartitions
      (f.regions (encodeObjectKey a 0) (encodeObjectKey b 0)) (encodeObjectKey a 0)
        (encodeObjectKey b 0)) = some [⟨encodeObjectKey a 0, encodeObjectKey b 0⟩] := by
    rw [hregions, Tikv.getPartitions_eq (covers_one _ _)]
    rfl
  obtain ⟨msgs, last, s', heval, hsent, -, -, hok, hall⟩ := eval_rangeStream_flaky cfg f 0 (j := j)
    hps (List.nodup_singleton _) (by rw [hrecord.race]; simp)
    (List.forall_mem_singleton.mpr (formedIn_of_spaced cfg R hlt.le hst)) ⟨.fresh, stopAtEnd f⟩
  have hlast : last.err = none :=
    hok.mpr ⟨hrecord.race, List.forall_mem_singleton.mpr (show 1 < scanBackoffSteps by decide)⟩
  refine ⟨msgs, last, s', heval, hsent, hlast, fun all hlisted hperm => ?_⟩
  refine (hall hlast).2 (fun h => ?_) (hperm.nodup_iff.mpr ?_)
  · exact not_silent_stopAtEnd (hlong _ hlisting) (List.forall_mem_singleton.mp h)
  · exact hlisted.sorted.imp fun hkey => ne_of_apply_ne KeyValue.key hkey.ne

/-- More user keys than a batch holds. -/
def userKey (i : ℕ) : Bytes := [Fin.ofNat 256 (100 + i / 100), Fin.ofNat 256 (100 + i % 100)]

/-- Irreducible, so that no proof computes the store. -/
@[irreducible] def insertAll (keys : List Bytes) (v : Bytes) : Store :=
  keys.foldl (fun st key => st.insert key v) .empty

theorem get_insertAll (keys : List Bytes) (v key : Bytes) :
    (insertAll keys v).get key = if key ∈ keys then some v else none := by
  have step (st : Store) : (keys.foldl (fun st key => st.insert key v) st).get key =
      if key ∈ keys then some v else st.get key := by
    induction keys generalizing st with
    | nil => simp
    | cons x keys ih =>
      rw [List.foldl_cons, ih, SortedMap.get_insert]
      by_cases hmem : key ∈ keys
      · simp [hmem]
      · by_cases hx : key = x
        · simp [hx]
        · simp [hx, hmem]
  unfold insertAll
  exact step .empty

/-- One version of each of 301 user keys. -/
def fullBatch : Frozen where
  store := insertAll ((List.range (rangeStreamBatch + 1)).map fun i =>
    encodeObjectKey (userKey i) 1) [0]
  regions := fun _ _ => [⟨[], []⟩]
  timestamp := 1
  committedRevision := 1
  timeoutRevision := 0

theorem userKey_spec {i : ℕ} (hi : i < rangeStreamBatch + 1) : Plain (userKey i) ∧
    ([100] : Bytes) ≤ userKey i ∧ userKey i < [104] := by
  unfold rangeStreamBatch at hi
  have hfirst : (Fin.ofNat 256 (100 + i / 100)).val = 100 + i / 100 :=
    Nat.mod_eq_of_lt (by omega)
  have hsecond : (Fin.ofNat 256 (100 + i % 100)).val = 100 + i % 100 :=
    Nat.mod_eq_of_lt (by omega)
  refine ⟨?_, ?_, ?_⟩
  · intro b hb
    simp only [userKey, List.mem_cons, List.not_mem_nil, or_false] at hb
    rcases hb with rfl | rfl
    · exact Fin.lt_def.mpr (by rw [hfirst]; simp [splitByte]; omega)
    · exact Fin.lt_def.mpr (by rw [hsecond]; simp [splitByte]; omega)
  · rw [← not_lt]
    simp only [userKey, List.cons_lt_cons_iff, List.not_lt_nil, and_false, or_false, Fin.lt_def,
      hfirst]
    simp
  · simp only [userKey, List.cons_lt_cons_iff, Fin.lt_def, hfirst]
    left
    show _ < 104
    omega

theorem userKey_injOn {i i' : ℕ} (hi : i < rangeStreamBatch + 1) (hi' : i' < rangeStreamBatch + 1)
    (h : userKey i = userKey i') : i = i' := by
  unfold userKey rangeStreamBatch at *
  simp only [List.cons.injEq, Fin.ext_iff, Fin.val_ofNat, and_true] at h
  omega

theorem get_fullBatch (key : Bytes) : fullBatch.store.get key =
    if key ∈ (List.range (rangeStreamBatch + 1)).map (fun i => encodeObjectKey (userKey i) 1) then
      some [0] else none :=
  get_insertAll _ _ key

theorem mem_fullBatch {key v : Bytes} (h : fullBatch.store.get key = some v) :
    v = [0] ∧ ∃ i < rangeStreamBatch + 1, key = encodeObjectKey (userKey i) 1 := by
  rw [get_fullBatch] at h
  split at h
  next hmem =>
    obtain ⟨i, hi, rfl⟩ := List.mem_map.mp hmem
    exact ⟨(Option.some.inj h).symm, i, List.mem_range.mp hi, rfl⟩
  · cases h

theorem spaced_fullBatch : Spaced fullBatch.store := by
  intro key v hv _
  obtain ⟨-, i, hi, rfl⟩ := mem_fullBatch hv
  exact ⟨userKey i, 1, (userKey_spec hi).1, by decide, rfl⟩

theorem live_fullBatch {i : ℕ} (hi : i < rangeStreamBatch + 1) :
    Mvcc.Live (· = tombStoneBytes) (objects fullBatch.store (userKey i)) 1 1 [0] := by
  have hget : fullBatch.store.get (encodeObjectKey (userKey i) 1) = some [0] := by
    rw [get_fullBatch, if_pos (List.mem_map.mpr ⟨i, List.mem_range.mpr hi, rfl⟩)]
  exact ⟨⟨⟨by decide, by decide, hget⟩, le_rfl, fun r v _ hr => hr⟩, by decide⟩

/-- The listing of the store is longer than a batch. -/
theorem length_fullBatch {all : List KeyValue} (h : Listing fullBatch.store [100] [104] 1 all) :
    rangeStreamBatch + 1 ≤ all.length := by
  let live := (List.range (rangeStreamBatch + 1)).map fun i => (⟨userKey i, [0], 1⟩ : KeyValue)
  have hsub : live ⊆ all := by
    intro kv hkv
    obtain ⟨i, hi, rfl⟩ := List.mem_map.mp hkv
    have hi := List.mem_range.mp hi
    exact (h.mem _).mpr ⟨(userKey_spec hi).2.1, (userKey_spec hi).2.2, live_fullBatch hi⟩
  have hnodup : live.Nodup := by
    apply List.Nodup.map_on _ List.nodup_range
    intro i hi i' hi' heq
    exact userKey_injOn (List.mem_range.mp hi) (List.mem_range.mp hi') (congrArg KeyValue.key heq)
  have hle := (List.subperm_of_subset hnodup hsub).length_le
  simpa [live] using hle

/-- An iteration that fails after a full batch was sent: the stream ends without error and carries
more than the listing. -/
theorem rangeStream_repeats :
    ∃ msgs last s', (rangeStream plainConfig (encodeObjectKey [100] 0) (encodeObjectKey [104] 0)
        1 0).eval (fullBatch.execFlaky plainConfig 1) ⟨.fresh, stopAtEnd fullBatch⟩ =
          some ((), s') ∧
      s'.traced.sent = msgs ++ [last] ∧ last.err = none ∧
      ∀ all, Listing fullBatch.store [100] [104] 1 all → ¬ (Traced.kvs msgs).Perm all := by
  apply stopAtEnd_repeats (by decide +kernel) (by decide +kernel) (by decide +kernel)
    spaced_fullBatch rfl _ fun all => length_fullBatch
  intro val hval
  obtain ⟨-, i, -, hkey⟩ := mem_fullBatch hval
  exact absurd ⟨_, _, hkey⟩ (not_internal_getCompactKey _)

end Repeats

end KubeBrain

import KubeBrain.Scan.Borders
import KubeBrain.Scan.Frozen

/-! A scan over partitions with one worker each, against one worker over the whole interval. -/
namespace KubeBrain

open Interleaving Coder

namespace Scanner

variable {cfg : Config} {f : Frozen} {depth : ℕ}

/-- What a worker hands over, with the tally of its partition. -/
def handed (r : Receiver) (t : Worker.Tally) : Receiver × Except Err ℕ :=
  (r.kept t.all, .ok t.all.length)

variable (depth) in
theorem exec_spawn_worker {w : WorkerConfig} {r : Receiver} (hr : r.Unlimited)
    (hw : Worker.WellFormed cfg.supportTTL w f.store) (s : Traced) :
    ∃ sent', f.exec cfg (depth + 1) (.spawn (.worker w r)) s =
      some (s.outs.length, ⟨s.deleted ++ (Worker.tally cfg.supportTTL w f.store).deleted, sent',
        s.outs ++ [.scanned (handed r (Worker.tally cfg.supportTTL w f.store)).1
          (handed r (Worker.tally cfg.supportTTL w f.store)).2]⟩) ∧
      r.Sends s.sent (Worker.tally cfg.supportTTL w f.store).all sent' := by
  obtain ⟨sent', heval, hkvs⟩ :=
    Worker.eval_runWithBackoffRetry cfg f depth r hr hw s
  have hprog : (Leader.goroutine cfg (.worker w r)).prog.eval (f.exec cfg depth) s =
      some (.scanned (handed r (Worker.tally cfg.supportTTL w f.store)).1
        (handed r (Worker.tally cfg.supportTTL w f.store)).2,
        ⟨s.deleted ++ (Worker.tally cfg.supportTTL w f.store).deleted, sent', s.outs⟩) :=
    Prog.eval_bind_some heval _
  exact ⟨sent', Frozen.exec_spawn hprog, hkvs⟩

theorem exec_spawn_malformed {w : WorkerConfig} {r : Receiver} (hr : r.Unlimited)
    (hw : ¬ Worker.WellFormed cfg.supportTTL w f.store) (s : Traced) :
    f.exec cfg (depth + 1) (.spawn (.worker w r)) s = none := by
  have heval := Worker.eval_runWithBackoffRetry_malformed cfg f depth r hr hw s
  have hprog : (Leader.goroutine cfg (.worker w r)).prog.eval (f.exec cfg depth) s = none :=
    Prog.eval_bind_none heval _
  rw [Frozen.exec_spawn_eq, hprog]

section Workers

-- Workers with one configuration for each partition; their number does not matter to them.
variable {g : ℕ → Partition → WorkerConfig} {t : Partition → Worker.Tally}
  {formed : Partition → Prop} {r : Receiver}

variable (cfg f depth) in
theorem eval_spawnAll (hr : r.Unlimited)
    (hg : ∀ i p, Worker.tally cfg.supportTTL (g i p) f.store = t p) (ps : List Partition)
    (hform : ∀ i, ∀ p ∈ ps, Worker.WellFormed cfg.supportTTL (g i p) f.store) (s : Traced) :
    ∃ sent', (spawnAll (ps.mapIdx fun i p => .worker (g i p) r)).eval (f.exec cfg (depth + 1)) s =
      some (List.range' s.outs.length ps.length,
        ⟨s.deleted ++ ps.flatMap fun p => (t p).deleted, sent',
          s.outs ++ ps.map fun p => .scanned (handed r (t p)).1 (handed r (t p)).2⟩) ∧
      r.Sends s.sent (ps.flatMap fun p => (t p).all) sent' := by
  induction ps generalizing g s with
  | nil => exact ⟨s.sent, by simp [spawnAll], .nil r s.sent⟩
  | cons p ps ih =>
    obtain ⟨sent₁, hspawn, hkvs₁⟩ := exec_spawn_worker depth hr (hform 0 p List.mem_cons_self) s
    obtain ⟨sent', hrest, hkvs⟩ := ih (g := fun i => g (i + 1)) (fun i q => hg (i + 1) q)
      (fun i q hq => hform (i + 1) q (List.mem_cons_of_mem _ hq))
      ⟨s.deleted ++ (t p).deleted, sent₁,
        s.outs ++ [.scanned (handed r (t p)).1 (handed r (t p)).2]⟩
    rw [hg 0 p] at hspawn hkvs₁
    refine ⟨sent', ?_, ?_⟩
    · rw [List.mapIdx_cons, spawnAll, Prog.eval_call_bind hspawn, Prog.eval_bind_some hrest]
      simp [List.range'_succ]
    · rw [List.flatMap_cons]
      exact hkvs₁.trans hkvs

theorem eval_spawnAll_malformed (hr : r.Unlimited) (ps : List Partition)
    (hform : ∀ i j p, Worker.WellFormed cfg.supportTTL (g i p) f.store ↔
      Worker.WellFormed cfg.supportTTL (g j p) f.store)
    (hbad : ∃ p ∈ ps, ¬ Worker.WellFormed cfg.supportTTL (g 0 p) f.store) (s : Traced) :
    (spawnAll (ps.mapIdx fun i p => .worker (g i p) r)).eval (f.exec cfg (depth + 1)) s = none := by
  induction ps generalizing g s with
  | nil => simp at hbad
  | cons p ps ih =>
    rw [List.mapIdx_cons, spawnAll]
    by_cases hp : Worker.WellFormed cfg.supportTTL (g 0 p) f.store
    · obtain ⟨sent₁, hspawn, -⟩ := exec_spawn_worker depth hr hp s
      rw [Prog.eval_call_bind hspawn]
      apply Prog.eval_bind_none
      apply ih (fun i j => hform (i + 1) (j + 1))
      obtain ⟨q, hq, hbad⟩ := hbad
      rcases List.mem_cons.mp hq with rfl | hq
      · exact absurd hp hbad
      · exact ⟨q, hq, fun h => hbad ((hform 0 1 q).mpr h)⟩
    · rw [Prog.call_bind, Prog.eval, exec_spawn_malformed hr hp]

theorem eval_joinAll (ps : List Partition) (outs : List Outcome) (d : List Bytes)
    (sent : List StreamRangeResponse) :
    let s : Traced :=
      ⟨d, sent, outs ++ ps.map fun p => .scanned (handed r (t p)).1 (handed r (t p)).2⟩
    (joinAll (List.range' outs.length ps.length)).eval (f.exec cfg depth) s =
      some (ps.map fun p => handed r (t p), s) := by
  induction ps generalizing outs with
  | nil => rfl
  | cons p ps ih =>
    have hrest := ih (outs ++ [.scanned (handed r (t p)).1 (handed r (t p)).2])
    simp only [List.append_assoc, List.singleton_append, List.length_append, List.length_cons,
      List.length_nil, Nat.zero_add] at hrest
    have hget : (outs ++ (p :: ps).map fun p =>
        Outcome.scanned (handed r (t p)).1 (handed r (t p)).2)[outs.length]? =
        some (.scanned (handed r (t p)).1 (handed r (t p)).2) := by simp
    dsimp only
    rw [List.length_cons, List.range'_succ, joinAll, Prog.eval_call_bind (Frozen.exec_join hget),
      List.map_cons, Prog.eval_bind_some hrest]
    rfl

theorem firstError_handed (ps : List Partition) :
    firstError (ps.map fun p => handed r (t p)) = none := by
  induction ps with
  | nil => rfl
  | cons p ps ih => exact ih

theorem eval_close (t : Worker.Tally) (s : Traced) :
    (handed r t).1.close.eval (f.exec cfg depth) s = some ((handed r t).1, s) := by
  cases r <;> rfl

theorem merge_kept (hr : r.Unlimited) (acc : List KeyValue) (t : Worker.Tally) :
    (r.kept acc).merge (handed r.fork t).1 = r.kept (acc ++ t.all) := by
  cases r with
  | empty => rfl
  | common _ limit => exact if_pos (.inl hr)
  | stream => rfl

variable (cfg f depth) in
/-- The merged receiver holds what the workers found, in the order of the partitions. -/
theorem eval_mergeAll (hr : r.Unlimited) (ps : List Partition) (acc : List KeyValue) (s : Traced) :
    (mergeAll (r.kept acc) acc.length (ps.map fun p => handed r.fork (t p))).eval
        (f.exec cfg depth) s =
      some ((r.kept (acc ++ ps.flatMap fun p => (t p).all),
        .ok (acc ++ ps.flatMap fun p => (t p).all).length), s) := by
  induction ps generalizing acc with
  | nil => simp [mergeAll]
  | cons p ps ih =>
    have hrest := ih (acc ++ (t p).all)
    rw [← merge_kept hr acc (t p), List.length_append, List.append_assoc] at hrest
    rw [List.map_cons, List.flatMap_cons]
    exact (Prog.eval_bind_some (eval_close (t p) s) _).trans hrest

end Workers

/-- Outcome of `checkCompactRace`; `none` is an index out of range. -/
def race (cfg : Config) (st : Store) (revision : ℕ) (compact : Bool) : Option (Option Err) :=
  if compact then some none
  else
    match st.get (getCompactKey cfg.keyPrefix) with
    | none => some none
    | some val =>
      if val.length < 8 then none
      else if revision < Bytes.toNatBE (val.take 8) then
        some (some (.compacted revision (Bytes.toNatBE (val.take 8))))
      else some none

theorem eval_checkCompactRace (revision : ℕ) (compact : Bool) (s : Traced) :
    (checkCompactRace cfg revision compact).eval (f.exec cfg depth) s =
      (race cfg f.store revision compact).map fun x => (x, s) := by
  unfold checkCompactRace race
  split
  · cases depth <;> rfl
  · rw [Prog.eval_call_bind (Frozen.exec_get _ s)]
    cases f.store.get (getCompactKey cfg.keyPrefix) with
    | none => rfl
    | some val =>
      dsimp only
      split
      · exact Frozen.eval_panics _
      · split <;> rfl

/-- Outcome of `timeoutRevision`. -/
def timeoutOf (cfg : Config) (f : Frozen) (compact : Bool) : ℕ :=
  if compact then if cfg.supportTTL then 0 else f.timeoutRevision else 0

theorem eval_timeoutRevision (compact : Bool) (s : Traced) :
    (timeoutRevision cfg compact).eval (f.exec cfg depth) s =
      some (timeoutOf cfg f compact, s) := by
  unfold timeoutRevision timeoutOf getTimeoutRevision
  split
  · split
    · rfl
    · cases depth <;> rfl
  · rfl

/-- The worker of a partition. -/
def workerOf (cfg : Config) (f : Frozen) (revision : ℕ) (compact : Bool) (p : Partition) :
    WorkerConfig := ⟨0, p, f.timestamp, revision, compact, timeoutOf cfg f compact⟩

def tallyOf (cfg : Config) (f : Frozen) (revision : ℕ) (compact : Bool) (p : Partition) :
    Worker.Tally := Worker.tally cfg.supportTTL (workerOf cfg f revision compact p) f.store

def FormedIn (cfg : Config) (f : Frozen) (revision : ℕ) (compact : Bool) (p : Partition) : Prop :=
  Worker.WellFormed cfg.supportTTL (workerOf cfg f revision compact p) f.store

instance (cfg : Config) (f : Frozen) (revision : ℕ) (compact : Bool) (p : Partition) :
    Decidable (FormedIn cfg f revision compact p) :=
  inferInstanceAs (Decidable (∀ e ∈ _, ¬ Worker.Malformed _ _ e))

/-- What the workers of the partitions find. -/
def foundIn (cfg : Config) (f : Frozen) (revision : ℕ) (compact : Bool) (ps : List Partition) :
    List KeyValue := ps.flatMap fun p => (tallyOf cfg f revision compact p).all

/-- What the workers of the partitions delete. -/
def deletedIn (cfg : Config) (f : Frozen) (revision : ℕ) (compact : Bool) (ps : List Partition) :
    List Bytes := ps.flatMap fun p => (tallyOf cfg f revision compact p).deleted

section Scan

variable {start stop : Bytes} {revision : ℕ} {compact : Bool} {r : Receiver} {ps : List Partition}

theorem fork_unlimited (hr : r.Unlimited) : r.fork.Unlimited := by
  cases r <;> exact hr

/-- The calls before the partitions are known. -/
theorem eval_scan_partitions (s : Traced) :
    (scan cfg start stop revision compact r).eval (f.exec cfg (depth + 1)) s =
      match race cfg f.store revision compact with
      | none => none
      | some (some err) => some ((r, .error err), s)
      | some none =>
        (match adjustPartitionsBorders (Tikv.getPartitions (f.regions start stop) start stop) with
        | none => (panics : M (Receiver × Except Err ℕ))
        | some ps => do
          let ids ← spawnAll (workers ps f.timestamp revision compact (timeoutOf cfg f compact) r)
          let results ← joinAll ids
          match firstError results with
          | some err => pure (r, .error err)
          | none => mergeAll r 0 results).eval (f.exec cfg (depth + 1)) s := by
  have hts : f.exec cfg (depth + 1) (.kv .getTimestampOracle) s = some (.ok f.timestamp, s) := rfl
  have hparts : f.exec cfg (depth + 1) (.kv (.getPartitions start stop)) s =
      some (.ok (Tikv.getPartitions (f.regions start stop) start stop), s) := rfl
  unfold scan
  rw [Prog.eval_call_bind hts]
  dsimp only
  rw [Prog.eval_bind, eval_checkCompactRace]
  rcases race cfg f.store revision compact with _ | err | _
  · rfl
  · rw [Option.map_some, Option.bind_some]
    dsimp only
    rw [Prog.eval_call_bind hparts]
    dsimp only
    cases adjustPartitionsBorders (Tikv.getPartitions (f.regions start stop) start stop) with
    | none => rfl
    | some ps => exact Prog.eval_bind_some (eval_timeoutRevision compact s) _
  · rfl

variable (depth) in
/-- The workers report and delete what the tallies of their partitions say, in their order. -/
theorem eval_workers (hr : r.Unlimited) (hfresh : r.kept [] = r)
    (hform : ∀ p ∈ ps, FormedIn cfg f revision compact p) (s : Traced) :
    ∃ s', (do
        let ids ← spawnAll (workers ps f.timestamp revision compact (timeoutOf cfg f compact) r)
        let results ← joinAll ids
        match firstError results with
        | some err => pure (r, .error err)
        | none => mergeAll r 0 results : M (Receiver × Except Err ℕ)).eval
          (f.exec cfg (depth + 1)) s =
      some ((r.kept (foundIn cfg f revision compact ps),
        .ok (foundIn cfg f revision compact ps).length), s') ∧
      s'.deleted = s.deleted ++ deletedIn cfg f revision compact ps ∧
      r.fork.Sends s.sent (foundIn cfg f revision compact ps) s'.sent := by
  obtain ⟨sent', hspawn, hkvs⟩ := eval_spawnAll cfg f depth
    (g := fun i p => ⟨i, p, f.timestamp, revision, compact, timeoutOf cfg f compact⟩)
    (t := tallyOf cfg f revision compact) (r := r.fork) (fork_unlimited hr) (fun _ _ => rfl) ps
    (fun _ p hp => hform p hp) s
  have hmerge := eval_mergeAll cfg f (depth + 1) (t := tallyOf cfg f revision compact) hr ps []
  rw [hfresh] at hmerge
  refine ⟨⟨_, sent', s.outs ++ ps.map fun p =>
    .scanned (handed r.fork (tallyOf cfg f revision compact p)).1
      (handed r.fork (tallyOf cfg f revision compact p)).2⟩, ?_, rfl, hkvs⟩
  unfold workers
  rw [Prog.eval_bind_some hspawn, Prog.eval_bind_some (eval_joinAll ps _ _ _), firstError_handed]
  exact hmerge _

variable (depth) in
theorem eval_scan (hr : r.Unlimited) (hfresh : r.kept [] = r)
    (hps : adjustPartitionsBorders (Tikv.getPartitions (f.regions start stop) start stop) = some ps)
    (hrace : race cfg f.store revision compact = some none)
    (hform : ∀ p ∈ ps, FormedIn cfg f revision compact p) (s : Traced) :
    ∃ s', (scan cfg start stop revision compact r).eval (f.exec cfg (depth + 1)) s =
      some ((r.kept (foundIn cfg f revision compact ps),
        .ok (foundIn cfg f revision compact ps).length), s') ∧
      s'.deleted = s.deleted ++ deletedIn cfg f revision compact ps ∧
      r.fork.Sends s.sent (foundIn cfg f revision compact ps) s'.sent := by
  rw [eval_scan_partitions, hrace]
  dsimp only
  rw [hps]
  exact eval_workers depth hr hfresh hform s

/-- A pair that makes one worker panic ends the scan. -/
theorem eval_scan_malformed (hr : r.Unlimited)
    (hps : adjustPartitionsBorders (Tikv.getPartitions (f.regions start stop) start stop) = some ps)
    (hrace : race cfg f.store revision compact = some none)
    (hform : ∃ p ∈ ps, ¬ FormedIn cfg f revision compact p) (s : Traced) :
    (scan cfg start stop revision compact r).eval (f.exec cfg (depth + 1)) s = none := by
  rw [eval_scan_partitions, hrace]
  dsimp only
  rw [hps]
  apply Prog.eval_bind_none
  exact eval_spawnAll_malformed
    (g := fun i p => ⟨i, p, f.timestamp, revision, compact, timeoutOf cfg f compact⟩)
    (fork_unlimited hr) ps (fun _ _ _ => Iff.rfl) hform s

/-- What a scan over the given partitions comes to: the pairs and the deleted keys. -/
def outcome (cfg : Config) (f : Frozen) (revision : ℕ) (compact : Bool) (ps : List Partition) :
    Option (Except Err (List KeyValue × List Bytes)) :=
  match race cfg f.store revision compact with
  | none => none
  | some (some err) => some (.error err)
  | some none =>
    if ∀ p ∈ ps, FormedIn cfg f revision compact p then
      some (.ok (foundIn cfg f revision compact ps, deletedIn cfg f revision compact ps))
    else none

theorem outcome_eq_ok {found : List KeyValue} {deleted : List Bytes} :
    outcome cfg f revision compact ps = some (.ok (found, deleted)) ↔
      race cfg f.store revision compact = some none ∧
      (∀ p ∈ ps, FormedIn cfg f revision compact p) ∧
      found = foundIn cfg f revision compact ps ∧
        deleted = deletedIn cfg f revision compact ps := by
  unfold outcome
  rcases race cfg f.store revision compact with _ | _ | err
  · simp
  · dsimp only
    split
    · next h =>
      simp only [Option.some.injEq, Except.ok.injEq, Prod.mk.injEq, true_and, eq_comm]
      exact ⟨fun hok => ⟨h, hok⟩, fun hok => hok.2⟩
    · next h => simp only [reduceCtorEq, h, false_and, and_false]
  · simp

def keysDeleted : Except Err (List KeyValue × List Bytes) → List Bytes
  | .ok x => x.2
  | .error _ => []

variable (cfg revision compact depth) in
theorem eval_scan_outcome (hr : r.Unlimited) (hfresh : r.kept [] = r)
    (hps : adjustPartitionsBorders (Tikv.getPartitions (f.regions start stop) start stop) = some ps)
    (s : Traced) :
    match outcome cfg f revision compact ps with
    | none => (scan cfg start stop revision compact r).eval (f.exec cfg (depth + 1)) s = none
    | some (.error err) => (scan cfg start stop revision compact r).eval
      (f.exec cfg (depth + 1)) s = some ((r, .error err), s)
    | some (.ok (found, deleted)) => ∃ s',
        (scan cfg start stop revision compact r).eval (f.exec cfg (depth + 1)) s =
          some ((r.kept found, .ok found.length), s') ∧ s'.deleted = s.deleted ++ deleted ∧
        r.fork.Sends s.sent found s'.sent := by
  unfold outcome
  rcases hrace : race cfg f.store revision compact with _ | _ | err
  · rw [eval_scan_partitions, hrace]
  · by_cases hform : ∀ p ∈ ps, FormedIn cfg f revision compact p
    · dsimp only
      rw [if_pos hform]
      exact eval_scan depth hr hfresh hps hrace hform s
    · dsimp only
      rw [if_neg hform]
      apply eval_scan_malformed hr hps hrace
      simpa using hform
  · rw [eval_scan_partitions, hrace]

section Calls

variable (hps : adjustPartitionsBorders
  (Tikv.getPartitions (f.regions start stop) start stop) = some ps)

include hps

variable (cfg revision) in
theorem call_range : (f.call cfg (range cfg start stop revision 0)).map Prod.fst =
    (outcome cfg f revision false ps).map fun x => x.map Prod.fst := by
  have hscan := eval_scan_outcome cfg 1 revision false
    (r := .common [] 0) (Int.le_refl 0) rfl hps .fresh
  unfold Frozen.call range
  rw [if_neg (by decide), Prog.eval_bind]
  split at hscan
  · next h => rw [hscan, h]; rfl
  · next err h => rw [hscan, h]; rfl
  · next found deleted h =>
    obtain ⟨s', heval, -⟩ := hscan
    rw [heval, h]
    rfl

end Calls

end Scan

section Split

variable {ttl : Bool} {w : WorkerConfig} {st : Store} {lo hi : Bytes}

variable (ttl w) in
/-- An aligned border separates the user keys before it from those after it. -/
theorem joined_at {b : Bytes} (hb : Aligned b) (hlo : lo ≤ b) (hhi : b ≤ hi)
    (hst : Keyed st lo hi) :
    Worker.Tally.Joined w (Worker.Tally.start.addAll ttl w (Engine.items st lo b 0))
      (Worker.Tally.start.addAll ttl w (Engine.items st lo hi 0))
      (Worker.Tally.start.addAll ttl w (Engine.items st b hi 0)) := by
  obtain ⟨c, hc, rfl⟩ := hb
  rw [items_eq_range st hlo, items_eq_range st hhi, items_eq_range st (hlo.trans hhi),
    st.range_append hlo hhi]
  apply Worker.Tally.joined_append
  rintro ⟨key, v⟩ hmem k r hdec ⟨key', v'⟩ hmem' k' r' hdec'
  obtain ⟨hget, hl, hlt⟩ := SortedMap.mem_range.mp hmem
  obtain ⟨hget', hge, hh⟩ := SortedMap.mem_range.mp hmem'
  obtain ⟨x, n, hx, hn, rfl⟩ := hst key v hget hl (hlt.trans_le hhi)
  obtain ⟨x', n', hx', hn', rfl⟩ := hst key' v' hget' (hlo.trans hge) hh
  rw [decode_encodeObjectKey _ hn] at hdec
  rw [decode_encodeObjectKey _ hn'] at hdec'
  obtain ⟨rfl, rfl⟩ : x = k ∧ n = r := by simpa using hdec
  obtain ⟨rfl, rfl⟩ : x' = k' ∧ n' = r' := by simpa using hdec'
  have hxc : x < c := by
    have := (encodeObjectKey_lt_iff hx hc hn (by decide)).mp hlt
    simpa using this
  have hcx : ¬ x' < c := fun h =>
    absurd ((encodeObjectKey_lt_iff hx' hc hn' (by decide)).mpr (.inl h)) (not_lt_of_ge hge)
  exact hxc.trans_le (not_lt.mp hcx)

variable (ttl w) in
/-- Cut at aligned borders, the tallies of the pieces make up the tally of the whole. -/
theorem tally_pieces (bs : List Bytes) (hchain : (lo :: bs).Pairwise (· ≤ ·))
    (hhi : ∀ b ∈ lo :: bs, b ≤ hi) (hbs : ∀ b ∈ bs, Aligned b) (hst : Keyed st lo hi) :
    let t (p : Partition) := Worker.Tally.start.addAll ttl w (Engine.items st p.start p.stop 0)
    (t ⟨lo, hi⟩).deleted = (Tikv.pieces lo bs hi).flatMap (fun p => (t p).deleted) ∧
      (w.compact = false →
        (t ⟨lo, hi⟩).all = (Tikv.pieces lo bs hi).flatMap fun p => (t p).all) := by
  induction bs generalizing lo with
  | nil => simp [Tikv.pieces]
  | cons b bs ih =>
    obtain ⟨hle, hchain⟩ := List.pairwise_cons.mp hchain
    have hlo : lo ≤ b := hle b List.mem_cons_self
    have hb : b ≤ hi := hhi b (by simp)
    have hjoin := joined_at ttl w (hbs b List.mem_cons_self) hlo hb hst
    obtain ⟨hdel, hall⟩ := ih hchain (fun c hc => hhi c (List.mem_cons_of_mem _ hc))
      (fun c hc => hbs c (List.mem_cons_of_mem _ hc)) (hst.mono hlo le_rfl)
    constructor
    · rw [Tikv.pieces, List.flatMap_cons, ← hdel]
      exact hjoin.deleted
    · intro hlist
      rw [Tikv.pieces, List.flatMap_cons, ← hall hlist]
      exact hjoin.all hlist

variable (st) in
theorem mem_items_pieces {bs : List Bytes} (hchain : (lo :: bs).Pairwise (· ≤ ·))
    (hhi : ∀ b ∈ lo :: bs, b ≤ hi) (e : Bytes × Bytes) :
    e ∈ Engine.items st lo hi 0 ↔
      ∃ p ∈ Tikv.pieces lo bs hi, e ∈ Engine.items st p.start p.stop 0 := by
  induction bs generalizing lo with
  | nil => simp [Tikv.pieces]
  | cons b bs ih =>
    obtain ⟨hle, hchain⟩ := List.pairwise_cons.mp hchain
    have hlo : lo ≤ b := hle b List.mem_cons_self
    have hb : b ≤ hi := hhi b (by simp)
    rw [items_eq_range st (hlo.trans hb), st.range_append hlo hb, ← items_eq_range st hlo,
      ← items_eq_range st hb, List.mem_append,
      ih hchain fun c hc => hhi c (List.mem_cons_of_mem _ hc)]
    simp [Tikv.pieces]

end Split

section Independent

variable {revision : ℕ} {compact : Bool} {lo hi : Bytes} {bs : List Bytes}
  (hchain : (lo :: bs).Pairwise (· ≤ ·)) (hhi : ∀ b ∈ lo :: bs, b ≤ hi)
  (hbs : ∀ b ∈ bs, Aligned b) (hst : Keyed f.store lo hi)

include hchain hhi

theorem formed_pieces : (∀ p ∈ Tikv.pieces lo bs hi, FormedIn cfg f revision compact p) ↔
    ∀ p ∈ [(⟨lo, hi⟩ : Partition)], FormedIn cfg f revision compact p := by
  have hmem (e : Bytes × Bytes) := mem_items_pieces f.store hchain hhi e
  constructor
  · intro h p hp e he
    obtain rfl := List.mem_singleton.mp hp
    obtain ⟨q, hq, heq⟩ := (hmem e).mp he
    exact h q hq e heq
  · intro h p hp e he
    exact h ⟨lo, hi⟩ List.mem_cons_self e ((hmem e).mpr ⟨p, hp, he⟩)

include hbs hst

theorem deletedIn_pieces : deletedIn cfg f revision compact (Tikv.pieces lo bs hi) =
    deletedIn cfg f revision compact [⟨lo, hi⟩] := by
  have h := (tally_pieces cfg.supportTTL (workerOf cfg f revision compact ⟨lo, hi⟩)
    bs hchain hhi hbs hst).1
  exact h.symm.trans (List.append_nil _).symm

theorem foundIn_pieces : foundIn cfg f revision false (Tikv.pieces lo bs hi) =
    foundIn cfg f revision false [⟨lo, hi⟩] := by
  have h := (tally_pieces cfg.supportTTL (workerOf cfg f revision false ⟨lo, hi⟩)
    bs hchain hhi hbs hst).2 rfl
  exact h.symm.trans (List.append_nil _).symm

/-- Aligned borders do not change what a list finds. -/
theorem outcome_list_pieces : outcome cfg f revision false (Tikv.pieces lo bs hi) =
    outcome cfg f revision false [⟨lo, hi⟩] := by
  simp only [outcome, formed_pieces hchain hhi, foundIn_pieces hchain hhi hbs hst,
    deletedIn_pieces hchain hhi hbs hst]

/-- Aligned borders do not change what a compaction deletes. -/
theorem outcome_compact_pieces :
    (outcome cfg f revision true (Tikv.pieces lo bs hi)).map keysDeleted =
      (outcome cfg f revision true [⟨lo, hi⟩]).map keysDeleted := by
  simp only [outcome, formed_pieces hchain hhi, deletedIn_pieces hchain hhi hbs hst]
  split
  · rfl
  · rfl
  · split <;> rfl

end Independent

/-- Regions with borders at internal keys of plain user keys, none of which moves back before the
start. -/
def Divides (regs : List Tikv.Region) (lo hi : Bytes) : Prop :=
  Tikv.Covers regs lo hi ∧ ∀ c ∈ Tikv.borders regs, PlainInternal c ∧ lo ≤ align c

theorem Divides.of_plain {regs : List Tikv.Region} {a stop : Bytes} (ha : Plain a)
    (hcover : Tikv.Covers regs (encodeObjectKey a 0) stop)
    (hborders : ∀ c ∈ Tikv.borders regs, PlainInternal c) :
    Divides regs (encodeObjectKey a 0) stop := by
  obtain ⟨hsorted, -⟩ := Tikv.borders_sorted hcover.chain
  refine ⟨hcover, fun c hc => ⟨hborders c hc, ?_⟩⟩
  exact le_align ha (hborders c hc) ((List.pairwise_cons.mp hsorted).1 c hc)

/-- Whatever the regions, the partitions are cut at aligned borders. -/
theorem adjust_regions {regs : List Tikv.Region} {lo hi : Bytes} (hle : lo ≤ hi)
    (h : Divides regs lo hi) :
    ∃ bs, adjustPartitionsBorders (Tikv.getPartitions regs lo hi) =
        some (Tikv.pieces lo bs hi) ∧ (lo :: bs).Pairwise (· ≤ ·) ∧
      (∀ b ∈ lo :: bs, b ≤ hi) ∧ ∀ b ∈ bs, Aligned b := by
  obtain ⟨hcover, hborders⟩ := h
  obtain ⟨hsorted, hstop⟩ := Tikv.borders_sorted hcover.chain
  obtain ⟨hchain, hhi⟩ := chain_align hsorted (fun c hc => (hborders c hc).1)
    (fun c hc => (hborders c hc).2) hstop hle
  refine ⟨(Tikv.borders regs).map align, ?_, hchain, hhi, ?_⟩
  · rw [Tikv.getPartitions_eq hcover]
    exact adjustPartitionsBorders_pieces hsorted fun c hc => (hborders c hc).1.decode_ne_panic
  · intro c hc
    obtain ⟨d, hd, rfl⟩ := List.mem_map.mp hc
    exact aligned_align (hborders d hd).1

/-- Whatever the regions, a scan comes to what one worker over the interval does. -/
theorem outcome_regions (cfg : Config) (f : Frozen) (revision : ℕ) {lo hi : Bytes} (hle : lo ≤ hi)
    (hst : Keyed f.store lo hi) (h : Divides (f.regions lo hi) lo hi) :
    ∃ ps, adjustPartitionsBorders (Tikv.getPartitions (f.regions lo hi) lo hi) = some ps ∧
      outcome cfg f revision false ps = outcome cfg f revision false [⟨lo, hi⟩] ∧
      (outcome cfg f revision true ps).map keysDeleted =
        (outcome cfg f revision true [⟨lo, hi⟩]).map keysDeleted := by
  obtain ⟨bs, hps, hchain, hhi, hbs⟩ := adjust_regions hle h
  exact ⟨_, hps, outcome_list_pieces hchain hhi hbs hst, outcome_compact_pieces hchain hhi hbs hst⟩

def plainConfig : Config := ⟨true, [47], [], 0, false⟩

end Scanner
end KubeBrain

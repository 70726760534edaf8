import KubeBrain.Backend.Footprint
import KubeBrain.Lib.Outline

/-! Kinds of operations of scans, lists, compactions and watches. -/
namespace KubeBrain

open Interleaving Coder

open Within

variable {ks : List OpKind} (cfg : Config) (revision : ℕ)

namespace Receiver

theorem within_append (key value : Bytes) (revision : ℕ) (r : Receiver) :
    Within [.stream] (r.append key value revision) := by
  unfold append
  split
  · exact .pure _
  · exact .pure _
  · dsimp only
    split
    · exact .bind (.call (by simp) trivial) fun _ => .pure _
    · exact .pure _

theorem within_flush (r : Receiver) : Within [.stream] r.flush := by
  unfold flush
  split
  · split
    · exact .pure _
    · exact .bind (.call (by simp) trivial) fun _ => .pure _
  · exact .pure _

theorem within_close (r : Receiver) : Within [.stream] r.close := by
  unfold close
  split
  · exact within_flush _
  · exact .pure _

end Receiver

theorem onInternal_of_kind {o : Op} (h : o.kind ∈ [OpKind.read, .stream, .control]) :
    o.OnInternal := by
  cases o with
  | kv o =>
    cases o with
    | commit w ops =>
      cases w with
      | record C => trivial
      | _ => exact absurd h (by simp)
    | del C key => exact absurd h (by simp)
    | delCurrent C key val => exact absurd h (by simp)
    | _ => trivial
  | _ => trivial

namespace Worker

section

variable {P : Op → Prop} (ttl : Bool) (w : WorkerConfig)

variable {st : State}

theorem only_compactKey {key : Bytes} (h : P (.kv (.del w.revision key)))
    (rawKey failedKey : Bytes) : (compactKey w key rawKey failedKey).Only P := by
  unfold compactKey
  split
  · exact Prog.only_pure _
  · exact .bind (Prog.only_call h) fun _ => Prog.only_pure _

theorem only_compactCurrent {key val : Bytes} (h : P (.kv (.delCurrent w.revision key val)))
    (rawKey failedKey : Bytes) : (compactCurrent w key val rawKey failedKey).Only P := by
  unfold compactCurrent
  split
  · exact Prog.only_pure _
  · exact .bind (Prog.only_call h) fun _ => Prog.only_pure _

-- Only a revision key that holds the tombstone is deleted in the way of object keys.
variable {Odd : Bytes → Prop}
  (hio : ∀ o : Op, o.kind ∈ [OpKind.stream, .control] → P o)
  (hdel : w.compact = true ∨ w.timeoutRevision ≠ 0 → ∀ k r, 0 < r → r < 2 ^ 64 →
    P (.kv (.del w.revision (encodeObjectKey k r))))
  (hcur : w.compact = true ∨ w.timeoutRevision ≠ 0 → ∀ k val,
    Bytes.toNatBE (val.take 8) ≤ max w.revision w.timeoutRevision →
    P (.kv (.delCurrent w.revision (encodeRevisionKey k) val)))
  (hodd : w.compact = true ∨ w.timeoutRevision ≠ 0 → ∀ k, Odd k →
    P (.kv (.del w.revision (encodeRevisionKey k))))

include hio in
private theorem only_io {α : Type} {ks : List OpKind} {q : M α} (h : Within ks q)
    (hks : ks ⊆ [OpKind.stream, .control]) : q.Only P :=
  Prog.Only.mono (fun o ho => hio o (hks ho.1)) h

include hio hdel

theorem does_processPrev (key : Bytes) (hst : st.prevRevision < 2 ^ 64) :
    (processPrev w key st).Does P fun st' => st'.prevRevision < 2 ^ 64 := by
  unfold processPrev
  split
  · split
    · exact .bind (only_io hio (Receiver.within_append _ _ _ _) (by decide)) fun _ _ => hst
    · exact hst
  · split
    · next h => exact .bind (only_compactKey w (hdel (.inl h.1) _ _ h.2 hst) _ _) fun _ _ => hst
    · exact hst

omit hio in
include hodd in
private theorem does_delete {k : Bytes} {r : ℕ} (h : w.compact = true ∨ w.timeoutRevision ≠ 0)
    (hr : r < 2 ^ 64) (hk : r = 0 → Odd k) :
    P (.kv (.del w.revision (encodeObjectKey k r))) := by
  by_cases h0 : r = 0
  · subst h0
    exact hodd h k (hk rfl)
  · exact hdel h k r (Nat.pos_of_ne_zero h0) hr

include hcur hodd

theorem does_process {rawKey value : Bytes} {rev : ℕ} (hrev : rev < 2 ^ 64)
    (hk : rev = 0 → value = tombStoneBytes → Odd rawKey) (hst : st.prevRevision < 2 ^ 64) :
    (process w (encodeObjectKey rawKey rev) value rawKey rev st).Does P
      fun st' => st'.prevRevision < 2 ^ 64 := by
  unfold process
  split
  · exact hst
  apply (does_processPrev w hio hdel _ hst).bind
  intro st₁ hst₁
  refine Prog.Does.bind (Q := fun st' => st'.prevRevision < 2 ^ 64) ?_ ?_
  · unfold compactTombstone
    split
    · next h =>
      have hP := does_delete w hdel hodd (.inl h.1) hrev fun h0 => hk h0 h.2
      exact .bind (only_compactKey w hP _ _) fun _ _ => hst₁
    · exact hst₁
  · intro st₂ hst₂
    split
    · next h =>
      obtain ⟨hc, rfl, -⟩ := h
      split
      · exact hst₂
      · next hle =>
        have hP := hcur (.inl hc) rawKey value ((not_lt.mp hle).trans (le_max_left _ _))
        exact .bind (only_compactCurrent w hP _ _) fun _ _ => hrev
    · exact hrev

theorem does_step {key value : Bytes}
    (hk : ∀ k, key = encodeRevisionKey k → value = tombStoneBytes → Odd k)
    (hst : st.prevRevision < 2 ^ 64) :
    (step ttl w key value st).Does P fun st' => st'.prevRevision < 2 ^ 64 := by
  unfold step
  split
  · exact ⟨hio .panic (by simp), nofun⟩
  next rawKey rev hdec =>
    obtain ⟨rfl, hrev⟩ := encode_of_decode hdec
    refine Prog.Does.bind (Q := fun _ => True) ?_ ?_
    · unfold compactIfExpired
      split
      · exact Prog.only_pure _
      next h =>
      have hgc : w.compact = true ∨ w.timeoutRevision ≠ 0 := .inr fun h0 => h (.inr (.inl h0))
      split
      · next h0 =>
        subst h0
        split
        · exact ⟨hio .panic (by simp), nofun⟩
        split
        · next hle =>
          have hP := hcur hgc rawKey value (hle.trans (le_max_right _ _))
          exact .bind (only_compactCurrent w hP _ _) fun _ _ => Prog.only_pure _
        · exact Prog.only_pure _
      next h0 =>
      split
      · have hP := hdel hgc rawKey rev (Nat.pos_of_ne_zero h0) hrev
        exact .bind (only_compactKey w hP _ _) fun _ _ => Prog.only_pure _
      · exact Prog.only_pure _
    · intro a _
      obtain ⟨expired, failedKey⟩ := a
      dsimp only
      split
      · exact hst
      · exact does_process w hio hdel hcur hodd hrev (fun h0 => hk rawKey (by rw [h0]; rfl)) hst
  · exact hst

theorem only_loop (err : Option Err) {items : List (Bytes × Bytes)}
    (hk : ∀ k, (encodeRevisionKey k, tombStoneBytes) ∈ items → Odd k)
    (hst : st.prevRevision < 2 ^ 64) : (loop ttl w err items st).Only P := by
  have hctl : P .ctxDone := hio _ (by simp)
  induction items generalizing st with
  | nil =>
    unfold loop
    split
    · refine .bind (Prog.only_call hctl) fun b => ?_
      split <;> exact Prog.only_pure _
    · exact Prog.only_pure _
  | cons kv items ih =>
    unfold loop
    split
    · refine .bind (Prog.only_call hctl) fun b => ?_
      split
      · exact Prog.only_pure _
      have hkv : ∀ k, kv.1 = encodeRevisionKey k → kv.2 = tombStoneBytes → Odd k := by
        intro k h₁ h₂
        exact hk k (h₁ ▸ h₂ ▸ List.mem_cons_self)
      apply (does_step ttl w hio hdel hcur hodd hkv hst).bind
      intro st' hst'
      exact ih (fun k h => hk k (List.mem_cons_of_mem _ h)) hst'
    · exact Prog.only_pure _

omit hdel hcur hodd in
theorem only_finish (st : State) : (finish st).Only P := by
  unfold finish
  split
  · exact .bind (only_io hio (Receiver.within_append _ _ _ _) (by decide)) fun _ =>
      .bind (only_io hio (Receiver.within_flush _) (by decide)) fun _ => Prog.only_pure _
  · exact .bind (only_io hio (Receiver.within_flush _) (by decide)) fun _ => Prog.only_pure _

omit hodd

variable (hany : w.compact = true ∨ w.timeoutRevision ≠ 0 → ∀ k,
    P (.kv (.del w.revision (encodeRevisionKey k))))
  (hiter : P (.kv (.iter (if w.compact then .compact w.revision else .list w.revision)
    w.partition.start w.partition.stop w.tso 0)))
include hany hiter

theorem only_run (receiver : Receiver) (failedKey : Bytes) :
    (run ttl w receiver failedKey).Only P := by
  unfold run
  refine .bind (Prog.only_call hiter) fun r => ?_
  split
  · exact Prog.only_pure _
  · refine .bind (only_loop ttl w hio hdel hcur (fun h k (_ : True) => hany h k) _
      (fun _ _ => trivial) (by norm_num)) fun a => ?_
    split
    split
    · exact Prog.only_pure _
    · exact Prog.only_pure _
    · exact Prog.only_pure _
    · exact .bind (only_finish hio _) fun _ => Prog.only_pure _

omit hio hdel hcur hany hiter in
theorem only_attempts_of_run (hctl : P .ctxDone)
    (hrun : ∀ receiver failedKey, (run ttl w receiver failedKey).Only P) (n : ℕ)
    (receiver : Receiver) (failedKey : Bytes) (latest : Err) :
    (attempts ttl w n receiver failedKey latest).Only P := by
  induction n generalizing receiver failedKey latest with
  | zero => exact Prog.only_pure _
  | succ n ih =>
    unfold attempts
    refine .bind (Prog.only_call hctl) fun b => ?_
    split
    · exact Prog.only_pure _
    · refine .bind (hrun _ _) fun a => ?_
      split
      · exact Prog.only_pure _
      · exact ih _ _ _

/-- What a worker issues besides its iterator are deletions at its revision, if it may delete. -/
theorem only_attempts (n : ℕ) (receiver : Receiver) (failedKey : Bytes) (latest : Err) :
    (attempts ttl w n receiver failedKey latest).Only P :=
  only_attempts_of_run ttl w (hio _ (by simp)) (only_run ttl w hio hdel hcur hany hiter) n _ _ _

end

/-- Deletions are issued by compactions only. -/
def kinds (compact : Bool) : List OpKind :=
  if compact then [.read, .gc, .stream, .control] else [.read, .stream, .control]

section

variable {c : Bool} (ttl : Bool) (w : WorkerConfig)
  (hc : w.compact = true ∨ w.timeoutRevision ≠ 0 → c = true)
include hc

theorem within_run (receiver : Receiver) (failedKey : Bytes) :
    Within (kinds c) (run ttl w receiver failedKey) := by
  have hsub : [OpKind.read, .stream, .control] ⊆ kinds c := by cases c <;> decide
  show Prog.Only _ _
  apply only_run
  · exact fun o ho => ⟨hsub (List.mem_cons_of_mem _ ho),
      onInternal_of_kind (List.mem_cons_of_mem _ ho)⟩
  · exact fun hgc k r _ _ => ⟨by simp [kinds, hc hgc], k, r, rfl⟩
  · exact fun hgc k val _ => ⟨by simp [kinds, hc hgc], k, 0, rfl⟩
  · exact fun hgc k => ⟨by simp [kinds, hc hgc], k, 0, rfl⟩
  · exact ⟨hsub (by split <;> simp), trivial⟩

theorem within_attempts (n : ℕ) (receiver : Receiver) (failedKey : Bytes) (latest : Err) :
    Within (kinds c) (attempts ttl w n receiver failedKey latest) := by
  show Prog.Only _ _
  apply only_attempts_of_run
  · exact ⟨by cases c <;> decide, trivial⟩
  · exact within_run ttl w hc

end

end Worker

namespace Scanner

variable (cfg : Config)

variable (start : Bytes)

/-- Only compactions write. -/
def kinds (compact : Bool) : List OpKind :=
  if compact then [.read, .record, .time, .history, .fork, .forkWriter, .stream, .control]
  else [.read, .fork, .stream, .control]

theorem within_checkCompactRace (revision : ℕ) (compact : Bool) :
    Within (if compact then [.record] else [.read, .control])
      (checkCompactRace cfg revision compact) := by
  unfold checkCompactRace
  split
  · exact .kvCall (by simp) trivial
  · refine .bind (.kvCall (by simp) trivial) fun r => ?_
    split
    · exact .pure _
    · exact .pure _
    · split
      · exact .panics (by decide)
      · dsimp only
        split <;> exact .pure _

theorem within_spawnAll {ks : List OpKind} {ts : List Task} (h : ∀ t ∈ ts, t.kind ∈ ks) :
    Within ks (spawnAll ts) := by
  induction ts with
  | nil => exact .pure _
  | cons t ts ih =>
    have hts : ∀ t' ∈ ts, t'.kind ∈ ks := fun t' ht' => h t' (List.mem_cons_of_mem _ ht')
    exact .bind (.call (h t List.mem_cons_self) trivial) fun _ => .bind (ih hts) fun _ => .pure _

/-- Workers are started one by one, each under an assertion that this keeps. -/
theorem safe_spawnAll {O : Spec sig Outcome} {I : O.Ghost → Prop} {g : O.Ghost} {ts : List Task}
    (h : ∀ t ∈ ts, ∀ g, I g → O.Safe (fun g' _ => I g') g (call (.spawn t))) (hg : I g) :
    O.Safe (fun g' _ => I g') g (spawnAll ts) := by
  induction ts generalizing g with
  | nil => exact hg
  | cons t ts ih =>
    apply (h t List.mem_cons_self g hg).bind
    intro g₁ _ hg₁
    exact (ih (fun t' ht' => h t' (List.mem_cons_of_mem _ ht')) hg₁).bind fun _ _ hg₂ => hg₂

theorem kind_workers {ps : List Partition} {tso revision timeout : ℕ} {compact : Bool}
    {receiver : Receiver} (ht : compact = false → timeout = 0) :
    ∀ t ∈ workers ps tso revision compact timeout receiver, t.kind ∈ kinds compact := by
  intro t hmem
  obtain ⟨i, hi, rfl⟩ := List.mem_mapIdx.mp hmem
  cases compact with
  | true => simp [Task.kind, kinds]
  | false => simp [Task.kind, kinds, ht rfl]

theorem within_joinAll (ids : List ℕ) : Within [.fork] (joinAll ids) := by
  induction ids with
  | nil => exact .pure _
  | cons id ids ih => exact .bind (.call (by simp) trivial) fun _ => .bind ih fun _ => .pure _

theorem within_mergeAll (receiver : Receiver) (n : ℕ) (rs : List (Receiver × Except Err ℕ)) :
    Within [.stream] (mergeAll receiver n rs) := by
  induction rs generalizing receiver n with
  | nil => exact .pure _
  | cons r rs ih => exact .bind (Receiver.within_close _) fun _ => ih _ _

theorem within_timeoutRevision : Within [.time, .history] (timeoutRevision cfg true) := by
  show Within _ (getTimeoutRevision cfg)
  unfold getTimeoutRevision
  split
  · exact .pure _
  · exact .bind (.call (by simp) trivial) fun _ => .call (by simp) trivial

theorem within_scan (stop : Bytes) (revision : ℕ) (compact : Bool) (receiver : Receiver) :
    Within (kinds compact) (scan cfg start stop revision compact receiver) := by
  have hread : OpKind.read ∈ kinds compact := by cases compact <;> decide
  unfold scan
  refine .bind (.kvCall hread trivial) fun r => ?_
  split
  · exact .pure _
  refine .bind ((within_checkCompactRace cfg _ _).mono (by cases compact <;> decide)) fun e => ?_
  split
  · exact .pure _
  refine .bind (.kvCall hread trivial) fun ps => ?_
  split
  · exact .pure _
  split
  · exact .panics (by cases compact <;> decide)
  have hfork : [OpKind.fork] ⊆ kinds compact := by cases compact <;> decide
  have htail (tso timeout : ℕ) (ht : compact = false → timeout = 0) (ps : List Partition)
      {f : List (Receiver × Except Err ℕ) → M (Receiver × Except Err ℕ)}
      (hf : ∀ rs, Within (kinds compact) (f rs)) : Within (kinds compact) (do
        let ids ← spawnAll (workers ps tso revision compact timeout receiver)
        let results ← joinAll ids
        f results) :=
    .bind (within_spawnAll (kind_workers ht)) fun ids =>
      .bind ((within_joinAll _).mono hfork) hf
  cases compact with
  | false =>
    refine htail _ 0 (fun _ => rfl) _ fun rs => ?_
    split
    · exact .pure _
    · exact (within_mergeAll _ _ _).mono (by decide)
  | true =>
    refine .bind ?_ fun timeout => htail _ timeout (by simp) _ fun rs => ?_
    rotate_left
    · split
      · exact .pure _
      · exact (within_mergeAll _ _ _).mono (by decide)
    exact (within_timeoutRevision cfg).mono (by decide)

theorem within_compact (stop : Bytes) (revision : ℕ) :
    Within (kinds true) (compact cfg start stop revision) :=
  .bind (.call (by simp [kinds]) trivial) fun _ => .bind (.call (by simp [kinds]) trivial) fun _ =>
    .bind (within_scan cfg _ _ _ _ _) fun _ => .pure _

theorem within_range (stop : Bytes) (revision : ℕ) (limit : ℤ) :
    Within (kinds false) (range cfg start stop revision limit) := by
  unfold range
  split
  · unfold rangeWithLimit
    refine .bind (.kvCall (by simp [kinds]) trivial) fun r => ?_
    split
    · exact .pure _
    refine .bind ((within_checkCompactRace cfg _ _).mono (by decide)) fun e => ?_
    split
    · exact .pure _
    have hks : Worker.kinds false ⊆ kinds false := by decide
    refine .bind ((Worker.within_run _ _ (by simp) _ _).mono hks) fun a => ?_
    split <;> exact .pure _
  · refine .bind (within_scan cfg _ _ _ _ _) fun a => ?_
    split <;> exact .pure _

end Scanner

theorem within_handleList (r : RangeRequest) :
    Within [.revision, .read, .fork, .stream, .control] (handleList cfg r) := by
  unfold handleList
  split
  · exact .pure _
  refine .bind (.call (by simp) trivial) fun cur => ?_
  dsimp only
  split
  · exact .pure _
  refine .bind ((Scanner.within_range cfg _ _ _ _).mono (by decide)) fun a => ?_
  cases a with
  | error err => exact .pure _
  | ok kvs =>
    dsimp only
    generalize (if 0 < r.limit then incInt64 r.limit else r.limit) = limit
    split <;> exact .pure _

theorem within_handleCount (key stop : Bytes) :
    Within [.revision, .read, .fork, .stream, .control] (handleCount cfg key stop) := by
  unfold handleCount
  refine .bind (.call (by simp) trivial) fun rev => ?_
  split
  · refine .bind ?_ fun a => by split <;> exact .pure _
    exact .bind ((Scanner.within_scan cfg _ _ _ _ _).mono (by decide)) fun _ => .pure _
  · exact .pure _

theorem within_handleListByStream (start stop : Bytes) (rev : ℕ) :
    Within [.revision, .fork, .stream] (handleListByStream start stop rev) :=
  .bind (.call (by simp) trivial) fun _ => .bind (.call (by simp) trivial) fun _ =>
    .bind (.call (by simp [Task.kind]) trivial) fun _ => .pure _

theorem within_rangeStream (start stop : Bytes) (revision stream : ℕ) :
    Within [.read, .fork, .stream, .control] (Scanner.rangeStream cfg start stop revision stream) :=
  .bind ((Scanner.within_scan cfg _ _ _ _ _).mono (by decide)) fun _ =>
    .bind (.call (by simp) trivial) fun _ => .call (by simp) trivial

theorem within_setCompactRecord :
    Within [.read, .record, .control] (setCompactRecord cfg revision) := by
  unfold setCompactRecord
  refine .bind (.kvCall (by simp) trivial) fun r => ?_
  split
  · dsimp only
    split
    · exact .panics (by decide)
    split
    · exact .pure _
    · exact .kvCall (by simp) trivial
  · exact .kvCall (by simp) trivial
  · exact .kvCall (by simp) trivial
  · exact .pure _

theorem within_compactRanges (ranges : List (Bytes × Bytes)) :
    Within (Scanner.kinds true) (compactRanges cfg revision ranges) := by
  induction ranges with
  | nil => exact .pure _
  | cons r rs ih => exact .bind (Scanner.within_compact cfg _ _ _) fun _ => ih

/-- Ranges are compacted one by one, each under an assertion that this keeps. -/
theorem safe_compactRanges {O : Spec sig Outcome} {I : O.Ghost → Prop} {g : O.Ghost}
    (h : ∀ start stop g, I g →
      O.Safe (fun g' _ => I g') g (Scanner.compact cfg start stop revision))
    (hg : I g) (ranges : List (Bytes × Bytes)) :
    O.Safe (fun g' _ => I g') g (compactRanges cfg revision ranges) := by
  induction ranges generalizing g with
  | nil => exact hg
  | cons r rs ih => exact (h r.1 r.2 g hg).bind fun _ _ hg₁ => ih hg₁

theorem within_minRevision : Within [.queueHead] minRevision := by
  refine .bind (.call (by simp) trivial) fun a => ?_
  split <;> exact .pure _

theorem within_handleCompact :
    Within [.revision, .queueHead, .read, .record, .time, .history, .fork, .forkWriter, .stream,
      .control]
      (handleCompact cfg revision) := by
  unfold handleCompact
  refine .bind (.call (by simp) trivial) fun cur => .bind ?_ fun m => .bind ?_ fun _ => .pure _
  · exact within_minRevision.mono (by decide)
  · refine .bind ((within_setCompactRecord cfg _).mono (by decide)) fun e => ?_
    split
    · exact .pure _
    · exact .bind ((within_compactRanges cfg _ _).mono (by decide)) fun _ => .pure _

theorem within_sendAll (item : List Event) (subs : List ℕ) :
    Within [.hub, .forkWatch] (sendAll item subs) := by
  induction subs with
  | nil => exact .pure _
  | cons sub subs ih =>
    refine .bind (.call (by simp) trivial) fun b => ?_
    split
    · exact ih
    · exact .bind (.call (by simp [Task.kind]) trivial) fun _ => ih

theorem within_stream : Within [.hub, .forkWatch] stream :=
  .bind (.call (by simp) trivial) fun _ => .bind (.call (by simp) trivial) fun _ =>
    .bind (within_sendAll _ _) fun _ => .call (by simp) trivial

theorem within_sendBatches (out size fuel : ℕ) (evs : List Event) :
    Within [.client] (sendBatches out size fuel evs) := by
  induction fuel generalizing evs with
  | zero => exact .pure _
  | succ n ih =>
    unfold sendBatches
    split
    · exact .bind (.call (by simp) trivial) fun _ => ih _
    · exact .call (by simp) trivial

theorem within_processEvents (ctx out sub : ℕ) (p : Bytes) (revision : ℕ) :
    Within [.sub, .client, .control] (processEvents ctx out sub p revision) := by
  unfold processEvents
  refine .bind (.call (by simp) trivial) fun r => ?_
  split
  · dsimp only
    split
    · exact .pure _
    · exact .call (by simp) trivial
  · exact .bind (.call (by simp) trivial) fun _ => .bind (.call (by simp) trivial) fun _ =>
      .bind (.call (by simp) trivial) nofun

theorem within_handleWatch (p : Bytes) (revision : ℕ) :
    Within [.sub, .client, .forkWatch, .cacheFind, .revision] (handleWatch p revision) := by
  have live (ctx out sub from_ : ℕ) : Within [.sub, .client, .forkWatch, .cacheFind, .revision]
      (do let _ ← call (.spawn (.processEvents ctx out sub p from_))
          pure (.ok out) : M (Except Err ℕ)) :=
    .bind (.call (by simp [Task.kind]) trivial) fun _ => .pure _
  unfold handleWatch addWatcher
  refine .bind (.call (by simp) trivial) fun ctx => .bind ?_ fun sub =>
    .bind (.call (by simp) trivial) fun out => ?_
  · exact .bind (.call (by simp) trivial) fun _ => .bind (.call (by simp [Task.kind]) trivial)
      fun _ => .pure _
  dsimp only
  split
  · exact live _ _ _ _
  refine .bind (.call (by simp) trivial) fun found => ?_
  split
  · refine .bind (.call (by simp) trivial) fun cur => ?_
    split
    · exact live _ _ _ _
    · exact .bind (.call (by simp) trivial) fun _ => .bind (.call (by simp) trivial) fun _ =>
        .pure _
  · exact live _ _ _ _
  · exact .bind (.call (by simp) trivial) fun _ => .pure _
  · split
    · exact live _ _ _ _
    · exact .bind ((within_sendBatches _ _ _ _).mono (by decide)) fun _ => live _ _ _ _

/-- All that the goroutine does is of these kinds. -/
def Confined (ks : List OpKind) (t : Leader.Goroutine) : Prop :=
  Within ks t.prog ∧ ∀ f, t.again = some f → ∀ a, Within ks (f a)

theorem Confined.mono {ks' : List OpKind} {t : Leader.Goroutine} (h : Confined ks t)
    (hks : ∀ k ∈ ks, k ∈ ks') : Confined ks' t :=
  ⟨h.1.mono hks, fun f hf a => (h.2 f hf a).mono hks⟩

theorem Confined.once {α : Type} {q : M α} (h : Within ks q) (f : α → Outcome) :
    Confined ks ⟨q >>= fun a => pure (f a), none⟩ :=
  ⟨.bind h fun _ => .pure _, by simp⟩

theorem Confined.loop {f : Outcome → M Outcome} (h : ∀ a, Within ks (f a)) (a : Outcome) :
    Confined ks ⟨.ret a, some f⟩ :=
  ⟨.pure _, fun _ hf b => Option.some.inj hf ▸ h b⟩

/-- Requests that write versions. -/
def Task.Writes : Task → Prop
  | .request (.create _) | .request (.update _) | .request (.delete _) => True
  | _ => False

/-- Goroutines of compactions. -/
def Task.Compacts : Task → Prop
  | .request (.compact _) | .worker .. => True
  | _ => False

def readKinds : List OpKind :=
  [.revision, .read, .cacheFind, .sub, .client, .stream, .fork, .forkWatch, .control]

def compactKinds : List OpKind :=
  readKinds ++ [.record, .gc, .queueHead, .time, .history, .forkWriter]

theorem confined_reads {t : Task} (hw : ¬ t.Writes) (hc : ¬ t.Compacts) :
    Confined readKinds (Leader.goroutine cfg t) := by
  cases t with
  | request r =>
    cases r with
    | create _ | update _ | delete _ => exact (hw trivial).elim
    | compact _ => exact (hc trivial).elim
    | get r => exact .once ((within_handleGet r).mono (by decide)) _
    | list r => exact .once ((within_handleList cfg r).mono (by decide)) _
    | count key stop => exact .once ((within_handleCount cfg key stop).mono (by decide)) _
    | watch p rev => exact .once ((within_handleWatch p rev).mono (by decide)) _
    | listByStream start stop rev =>
      exact .once ((within_handleListByStream start stop rev).mono (by decide)) _
  | worker w receiver => exact (hc trivial).elim
  | rangeStream start stop rev id =>
    exact .once ((within_rangeStream cfg start stop rev id).mono (by decide)) _
  | processEvents ctx out sub p rev =>
    apply Confined.loop
    exact fun _ => .bind ((within_processEvents ctx out sub p rev).mono (by decide)) fun _ =>
      .pure _
  | deleteWatcher sub =>
    exact .once (q := call (.deleteSub sub)) (.call (by simp [readKinds]) trivial) _
  | deleteWatcherOnDone ctx sub =>
    exact .once (q := do call (.waitDone ctx); call (.deleteSub sub))
      (.bind (.call (by simp [readKinds]) trivial) fun _ => .call (by simp [readKinds]) trivial) _

/-- Goroutines that write no versions. -/
theorem confined_of_not_writes {t : Task} (hw : ¬ t.Writes) :
    Confined compactKinds (Leader.goroutine cfg t) := by
  by_cases hc : t.Compacts
  · cases t with
    | request r =>
      cases r with
      | compact rev => exact .once ((within_handleCompact cfg rev).mono (by decide)) _
      | _ => exact hc.elim
    | worker w receiver =>
      have hrun := Worker.within_attempts (c := true) cfg.supportTTL w (fun _ => rfl)
      exact .once ((hrun _ _ _ _).mono (by decide)) _
    | _ => exact hc.elim
  · exact (confined_reads cfg hw hc).mono (by decide)

/-- Goroutines that do not work for a compaction. -/
theorem confined_of_not_compacts {t : Task} (hc : ¬ t.Compacts) :
    Confined (writeKinds ++ readKinds) (Leader.goroutine cfg t) := by
  by_cases hw : t.Writes
  · cases t with
    | request r =>
      cases r with
      | create r => exact .once ((within_handleCreate r).mono (by decide)) _
      | update r => exact .once ((within_handleUpdate r).mono (by decide)) _
      | delete r => exact .once ((within_handleDelete r).mono (by decide)) _
      | _ => exact hw.elim
    | _ => exact hw.elim
  · exact (confined_reads cfg hw hc).mono (by decide)

/-- What the goroutines do that the leader starts for its requests. -/
theorem confined_goroutine (t : Task) :
    Confined (writeKinds ++ compactKinds) (Leader.goroutine cfg t) := by
  by_cases hw : t.Writes
  · have hc : ¬ t.Compacts := by
      intro hc
      unfold Task.Writes at hw
      split at hw <;> first | exact hc | exact hw
    exact (confined_of_not_compacts cfg hc).mono (by decide)
  · exact (confined_of_not_writes cfg hw).mono (by decide)

namespace Leader

theorem confined_consumer :
    Confined [.revision, .tso, .slot, .queuePush, .cacheAdd, .chanSend] consumer := by
  apply Confined.loop
  intro a
  cases a with
  | batch evs => exact .bind (within_collectStorageWriteEvents evs) fun _ => .pure _
  | _ => exact .pure _

theorem confined_retryWorker :
    Confined (writeKinds ++ [.retryRead, .queueHead, .queuePop, .time]) retryWorker :=
  .loop (fun _ => .bind within_retry fun _ => .pure _) _

theorem confined_hub : Confined [.hub, .forkWatch] hub :=
  .loop (fun _ => .bind within_stream fun _ => .pure _) _

theorem confined_server : Confined [.fork] server :=
  .loop (fun _ => .bind (.call (o := .accept) (by simp) trivial) fun _ => .pure _) _

/-- The goroutines that a leader starts with. -/
theorem forall_start {P : ℕ → Goroutine → Prop} (h₀ : P 0 consumer) (h₁ : P 1 retryWorker)
    (h₂ : P 2 hub) (h₃ : P 3 server) {i : ℕ} {t : Goroutine}
    (ht : [consumer, retryWorker, hub, server][i]? = some t) : P i t := by
  rcases i with _ | _ | _ | _ | i
  · exact Option.some.inj ht ▸ h₀
  · exact Option.some.inj ht ▸ h₁
  · exact Option.some.inj ht ▸ h₂
  · exact Option.some.inj ht ▸ h₃
  · simp at ht

def startKinds : List OpKind :=
  writeKinds ++ [.tso, .retryRead, .slot, .queueHead, .queuePush, .queuePop, .time, .cacheAdd,
    .chanSend, .hub, .fork, .forkWatch]

theorem confined_start {i : ℕ} {t : Goroutine}
    (ht : [consumer, retryWorker, hub, server][i]? = some t) : Confined startKinds t :=
  forall_start (P := fun _ t => Confined startKinds t) (confined_consumer.mono (by decide))
    (confined_retryWorker.mono (by decide)) (confined_hub.mono (by decide))
    (confined_server.mono (by decide)) ht

end Leader

end KubeBrain

import KubeBrain.Backend.Leader

/-! Cached events are sent before anyone reads the result channel, so their batches have to fit
into its buffer. -/
namespace KubeBrain

open Interleaving

namespace Watch

variable {delivered : List (List Event)} (cfg : Config) (evs : List Event)

/-- The batches of `sendBatches`. -/
def batches (batchSize : ℕ) : ℕ → List Event → List (List Event)
  | 0, _ => []
  | fuel + 1, evs =>
    if batchSize < evs.length then
      evs.take batchSize :: batches batchSize fuel (evs.drop batchSize)
    else [evs]

section Batches

variable {batchSize : ℕ}

theorem flatten_batches (hsize : 0 < batchSize) {fuel : ℕ} {evs : List Event}
    (hfuel : evs.length < fuel) : (batches batchSize fuel evs).flatten = evs := by
  induction fuel generalizing evs with
  | zero => exact absurd hfuel (Nat.not_lt_zero _)
  | succ fuel ih =>
    unfold batches
    split
    · have hrest : (evs.drop batchSize).length < fuel := by
        rw [List.length_drop]
        omega
      rw [List.flatten_cons, ih hrest, List.take_append_drop]
    · exact List.flatten_singleton

theorem nonempty_of_mem_batches (hsize : 0 < batchSize) {fuel : ℕ} {evs batch : List Event}
    (hevs : evs ≠ []) (hmem : batch ∈ batches batchSize fuel evs) : batch ≠ [] := by
  induction fuel generalizing evs with
  | zero => exact absurd hmem (List.not_mem_nil)
  | succ fuel ih =>
    unfold batches at hmem
    split at hmem
    · next hlt =>
      rcases List.mem_cons.mp hmem with rfl | hmem
      · rw [ne_eq, List.take_eq_nil_iff]
        exact not_or.mpr ⟨hsize.ne', hevs⟩
      · refine ih ?_ hmem
        rw [ne_eq, List.drop_eq_nil_iff]
        omega
    · rwa [List.mem_singleton.mp hmem]

/-- All batches but the last one are full. -/
theorem length_batches (batchSize fuel : ℕ) (evs : List Event) :
    batchSize * (batches batchSize fuel evs).length ≤ batchSize + (evs.length - 1) := by
  induction fuel generalizing evs with
  | zero => simp [batches]
  | succ fuel ih =>
    unfold batches
    split
    · have := ih (evs.drop batchSize)
      rw [List.length_drop] at this
      rw [List.length_cons, Nat.mul_succ]
      omega
    · simp

end Batches

/-- The batch size that `catchUpEvents` chooses. -/
def batchSizeOf (evs : List Event) : ℕ :=
  if resultChanLength * eventBatchSize < evs.length then evs.length / (resultChanLength - 1)
  else eventBatchSize

theorem batchSizeOf_pos : 0 < batchSizeOf evs := by
  unfold batchSizeOf resultChanLength eventBatchSize
  split <;> omega

/-- A full channel holds all events: up to the threshold by its choice, and above it because
the remainder of the division is smaller than a batch. -/
theorem length_le_batchSizeOf : evs.length ≤ resultChanLength * batchSizeOf evs := by
  unfold batchSizeOf resultChanLength eventBatchSize
  split <;> omega

theorem length_batches_le (fuel : ℕ) (evs : List Event) :
    (batches (batchSizeOf evs) fuel evs).length ≤ resultChanLength := by
  have hpos : 0 < resultChanLength * batchSizeOf evs :=
    Nat.mul_pos (by decide) (batchSizeOf_pos evs)
  have hle := length_batches (batchSizeOf evs) fuel evs
  have hfit := length_le_batchSizeOf evs
  by_contra hgt
  have hmul : batchSizeOf evs * (resultChanLength + 1) ≤
      batchSizeOf evs * (batches (batchSizeOf evs) fuel evs).length :=
    Nat.mul_le_mul_left _ (by omega)
  rw [Nat.mul_succ, Nat.mul_comm] at hmul
  omega

variable {K : KvStorage}

variable {s : LeaderState K}

/-- A goroutine of the leader while all others stand still. -/
def alone (cfg : Config) (o : Op) (s : LeaderState K) : Option (o.Res × LeaderState K) :=
  (Leader.exec cfg s [] 0 o .none).map fun x => (x.2.1, x.1)

theorem alone_resultSend {out : ℕ} {buf : List (List Event)}
    (hout : s.results[out]? = some ⟨buf, false, delivered⟩) (hroom : buf.length < resultChanLength)
    (batch : List Event) :
    alone cfg (.resultSend out batch) s =
      some ((), { s with results := s.results.set out ⟨buf ++ [batch], false, delivered⟩ }) := by
  have hsend : Leader.execResult s out batch =
      some { s with results := s.results.set out ⟨buf ++ [batch], false, delivered⟩ } := by
    unfold Leader.execResult
    simp only [hout]
    rw [if_neg (by simpa using hroom)]
  show Option.map _ (Option.map _ (Leader.execResult s out batch)) = _
  rw [hsend]
  rfl

/-- The channel holds the batches after those it held before. -/
theorem eval_sendBatches {out batchSize fuel : ℕ} {evs : List Event} {buf : List (List Event)}
    (hout : s.results[out]? = some ⟨buf, false, delivered⟩)
    (hroom : buf.length + (batches batchSize fuel evs).length ≤ resultChanLength) :
    (sendBatches out batchSize fuel evs).eval (alone cfg) s =
      some ((), { s with
        results := s.results.set out ⟨buf ++ batches batchSize fuel evs, false, delivered⟩ }) := by
  induction fuel generalizing evs s buf with
  | zero =>
    obtain ⟨hlt, hget⟩ := List.getElem?_eq_some_iff.mp hout
    have hset : s.results.set out ⟨buf ++ [], false, delivered⟩ = s.results := by
      rw [List.append_nil, ← hget, List.set_getElem_self]
    simp only [batches, hset]
    rfl
  | succ fuel ih =>
    unfold sendBatches batches
    unfold batches at hroom
    split
    · next hlt =>
      rw [if_pos hlt, List.length_cons] at hroom
      have hlen := (List.getElem?_eq_some_iff.mp hout).1
      rw [Prog.eval_call_bind (alone_resultSend cfg hout (by omega) _),
        ih (List.getElem?_set_self hlen) (by simp; omega)]
      simp [List.set_set]
    · next hlt =>
      rw [if_neg hlt, List.length_singleton] at hroom
      rw [show (call (.resultSend out evs) : M Unit) = .op (.resultSend out evs) .ret from rfl,
        Prog.eval_op (alone_resultSend cfg hout (by omega) _)]
      rfl

theorem eval_catchUpEvents {out : ℕ} (hout : s.results[out]? = some ⟨[], false, delivered⟩) :
    (catchUpEvents out evs).eval (alone cfg) s =
      some ((), { s with
        results := s.results.set out
          ⟨batches (batchSizeOf evs) (evs.length + 1) evs, false, delivered⟩ }) :=
  eval_sendBatches cfg hout (by
    rw [List.length_nil, Nat.zero_add]
    exact length_batches_le _ evs)

/-- A watch is answered while nobody reads from its channel. -/
theorem eval_handleWatch (keyPrefix : Bytes) (revision : ℕ) (s : LeaderState K)
    (hstreaming : s.streaming = false) :
    ∃ answer s', (handleWatch keyPrefix revision).eval (alone cfg) s = some (answer, s') := by
  -- the context, the subscriber and the channel are new
  have hadd : alone cfg .addSub { s with contexts := s.contexts ++ [false] } =
      some (s.subs.length, { s with
        contexts := s.contexts ++ [false]
        subs := s.subs ++ [⟨[], true⟩] }) := by
    show Option.map _ (if s.streaming then none else _) = _
    rw [if_neg (by simp [hstreaming])]
    rfl
  let s₁ : LeaderState K := { s with
    contexts := s.contexts ++ [false]
    subs := s.subs ++ [⟨[], true⟩]
    results := s.results ++ [⟨[], false, []⟩] }
  have hopen {rest : ℕ → ℕ → ℕ → M (Except Err ℕ)} :
      (do let ctx ← call .withCancel
          let sub ← addWatcher ctx
          let out ← call .makeResult
          rest ctx sub out).eval (alone cfg) s =
        (rest s.contexts.length s.subs.length s.results.length).eval (alone cfg) s₁ := by
    have hctx : alone cfg .withCancel s =
        some (s.contexts.length, { s with contexts := s.contexts ++ [false] }) := rfl
    rw [Prog.eval_call_bind hctx]
    unfold addWatcher
    rw [bind_assoc, Prog.eval_call_bind hadd]
    rfl
  have hout : s₁.results[s.results.length]? = some ⟨[], false, []⟩ :=
    List.getElem?_concat_length
  unfold handleWatch
  rw [hopen]
  split
  · exact ⟨_, _, rfl⟩
  have hfind : alone cfg (.cacheFind revision) s₁ = some (s.cache.findEvents revision, s₁) := rfl
  rw [Prog.eval_call_bind hfind]
  split
  · have hcur : getCurrentRevision.eval (alone cfg) s₁ = some (s.committedRevision, s₁) := rfl
    rw [Prog.eval_bind_some hcur]
    split
    · exact ⟨_, _, rfl⟩
    · exact ⟨_, _, rfl⟩
  · exact ⟨_, _, rfl⟩
  · exact ⟨_, _, rfl⟩
  · next newest evs _ =>
    dsimp only
    split
    · exact ⟨_, _, rfl⟩
    · rw [Prog.eval_bind_some (eval_catchUpEvents cfg _ hout)]
      exact ⟨_, _, rfl⟩

/-- Catching up loses nothing and does not block: every non-empty list of events is sent in
non-empty batches that fit into the empty channel, and a watch returns while nobody reads. -/
theorem catchUpEvents_fits (cfg : Config) (s : LeaderState K) :
    (∀ (out : ℕ) (evs : List Event) (delivered : List (List Event)), evs ≠ [] →
      s.results[out]? = some ⟨[], false, delivered⟩ →
      ∃ sent, (catchUpEvents out evs).eval (alone cfg) s =
          some ((), { s with results := s.results.set out ⟨sent, false, delivered⟩ }) ∧
        (∀ batch ∈ sent, batch ≠ []) ∧ sent.flatten = evs ∧ sent.length ≤ resultChanLength) ∧
    (s.streaming = false → ∀ (keyPrefix : Bytes) (revision : ℕ), ∃ answer s',
      (handleWatch keyPrefix revision).eval (alone cfg) s = some (answer, s')) := by
  refine ⟨fun out evs delivered hevs hout => ⟨_, eval_catchUpEvents cfg evs hout, ?_, ?_, ?_⟩,
    fun hs keyPrefix revision => eval_handleWatch cfg keyPrefix revision s hs⟩
  · intro batch hbatch
    exact nonempty_of_mem_batches (batchSizeOf_pos evs) hevs hbatch
  · exact flatten_batches (batchSizeOf_pos evs) (Nat.lt_succ_self _)
  · exact length_batches_le _ evs

/-- A leader with one open channel, and more events than full batches fit into it. -/
def watchedConfig : Config := ⟨false, [47], [], 0, true⟩

def openedState : LeaderState (engine .atTimestamp) :=
  { Leader.initState watchedConfig (engine .atTimestamp) 0 (Engine.init SortedMap.empty) with
    results := [⟨[], false, []⟩] }

def backlog : List Event := List.replicate 30001 ⟨.put, 1, ⟨[47], [], 1⟩⟩

theorem catchUpEvents_fits_backlog :
    ∃ sent, (catchUpEvents 0 backlog).eval (alone watchedConfig) openedState =
        some ((), { openedState with results := [⟨sent, false, []⟩] }) ∧
      (∀ batch ∈ sent, batch ≠ []) ∧ sent.flatten = backlog ∧ sent.length ≤ resultChanLength :=
  (catchUpEvents_fits watchedConfig openedState).1 0 backlog []
    (List.cons_ne_nil _ (List.replicate 30000 _)) rfl

end Watch
end KubeBrain

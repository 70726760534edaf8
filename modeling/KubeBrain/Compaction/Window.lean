import KubeBrain.Backend.ScanFootprint
import KubeBrain.Lib.Trace

/-! The background compaction of the brain server: `compactLoop` asks for a compaction a thousand
revisions behind the committed one. -/
namespace KubeBrain

open Interleaving Coder

/-- Difference of `uint64` numbers. -/
def subUint64 (a b : ℕ) : ℕ := (a + (2 ^ 64 - b)) % 2 ^ 64

/-- What the loop does after a tick. -/
def compactTick (cfg : Config) : M Outcome := do
  if ← call .isLeader then
    let compactRevision ← getCurrentRevision
    let (header, err) ← handleCompact cfg (subUint64 compactRevision 1000)
    pure (.compacted header err)
  else pure .none

def compactLoop (cfg : Config) : Leader.Goroutine :=
  ⟨.ret .none, some fun _ => compactTick cfg⟩

/-- The revision that an operation compacts at: that of the record, of the history, and of the
workers of a compaction. -/
def compactsAt : Op → Option ℕ
  | .kv (.commit (.record revision) _) => some revision
  | .historyPush revision _ => some revision
  | .spawn (.worker w _) => if w.compact then some w.revision else none
  | _ => none

theorem subUint64_of_le {a b : ℕ} (hb : b ≤ a) (ha : a < 2 ^ 64) : subUint64 a b = a - b := by
  unfold subUint64
  rw [show a + (2 ^ 64 - b) = a - b + 2 ^ 64 by omega, Nat.add_mod_right,
    Nat.mod_eq_of_lt (by omega)]

section Chosen

variable {c c' : ℕ} (hc : 1000 < c) (hc' : c ≤ c') (h64 : c < 2 ^ 64)

include hc hc' h64

theorem compactRevision_window_none : compactRevision (subUint64 c 1000) c' none = c - 1000 := by
  unfold compactRevision
  dsimp only
  rw [subUint64_of_le hc.le h64, if_neg (by omega)]

theorem compactRevision_window_le (head : Option (WatchEvent × ℕ)) :
    compactRevision (subUint64 c 1000) c' head ≤ c - 1000 := by
  have hnone := compactRevision_window_none hc hc' h64
  cases head with
  | none => exact hnone.le
  | some node =>
    -- an uncertain operation only lowers the revision
    have hle : compactRevision (subUint64 c 1000) c' (some node) ≤
        compactRevision (subUint64 c 1000) c' none := by
      unfold compactRevision
      dsimp only
      split
      · exact min_le_right _ _
      · exact le_refl _
    exact hle.trans hnone.le

end Chosen

section Footprint

/-- Kinds of operations that compact or that a pass decides on. -/
def decidingKinds : List OpKind := [.revision, .queueHead, .record, .history, .forkWriter]

/-- Operations after the choice of the revision. -/
def Chosen (C : ℕ) (o : Op) : Prop :=
  o ≠ .getRevision ∧ o ≠ .queueHead ∧ ∀ C', compactsAt o = some C' → C' = C

variable {C : ℕ} {α : Type}

theorem chosen_of_kind {o : Op} (h : o.kind ∉ decidingKinds) : Chosen C o := by
  refine ⟨?_, ?_, fun C' hC => ?_⟩
  · rintro rfl
    exact h (by simp [decidingKinds])
  · rintro rfl
    exact h (by simp [decidingKinds])
  · unfold compactsAt at hC
    split at hC
    · exact absurd (by simp [decidingKinds]) h
    · exact absurd (by simp [decidingKinds]) h
    · next w receiver =>
      split at hC
      · next hw => exact absurd (by simp [decidingKinds, Task.kind, hw]) h
      · cases hC
    · cases hC

theorem chosen_of_within {ks : List OpKind} {p : M α} (h : Within ks p)
    (hks : ∀ kind ∈ ks, kind ∉ decidingKinds) : p.Only (Chosen C) :=
  Prog.Only.mono (fun _ ho => chosen_of_kind (hks _ ho.1)) h

theorem chosen_record (ops : List BatchOp) :
    Prog.Only (Chosen C) (kvCall (.commit (.record C) ops)) :=
  Prog.only_call ⟨nofun, nofun, fun _ h => (Option.some.inj h).symm⟩

theorem chosen_panics : Prog.Only (Chosen C) (panics : M α) := by
  have hwithin : Within [.control] (panics : M α) := .panics (by simp)
  exact chosen_of_within hwithin (by decide)

theorem chosen_workers {ps : List Partition} {tso timeout : ℕ} {receiver : Receiver} :
    Prog.Only (Chosen C) (Scanner.spawnAll (Scanner.workers ps tso C true timeout receiver)) := by
  have hall : ∀ t ∈ Scanner.workers ps tso C true timeout receiver, Chosen C (.spawn t) := by
    intro t ht
    obtain ⟨i, hi, rfl⟩ := List.mem_mapIdx.mp ht
    exact ⟨nofun, nofun, fun _ h => (Option.some.inj h).symm⟩
  revert hall
  induction Scanner.workers ps tso C true timeout receiver with
  | nil => exact fun _ => Prog.only_pure _
  | cons t ts ih =>
    intro hall
    obtain ⟨ht, hts⟩ := List.forall_mem_cons.mp hall
    exact (Prog.only_call ht).bind fun _ => (ih hts).bind fun _ => Prog.only_pure _

variable (cfg : Config)

theorem chosen_scan (start stop : Bytes) (receiver : Receiver) :
    Prog.Only (Chosen C) (Scanner.scan cfg start stop C true receiver) := by
  have hread {o : KvOp} (ho : o.kind = .read) : Prog.Only (Chosen C) (kvCall o) :=
    Prog.only_call (chosen_of_kind (o := .kv o) (by
      rw [show Op.kind (.kv o) = .read from ho]
      decide))
  unfold Scanner.scan
  refine (hread rfl).bind fun r => ?_
  split
  · exact Prog.only_pure _
  refine Prog.Only.bind (chosen_record _) fun e => ?_
  split
  · exact Prog.only_pure _
  refine (hread rfl).bind fun ps => ?_
  split
  · exact Prog.only_pure _
  split
  · exact chosen_panics
  refine Prog.Only.bind ?_ fun timeout => chosen_workers.bind fun ids =>
    Prog.Only.bind (chosen_of_within (Scanner.within_joinAll ids) (by decide)) fun rs => ?_
  · show Prog.Only _ (Scanner.getTimeoutRevision cfg)
    unfold Scanner.getTimeoutRevision
    split
    · exact Prog.only_pure _
    · exact (Prog.only_call (chosen_of_kind (by simp [decidingKinds]))).bind fun _ =>
        Prog.only_call ⟨nofun, nofun, nofun⟩
  · split
    · exact Prog.only_pure _
    · exact chosen_of_within (Scanner.within_mergeAll _ _ _) (by decide)

theorem chosen_compactRanges (ranges : List (Bytes × Bytes)) :
    Prog.Only (Chosen C) (compactRanges cfg C ranges) := by
  induction ranges with
  | nil => exact Prog.only_pure _
  | cons r rs ih =>
    refine Prog.Only.bind ?_ fun _ => ih
    refine (Prog.only_call (chosen_of_kind (by simp [decidingKinds]))).bind fun time => ?_
    refine (Prog.only_call ⟨nofun, nofun, fun _ h => (Option.some.inj h).symm⟩).bind fun _ => ?_
    exact (chosen_scan cfg _ _ _).bind fun _ => Prog.only_pure _

theorem chosen_compact : Prog.Only (Chosen C) (compact cfg C) := by
  unfold compact
  refine Prog.Only.bind ?_ fun err => ?_
  · unfold setCompactRecord
    refine (Prog.only_call (chosen_of_kind (by simp [decidingKinds]))).bind fun r => ?_
    split
    · dsimp only
      split
      · exact chosen_panics
      split
      · exact Prog.only_pure _
      · exact chosen_record _
    · exact chosen_record _
    · exact chosen_record _
    · exact Prog.only_pure _
  · split
    · exact Prog.only_pure _
    · exact (chosen_compactRanges cfg _).bind fun _ => Prog.only_pure _

end Footprint

section Passes

variable {cfg : Config} {K : KvStorage}

/-- The committed revision that an answer gives. -/
def revisionRead : Reply (leader cfg K) → Option ℕ
  | ⟨_, .getRevision, r⟩ => some r
  | _ => none

/-- The head of the retry queue that an answer gives. -/
def headRead : Reply (leader cfg K) → Option (Option (WatchEvent × ℕ))
  | ⟨_, .queueHead, r⟩ => some r
  | _ => none

def compacted (e : Reply (leader cfg K)) : Option ℕ := compactsAt e.op

theorem revisionRead_of_ne {e : Reply (leader cfg K)} (h : e.op ≠ .getRevision) :
    revisionRead e = none := by
  unfold revisionRead
  split
  · exact absurd rfl h
  · rfl

theorem headRead_of_ne {e : Reply (leader cfg K)} (h : e.op ≠ .queueHead) : headRead e = none := by
  unfold headRead
  split
  · exact absurd rfl h
  · rfl

theorem compactTick_eq (cfg : Config) : compactTick cfg = (do
    let leads ← call .isLeader
    if leads then
      let c ← call .getRevision
      let c' ← call .getRevision
      let head ← call .queueHead
      let err ← compact cfg (compactRevision (subUint64 c 1000) c' head)
      pure (.compacted (compactRevision (subUint64 c 1000) c' head) err)
    else pure .none : M Outcome) := by
  unfold compactTick
  simp only [handleCompact_eq]
  refine congrArg (Prog.op (S := sig) Op.isLeader) (funext fun leads => ?_)
  cases leads with
  | false => rfl
  | true =>
    refine congrArg (Prog.op (S := sig) Op.getRevision) (funext fun c => ?_)
    refine congrArg (Prog.op (S := sig) Op.getRevision) (funext fun c' => ?_)
    refine congrArg (Prog.op (S := sig) Op.queueHead) (funext fun head => ?_)
    exact Prog.bind_assoc (compact cfg (compactRevision (subUint64 c 1000) c' head)) _ _

/-- A pass of a leader reads two revisions and the head of the retry queue, and compacts at the
revision that they determine. -/
theorem compactTick_replies {t : List (Reply (leader cfg K))} {q : M Outcome}
    (h : (compactTick cfg).Yields t q) : (∀ e ∈ t, compacted e = none) ∨
      ∃ s₀ s₁ s₂ s₃ c c' head rest,
        t = ⟨s₀, .isLeader, true⟩ :: ⟨s₁, .getRevision, c⟩ :: ⟨s₂, .getRevision, c'⟩ ::
          ⟨s₃, .queueHead, head⟩ :: rest ∧
        ∀ e ∈ rest, Chosen (compactRevision (subUint64 c 1000) c' head) e.op := by
  rw [compactTick_eq] at h
  rcases h.call_bind_cases with rfl | ⟨s₀, leads, t₀, rfl, h₀⟩
  · exact .inl nofun
  cases leads with
  | false =>
    obtain ⟨rfl, -⟩ := Prog.Yields.ret_iff.mp h₀
    exact .inl (List.forall_mem_singleton.mpr rfl)
  | true =>
    rcases h₀.call_bind_cases with rfl | ⟨s₁, c, t₁, rfl, h₁⟩
    · exact .inl (List.forall_mem_singleton.mpr rfl)
    rcases h₁.call_bind_cases with rfl | ⟨s₂, c', t₂, rfl, h₂⟩
    · exact .inl (List.forall_mem_cons.mpr ⟨rfl, List.forall_mem_singleton.mpr rfl⟩)
    rcases h₂.call_bind_cases with rfl | ⟨s₃, head, rest, rfl, h₃⟩
    · exact .inl (List.forall_mem_cons.mpr ⟨rfl, List.forall_mem_cons.mpr
        ⟨rfl, List.forall_mem_singleton.mpr rfl⟩⟩)
    · refine .inr ⟨s₀, s₁, s₂, s₃, c, c', head, rest, rfl, h₃.only ?_⟩
      exact (chosen_compact cfg).bind fun _ => Prog.only_pure _

theorem compactTick_compacts {t u v : List (Reply (leader cfg K))} {e : Reply (leader cfg K)}
    {q : M Outcome} (h : (compactTick cfg).Yields t q) (ht : t = u ++ e :: v) {C : ℕ}
    (hC : compacted e = some C) : ∃ c c' head,
      u.filterMap revisionRead = [c, c'] ∧ t.filterMap revisionRead = [c, c'] ∧
      t.filterMap headRead = [head] ∧ C = compactRevision (subUint64 c 1000) c' head := by
  rcases compactTick_replies h with hnone | ⟨s₀, s₁, s₂, s₃, c, c', head, rest, hsplit, hrest⟩
  · rw [hnone e (by simp [ht])] at hC
    cases hC
  have hreads : rest.filterMap revisionRead = [] :=
    List.filterMap_eq_nil_iff.mpr fun e he => revisionRead_of_ne (hrest e he).1
  have hheads : rest.filterMap headRead = [] :=
    List.filterMap_eq_nil_iff.mpr fun e he => headRead_of_ne (hrest e he).2.1
  rw [hsplit] at ht ⊢
  -- none of the first four operations compacts, so the operation comes after them
  rcases u with _ | ⟨u₀, _ | ⟨u₁, _ | ⟨u₂, _ | ⟨u₃, u⟩⟩⟩⟩
  · obtain ⟨rfl, -⟩ := List.cons.inj ht
    cases hC
  · obtain ⟨rfl, -⟩ := List.cons.inj (List.cons.inj ht).2
    cases hC
  · obtain ⟨rfl, -⟩ := List.cons.inj (List.cons.inj (List.cons.inj ht).2).2
    cases hC
  · obtain ⟨rfl, -⟩ := List.cons.inj (List.cons.inj (List.cons.inj (List.cons.inj ht).2).2).2
    cases hC
  · simp only [List.cons_append, List.cons.injEq] at ht
    obtain ⟨rfl, rfl, rfl, rfl, rfl⟩ := ht
    have hbefore : u.filterMap revisionRead = [] := by
      rw [List.filterMap_append, List.append_eq_nil_iff] at hreads
      exact hreads.1
    refine ⟨c, c', head, ?_, ?_, ?_, (hrest e (by simp)).2.2 C hC⟩
    · exact congrArg (c :: c' :: ·) hbefore
    · exact congrArg (c :: c' :: ·) hreads
    · exact congrArg (head :: ·) hheads

end Passes

section Loop

variable {cfg : Config} {K : KvStorage} {d d' : Interleaving.Config (leader cfg K)} {i : ℕ}

theorem compactLoop_passes {ok : LeaderState K → Move (leader cfg K) → Bool}
    {ls : List (Label (leader cfg K))} (hloop : d.threads[i]? = some (compactLoop cfg))
    (hrun : d.run ok ls = some d') : ∃ ts, d.trace i ls = List.flatten ts ∧
      ∀ t ∈ ts, ∃ q, (compactTick cfg).Yields t q := by
  obtain ⟨q, hq⟩ := Interleaving.Config.loops_trace hrun hloop
  obtain ⟨t, ts, heq, ⟨q', hfirst⟩, hts⟩ := hq.passes
  obtain ⟨rfl, -⟩ := Prog.Yields.ret_iff.mp hfirst
  exact ⟨ts, heq, hts⟩

/-- An element of a flattened list is in one of the parts. -/
theorem exists_part {α : Type} {ts : List (List α)} {a b : List α} {x : α}
    (h : ts.flatten = a ++ x :: b) : ∃ t ∈ ts, ∃ w u v, t = u ++ x :: v ∧ a = w ++ u := by
  induction ts generalizing a with
  | nil => simp at h
  | cons t ts ih =>
    rw [List.flatten_cons] at h
    rcases List.append_eq_append_iff.mp h with ⟨a', rfl, hrest⟩ | ⟨c, rfl, hrest⟩
    · obtain ⟨t', ht', w, u, v, hsplit, rfl⟩ := ih hrest
      exact ⟨t', List.mem_cons_of_mem _ ht', t ++ w, u, v, hsplit, (List.append_assoc _ _ _).symm⟩
    · cases c with
      | nil =>
        obtain ⟨t', ht', w, u, v, hsplit, hnil⟩ := ih (a := []) hrest.symm
        refine ⟨t', List.mem_cons_of_mem _ ht', a ++ w, u, v, hsplit, ?_⟩
        rw [List.append_assoc, ← hnil, List.append_nil]
      | cons y c =>
        obtain ⟨rfl, -⟩ := List.cons.inj hrest
        exact ⟨_, List.mem_cons_self, [], a, c, rfl, rfl⟩

/-- Whatever other goroutines do between its operations: while the revisions read are above a
thousand and do not go back, the loop compacts at most at the committed revision it has read less
a thousand, though `Compact` reads it once more, and with an empty retry queue never at a smaller
revision than before. -/
theorem background_compaction_keeps_window {ok : LeaderState K → Move (leader cfg K) → Bool}
    {ls : List (Label (leader cfg K))} (hloop : d.threads[i]? = some (compactLoop cfg))
    (hrun : d.run ok ls = some d')
    (hwindow : ∀ c ∈ (d.trace i ls).filterMap revisionRead, 1000 < c ∧ c < 2 ^ 64)
    (hgrows : ((d.trace i ls).filterMap revisionRead).Pairwise (· ≤ ·)) :
    (∀ es₁ e es₂ C, d.trace i ls = es₁ ++ e :: es₂ → compacted e = some C →
      ∃ cs c c', es₁.filterMap revisionRead = cs ++ [c, c'] ∧ C ≤ c - 1000) ∧
    ((∀ head ∈ (d.trace i ls).filterMap headRead, head = none) →
      ((d.trace i ls).filterMap compacted).Pairwise (· ≤ ·)) := by
  obtain ⟨ts, heq, hts⟩ := compactLoop_passes hloop hrun
  rw [heq] at hwindow hgrows ⊢
  rw [List.filterMap_flatten] at hwindow hgrows
  rw [List.pairwise_flatten] at hgrows
  have hreads {t : List (Reply (leader cfg K))} (ht : t ∈ ts) {c c' : ℕ}
      (h : t.filterMap revisionRead = [c, c']) : 1000 < c ∧ c < 2 ^ 64 ∧ c ≤ c' := by
    have hmem : t.filterMap revisionRead ∈ ts.map (List.filterMap revisionRead) :=
      List.mem_map_of_mem ht
    obtain ⟨hlow, hhigh⟩ := hwindow c (List.mem_flatten.mpr ⟨_, hmem, by simp [h]⟩)
    have hle := hgrows.1 _ hmem
    rw [h, List.pairwise_pair] at hle
    exact ⟨hlow, hhigh, hle⟩
  constructor
  · intro es₁ e es₂ C hsplit hC
    obtain ⟨t, ht, w, u, v, htsplit, rfl⟩ := exists_part hsplit
    obtain ⟨q, hq⟩ := hts t ht
    obtain ⟨c, c', head, hu, hall, -, rfl⟩ := compactTick_compacts hq htsplit hC
    obtain ⟨hlow, hhigh, hle⟩ := hreads ht hall
    refine ⟨w.filterMap revisionRead, c, c', by rw [List.filterMap_append, hu], ?_⟩
    exact compactRevision_window_le hlow hle hhigh head
  · intro hqueue
    rw [List.filterMap_flatten] at hqueue ⊢
    -- with an empty queue a pass compacts at the revision it has read first less a thousand
    have hpass {t : List (Reply (leader cfg K))} (ht : t ∈ ts) {C : ℕ}
        (hC : C ∈ t.filterMap compacted) :
        ∃ c ∈ t.filterMap revisionRead, (t.filterMap revisionRead).head? = some c ∧
          C = c - 1000 := by
      obtain ⟨e, he, hC⟩ := List.mem_filterMap.mp hC
      obtain ⟨u, v, htsplit⟩ := List.append_of_mem he
      obtain ⟨q, hq⟩ := hts t ht
      obtain ⟨c, c', head, -, hall, hhead, rfl⟩ := compactTick_compacts hq htsplit hC
      obtain ⟨hlow, hhigh, hle⟩ := hreads ht hall
      obtain rfl : head = none :=
        hqueue head (List.mem_flatten.mpr ⟨_, List.mem_map_of_mem ht, by simp [hhead]⟩)
      exact ⟨c, by simp [hall], by simp [hall], compactRevision_window_none hlow hle hhigh⟩
    rw [List.pairwise_flatten]
    constructor
    · intro Cs hCs
      obtain ⟨t, ht, rfl⟩ := List.mem_map.mp hCs
      refine List.pairwise_of_forall_mem_list fun C hC C' hC' => ?_
      obtain ⟨c, -, hc, hsub⟩ := hpass ht hC
      obtain ⟨c', -, hc', hsub'⟩ := hpass ht hC'
      obtain rfl : c = c' := Option.some.inj (hc.symm.trans hc')
      exact (hsub.trans hsub'.symm).le
    · have hbetween := hgrows.2
      rw [List.pairwise_map] at hbetween ⊢
      refine hbetween.imp_of_mem fun {t t'} ht ht' h C hC C' hC' => ?_
      obtain ⟨c, hc, -, hsub⟩ := hpass ht hC
      obtain ⟨c', hc', -, hsub'⟩ := hpass ht' hC'
      have hle := h c hc c' hc'
      omega

end Loop

def loopConfig : Config := ⟨true, [47], [], 0, true⟩

/-- A leader whose sequencer starts at `c`, with the loop. -/
def leaderAt (c : ℕ) : Interleaving.Config (leader loopConfig (engine .atTimestamp)) :=
  ⟨Leader.initState loopConfig (engine .atTimestamp) c (Engine.init SortedMap.empty),
    [Leader.consumer, Leader.retryWorker, Leader.hub, Leader.server, compactLoop loopConfig]⟩

/-- A pass of the loop up to the scan of the range. -/
def firstPass : List (Label (leader loopConfig (engine .atTimestamp))) :=
  [.restart 4, .thread 4 (.flag true), .thread 4 .none, .thread 4 .none, .thread 4 .none,
    .thread 4 (.kv .ok), .thread 4 (.kv .ok), .thread 4 .none, .thread 4 .none]

theorem background_compaction_keeps_window_atTwoThousand :
    ((leaderAt 2000).trace 4 firstPass).filterMap compacted = [1000, 1000] ∧
      (((leaderAt 2000).trace 4 firstPass).filterMap compacted).Pairwise (· ≤ ·) := by
  obtain ⟨d, hd⟩ : ∃ d, (leaderAt 2000).run (fun _ _ => true) firstPass = some d := ⟨_, rfl⟩
  refine ⟨by decide +kernel, (background_compaction_keeps_window rfl hd ?_ ?_).2 ?_⟩
  · show ∀ c ∈ [2000, 2000], 1000 < c ∧ c < 2 ^ 64
    decide
  · show [2000, 2000].Pairwise (· ≤ ·)
    decide
  · show ∀ head ∈ [none], head = none
    simp

/-- Up to revision 1000 the difference wraps around or is zero, and `Compact` takes the committed
revision instead: no revision is kept, and the next pass goes back to revision 1. -/
theorem background_compaction_drops_window :
    ((leaderAt 7).trace 4 firstPass).filterMap compacted = [7, 7] ∧
    ((leaderAt 1000).trace 4 firstPass).filterMap compacted = [1000, 1000] ∧
    ((leaderAt 1001).trace 4 firstPass).filterMap compacted = [1, 1] := by
  decide +kernel

end KubeBrain

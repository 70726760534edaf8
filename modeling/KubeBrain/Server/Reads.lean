import KubeBrain.Scan.Limit
import KubeBrain.Server.WatchStream

/-! Reads of the two front ends on the leader, where `SyncReadRevision` has nothing to do: the etcd
server (`pkg/server/etcd/kv.go` with the shim of `backendshim.go`), which takes every read as
a range, and the server of the native protocol (`pkg/server/brain/read.go`). -/
namespace KubeBrain

open Interleaving Scanner

/-- Conversion of a signed 64-bit integer. -/
def uint64 (n : ℤ) : ℕ := (n % 2 ^ 64).toNat

theorem uint64_of_lt {n : ℕ} (h : n < 2 ^ 64) : uint64 n = n := by
  rw [uint64]
  omega

/-- What the servers read of `etcdserverpb.RangeRequest`. -/
structure EtcdRangeRequest where
  key : Bytes
  rangeEnd : Bytes
  limit : ℤ
  revision : ℤ
  countOnly : Bool

/-- `etcdserverpb.RangeResponse`; `revision` is the one of the header. -/
structure EtcdRangeResponse where
  revision : ℕ
  kvs : List EtcdKeyValue
  more : Bool
  count : ℕ
  deriving DecidableEq

/-- Translate the response of a call, and pass its error on. -/
def respond {α β : Type} (p : M (Except Err α)) (f : α → β) : M (Except Err β) := do
  match ← p with
  | .error err => pure (.error err)
  | .ok response => pure (.ok (f response))

namespace BackendShim

def get (r : EtcdRangeRequest) : M (Except Err EtcdRangeResponse) :=
  respond (handleGet ⟨r.key, uint64 r.revision⟩) fun response =>
    match response.kv with
    | none => ⟨response.header, [], false, 0⟩
    | some kv => ⟨response.header, [kvToEtcdKv kv], false, 1⟩

/-- The pair that was cut off is counted too. -/
def list (cfg : Config) (r : EtcdRangeRequest) : M (Except Err EtcdRangeResponse) :=
  respond (handleList cfg ⟨r.key, r.rangeEnd, uint64 r.revision, r.limit⟩) fun response =>
    ⟨response.header, response.kvs.map kvToEtcdKv, response.more,
      if response.more then response.kvs.length + 1 else response.kvs.length⟩

def count (cfg : Config) (r : EtcdRangeRequest) : M (Except Err EtcdRangeResponse) :=
  respond (handleCount cfg r.key r.rangeEnd) fun response => ⟨response.1, [], false, response.2⟩

/-- Keys of partitions are sent as pairs without a value. -/
def getPartitions (r : EtcdRangeRequest) : M (Except Err EtcdRangeResponse) :=
  respond (handleGetPartitions r.key r.rangeEnd) fun response =>
    ⟨response.header, response.partitionKeys.map fun key => ⟨key, [], 0, 0⟩, false,
      response.partitionNum + 1⟩

end BackendShim

/-- A range at this revision is a request for partitions. -/
def getPartitionMagic : ℤ := 1888

/-- `Range` of the etcd server. -/
def RPCServer.range (cfg : Config) (r : EtcdRangeRequest) : M (Except Err EtcdRangeResponse) :=
  if r.rangeEnd = [] then BackendShim.get r
  else if r.revision = getPartitionMagic then BackendShim.getPartitions r
  else if r.countOnly then BackendShim.count cfg r
  else BackendShim.list cfg r

/-- Errors of the native server. -/
inductive BrainErr where
  | invalid (message : String)
  | backend (err : Err)
  deriving DecidableEq

/-- `Range` of the native server. -/
def Server.range (cfg : Config) (r : RangeRequest) : M (Except BrainErr RangeResponse) :=
  if r.key = [] ∨ r.stop = [] then pure (.error (.invalid "empty key or end in range request"))
  else do
    match ← handleList cfg r with
    | .error err => pure (.error (.backend err))
    | .ok response => pure (.ok response)

/-- What a range says about the data. -/
structure RangeView where
  kvs : List KeyValue
  more : Bool
  deriving DecidableEq

def RangeResponse.view (r : RangeResponse) : RangeView := ⟨r.kvs, r.more⟩

def EtcdRangeResponse.view (r : EtcdRangeResponse) : RangeView :=
  ⟨r.kvs.map fun kv => ⟨kv.key, kv.value, kv.modRevision⟩, r.more⟩

/-- What a client sees of a call: nothing if the call does not return, no data if it fails. -/
def seen {σ ε ρ : Type} (h : (o : Op) → σ → Option (o.Res × σ)) (s : σ) (view : ρ → RangeView)
    (p : M (Except ε ρ)) : Option (Option RangeView) :=
  (p.eval h s).map fun x => (x.1.map view).toOption

section Seen

variable {σ : Type} {h : (o : Op) → σ → Option (o.Res × σ)} {s : σ}

theorem seen_respond {α β : Type} (p : M (Except Err α)) (f : α → β) (view : β → RangeView) :
    seen h s view (respond p f) = seen h s (fun a => view (f a)) p := by
  unfold seen respond
  rw [Prog.eval_bind]
  cases p.eval h s with
  | none => rfl
  | some x =>
    obtain ⟨a, s'⟩ := x
    cases a <;> rfl

theorem view_kvToEtcdKv (kvs : List KeyValue) :
    (kvs.map kvToEtcdKv).map (fun kv => (⟨kv.key, kv.value, kv.modRevision⟩ : KeyValue)) = kvs := by
  rw [List.map_map]
  exact List.map_id kvs

theorem seen_list (cfg : Config) (r : EtcdRangeRequest) :
    seen h s EtcdRangeResponse.view (BackendShim.list cfg r) = seen h s RangeResponse.view
      (handleList cfg ⟨r.key, r.rangeEnd, uint64 r.revision, r.limit⟩) := by
  rw [BackendShim.list, seen_respond]
  congr 1
  funext response
  rw [EtcdRangeResponse.view, view_kvToEtcdKv]
  rfl

theorem seen_server_range (cfg : Config) {r : RangeRequest} (hkey : r.key ≠ [])
    (hstop : r.stop ≠ []) : seen h s RangeResponse.view (Server.range cfg r) =
      seen h s RangeResponse.view (handleList cfg r) := by
  unfold seen Server.range
  rw [if_neg (not_or.mpr ⟨hkey, hstop⟩), Prog.eval_bind]
  cases (handleList cfg r).eval h s with
  | none => rfl
  | some x =>
    obtain ⟨a, s'⟩ := x
    cases a <;> rfl

end Seen

/-- However the storage and the sequencer answer, from whatever state, the etcd server shows for
a range what `List` of the backend shows, if the revision is not the one that asks for
partitions. -/
theorem seen_rpcServer_range {σ : Type} (h : (o : Op) → σ → Option (o.Res × σ)) (s : σ)
    (cfg : Config) {key stop : Bytes} {R : ℕ} (limit : ℤ) (hstop : stop ≠ [])
    (hR : R < 2 ^ 63) (hmagic : R ≠ 1888) :
    seen h s EtcdRangeResponse.view (RPCServer.range cfg ⟨key, stop, limit, R, false⟩) =
      seen h s RangeResponse.view (handleList cfg ⟨key, stop, R, limit⟩) := by
  have hmagic' : (R : ℤ) ≠ getPartitionMagic := by
    rw [getPartitionMagic]
    exact_mod_cast hmagic
  have hlist : RPCServer.range cfg ⟨key, stop, limit, R, false⟩ =
      BackendShim.list cfg ⟨key, stop, limit, R, false⟩ := by
    rw [RPCServer.range, if_neg hstop, if_neg hmagic', if_neg Bool.false_ne_true]
  rw [hlist, seen_list, uint64_of_lt (by omega)]

section Listed

/-- Pairs as a worker reports them: index keys are not among them. -/
def Versions (kvs : List KeyValue) : Prop := ∀ kv ∈ kvs, 0 < kv.revision

namespace Worker

theorem Tally.versions_all {t : Tally} (h : Versions t.found) : Versions t.all := by
  intro kv hkv
  rcases List.mem_append.mp hkv with hkv | hkv
  · exact h kv hkv
  · unfold last at hkv
    split at hkv
    · next hlast =>
      obtain rfl := List.mem_singleton.mp hkv
      exact hlast.1
    · cases hkv

theorem Tally.versions_add {ttl : Bool} {w : WorkerConfig} {t : Tally} (h : Versions t.found)
    (e : Bytes × Bytes) : Versions (t.add ttl w e).found := by
  rcases found_add ttl w t e with hf | hf
  · rwa [hf]
  · rw [hf]
    exact versions_all h

theorem Tally.versions_addAll {ttl : Bool} {w : WorkerConfig} {t : Tally} (h : Versions t.found)
    (items : List (Bytes × Bytes)) : Versions (t.addAll ttl w items).found := by
  induction items generalizing t with
  | nil => exact h
  | cons e items ih => exact ih (versions_add h e)

variable {cfg : Config} {f : Frozen} {depth : ℕ} {ttl : Bool} {w : WorkerConfig} {limit : ℤ}
  {s₀ s s' : Traced} {t : Tally} {st st' : State} {acc : List KeyValue}

/-- A worker that returns has seen no malformed pair before it stopped. -/
theorem versions_loop {exit : Exit} {items : List (Bytes × Bytes)}
    (h : Counts (.common acc limit) s₀ t st s) (ht : Versions t.found)
    (heval : (loop ttl w none items st).eval (f.exec cfg depth) s = some ((st', exit), s')) :
    ∃ t', Counts (.common acc limit) s₀ t' st' s' ∧ Versions t'.found ∧
      (exit = .enough ∨ exit = .ended none ∧ st'.receiver.needMore = true) := by
  induction items generalizing st s t with
  | nil =>
    unfold loop at heval
    split at heval
    · next hmore =>
      rw [Prog.eval_call_bind (Frozen.exec_ctxDone s)] at heval
      cases heval
      exact ⟨t, h, ht, .inr ⟨rfl, hmore⟩⟩
    · cases heval
      exact ⟨t, h, ht, .inl rfl⟩
  | cons e items ih =>
    unfold loop at heval
    split at heval
    · rw [Prog.eval_call_bind (Frozen.exec_ctxDone s)] at heval
      by_cases he : Malformed ttl w e
      · cases (Prog.eval_bind_none (eval_step_malformed he) _).symm.trans heval
      · obtain ⟨st₁, s₁, hstep, h₁⟩ := ends_step cfg f depth h he
        exact ih h₁ (Tally.versions_add ht e) ((Prog.eval_bind_some hstep _).symm.trans heval)
    · cases heval
      exact ⟨t, h, ht, .inl rfl⟩

theorem versions_run {r : Receiver} {failedKey : Bytes} {n : ℕ}
    (heval : (run ttl w (.common [] limit) []).eval (f.exec cfg depth) s =
      some ((r, failedKey, .ok n), s')) : Versions r.result := by
  unfold run at heval
  dsimp only at heval
  rw [Prog.eval_call_bind (Frozen.exec_iter _ _ _ _ _ s)] at heval
  dsimp only at heval
  rw [Prog.eval_bind] at heval
  obtain ⟨x, hloop, hrest⟩ := Option.bind_eq_some_iff.mp heval
  obtain ⟨⟨st, exit⟩, s₁⟩ := x
  obtain ⟨t, hcounts, ht, rfl | ⟨rfl, hmore⟩⟩ :=
    versions_loop (counts_start (.common [] limit) s) nofun hloop
  · cases hrest
    have hreceiver : st.receiver = .common t.found limit := hcounts.holds.1
    rw [hreceiver]
    exact ht
  · obtain ⟨sent', hfinish, -⟩ := eval_finish cfg f depth hmore hcounts
    dsimp only at hrest
    rw [Prog.eval_bind_some hfinish] at hrest
    cases hrest
    exact Tally.versions_all ht

end Worker

variable {cfg : Config} {f : Frozen}

theorem versions_foundIn (R : ℕ) (ps : List Partition) : Versions (foundIn cfg f R false ps) := by
  intro kv hkv
  obtain ⟨p, -, hkv⟩ := List.mem_flatMap.mp hkv
  exact Worker.Tally.versions_all (Worker.Tally.versions_addAll (by simp [Versions,
    Worker.Tally.start]) _) kv hkv

theorem versions_rangeWithLimit {start stop : Bytes} {R : ℕ} {limit : ℤ} {kvs : List KeyValue}
    (h : (f.call cfg (rangeWithLimit cfg start stop R limit)).map Prod.fst = some (.ok kvs)) :
    Versions kvs := by
  have hts : f.exec cfg 2 (.kv .getTimestampOracle) .fresh = some (.ok f.timestamp, .fresh) := rfl
  unfold Frozen.call rangeWithLimit at h
  rw [Prog.eval_call_bind hts] at h
  dsimp only at h
  rw [Prog.eval_bind, eval_checkCompactRace] at h
  generalize race cfg f.store R false = checked at h
  cases checked with
  | none => cases h
  | some err =>
    cases err with
    | some err => cases h
    | none =>
      dsimp only [Option.map_some, Option.bind_some] at h
      rw [Prog.eval_bind] at h
      obtain ⟨x, hx, hkvs⟩ := Option.map_eq_some_iff.mp h
      obtain ⟨y, hrun, hrest⟩ := Option.bind_eq_some_iff.mp hx
      obtain ⟨⟨r, failedKey, n⟩, s⟩ := y
      cases n with
      | error err =>
        cases hrest
        cases hkvs
      | ok n =>
        cases hrest
        cases hkvs
        exact Worker.versions_run hrun

theorem versions_range {start stop : Bytes} {R : ℕ} {limit : ℤ} {kvs : List KeyValue}
    (h : (f.call cfg (range cfg start stop R limit)).map Prod.fst = some (.ok kvs)) :
    Versions kvs := by
  by_cases hlimit : 0 < limit
  · rw [range, if_pos hlimit] at h
    exact versions_rangeWithLimit h
  · have hzero : range cfg start stop R limit = range cfg start stop R 0 := by
      rw [range, range, if_neg hlimit, if_neg (lt_irrefl 0)]
    rw [hzero] at h
    cases hps : adjustPartitionsBorders (Tikv.getPartitions (f.regions start stop) start stop) with
    | none =>
      -- an index out of range, unless the revision was refused before
      unfold Frozen.call range at h
      rw [if_neg (lt_irrefl 0), Prog.eval_bind, eval_scan_partitions, hps] at h
      generalize race cfg f.store R false = checked at h
      rcases checked with _ | _ | err <;> cases h
    | some ps =>
      rw [call_range cfg R hps] at h
      obtain ⟨x, hx, hkvs⟩ := Option.map_eq_some_iff.mp h
      cases x with
      | error err => cases hkvs
      | ok y =>
        obtain ⟨found, deleted⟩ := y
        cases hkvs
        rw [(outcome_eq_ok.mp hx).2.2.1]
        exact versions_foundIn R ps

theorem versions_handleList {a b : Bytes} {R : ℕ} {n : ℤ} {resp : RangeResponse} (hab : a < b)
    (h : (f.call cfg (handleList cfg ⟨a, b, R, n⟩)).map Prod.fst = some (.ok resp)) :
    Versions resp.kvs := by
  rw [call_handleList_eq n hab] at h
  obtain ⟨x, hx, hresp⟩ := Option.map_eq_some_iff.mp h
  cases x with
  | error err => cases hresp
  | ok kvs =>
    have hkvs := versions_range hx
    obtain rfl := Except.ok.inj hresp
    beta_reduce
    by_cases hmore : 0 < (if 0 < n then incInt64 n else n) ∧ n < (kvs.length : ℤ)
    · rw [if_pos hmore]
      exact fun kv hkv => hkvs kv (List.mem_of_mem_take hkv)
    · rw [if_neg hmore]
      exact hkvs

end Listed

/-- The etcd server answers with borders of partitions at that revision. -/
theorem seen_magic (cfg : Config) (f : Frozen) (key : Bytes) {stop : Bytes} (limit : ℤ)
    (hstop : stop ≠ []) :
    ∃ border borders, seen (f.exec cfg 2) .fresh EtcdRangeResponse.view
      (RPCServer.range cfg ⟨key, stop, limit, getPartitionMagic, false⟩) =
        some (some ⟨(border :: borders).map fun key => ⟨key, [], 0⟩, false⟩) := by
  have hpartitions : RPCServer.range cfg ⟨key, stop, limit, getPartitionMagic, false⟩ =
      BackendShim.getPartitions ⟨key, stop, limit, getPartitionMagic, false⟩ := by
    rw [RPCServer.range, if_neg hstop, if_pos rfl]
  obtain ⟨border, borders, hkeys⟩ : ∃ border borders, partitionKeys (Tikv.getPartitions
      (f.regions (Coder.encodeObjectKey key 0) (Coder.encodeObjectKey stop 0))
      (Coder.encodeObjectKey key 0) (Coder.encodeObjectKey stop 0)) = border :: borders := by
    generalize f.regions _ _ = regs
    unfold Tikv.getPartitions
    split
    · obtain ⟨reg, reg', rest, rfl⟩ : ∃ reg reg' rest, regs = reg :: reg' :: rest := by
        rcases regs with _ | ⟨reg, _ | ⟨reg', rest⟩⟩ <;> simp_all
      exact ⟨_, _, rfl⟩
    · exact ⟨_, _, rfl⟩
  have hcall := call_getPartitions cfg f key stop
  dsimp only at hcall
  rw [hkeys] at hcall
  obtain ⟨x, hx, hresp⟩ := Option.map_eq_some_iff.mp hcall
  refine ⟨border, borders, ?_⟩
  rw [hpartitions, BackendShim.getPartitions, seen_respond, seen, show Prog.eval _ _ _ = _ from hx,
    Option.map_some, hresp]
  simp [Except.map, Except.toOption, EtcdRangeResponse.view]

/-- Both servers show for a range what `List` of the backend shows, exactly if the revision is
not the one that asks for partitions. -/
theorem front_ends_read_same_iff (cfg : Config) (f : Frozen) {key stop : Bytes} {R : ℕ}
    (limit : ℤ) (hkey : key ≠ []) (hlt : key < stop) (hR : R < 2 ^ 63) :
    (seen (f.exec cfg 2) .fresh EtcdRangeResponse.view
          (RPCServer.range cfg ⟨key, stop, limit, R, false⟩) =
        seen (f.exec cfg 2) .fresh RangeResponse.view (handleList cfg ⟨key, stop, R, limit⟩) ∧
      seen (f.exec cfg 2) .fresh RangeResponse.view (Server.range cfg ⟨key, stop, R, limit⟩) =
        seen (f.exec cfg 2) .fresh RangeResponse.view (handleList cfg ⟨key, stop, R, limit⟩)) ↔
      R ≠ 1888 := by
  have hstop : stop ≠ [] := by
    rintro rfl
    exact absurd hlt (List.not_lt_nil key)
  rw [and_iff_left (seen_server_range cfg hkey hstop)]
  constructor
  · rintro hsame rfl
    -- the borders are pairs of revision 0, which a list does not hold
    obtain ⟨border, borders, hborders⟩ := seen_magic cfg f key limit hstop
    obtain ⟨⟨resp, s⟩, hx, hview⟩ := Option.map_eq_some_iff.mp (hsame.symm.trans hborders)
    cases resp with
    | error err => cases hview
    | ok resp =>
      have hkvs : resp.kvs = (border :: borders).map fun key => ⟨key, [], 0⟩ :=
        congrArg RangeView.kvs (Option.some.inj hview)
      have hlist : (f.call cfg (handleList cfg ⟨key, stop, 1888, limit⟩)).map Prod.fst =
          some (.ok resp) := by
        rw [Frozen.call, hx]
        rfl
      have hpos := versions_handleList hlt hlist
      rw [hkvs] at hpos
      exact absurd (hpos _ List.mem_cons_self) (lt_irrefl 0)
  · exact seen_rpcServer_range (f.exec cfg 2) .fresh cfg limit hstop hR

/-- One key of revision 5, on a leader that has committed revision 1888. -/
def oneKey : Frozen where
  store := ⟨[(Coder.encodeObjectKey [97] 0, Coder.indexValue 5 false),
    (Coder.encodeObjectKey [97] 5, [118])], by decide⟩
  regions := fun _ _ => []
  timestamp := 0
  committedRevision := 1888
  timeoutRevision := 0

def oneKeyConfig : Config := ⟨false, [], [], 0, true⟩

theorem front_ends_read_same_atFive :
    seen (oneKey.exec oneKeyConfig 2) .fresh EtcdRangeResponse.view
      (RPCServer.range oneKeyConfig ⟨[97], [98], 0, 5, false⟩) =
        some (some ⟨[⟨[97], [118], 5⟩], false⟩) := by
  have hsame := ((front_ends_read_same_iff oneKeyConfig oneKey (R := 5) 0
    (List.cons_ne_nil (97 : Byte) []) (by decide : [97] < ([98] : Bytes)) (by decide)).mpr
      (by decide)).1
  exact hsame.trans (by decide)

/-- At revision 1888 the etcd server answers with the borders of the partitions, as pairs of
internal keys, where the native server lists the key. -/
theorem front_ends_differ : seen (oneKey.exec oneKeyConfig 2) .fresh EtcdRangeResponse.view
      (RPCServer.range oneKeyConfig ⟨[97], [98], 0, 1888, false⟩) =
        some (some ⟨[⟨Coder.encodeObjectKey [97] 0, [], 0⟩,
          ⟨Coder.encodeObjectKey [98] 0, [], 0⟩], false⟩) ∧
    seen (oneKey.exec oneKeyConfig 2) .fresh RangeResponse.view
      (Server.range oneKeyConfig ⟨[97], [98], 1888, 0⟩) =
        some (some ⟨[⟨[97], [118], 5⟩], false⟩) := by
  decide

end KubeBrain

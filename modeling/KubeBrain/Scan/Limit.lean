import KubeBrain.Scan.Point
import KubeBrain.Scan.Stream

/-! Scans with a limit: one worker that stops when it has found enough, against the scan of
all partitions. -/
namespace KubeBrain

open Interleaving Coder Scanner

namespace Worker

namespace Tally

variable {ttl : Bool} {w : WorkerConfig}

theorem length_last_le (t : Tally) : t.last.length ≤ 1 := by
  unfold last
  split <;> simp

theorem found_current (w : WorkerConfig) (key value k : Bytes) (r : ℕ) (t : Tally) :
    (t.current w key value k r).found = t.found := by
  unfold current
  split
  · split <;> rfl
  · rfl

theorem found_tombstone (w : WorkerConfig) (key value : Bytes) (t : Tally) :
    (t.tombstone w key value).found = t.found := by
  unfold tombstone
  split <;> rfl

variable (ttl w) in
/-- A pair adds at most one to what was found. -/
theorem found_add (t : Tally) (e : Bytes × Bytes) :
    (t.add ttl w e).found = t.found ∨ (t.add ttl w e).found = t.all := by
  unfold add
  split
  · next k r hdec =>
    split
    · exact .inl rfl
    · unfold pair
      split
      · exact .inl rfl
      · rw [found_current, found_tombstone]
        unfold prev
        split
        · exact .inr rfl
        · split
          · exact .inl rfl
          · exact .inl rfl
  · exact .inl rfl

theorem found_prefix_add (t : Tally) (e : Bytes × Bytes) : t.found <+: (t.add ttl w e).found := by
  rcases found_add ttl w t e with h | h
  · exact h ▸ List.prefix_refl _
  · rw [h]
    exact List.prefix_append _ _

theorem found_prefix_addAll (t : Tally) (items : List (Bytes × Bytes)) :
    t.found <+: (t.addAll ttl w items).found := by
  induction items generalizing t with
  | nil => exact List.prefix_refl _
  | cons e items ih => exact (found_prefix_add t e).trans (ih _)

end Tally

variable {cfg : Config} {f : Frozen} {depth : ℕ} {ttl : Bool} {w : WorkerConfig} {limit : ℤ}
  {r₀ : Receiver} {s₀ s : Traced} {t : Tally} {st : State} {acc : List KeyValue}

theorem Counts.needMore (h : Counts (.common acc limit) s₀ t st s) (h0 : 0 < limit) :
    st.receiver.needMore = decide ((t.found.length : ℤ) < limit) := by
  have hholds : st.receiver = .common t.found limit := h.holds.1
  rw [hholds]
  exact if_pos h0

variable (cfg f depth) in
/-- The loop of a worker with a limit ends with the tally of all pairs, or as soon as the
limit is reached. -/
theorem eval_loop_limit (h0 : 0 < limit) (items : List (Bytes × Bytes))
    (hitems : ∀ e ∈ items, ¬ Malformed ttl w e) (h : Counts (.common acc limit) s₀ t st s)
    (hle : (t.found.length : ℤ) ≤ limit) :
    ∃ st' s' exit, (loop ttl w none items st).eval (f.exec cfg depth) s = some ((st', exit), s') ∧
      (exit = .ended none ∧ Counts (.common acc limit) s₀ (t.addAll ttl w items) st' s' ∧
        ((t.addAll ttl w items).found.length : ℤ) < limit ∨
      exit = .enough ∧ ∃ t', Counts (.common acc limit) s₀ t' st' s' ∧
        t'.found <+: (t.addAll ttl w items).found ∧ (t'.found.length : ℤ) = limit) := by
  induction items generalizing st s t with
  | nil =>
    unfold loop
    rw [h.needMore h0]
    by_cases hlt : (t.found.length : ℤ) < limit
    · refine ⟨st, s, .ended none, ?_, .inl ⟨rfl, h, hlt⟩⟩
      rw [if_pos (decide_eq_true hlt), Prog.eval_call_bind (Frozen.exec_ctxDone s)]
      rfl
    · refine ⟨st, s, .enough, ?_,
        .inr ⟨rfl, t, h, List.prefix_refl _, le_antisymm hle (not_lt.mp hlt)⟩⟩
      rw [if_neg (by simpa using hlt)]
      rfl
  | cons e items ih =>
    unfold loop
    rw [h.needMore h0]
    by_cases hlt : (t.found.length : ℤ) < limit
    · obtain ⟨st₁, s₁, heval, h₁⟩ := ends_step cfg f depth h (hitems e List.mem_cons_self)
      have hle₁ : ((t.add ttl w e).found.length : ℤ) ≤ limit := by
        rcases Tally.found_add ttl w t e with hf | hf
        · rw [hf]
          exact hle
        · have := t.length_last_le
          rw [hf, Tally.all_eq, List.length_append]
          omega
      obtain ⟨st', s', exit, hloop, hcases⟩ :=
        ih (fun e' he' => hitems e' (List.mem_cons_of_mem _ he')) h₁ hle₁
      refine ⟨st', s', exit, ?_, hcases⟩
      rw [if_pos (decide_eq_true hlt), Prog.eval_call_bind (Frozen.exec_ctxDone s)]
      exact (Prog.eval_bind_some heval _).trans hloop
    · refine ⟨st, s, .enough, ?_, .inr ⟨rfl, t, h, Tally.found_prefix_addAll t (e :: items),
        le_antisymm hle (not_lt.mp hlt)⟩⟩
      rw [if_neg (by simpa using hlt)]
      rfl

variable (cfg f depth) in
/-- A worker with a limit reports the first pairs of its tally. -/
theorem eval_run_limit (h0 : 0 < limit) (hw : WellFormed ttl w f.store) (s : Traced) :
    ∃ s' n, (run ttl w (.common [] limit) []).eval (f.exec cfg depth) s =
      some ((.common ((tally ttl w f.store).all.take limit.toNat) limit, [], .ok n), s') := by
  obtain ⟨st, s₁, exit, hloop, hcases⟩ := eval_loop_limit cfg f depth h0
    (Engine.items f.store w.partition.start w.partition.stop 0) hw
    (counts_start (.common [] limit) s) (by simpa [Tally.start] using h0.le)
  rcases hcases with ⟨rfl, h₁, hlt⟩ | ⟨rfl, t', h₁, hprefix, hlen⟩
  · have hmore : st.receiver.needMore = true := by
      rw [h₁.needMore h0]
      exact decide_eq_true hlt
    obtain ⟨sent', hfinish, -⟩ := eval_finish cfg f depth hmore h₁
    have htake : (tally ttl w f.store).all.take limit.toNat = (tally ttl w f.store).all := by
      have := (tally ttl w f.store).length_last_le
      apply List.take_of_length_le
      rw [Tally.all_eq, List.length_append]
      have hfound : ((tally ttl w f.store).found.length : ℤ) < limit := hlt
      omega
    refine ⟨⟨s.deleted ++ (tally ttl w f.store).deleted, sent', s.outs⟩,
      (tally ttl w f.store).all.length, ?_⟩
    unfold run
    dsimp only
    rw [Prog.eval_call_bind (Frozen.exec_iter _ _ _ _ _ s)]
    dsimp only
    rw [Prog.eval_bind_some hloop]
    dsimp only
    rw [Prog.eval_bind_some hfinish, h₁.failedKey, htake]
    rfl
  · refine ⟨s₁, 0, ?_⟩
    have hreceiver : st.receiver = .common t'.found limit := h₁.holds.1
    have htake : (tally ttl w f.store).all.take limit.toNat = t'.found := by
      have hall : t'.found <+: (tally ttl w f.store).all :=
        hprefix.trans (List.prefix_append _ _)
      rw [List.prefix_iff_eq_take.mp hall]
      congr 1
      omega
    unfold run
    dsimp only
    rw [Prog.eval_call_bind (Frozen.exec_iter _ _ _ _ _ s)]
    dsimp only
    rw [Prog.eval_bind_some hloop]
    dsimp only
    rw [htake, hreceiver, h₁.failedKey]
    rfl

end Worker

variable {cfg : Config} {f : Frozen} {R : ℕ} {start stop : Bytes}

theorem call_rangeWithLimit {limit : ℤ} (h0 : 0 < limit)
    (hrace : race cfg f.store R false = some none) (hform : FormedIn cfg f R false ⟨start, stop⟩) :
    (f.call cfg (rangeWithLimit cfg start stop R limit)).map Prod.fst =
      some (.ok ((tallyOf cfg f R false ⟨start, stop⟩).all.take limit.toNat)) := by
  obtain ⟨s', n, hrun⟩ := Worker.eval_run_limit cfg f 2 h0 hform .fresh
  have hts : f.exec cfg 2 (.kv .getTimestampOracle) .fresh = some (.ok f.timestamp, .fresh) := rfl
  have hcheck : (checkCompactRace cfg R false).eval (f.exec cfg 2) .fresh =
    some (none, .fresh) := by
    rw [eval_checkCompactRace, hrace]
    rfl
  unfold Frozen.call rangeWithLimit
  rw [Prog.eval_call_bind hts]
  dsimp only
  rw [Prog.eval_bind_some hcheck]
  dsimp only
  have hworker : (⟨0, ⟨start, stop⟩, f.timestamp, R, false, 0⟩ : WorkerConfig) =
      workerOf cfg f R false ⟨start, stop⟩ := rfl
  rw [hworker, Prog.eval_bind_some hrun]
  rfl

/-- What `List` answers when its range holds `all`. -/
def pageOf (f : Frozen) (all : List KeyValue) (n : ℤ) : RangeResponse :=
  if 0 < n then ⟨f.committedRevision, all.take n.toNat, decide (n < (all.length : ℤ))⟩
  else ⟨f.committedRevision, all, false⟩

theorem incInt64_of_lt {n : ℤ} (h0 : -2 ^ 63 ≤ n) (h : n < 2 ^ 63 - 1) : incInt64 n = n + 1 := by
  unfold incInt64
  rw [Int.bmod_eq_of_le] <;> omega

theorem incInt64_max : incInt64 (2 ^ 63 - 1) = -2 ^ 63 := by decide

section List

variable {a b : Bytes} {rev : ℕ} {ps : List Partition} {all : List KeyValue} (n : ℤ)

/-- `List` is a scan with one more pair than the limit. -/
theorem call_handleList_eq (hab : a < b) :
    (f.call cfg (handleList cfg ⟨a, b, rev, n⟩)).map Prod.fst =
      ((f.call cfg (range cfg (encodeObjectKey a 0) (encodeObjectKey b 0) (effective f rev)
        (if 0 < n then incInt64 n else n))).map Prod.fst).map fun res => res.map fun kvs =>
          if 0 < (if 0 < n then incInt64 n else n) ∧ n < (kvs.length : ℤ) then
            ⟨f.committedRevision, kvs.take n.toNat, true⟩
          else ⟨f.committedRevision, kvs, false⟩ := by
  have hne : b ≠ [] := by
    rintro rfl
    exact absurd hab (List.not_lt_nil a)
  have hrev : f.exec cfg 2 .getRevision .fresh = some (f.committedRevision, .fresh) := rfl
  unfold Frozen.call handleList
  rw [if_neg hne]
  unfold getCurrentRevision
  rw [Prog.eval_call_bind hrev]
  dsimp only
  generalize (if 0 < n then incInt64 n else n) = limit
  rw [if_neg (not_le.mpr hab), Prog.eval_bind]
  show Option.map Prod.fst (((range cfg _ _ (effective f rev) limit).eval _ _).bind _) = _
  cases (range cfg (encodeObjectKey a 0) (encodeObjectKey b 0) (effective f rev) limit).eval
      (f.exec cfg 2) .fresh with
  | none => rfl
  | some x =>
    obtain ⟨res, s⟩ := x
    cases res with
    | error e => rfl
    | ok kvs =>
      dsimp only [Option.bind_some, Option.map_some, Except.map]
      split <;> rfl

variable {n} (hab : a < b)
  (hall : (tallyOf cfg f (effective f rev) false ⟨encodeObjectKey a 0, encodeObjectKey b 0⟩).all =
    all)
  (hrace : race cfg f.store (effective f rev) false = some none)
  (hform : FormedIn cfg f (effective f rev) false ⟨encodeObjectKey a 0, encodeObjectKey b 0⟩)

include hab hall hrace hform

theorem call_handleList_limited (h0 : 0 < n) (hmax : n < 2 ^ 63 - 1) :
    (f.call cfg (handleList cfg ⟨a, b, rev, n⟩)).map Prod.fst = some (.ok (pageOf f all n)) := by
  have hlimited : range cfg (encodeObjectKey a 0) (encodeObjectKey b 0) (effective f rev) (n + 1) =
      rangeWithLimit cfg (encodeObjectKey a 0) (encodeObjectKey b 0) (effective f rev) (n + 1) :=
    if_pos (by omega)
  rw [call_handleList_eq n hab, if_pos h0, incInt64_of_lt (by omega) hmax, hlimited,
    call_rangeWithLimit (by omega) hrace hform, hall]
  simp only [Option.map_some, Except.map, List.length_take, Option.some.injEq, Except.ok.injEq,
    pageOf, if_pos h0]
  by_cases hmore : n < (all.length : ℤ)
  · rw [if_pos (by omega), List.take_take, decide_eq_true hmore]
    congr 2
    omega
  · rw [if_neg (by omega), decide_eq_false hmore, List.take_of_length_le (by omega),
      List.take_of_length_le (by omega)]

theorem call_handleList (hn : -2 ^ 63 ≤ n ∧ n < 2 ^ 63) (hlen : all.length < 2 ^ 63)
    (hrange : (f.call cfg (range cfg (encodeObjectKey a 0) (encodeObjectKey b 0)
      (effective f rev) 0)).map Prod.fst = some (.ok all)) :
    (f.call cfg (handleList cfg ⟨a, b, rev, n⟩)).map Prod.fst = some (.ok (pageOf f all n)) := by
  have hunlimited {limit : ℤ} (h : limit ≤ 0) : range cfg (encodeObjectKey a 0)
      (encodeObjectKey b 0) (effective f rev) limit = range cfg (encodeObjectKey a 0)
        (encodeObjectKey b 0) (effective f rev) 0 := by
    unfold range
    rw [if_neg (not_lt.mpr h), if_neg (lt_irrefl 0)]
  by_cases h0 : 0 < n
  · by_cases hmax : n < 2 ^ 63 - 1
    · exact call_handleList_limited hab hall hrace hform h0 hmax
    · -- the limit overflows and the scan is unlimited
      obtain rfl : n = 2 ^ 63 - 1 := by omega
      rw [call_handleList_eq _ hab, if_pos h0, incInt64_max, hunlimited (by decide), hrange]
      simp only [Option.map_some, Except.map, Option.some.injEq, Except.ok.injEq, pageOf]
      rw [if_neg (by omega), if_pos h0, decide_eq_false (by omega),
        List.take_of_length_le (by omega)]
  · rw [call_handleList_eq n hab, if_neg h0, hunlimited (not_lt.mp h0), hrange]
    simp only [Option.map_some, Except.map, Option.some.injEq, Except.ok.injEq, pageOf]
    rw [if_neg fun h => h0 h.1, if_neg h0]

end List

/-- The live pairs of an interval, in the order of their keys. -/
structure Listing (st : Store) (a b : Bytes) (R : ℕ) (all : List KeyValue) : Prop where
  sorted : all.Pairwise fun x y => x.key < y.key
  mem : ∀ kv, kv ∈ all ↔ a ≤ kv.key ∧ kv.key < b ∧
    Mvcc.Live (· = tombStoneBytes) (objects st kv.key) R kv.revision kv.value

theorem Listing.length_le {st : Store} {a b : Bytes} {R : ℕ} {all : List KeyValue}
    (h : Listing st a b R all) : all.length ≤ st.entries.length := by
  have hsub : all.map pairOf ⊆ st.entries := by
    intro e he
    obtain ⟨kv, hkv, rfl⟩ := List.mem_map.mp he
    exact SortedMap.mem_entries.mpr ((h.mem kv).mp hkv).2.2.1.1.2.2
  have hnodup : (all.map pairOf).Nodup := by
    rw [List.nodup_iff_pairwise_ne, List.pairwise_map]
    apply h.sorted.imp_of_mem
    intro x y hx hy hlt heq
    have hxr := ((h.mem x).mp hx).2.2.1.1.2.1
    have hyr := ((h.mem y).mp hy).2.2.1.1.2.1
    have hkey := (encodeObjectKey_injective hxr hyr (congrArg Prod.fst heq)).1
    exact absurd hkey hlt.ne
  have hle := (List.subperm_of_subset hnodup hsub).length_le
  rwa [List.length_map] at hle

section Exact

variable (cfg f R) in
/-- One worker over an interval between plain keys lists it. -/
theorem listing_tallyOf {a b : Bytes} (ha : Plain a) (hb : Plain b) (hab : a ≤ b)
    (hst : Spaced f.store) : Listing f.store a b R
      (tallyOf cfg f R false ⟨encodeObjectKey a 0, encodeObjectKey b 0⟩).all := by
  obtain ⟨hmem, hsorted⟩ := Worker.tally_all ha hb hab
    (w := workerOf cfg f R false ⟨encodeObjectKey a 0, encodeObjectKey b 0⟩) rfl rfl rfl
    (hst.keyed a b 0 0)
  refine ⟨hsorted, fun kv => (hmem kv).trans ?_⟩
  constructor
  · exact fun h => h.2
  · exact fun h => ⟨hst.plain_of_objects h.2.2.1.1, h⟩

variable (cfg R) in
theorem formedIn_of_spaced {a b : Bytes} (hab : encodeObjectKey a 0 ≤ encodeObjectKey b 0)
    (hst : Spaced f.store) :
    FormedIn cfg f R false ⟨encodeObjectKey a 0, encodeObjectKey b 0⟩ := by
  intro e he
  have hmem : e ∈ f.store.range (encodeObjectKey a 0) (encodeObjectKey b 0) := by
    rw [← items_eq_range f.store hab]
    exact he
  obtain ⟨hget, hlo, hhi⟩ := SortedMap.mem_range.mp hmem
  obtain ⟨k, r, -, hr, heq⟩ := hst.keyed a b 0 0 e.1 e.2 hget hlo hhi
  unfold Worker.Malformed
  rw [heq, decode_encodeObjectKey k hr]
  rintro ⟨hopen, -⟩
  exact hopen (.inr (.inl rfl))

/-- The compact record, if there is one, is at or below the revision. -/
def NotCompacted (cfg : Config) (st : Store) (R : ℕ) : Prop :=
  ∀ val, st.get (getCompactKey cfg.keyPrefix) = some val →
    8 ≤ val.length ∧ Bytes.toNatBE (val.take 8) ≤ R

theorem NotCompacted.race {st : Store} (h : NotCompacted cfg st R) :
    race cfg st R false = some none := by
  unfold Scanner.race
  rw [if_neg (by decide)]
  cases hval : st.get (getCompactKey cfg.keyPrefix) with
  | none => rfl
  | some val =>
    obtain ⟨hlen, hle⟩ := h val hval
    dsimp only
    rw [if_neg (not_lt.mpr hlen), if_neg (not_lt.mpr hle)]

variable {a b : Bytes} (ha : Plain a) (hb : Plain b) (hab : a < b) (hst : Spaced f.store)
  (hcover : Tikv.Covers (f.regions (encodeObjectKey a 0) (encodeObjectKey b 0))
    (encodeObjectKey a 0) (encodeObjectKey b 0))
  (hborders : ∀ c ∈ Tikv.borders (f.regions (encodeObjectKey a 0) (encodeObjectKey b 0)),
    PlainInternal c)
  (hrecord : NotCompacted cfg f.store R)

include ha hb hab hst hcover hborders hrecord in
theorem call_range_listing : (f.call cfg (range cfg (encodeObjectKey a 0) (encodeObjectKey b 0)
      R 0)).map Prod.fst =
    some (.ok (tallyOf cfg f R false ⟨encodeObjectKey a 0, encodeObjectKey b 0⟩).all) := by
  have hlt := encodeObjectKey_lt ha hb hab
  obtain ⟨ps, hps, hlist, -⟩ := outcome_regions cfg f R hlt.le (hst.keyed a b 0 0)
    (.of_plain ha hcover hborders)
  rw [call_range cfg R hps, hlist]
  have hone : outcome cfg f R false [⟨encodeObjectKey a 0, encodeObjectKey b 0⟩] =
      some (.ok (foundIn cfg f R false [⟨encodeObjectKey a 0, encodeObjectKey b 0⟩],
        deletedIn cfg f R false [⟨encodeObjectKey a 0, encodeObjectKey b 0⟩])) := by
    apply outcome_eq_ok.mpr
    refine ⟨hrecord.race, fun p hp => ?_, rfl, rfl⟩
    obtain rfl := List.mem_singleton.mp hp
    exact formedIn_of_spaced cfg R hlt.le hst
  rw [hone]
  simp [foundIn, Except.map]

end Exact

/-- The scan of all partitions lists the interval, and `List` answers with the first pairs of
that listing. -/
theorem list_exact (cfg : Config) (f : Frozen) (rev : ℕ) (n : ℤ) {a b : Bytes} (ha : Plain a)
    (hb : Plain b) (hab : a < b) (hst : Spaced f.store)
    (hcover : Tikv.Covers (f.regions (encodeObjectKey a 0) (encodeObjectKey b 0))
      (encodeObjectKey a 0) (encodeObjectKey b 0))
    (hborders : ∀ c ∈ Tikv.borders (f.regions (encodeObjectKey a 0) (encodeObjectKey b 0)),
      PlainInternal c)
    (hrecord : NotCompacted cfg f.store (effective f rev)) (hn : -2 ^ 63 ≤ n ∧ n < 2 ^ 63)
    (hlen : f.store.entries.length < 2 ^ 63) :
    ∃ all, Listing f.store a b (effective f rev) all ∧
      (f.call cfg (range cfg (encodeObjectKey a 0) (encodeObjectKey b 0)
        (effective f rev) 0)).map Prod.fst = some (.ok all) ∧
      (f.call cfg (handleList cfg ⟨a, b, rev, n⟩)).map Prod.fst = some (.ok (pageOf f all n)) ∧
      (0 < n → (f.call cfg (rangeWithLimit cfg (encodeObjectKey a 0) (encodeObjectKey b 0)
        (effective f rev) (n + 1))).map Prod.fst = some (.ok (all.take (n + 1).toNat))) := by
  have hlt := encodeObjectKey_lt ha hb hab
  have hlisting := listing_tallyOf cfg f (effective f rev) ha hb hab.le hst
  have hrange := call_range_listing ha hb hab hst hcover hborders hrecord
  have hform := formedIn_of_spaced cfg (effective f rev) hlt.le hst
  refine ⟨_, hlisting, hrange, ?_, fun h0 => ?_⟩
  · exact call_handleList hab rfl hrecord.race hform hn (hlisting.length_le.trans_lt hlen) hrange
  · exact call_rangeWithLimit (by omega) hrecord.race hform

/-- Two user keys with one version each, and a deleted one between them. -/
def twoLive : Store :=
  ⟨[(encodeObjectKey [101] 0, indexValue 1 false), (encodeObjectKey [101] 1, [7]),
    (encodeObjectKey [102] 0, indexValue 3 true), (encodeObjectKey [102] 2, [8]),
    (encodeObjectKey [102] 3, tombStoneBytes), (encodeObjectKey [103] 0, indexValue 4 false),
    (encodeObjectKey [103] 4, [9])], by decide⟩

theorem spaced_twoLive : Spaced twoLive := by
  intro key v hv _
  have hmem : (key, v) ∈ twoLive.entries := SortedMap.mem_entries.mpr hv
  simp only [twoLive, List.mem_cons, Prod.mk.injEq, List.not_mem_nil, or_false] at hmem
  rcases hmem with ⟨rfl, -⟩ | ⟨rfl, -⟩ | ⟨rfl, -⟩ | ⟨rfl, -⟩ | ⟨rfl, -⟩ | ⟨rfl, -⟩ | ⟨rfl, -⟩
  · exact ⟨[101], 0, by decide +kernel, by decide, rfl⟩
  · exact ⟨[101], 1, by decide +kernel, by decide, rfl⟩
  · exact ⟨[102], 0, by decide +kernel, by decide, rfl⟩
  · exact ⟨[102], 2, by decide +kernel, by decide, rfl⟩
  · exact ⟨[102], 3, by decide +kernel, by decide, rfl⟩
  · exact ⟨[103], 0, by decide +kernel, by decide, rfl⟩
  · exact ⟨[103], 4, by decide +kernel, by decide, rfl⟩

/-- A leader at revision 4 whose storage has one region. -/
def atFour : Frozen := ⟨twoLive, fun _ _ => [⟨[], []⟩], 1, 4, 0⟩

theorem notCompacted_twoLive (R : ℕ) : NotCompacted plainConfig twoLive R := by
  have hnone : twoLive.get (getCompactKey plainConfig.keyPrefix) = none := by decide
  intro val hval
  rw [hnone] at hval
  cases hval

theorem covers_one (start stop : Bytes) : Tikv.Covers [⟨[], []⟩] start stop where
  first := by
    intro r hr
    obtain rfl := Option.some.inj hr
    exact not_lt.mp (List.not_lt_nil start)
  chain := .inl rfl

theorem list_exact_twoLive :
    (atFour.call plainConfig (handleList plainConfig ⟨[100], [104], 0, 1⟩)).map Prod.fst =
      some (.ok ⟨4, [⟨[101], [7], 1⟩], true⟩) ∧
    (atFour.call plainConfig (range plainConfig (encodeObjectKey [100] 0) (encodeObjectKey [104] 0)
      4 0)).map Prod.fst = some (.ok [⟨[101], [7], 1⟩, ⟨[103], [9], 4⟩]) ∧
    Listing twoLive [100] [104] 4 [⟨[101], [7], 1⟩, ⟨[103], [9], 4⟩] := by
  obtain ⟨all, hlisting, hrange, hlist, -⟩ := list_exact plainConfig atFour 0 1 (a := [100])
    (b := [104]) (by decide +kernel) (by decide +kernel) (by decide +kernel) spaced_twoLive
    (covers_one _ _) (by simp [atFour, Tikv.borders]) (notCompacted_twoLive _) (by decide)
    (by decide +kernel)
  have hfound : (atFour.call plainConfig (range plainConfig (encodeObjectKey [100] 0)
      (encodeObjectKey [104] 0) 4 0)).map Prod.fst =
        some (.ok [⟨[101], [7], 1⟩, ⟨[103], [9], 4⟩]) := by decide +kernel
  obtain rfl : all = [⟨[101], [7], 1⟩, ⟨[103], [9], 4⟩] :=
    Except.ok.inj (Option.some.inj (hrange.symm.trans hfound))
  exact ⟨hlist.trans (by decide +kernel), hfound, hlisting⟩

end KubeBrain

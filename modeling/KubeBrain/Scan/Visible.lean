import KubeBrain.Lib.Runs
import KubeBrain.Scan.Borders
import KubeBrain.Scan.Frozen
import KubeBrain.Writes.Contents

/-! What a list worker finds: in the order of its iterator, the last pair of each run of one user
key, if that is a version with a value. In a store of plain user keys that is the newest version
of each of them at or below its revision. -/
namespace KubeBrain

open Coder Scanner

/-- The pair under which a version, or with revision zero an index value, is stored. -/
def pairOf (e : KeyValue) : Bytes × Bytes := (encodeObjectKey e.key e.revision, e.value)

/-- Order of the internal keys. -/
def Before (a b : KeyValue) : Prop := a.key < b.key ∨ a.key = b.key ∧ a.revision < b.revision

/-- The version, or with revision zero the index value, that a pair holds. -/
def versionOf (e : Bytes × Bytes) : Option KeyValue :=
  match decode e.1 with
  | .ok k r => some ⟨k, e.2, r⟩
  | _ => none

theorem versionOf_eq_some {e : Bytes × Bytes} {x : KeyValue} (h : versionOf e = some x) :
    e = pairOf x ∧ x.revision < 2 ^ 64 := by
  unfold versionOf at h
  split at h
  · next k r hdec =>
    obtain rfl := Option.some.inj h
    obtain ⟨hkey, hr⟩ := encode_of_decode hdec
    exact ⟨Prod.ext hkey rfl, hr⟩
  · cases h

theorem versionOf_pairOf {x : KeyValue} (h : x.revision < 2 ^ 64) :
    versionOf (pairOf x) = some x := by
  simp only [versionOf, pairOf, decode_encodeObjectKey x.key h]

/-- A version with a value, neither an index value nor a tombstone. -/
def KeyValue.HasValue (e : KeyValue) : Prop := 0 < e.revision ∧ e.value ≠ tombStoneBytes

instance (e : KeyValue) : Decidable e.HasValue := inferInstanceAs (Decidable (_ ∧ _))

/-- The versions and index values of pairs, of revisions up to `R`. -/
def readable (R : ℕ) (items : List (Bytes × Bytes)) : List KeyValue :=
  (items.filterMap versionOf).filter fun e => e.revision ≤ R

theorem mem_readable {R : ℕ} {items : List (Bytes × Bytes)} {kv : KeyValue} :
    kv ∈ readable R items ↔ kv.revision ≤ R ∧ kv.revision < 2 ^ 64 ∧ pairOf kv ∈ items := by
  rw [readable, List.mem_filter, List.mem_filterMap, decide_eq_true_eq]
  constructor
  · rintro ⟨⟨e, he, hsome⟩, hle⟩
    obtain ⟨rfl, hr⟩ := versionOf_eq_some hsome
    exact ⟨hle, hr, he⟩
  · rintro ⟨hle, hr, hmem⟩
    exact ⟨⟨pairOf kv, hmem, versionOf_pairOf hr⟩, hle⟩

theorem pairwise_readable {R : ℕ} {items : List (Bytes × Bytes)} {lt : Bytes → Bytes → Prop}
    (h : items.Pairwise fun a b => lt a.1 b.1) : (readable R items).Pairwise fun a b =>
      lt (encodeObjectKey a.key a.revision) (encodeObjectKey b.key b.revision) := by
  refine (h.filterMap _ fun a b hab x hx y hy => ?_).filter _
  obtain ⟨rfl, -⟩ := versionOf_eq_some hx
  obtain ⟨rfl, -⟩ := versionOf_eq_some hy
  exact hab

namespace Worker.Tally

variable {ttl : Bool} {w : WorkerConfig}

theorem addAll_versionOf (t : Tally) (items : List (Bytes × Bytes)) :
    t.addAll ttl w items = t.addAll ttl w ((items.filterMap versionOf).map pairOf) := by
  induction items generalizing t with
  | nil => rfl
  | cons e items ih =>
    cases hx : versionOf e with
    | none =>
      have hskip : t.add ttl w e = t := by
        unfold versionOf at hx
        unfold add
        split
        · next k r hdec =>
          rw [hdec] at hx
          cases hx
        · rfl
      rw [List.filterMap_cons_none hx, ← ih]
      exact congrArg (fun t : Tally => t.addAll ttl w items) hskip
    | some x =>
      rw [List.filterMap_cons_some hx, List.map_cons, ← (versionOf_eq_some hx).1]
      exact ih _

theorem add_pairOf (hlist : w.compact = false) (htime : w.timeoutRevision = 0) (t : Tally)
    {e : KeyValue} (he : e.revision < 2 ^ 64) : t.add ttl w (pairOf e) =
      if w.revision < e.revision then t
      else (t.prev w e.key).see e.key e.revision e.value := by
  have hexpired : expired ttl w e.key e.revision e.value = false := by
    simp [expired, htime]
  simp only [add, pairOf, decode_encodeObjectKey e.key he, hexpired, pair, tombstone, current,
    hlist, Bool.false_eq_true, false_and, if_false]

theorem found_prev (hlist : w.compact = false) (t : Tally) (k : Bytes) :
    (t.prev w k).found = if k ≠ t.prevUserKey then t.all else t.found := by
  simp only [prev, hlist, Bool.false_eq_true, false_and, if_false]
  split <;> rfl

/-- The pair seen last stands in front of those to come. -/
theorem all_addAll (hlist : w.compact = false) (htime : w.timeoutRevision = 0) (t : Tally)
    {es : List KeyValue} (hes : ∀ e ∈ es, e.revision < 2 ^ 64) :
    (t.addAll ttl w (es.map pairOf)).all = t.found ++
      Runs.ends KeyValue.key KeyValue.HasValue (⟨t.prevUserKey, t.prevValue, t.prevRevision⟩ ::
        es.filter fun e => e.revision ≤ w.revision) := by
  induction es generalizing t with
  | nil =>
    simp only [List.map_nil, addAll, List.foldl_nil, all, last, List.filter_nil, Runs.ends,
      List.head?_nil, Option.map_none, KeyValue.HasValue]
    congr 1
    split <;> simp_all
  | cons e es ih =>
    obtain ⟨he, hes⟩ := List.forall_mem_cons.mp hes
    have hstep : t.addAll ttl w ((e :: es).map pairOf) =
        (t.add ttl w (pairOf e)).addAll ttl w (es.map pairOf) := rfl
    rw [hstep, ih _ hes, add_pairOf hlist htime t he]
    by_cases habove : w.revision < e.revision
    · rw [if_pos habove, List.filter_cons_of_neg (by simpa using habove)]
    · rw [if_neg habove, List.filter_cons_of_pos (by simpa using habove),
        Runs.ends_cons (⟨t.prevUserKey, t.prevValue, t.prevRevision⟩ : KeyValue),
        ← List.append_assoc]
      congr 1
      show (t.prev w e.key).found = _
      rw [found_prev hlist]
      by_cases hk : e.key = t.prevUserKey
      · simp [hk]
      · rw [if_pos hk]
        unfold all last
        congr 1
        split <;> simp_all [KeyValue.HasValue]

end Worker.Tally

/-- What a worker over the pairs finds. -/
abbrev listing (R : ℕ) (items : List (Bytes × Bytes)) : List KeyValue :=
  Runs.ends KeyValue.key KeyValue.HasValue (readable R items)

theorem Worker.tally_all_eq {ttl : Bool} {w : WorkerConfig} {st : Store}
    (hlist : w.compact = false) (htime : w.timeoutRevision = 0) : (tally ttl w st).all =
      listing w.revision (Engine.items st w.partition.start w.partition.stop 0) := by
  have hrev : ∀ e ∈ (Engine.items st w.partition.start w.partition.stop 0).filterMap versionOf,
      e.revision < 2 ^ 64 := by
    intro e he
    obtain ⟨x, -, hx⟩ := List.mem_filterMap.mp he
    exact (versionOf_eq_some hx).2
  rw [tally, Tally.addAll_versionOf, Tally.all_addAll hlist htime _ hrev,
    Runs.ends_cons_of_not (by simp [KeyValue.HasValue, Tally.start])]
  rfl

theorem mem_items {st : Store} {lo hi : Bytes} (hle : lo ≤ hi) {e : Bytes × Bytes} :
    e ∈ Engine.items st lo hi 0 ↔ st.get e.1 = some e.2 ∧ lo ≤ e.1 ∧ e.1 < hi := by
  rw [items_eq_range st hle]
  exact SortedMap.mem_range

section Ascending

variable {st : Store} {lo hi : Bytes} {R : ℕ}

theorem sorted_readable (hle : lo ≤ hi) : (readable R (Engine.items st lo hi 0)).Pairwise fun a b =>
    encodeObjectKey a.key a.revision < encodeObjectKey b.key b.revision := by
  rw [items_eq_range st hle]
  exact pairwise_readable (st.range_sorted lo hi)

/-- Versions of one key come in the order of their revisions. -/
theorem revision_lt_readable (hle : lo ≤ hi) : (readable R (Engine.items st lo hi 0)).Pairwise
    fun a b => a.key = b.key → a.revision < b.revision := by
  refine (sorted_readable hle).imp_of_mem fun {a b} ha hb hlt hkey => ?_
  have hra := (mem_readable.mp ha).2.1
  have hrb := (mem_readable.mp hb).2.1
  rw [hkey] at hlt
  by_contra hge
  exact absurd ((encodeObjectKey_le_iff b.key hrb hra).mpr (not_lt.mp hge)) (not_le.mpr hlt)

theorem nodup_readable (hle : lo ≤ hi) : (readable R (Engine.items st lo hi 0)).Nodup := by
  rw [List.nodup_iff_pairwise_ne]
  refine (sorted_readable hle).imp fun hlt heq => ?_
  rw [heq] at hlt
  exact lt_irrefl _ hlt

/-- Plain keys come in their order. -/
theorem key_le_readable (hst : Keyed st lo hi) (hle : lo ≤ hi) :
    (readable R (Engine.items st lo hi 0)).Pairwise fun a b => a.key ≤ b.key := by
  have hplain {e : KeyValue} (he : e ∈ readable R (Engine.items st lo hi 0)) :
      Plain e.key ∧ e.revision < 2 ^ 64 := by
    obtain ⟨-, hr, hmem⟩ := mem_readable.mp he
    obtain ⟨hget, hl, hh⟩ := (mem_items hle).mp hmem
    obtain ⟨k, r, hk, hr', heq⟩ := hst _ _ hget hl hh
    exact ⟨(encodeObjectKey_injective hr hr' heq).1 ▸ hk, hr⟩
  refine (sorted_readable hle).imp_of_mem fun ha hb hlt => ?_
  rcases (encodeObjectKey_lt_iff (hplain ha).1 (hplain hb).1 (hplain ha).2 (hplain hb).2).mp hlt
    with hlt | ⟨heq, -⟩
  · exact hlt.le
  · exact heq.le

theorem mem_listing (hst : Keyed st lo hi) (hle : lo ≤ hi) {kv : KeyValue} :
    kv ∈ listing R (Engine.items st lo hi 0) ↔ kv.HasValue ∧
      kv ∈ readable R (Engine.items st lo hi 0) ∧
      ∀ e ∈ readable R (Engine.items st lo hi 0), e.key = kv.key → e.revision ≤ kv.revision := by
  have hends := @Runs.mem_ends_iff _ _ KeyValue.key KeyValue.HasValue _ _ _ _
    (revision_lt_readable (R := R) hle) (fun _ _ h => lt_asymm h) _ (key_le_readable hst hle)
    (fun _ _ => le_antisymm) kv
  simpa only [not_lt] using hends

theorem sorted_listing (hst : Keyed st lo hi) (hle : lo ≤ hi) :
    (listing R (Engine.items st lo hi 0)).Pairwise fun a b => a.key < b.key := by
  have hne : (listing R (Engine.items st lo hi 0)).Pairwise fun a b => a.key ≠ b.key :=
    Runs.pairwise_ends (nodup_readable hle) fun a ha =>
      Runs.last_of_mem_ends (key_le_readable hst hle) (fun _ _ => le_antisymm) ha
  have hkeys : (listing R (Engine.items st lo hi 0)).Pairwise fun a b => a.key ≤ b.key :=
    (key_le_readable hst hle).sublist (Runs.ends_sublist _)
  exact (hkeys.and hne).imp fun h => lt_of_le_of_ne h.1 h.2

end Ascending

/-- The user keys of an interval between two plain keys. -/
theorem mem_interval {a b k : Bytes} {r : ℕ} (ha : Plain a) (hb : Plain b) (hk : Plain k)
    (hr : r < 2 ^ 64) : (encodeRevisionKey a ≤ encodeObjectKey k r ∧
      encodeObjectKey k r < encodeRevisionKey b) ↔ a ≤ k ∧ k < b := by
  unfold encodeRevisionKey
  rw [← not_lt, encodeObjectKey_lt_iff hk ha hr (by decide),
    encodeObjectKey_lt_iff hk hb hr (by decide)]
  simp

/-- What is read between two plain keys. -/
theorem mem_readable_interval {st : Store} {a b : Bytes} {R : ℕ} {kv : KeyValue} (ha : Plain a)
    (hb : Plain b) (hab : a ≤ b) (hst : Keyed st (encodeRevisionKey a) (encodeRevisionKey b)) :
    kv ∈ readable R (Engine.items st (encodeRevisionKey a) (encodeRevisionKey b) 0) ↔
      Plain kv.key ∧ kv.revision ≤ R ∧ kv.revision < 2 ^ 64 ∧ a ≤ kv.key ∧ kv.key < b ∧
      st.get (encodeObjectKey kv.key kv.revision) = some kv.value := by
  have hle : encodeRevisionKey a ≤ encodeRevisionKey b := (encodeRevisionKey_le ha hb).mpr hab
  rw [mem_readable, mem_items hle]
  constructor
  · rintro ⟨hR, hr, hget, hin⟩
    obtain ⟨k, r, hk, hr', heq⟩ := hst _ _ hget hin.1 hin.2
    have hp : Plain kv.key := (encodeObjectKey_injective hr hr' heq).1 ▸ hk
    obtain ⟨hl, hh⟩ := (mem_interval ha hb hp hr).mp hin
    exact ⟨hp, hR, hr, hl, hh, hget⟩
  · rintro ⟨hp, hR, hr, hl, hh, hget⟩
    exact ⟨hR, hr, hget, (mem_interval ha hb hp hr).mpr ⟨hl, hh⟩⟩

namespace Worker

/-- A list worker over the user keys of an interval finds the live version of each of them
at its revision, and reports them in the order of their keys. -/
theorem tally_all {ttl : Bool} {w : WorkerConfig} {st : Store} {a b : Bytes} (ha : Plain a)
    (hb : Plain b) (hab : a ≤ b) (hlist : w.compact = false) (htime : w.timeoutRevision = 0)
    (hpart : w.partition = ⟨encodeRevisionKey a, encodeRevisionKey b⟩)
    (hst : Keyed st (encodeRevisionKey a) (encodeRevisionKey b)) :
    (∀ kv, kv ∈ (tally ttl w st).all ↔ Plain kv.key ∧ a ≤ kv.key ∧ kv.key < b ∧
      Mvcc.Live (· = tombStoneBytes) (objects st kv.key) w.revision kv.revision kv.value) ∧
      (tally ttl w st).all.Pairwise fun x y => x.key < y.key := by
  have hle : encodeRevisionKey a ≤ encodeRevisionKey b := (encodeRevisionKey_le ha hb).mpr hab
  have hmem (e : KeyValue) := @mem_readable_interval st a b w.revision e ha hb hab hst
  rw [tally_all_eq hlist htime, hpart]
  refine ⟨fun kv => ?_, sorted_listing hst hle⟩
  rw [mem_listing hst hle, hmem]
  simp only [KeyValue.HasValue, Mvcc.Live, Mvcc.Newest, objects]
  constructor
  · rintro ⟨⟨hpos, hlive⟩, ⟨hp, hR, hr, hl, hh, hget⟩, hnewest⟩
    refine ⟨hp, hl, hh, ⟨⟨hpos, hr, hget⟩, hR, ?_⟩, hlive⟩
    rintro r' v' ⟨-, hr', hget'⟩ hle'
    exact hnewest ⟨kv.key, v', r'⟩ ((hmem _).mpr ⟨hp, hle', hr', hl, hh, hget'⟩) rfl
  · rintro ⟨hp, hl, hh, ⟨⟨hpos, hr, hget⟩, hR, hnewest⟩, hlive⟩
    refine ⟨⟨hpos, hlive⟩, ⟨hp, hR, hr, hl, hh, hget⟩, fun e he hk => ?_⟩
    obtain ⟨-, hle', hr', -, -, hget'⟩ := (hmem e).mp he
    by_cases hpos' : 0 < e.revision
    · exact hnewest e.revision e.value ⟨hpos', hr', hk ▸ hget'⟩ hle'
    · omega

end Worker
end KubeBrain

import KubeBrain.Scan.Point
import KubeBrain.Scan.Visible
import Mathlib.Data.List.Induction

/-! What is left of a range after a compaction worker has gone over it. -/
namespace KubeBrain

open Coder Scanner

/-- Versions and index values of the user keys whose internal keys lie in an interval. -/
def stored (st : Store) (lo hi : Bytes) : List KeyValue :=
  (Engine.items st lo hi 0).filterMap versionOf

section Stored

variable {st : Store} {lo hi : Bytes}

theorem mem_stored (hle : lo ≤ hi) {x : KeyValue} : x ∈ stored st lo hi ↔
    x.revision < 2 ^ 64 ∧ st.get (encodeObjectKey x.key x.revision) = some x.value ∧
      lo ≤ encodeObjectKey x.key x.revision ∧ encodeObjectKey x.key x.revision < hi := by
  rw [stored, List.mem_filterMap, items_eq_range st hle]
  constructor
  · rintro ⟨e, he, hx⟩
    obtain ⟨rfl, hr⟩ := versionOf_eq_some hx
    exact ⟨hr, SortedMap.mem_range.mp he⟩
  · rintro ⟨hr, hget⟩
    exact ⟨pairOf x, SortedMap.mem_range.mpr hget, versionOf_pairOf hr⟩

theorem plain_stored (hst : Readable st) (hle : lo ≤ hi) {x : KeyValue}
    (hx : x ∈ stored st lo hi) : Plain x.key := by
  obtain ⟨hr, hget, -⟩ := (mem_stored hle).mp hx
  rcases hst _ _ hget with ⟨k, r, hk, hr', hkey⟩ | hbad
  · rw [(encodeObjectKey_injective hr hr' hkey).1]
    exact hk
  · rw [decode_encodeObjectKey x.key hr] at hbad
    cases hbad

theorem stored_sorted (hst : Readable st) (hle : lo ≤ hi) : (stored st lo hi).Pairwise Before := by
  have hkeys : ((stored st lo hi).map pairOf).Pairwise fun a b => a.1 < b.1 := by
    have hrange := st.range_sorted lo hi
    rw [← items_eq_range st hle] at hrange
    rw [stored, List.map_filterMap]
    refine hrange.filterMap _ fun a b hab a' ha' b' hb' => ?_
    obtain ⟨x, hx, rfl⟩ := Option.map_eq_some_iff.mp ha'
    obtain ⟨y, hy, rfl⟩ := Option.map_eq_some_iff.mp hb'
    rwa [← (versionOf_eq_some hx).1, ← (versionOf_eq_some hy).1]
  rw [List.pairwise_map] at hkeys
  refine hkeys.imp_of_mem fun {a b} ha hb hab => ?_
  exact (encodeObjectKey_lt_iff (plain_stored hst hle ha) (plain_stored hst hle hb)
    ((mem_stored hle).mp ha).1 ((mem_stored hle).mp hb).1).mp hab

end Stored

/-- What a compaction at `C` is to remove of the versions and index values `es`: deletion
marks of the index, tombstones, and versions that a newer one replaces. -/
def Garbage (C : ℕ) (es : List KeyValue) (x : KeyValue) : Prop :=
  (x.revision = 0 ∧ x.value.length = 9 ∧ Bytes.toNatBE (x.value.take 8) ≤ C) ∨
    (0 < x.revision ∧ x.revision ≤ C ∧
      (x.value = tombStoneBytes ∨
        ∃ y ∈ es, y.key = x.key ∧ x.revision < y.revision ∧ y.revision ≤ C))

theorem Garbage.mono {C : ℕ} {es es' : List KeyValue} {x : KeyValue} (h : Garbage C es x)
    (hsub : ∀ y ∈ es, y ∈ es') : Garbage C es' x := by
  rcases h with h | ⟨h0, hC, h | ⟨y, hy, hlt⟩⟩
  · exact .inl h
  · exact .inr ⟨h0, hC, .inl h⟩
  · exact .inr ⟨h0, hC, .inr ⟨y, hsub y hy, hlt⟩⟩

section Snoc

variable {C : ℕ} {es : List KeyValue} {x e : KeyValue}

theorem garbage_snoc : Garbage C (es ++ [e]) x ↔ Garbage C es x ∨
    (0 < x.revision ∧ e.key = x.key ∧ x.revision < e.revision ∧ e.revision ≤ C) := by
  constructor
  · rintro (h | ⟨h0, hC, h | ⟨y, hy, hkey, hlt, hle⟩⟩)
    · exact .inl (.inl h)
    · exact .inl (.inr ⟨h0, hC, .inl h⟩)
    · rcases List.mem_snoc.mp hy with hy | rfl
      · exact .inl (.inr ⟨h0, hC, .inr ⟨y, hy, hkey, hlt, hle⟩⟩)
      · exact .inr ⟨h0, hkey, hlt, hle⟩
  · rintro (h | ⟨h0, hkey, hlt, hle⟩)
    · exact h.mono fun y hy => List.mem_append_left _ hy
    · exact .inr ⟨h0, (hlt.trans_le hle).le, .inr ⟨e, by simp, hkey, hlt, hle⟩⟩

end Snoc

namespace Worker.Tally

variable {ttl : Bool} {w : WorkerConfig}

/-- A compaction worker has deleted the garbage of the versions and index values `es`, and
remembers the newest version up to `C` of the key it saw last. -/
structure Swept (C : ℕ) (es : List KeyValue) (t : Tally) : Prop where
  deleted : ∀ key, key ∈ t.deleted ↔
    ∃ x ∈ es, key = encodeObjectKey x.key x.revision ∧ Garbage C es x
  seen : t.prevUserKey = [] ∧ t.prevRevision = 0 ∨
    ∃ x ∈ es, x.key = t.prevUserKey ∧ x.revision = t.prevRevision ∧ x.revision ≤ C
  newest : ∀ x ∈ es, 0 < x.revision → x.revision ≤ C →
    x.key < t.prevUserKey ∨ x.key = t.prevUserKey ∧ x.revision ≤ t.prevRevision

section Step

variable {C : ℕ} {es : List KeyValue} {e : KeyValue} {t : Tally}

/-- What the worker does with a pair that is not expired. -/
theorem add_live (he : e.revision < 2 ^ 64)
    (hlive : expired ttl w e.key e.revision e.value = false) :
    t.add ttl w (pairOf e) =
      t.pair w (encodeObjectKey e.key e.revision) e.value e.key e.revision := by
  simp only [add, pairOf, decode_encodeObjectKey e.key he, hlive, Bool.false_eq_true, if_false]

section

variable (h : Swept C es t)

include h

theorem Swept.pass (habove : C < e.revision) : Swept C (es ++ [e]) t := by
  have hsame (x : KeyValue) : Garbage C (es ++ [e]) x ↔ Garbage C es x := by
    rw [garbage_snoc, or_iff_left]
    omega
  refine ⟨fun key => ?_, h.seen.imp_right ?_, fun x hx h0 hC => ?_⟩
  · rw [h.deleted]
    constructor
    · rintro ⟨x, hx, hkey, hg⟩
      exact ⟨x, List.mem_append_left _ hx, hkey, (hsame x).mpr hg⟩
    · rintro ⟨x, hx, hkey, hg⟩
      rcases List.mem_snoc.mp hx with hx | rfl
      · exact ⟨x, hx, hkey, (hsame x).mp hg⟩
      · rcases hg with ⟨h0, -⟩ | ⟨-, hC, -⟩ <;> omega
  · rintro ⟨x, hx, hrest⟩
    exact ⟨x, List.mem_append_left _ hx, hrest⟩
  · rcases List.mem_snoc.mp hx with hx | rfl
    · exact h.newest x hx h0 hC
    · omega

/-- The key seen last does not lie behind the next pair. -/
theorem Swept.prevUserKey_le (hlt : ∀ x ∈ es, Before x e) : t.prevUserKey ≤ e.key := by
  rcases h.seen with ⟨hkey, -⟩ | ⟨x, hx, hkey, -⟩
  · rw [hkey]
    exact not_lt.mp (List.not_lt_nil _)
  · rw [← hkey]
    rcases hlt x hx with h' | ⟨h', -⟩
    · exact h'.le
    · exact h'.le

/-- An index value comes before the versions of its key, so the pair seen last is of another
key. -/
theorem Swept.prev_index (hlt : ∀ x ∈ es, Before x e)
    (h0 : e.revision = 0) : (t.prev w e.key).deleted = t.deleted := by
  unfold prev
  split
  · rfl
  · next hkey =>
    rw [if_neg]
    rintro ⟨-, hpos⟩
    rcases h.seen with ⟨-, hrev⟩ | ⟨x, hx, hxkey, hxrev, -⟩
    · omega
    · rcases hlt x hx with h' | ⟨-, h'⟩
      · rw [hxkey, ← not_not.mp hkey] at h'
        exact lt_irrefl _ h'
      · omega

theorem Swept.index (hw : w.compact = true) (hC : w.revision = C)
    (hlt : ∀ x ∈ es, Before x e) (h0 : e.revision = 0) (hval : e.value ≠ tombStoneBytes) :
    Swept C (es ++ [e]) (t.pair w (encodeObjectKey e.key e.revision) e.value e.key e.revision) := by
  have hsame (x : KeyValue) : Garbage C (es ++ [e]) x ↔ Garbage C es x := by
    rw [garbage_snoc, or_iff_left]
    omega
  have hself : Garbage C es e ↔ e.value.length = 9 ∧ Bytes.toNatBE (e.value.take 8) ≤ C := by
    unfold Garbage
    simp [h0]
  have hdel := h.prev_index hlt h0 (w := w)
  have hseen := seen_prev w e.key t
  have hkeep : (t.prev w e.key).tombstone w (encodeObjectKey e.key e.revision) e.value =
      t.prev w e.key := if_neg fun h' => hval h'.2
  have hmem (key : Bytes) : (∃ x ∈ es ++ [e], key = encodeObjectKey x.key x.revision ∧
      Garbage C (es ++ [e]) x) ↔ key ∈ t.deleted ∨
        key = encodeObjectKey e.key e.revision ∧ Garbage C es e := by
    rw [h.deleted]
    constructor
    · rintro ⟨x, hx, hkey, hg⟩
      rcases List.mem_snoc.mp hx with hx | rfl
      · exact .inl ⟨x, hx, hkey, (hsame x).mp hg⟩
      · exact .inr ⟨hkey, (hsame x).mp hg⟩
    · rintro (⟨x, hx, hkey, hg⟩ | ⟨hkey, hg⟩)
      · exact ⟨x, List.mem_append_left _ hx, hkey, (hsame x).mpr hg⟩
      · exact ⟨e, by simp, hkey, (hsame e).mpr hg⟩
  -- the versions up to `C` that came before are of smaller keys
  have hbehind (x : KeyValue) (hx : x ∈ es ++ [e]) (hpos : 0 < x.revision) : x.key < e.key := by
    rcases List.mem_snoc.mp hx with hx | rfl
    · rcases hlt x hx with h' | ⟨-, h'⟩
      · exact h'
      · omega
    · omega
  have hsee (u : Tally) (hu : ∀ key, key ∈ u.deleted ↔ key ∈ t.deleted ∨
      key = encodeObjectKey e.key e.revision ∧ Garbage C es e) :
      Swept C (es ++ [e]) (u.see e.key e.revision e.value) := by
    refine ⟨fun key => (hu key).trans (hmem key).symm,
      .inr ⟨e, by simp, rfl, rfl, by omega⟩, fun x hx hpos _ => .inl (hbehind x hx hpos)⟩
  unfold pair
  rw [if_neg (by omega), hkeep]
  unfold current
  split
  · next hflag =>
    split
    · next hnew =>
      have hnot : ¬ Garbage C es e := fun hg => by
        have := (hself.mp hg).2
        omega
      obtain ⟨hk, hr, -⟩ : (t.prev w e.key).prevUserKey = t.prevUserKey ∧
          (t.prev w e.key).prevRevision = t.prevRevision ∧
          (t.prev w e.key).prevValue = t.prevValue := by simpa [Tally.seen] using hseen
      refine ⟨fun key => ?_, ?_, fun x hx hpos hle => ?_⟩
      · rw [hmem, hdel]
        simp [hnot]
      · rw [hk, hr]
        rcases h.seen with hseen | ⟨x, hx, hrest⟩
        · exact .inl hseen
        · exact .inr ⟨x, List.mem_append_left _ hx, hrest⟩
      · rw [hk, hr]
        rcases List.mem_snoc.mp hx with hx | rfl
        · exact h.newest x hx hpos hle
        · omega
    · next hold =>
      have hg : Garbage C es e := hself.mpr ⟨hflag.2.2, by omega⟩
      apply hsee
      intro key
      simp [delete, hdel, hg]
  · next hflag =>
    have hnot : ¬ Garbage C es e := fun hg => hflag ⟨hw, h0, (hself.mp hg).1⟩
    apply hsee
    intro key
    simp [hdel, hnot]

/-- A version up to `C` makes the one before it garbage. -/
theorem Swept.prev_version (hw : w.compact = true)
    (hlt : ∀ x ∈ es, Before x e) (hC : e.revision ≤ C) (key : Bytes) :
    key ∈ (t.prev w e.key).deleted ↔
      ∃ x ∈ es, key = encodeObjectKey x.key x.revision ∧ Garbage C (es ++ [e]) x := by
  simp only [garbage_snoc, and_or_left, exists_or, ← h.deleted]
  have hle := h.prevUserKey_le hlt
  by_cases hk : e.key = t.prevUserKey
  · by_cases hpos : 0 < t.prevRevision
    · have hprev : (t.prev w e.key).deleted =
          t.deleted ++ [encodeObjectKey t.prevUserKey t.prevRevision] := by
        simp [prev, hk, hw, hpos, delete]
      obtain ⟨y, hy, hykey, hyrev, hyC⟩ := h.seen.resolve_left fun h' => by omega
      rw [hprev, List.mem_append, List.mem_singleton]
      constructor
      · rintro (hmem | rfl)
        · exact .inl hmem
        · refine .inr ⟨y, hy, by rw [hykey, hyrev], by omega, by rw [hk, hykey], ?_, hC⟩
          rcases hlt y hy with h' | ⟨-, h'⟩
          · rw [hykey, ← hk] at h'
            exact absurd h' (lt_irrefl _)
          · exact h'
      · rintro (hmem | ⟨x, hx, hkey, h0, hxkey, hlt', -⟩)
        · exact .inl hmem
        · rcases h.newest x hx h0 (by omega) with h' | ⟨h', hxle⟩
          · rw [← hk, hxkey] at h'
            exact absurd h' (lt_irrefl _)
          · rcases hxle.eq_or_lt with heq | hxlt
            · right
              rw [hkey, h', heq]
            · left
              rw [h.deleted]
              exact ⟨x, hx, hkey,
                .inr ⟨h0, by omega, .inr ⟨y, hy, by rw [hykey, h'], by omega, hyC⟩⟩⟩
    · have hprev : (t.prev w e.key).deleted = t.deleted := by
        simp [prev, hk, hpos]
      rw [hprev, iff_self_or]
      rintro ⟨x, hx, -, h0, hxkey, hlt', -⟩
      rcases h.newest x hx h0 (by omega) with h' | ⟨-, h'⟩
      · rw [← hk, hxkey] at h'
        exact absurd h' (lt_irrefl _)
      · omega
  · have hprev : (t.prev w e.key).deleted = t.deleted := by
      simp [prev, hk]
    rw [hprev, iff_self_or]
    rintro ⟨x, hx, -, h0, hxkey, hlt', -⟩
    rcases h.newest x hx h0 (by omega) with h' | ⟨h', -⟩
    · rw [← hxkey] at h'
      exact absurd h' (not_lt.mpr hle)
    · exact absurd (hxkey.trans h') hk

theorem Swept.version (hw : w.compact = true) (hC : w.revision = C)
    (hlt : ∀ x ∈ es, Before x e) (h0 : 0 < e.revision) (hle : e.revision ≤ C) :
    Swept C (es ++ [e]) (t.pair w (encodeObjectKey e.key e.revision) e.value e.key e.revision) := by
  have hself : Garbage C (es ++ [e]) e ↔ e.value = tombStoneBytes := by
    constructor
    · rintro (⟨h', -⟩ | ⟨-, -, h' | ⟨y, hy, hkey, hlt', -⟩⟩)
      · omega
      · exact h'
      · rcases List.mem_snoc.mp hy with hy | rfl
        · rcases hlt y hy with h' | ⟨-, h'⟩
          · rw [hkey] at h'
            exact absurd h' (lt_irrefl _)
          · omega
        · exact absurd hlt' (lt_irrefl _)
    · intro h'
      exact .inr ⟨h0, hle, .inl h'⟩
  have hpair : t.pair w (encodeObjectKey e.key e.revision) e.value e.key e.revision =
      ((t.prev w e.key).tombstone w (encodeObjectKey e.key e.revision) e.value).see
        e.key e.revision e.value := by
    unfold pair current
    rw [if_neg (by omega), if_neg (by omega)]
  rw [hpair]
  refine ⟨fun key => ?_, .inr ⟨e, by simp, rfl, rfl, hle⟩, fun x hx hpos _ => ?_⟩
  · have hprev := h.prev_version hw hlt hle key
    have hmem : key ∈ ((t.prev w e.key).tombstone w (encodeObjectKey e.key e.revision)
        e.value).deleted ↔ key ∈ (t.prev w e.key).deleted ∨
          key = encodeObjectKey e.key e.revision ∧ e.value = tombStoneBytes := by
      unfold tombstone
      split
      · next h' => simp [delete, h'.2]
      · next h' =>
        have hval : e.value ≠ tombStoneBytes := fun hv => h' ⟨hw, hv⟩
        simp [hval]
    refine hmem.trans ?_
    rw [hprev, ← hself]
    constructor
    · rintro (⟨x, hx, hrest⟩ | hrest)
      · exact ⟨x, List.mem_append_left _ hx, hrest⟩
      · exact ⟨e, by simp, hrest⟩
    · rintro ⟨x, hx, hrest⟩
      rcases List.mem_snoc.mp hx with hx | rfl
      · exact .inl ⟨x, hx, hrest⟩
      · exact .inr hrest
  · rcases List.mem_snoc.mp hx with hx | rfl
    · rcases hlt x hx with h' | ⟨h', hlt'⟩
      · exact .inl h'
      · exact .inr ⟨h', hlt'.le⟩
    · exact .inr ⟨rfl, le_rfl⟩

end

variable (ttl) in
theorem swept_addAll (hw : w.compact = true) (hsorted : es.Pairwise Before)
    (hes : ∀ x ∈ es, x.revision < 2 ^ 64 ∧ (x.revision = 0 → x.value ≠ tombStoneBytes) ∧
      expired ttl w x.key x.revision x.value = false) :
    Swept w.revision es (start.addAll ttl w (es.map pairOf)) := by
  induction es using List.reverseRecOn with
  | nil => exact ⟨fun key => by simp [addAll, start], .inl ⟨rfl, rfl⟩, by simp⟩
  | append_singleton es e ih =>
    obtain ⟨hsorted, -, hbefore⟩ := List.pairwise_append.mp hsorted
    have hlt (x : KeyValue) (hx : x ∈ es) : Before x e := hbefore x hx e List.mem_cons_self
    obtain ⟨hrev, hval, hlive⟩ := hes e (by simp)
    have h := ih hsorted fun x hx => hes x (List.mem_append_left _ hx)
    have hsnoc : start.addAll ttl w ((es ++ [e]).map pairOf) =
        (start.addAll ttl w (es.map pairOf)).add ttl w (pairOf e) := by simp [addAll]
    rw [hsnoc, add_live hrev hlive]
    by_cases habove : w.revision < e.revision
    · have hskip : (start.addAll ttl w (es.map pairOf)).pair w (encodeObjectKey e.key e.revision)
          e.value e.key e.revision = start.addAll ttl w (es.map pairOf) := if_pos habove
      rw [hskip]
      exact h.pass habove
    · rcases Nat.eq_zero_or_pos e.revision with h0 | h0
      · exact h.index hw rfl hlt h0 (hval h0)
      · exact h.version hw rfl hlt h0 (by omega)

end Step
end Worker.Tally

/-- The store after deletions. -/
def erased (st : Store) (keys : List Bytes) : Store := keys.foldl SortedMap.erase st

theorem get_erased (st : Store) (keys : List Bytes) (key : Bytes) :
    (erased st keys).get key = if key ∈ keys then none else st.get key := by
  induction keys generalizing st with
  | nil => rfl
  | cons k keys ih =>
    change (erased (st.erase k) keys).get key = _
    rw [ih, SortedMap.get_erase]
    by_cases hk : key = k <;> simp [hk]

theorem get_of_get_erased {st : Store} {keys : List Bytes} {key val : Bytes}
    (h : (erased st keys).get key = some val) : key ∉ keys ∧ st.get key = some val := by
  rw [get_erased] at h
  split at h
  · cases h
  · next hnot => exact ⟨hnot, h⟩

namespace Worker

/-- A worker that compacts the keys of `[lo, hi)` at `C` and finds none of them expired. -/
structure Compacts (ttl : Bool) (st : Store) (C : ℕ) (lo hi : Bytes) (w : WorkerConfig) :
    Prop where
  compact : w.compact = true
  revision : w.revision = C
  partition : w.partition = ⟨lo, hi⟩
  live : ∀ k r v, r < 2 ^ 64 → st.get (encodeObjectKey k r) = some v → expired ttl w k r v = false

/-- Of a user key are left its index unless that marks a deletion up to `C`, the versions
above `C`, and the newest one up to `C` unless it is a tombstone. -/
structure Collected (C : ℕ) (st st' : Store) (k : Bytes) : Prop where
  index : ∀ val, st'.get (encodeRevisionKey k) = some val ↔
    st.get (encodeRevisionKey k) = some val ∧ ¬ ∃ q ≤ C, index st k = some (q, true)
  objects : ∀ r v, objects st' k r v ↔ objects st k r v ∧
    (C < r ∨ Mvcc.Newest (objects st k) C r v ∧ v ≠ tombStoneBytes)

section

variable {ttl : Bool} {st st' : Store} {C : ℕ} {lo hi : Bytes} {w : WorkerConfig}

theorem Compacts.mono (h : Compacts ttl st C lo hi w)
    (hsub : ∀ key val, st'.get key = some val → st.get key = some val) :
    Compacts ttl st' C lo hi w :=
  ⟨h.compact, h.revision, h.partition, fun k r v hr hget => h.live k r v hr (hsub _ _ hget)⟩

variable (hst : Readable st)

include hst

variable (hshaped : ∀ k, Plain k → Shaped st k)

include hshaped

theorem swept_tally (hle : lo ≤ hi) (hw : Compacts ttl st C lo hi w) :
    Tally.Swept C (stored st lo hi) (tally ttl w st) := by
  unfold tally
  rw [hw.partition, Tally.addAll_versionOf, ← hw.revision]
  refine Tally.swept_addAll ttl hw.compact (stored_sorted hst hle) fun x hx => ?_
  obtain ⟨hr, hget, -⟩ := (mem_stored hle).mp hx
  refine ⟨hr, fun h0 => ?_, hw.live _ _ _ hr hget⟩
  rw [h0] at hget
  obtain ⟨q, d, -, hval⟩ := hshaped x.key (plain_stored hst hle hx) _ hget
  rw [hval]
  exact indexValue_ne_tombStone q d

theorem wellFormed (hle : lo ≤ hi) (hw : Compacts ttl st C lo hi w) : WellFormed ttl w st := by
  intro e he
  rw [hw.partition, items_eq_range st hle] at he
  obtain ⟨hget, -⟩ := SortedMap.mem_range.mp he
  unfold Malformed
  rcases hst e.1 e.2 hget with ⟨k, r, hk, hr, hkey⟩ | hbad
  · rw [hkey, decode_encodeObjectKey k hr]
    rintro ⟨-, rfl, hshort⟩
    rw [hkey] at hget
    obtain ⟨q, d, -, hval⟩ := hshaped k hk _ hget
    rw [hval] at hshort
    simp [indexValue] at hshort
  · rw [hbad]
    exact not_false

/-- Which internal keys of a user key of the range are deleted. -/
theorem mem_deleted (hle : lo ≤ hi)
    (hw : Compacts ttl st C lo hi w) {k : Bytes} {r : ℕ} {v : Bytes} (hr : r < 2 ^ 64)
    (hget : st.get (encodeObjectKey k r) = some v) (hlo : lo ≤ encodeObjectKey k r)
    (hhi : encodeObjectKey k r < hi) :
    encodeObjectKey k r ∈ (tally ttl w st).deleted ↔ Garbage C (stored st lo hi) ⟨k, v, r⟩ := by
  rw [(swept_tally hst hshaped hle hw).deleted]
  constructor
  · rintro ⟨x, hx, hkey, hg⟩
    obtain ⟨hxr, hxget, -⟩ := (mem_stored hle).mp hx
    obtain ⟨rfl, rfl⟩ := encodeObjectKey_injective hr hxr hkey
    obtain rfl := Option.some.inj (hget.symm.trans hxget)
    exact hg
  · intro hg
    exact ⟨⟨k, v, r⟩, (mem_stored hle).mpr ⟨hr, hget, hlo, hhi⟩, rfl, hg⟩

theorem collected (hle : lo ≤ hi) (hw : Compacts ttl st C lo hi w) {k : Bytes} (hk : Plain k)
    (hin : ∀ r < 2 ^ 64, lo ≤ encodeObjectKey k r ∧ encodeObjectKey k r < hi) :
    Collected C st (erased st (tally ttl w st).deleted) k := by
  have hdel {r : ℕ} {v : Bytes} (hr : r < 2 ^ 64) (hget : st.get (encodeObjectKey k r) = some v) :=
    mem_deleted hst hshaped hle hw hr hget (hin r hr).1 (hin r hr).2
  have hleft (r : ℕ) (v : Bytes) (hr : r < 2 ^ 64) :
      (erased st (tally ttl w st).deleted).get (encodeObjectKey k r) = some v ↔
        st.get (encodeObjectKey k r) = some v ∧ ¬ Garbage C (stored st lo hi) ⟨k, v, r⟩ := by
    rw [get_erased]
    constructor
    · intro h
      split at h
      · cases h
      · next hnot => exact ⟨h, fun hg => hnot ((hdel hr h).mpr hg)⟩
    · rintro ⟨hget, hg⟩
      rw [if_neg fun hmem => hg ((hdel hr hget).mp hmem)]
      exact hget
  constructor
  · intro val
    refine (hleft 0 val (by decide)).trans (and_congr_right fun hget => not_congr ?_)
    obtain ⟨q, d, hq, rfl⟩ := hshaped k hk val hget
    rw [index_of_get hget hq]
    have hnat : Bytes.toNatBE ((indexValue q d).take 8) = q := by
      rw [indexValue, List.take_left' (length_uint64ToBytes q), toNat_uint64ToBytes hq]
    unfold Garbage
    rw [hnat]
    cases d with
    | true => simp [indexValue]
    | false => simp [indexValue]
  · intro r v
    unfold objects
    rw [and_assoc, and_assoc]
    refine and_congr_right fun h0 => and_congr_right fun hr => ?_
    rw [hleft r v hr]
    refine and_congr_right fun hget => ?_
    -- a newer version in the range is a newer version of the key
    have hnewer : (∃ y ∈ stored st lo hi, y.key = k ∧ r < y.revision ∧ y.revision ≤ C) ↔
        ∃ r' v', KubeBrain.objects st k r' v' ∧ r < r' ∧ r' ≤ C := by
      constructor
      · rintro ⟨y, hy, rfl, hlt, hC⟩
        obtain ⟨hyr, hyget, -⟩ := (mem_stored hle).mp hy
        exact ⟨y.revision, y.value, ⟨by omega, hyr, hyget⟩, hlt, hC⟩
      · rintro ⟨r', v', ⟨-, hr', hget'⟩, hlt, hC⟩
        exact ⟨⟨k, v', r'⟩, (mem_stored hle).mpr ⟨hr', hget', hin r' hr'⟩, rfl, hlt, hC⟩
    unfold Garbage
    simp only [hnewer, h0, h0.ne', false_and, false_or, true_and]
    constructor
    · intro hg
      by_cases hC : C < r
      · exact .inl hC
      · refine .inr ⟨⟨⟨h0, hr, hget⟩, by omega, fun r' v' h' hle' => ?_⟩, fun hv => ?_⟩
        · by_contra hlt
          exact hg ⟨by omega, .inr ⟨r', v', h', by omega, hle'⟩⟩
        · exact hg ⟨by omega, .inl hv⟩
    · rintro (hC | ⟨⟨-, hC, hmax⟩, hv⟩) ⟨hC', hg⟩
      · omega
      · rcases hg with hg | ⟨r', v', h', hlt, hle'⟩
        · exact hv hg
        · have := hmax r' v' h' hle'
          omega

theorem deleted_again (hle : lo ≤ hi)
    (hw : Compacts ttl st C lo hi w) {w' : WorkerConfig} (hw' : Compacts ttl st C lo hi w') :
    (tally ttl w' (erased st (tally ttl w st).deleted)).deleted = [] := by
  set st' := erased st (tally ttl w st).deleted with hst'
  have hsub (key val : Bytes) (h : st'.get key = some val) : st.get key = some val :=
    (get_of_get_erased h).2
  have hread : Readable st' := fun key val h => hst key val (hsub key val h)
  have hshaped' : ∀ k, Plain k → Shaped st' k := fun k hk val h => hshaped k hk val (hsub _ _ h)
  rw [List.eq_nil_iff_forall_not_mem]
  intro key hkey
  obtain ⟨x, hx, -, hg⟩ := ((swept_tally hread hshaped' hle (hw'.mono hsub)).deleted key).mp hkey
  obtain ⟨hr, hget, hlo, hhi⟩ := (mem_stored hle).mp hx
  obtain ⟨hleft, hget₀⟩ := get_of_get_erased hget
  refine hleft ((mem_deleted hst hshaped hle hw hr hget₀ hlo hhi).mpr (hg.mono fun y hy => ?_))
  obtain ⟨hyr, hyget, hyin⟩ := (mem_stored hle).mp hy
  exact (mem_stored hle).mpr ⟨hyr, hsub _ _ hyget, hyin⟩

end

/-- A compaction worker leaves of every user key of its range what is to be left, and deletes
nothing when it runs again. -/
theorem compact_collects_garbage (cfg : Config) (f : Frozen) {C : ℕ} {lo hi : Bytes}
    {w w' : WorkerConfig} (hst : Readable f.store) (hagree : ∀ k, Plain k → Agrees f.store k)
    (hle : lo ≤ hi) (hw : Compacts cfg.supportTTL f.store C lo hi w)
    (hw' : Compacts cfg.supportTTL f.store C lo hi w') :
    ∃ n n' s s',
      f.call cfg (runWithBackoffRetry cfg.supportTTL w .empty) = some ((.empty, .ok n), s) ∧
      (∀ k, Plain k → (∀ r < 2 ^ 64, lo ≤ encodeObjectKey k r ∧ encodeObjectKey k r < hi) →
        Collected C f.store (erased f.store s.deleted) k) ∧
      Frozen.call cfg { f with store := erased f.store s.deleted }
        (runWithBackoffRetry cfg.supportTTL w' .empty) = some ((.empty, .ok n'), s') ∧
      s'.deleted = [] := by
  have hshaped (k : Bytes) (hk : Plain k) : Shaped f.store k := (hagree k hk).shaped
  obtain ⟨sent, heval, -⟩ := eval_runWithBackoffRetry cfg f 2 .empty trivial
    (wellFormed hst hshaped hle hw) .fresh
  have hsub (key val : Bytes)
    (h : (erased f.store (tally cfg.supportTTL w f.store).deleted).get key =
      some val) : f.store.get key = some val := (get_of_get_erased h).2
  obtain ⟨sent', heval', -⟩ := eval_runWithBackoffRetry cfg
    { f with store := erased f.store (tally cfg.supportTTL w f.store).deleted } 2 .empty trivial
    (wellFormed (fun key val h => hst key val (hsub key val h))
      (fun k hk val h => hshaped k hk val (hsub _ _ h)) hle (hw'.mono hsub)) .fresh
  refine ⟨_, _, _, _, heval, fun k hk hin => ?_, heval', ?_⟩
  · exact collected hst hshaped hle hw hk hin
  · exact deleted_again hst hshaped hle hw hw'

/-- The compact record, a user key with two versions and one that was deleted. -/
def liveAndDeleted : Store :=
  ⟨[(getCompactKey [], uint64ToBytes 1), (encodeObjectKey [101] 0, indexValue 2 false),
    (encodeObjectKey [101] 1, [7]), (encodeObjectKey [101] 2, [8]),
    (encodeObjectKey [102] 0, indexValue 4 true), (encodeObjectKey [102] 3, [9]),
    (encodeObjectKey [102] 4, tombStoneBytes)], by decide⟩

theorem mem_liveAndDeleted {key v : Bytes} (h : liveAndDeleted.get key = some v) :
    key = getCompactKey [] ∨ ∃ k r, key = encodeObjectKey k r ∧
      (k = [101] ∧ r ≤ 2 ∨ k = [102] ∧ r ≤ 4) := by
  have hmem : (key, v) ∈ liveAndDeleted.entries := SortedMap.mem_entries.mpr h
  simp only [liveAndDeleted, List.mem_cons, Prod.mk.injEq, List.not_mem_nil, or_false] at hmem
  rcases hmem with ⟨h, -⟩ | ⟨h, -⟩ | ⟨h, -⟩ | ⟨h, -⟩ | ⟨h, -⟩ | ⟨h, -⟩ | ⟨h, -⟩
  · exact .inl h
  · exact .inr ⟨_, _, h, .inl ⟨rfl, by decide⟩⟩
  · exact .inr ⟨_, _, h, .inl ⟨rfl, by decide⟩⟩
  · exact .inr ⟨_, _, h, .inl ⟨rfl, by decide⟩⟩
  · exact .inr ⟨_, _, h, .inr ⟨rfl, by decide⟩⟩
  · exact .inr ⟨_, _, h, .inr ⟨rfl, by decide⟩⟩
  · exact .inr ⟨_, _, h, .inr ⟨rfl, by decide⟩⟩

theorem readable_liveAndDeleted : Readable liveAndDeleted := by
  intro key v h
  rcases mem_liveAndDeleted h with rfl | ⟨k, r, rfl, ⟨rfl, hr⟩ | ⟨rfl, hr⟩⟩
  · exact .inr (by decide)
  · exact .inl ⟨[101], r, by decide +kernel, by omega, rfl⟩
  · exact .inl ⟨[102], r, by decide +kernel, by omega, rfl⟩

theorem revision_liveAndDeleted {k v : Bytes} {r : ℕ} (hr : r < 2 ^ 64)
    (h : liveAndDeleted.get (encodeObjectKey k r) = some v) :
    k = [101] ∧ r ≤ 2 ∨ k = [102] ∧ r ≤ 4 := by
  rcases mem_liveAndDeleted h with heq | ⟨k', r', heq, hcase⟩
  · have hdec := decode_encodeObjectKey k hr
    rw [heq] at hdec
    have hbad : decode (getCompactKey []) = .badMagic := by decide
    rw [hbad] at hdec
    cases hdec
  · obtain ⟨rfl, rfl⟩ := encodeObjectKey_injective hr (by omega) heq
    exact hcase

theorem agrees_liveAndDeleted (k : Bytes) : Agrees liveAndDeleted k := by
  by_cases h₁ : k = [101]
  · subst h₁
    have hv : objects liveAndDeleted [101] 2 [8] := ⟨by decide, by decide, by decide⟩
    refine .of_index (d := false) (by decide) hv (by decide) fun r v hr => ?_
    have := revision_liveAndDeleted hr.2.1 hr.2.2
    simpa using this
  · by_cases h₂ : k = [102]
    · subst h₂
      have hv : objects liveAndDeleted [102] 4 tombStoneBytes :=
        ⟨by decide, by decide, by decide⟩
      refine .of_index (d := true) (by decide) hv (by decide) fun r v hr => ?_
      have := revision_liveAndDeleted hr.2.1 hr.2.2
      simpa using this
    · refine .of_absent fun r v hr hget => ?_
      rcases revision_liveAndDeleted hr hget with ⟨h, -⟩ | ⟨h, -⟩
      · exact h₁ h
      · exact h₂ h

/-- A compaction at revision 4 of the user keys from `d` up to `g`. -/
def compactAtFour : WorkerConfig :=
  ⟨0, ⟨encodeRevisionKey [100], encodeRevisionKey [103]⟩, 1, 4, true, 0⟩

theorem compact_collects_garbage_atFour :
    ∃ s, Frozen.call ⟨true, [47], [], 0, false⟩ ⟨liveAndDeleted, fun _ _ => [], 1, 4, 0⟩
        (runWithBackoffRetry false compactAtFour .empty) = some ((.empty, .ok 1), s) ∧
      s.deleted = [encodeObjectKey [101] 1, encodeObjectKey [102] 0, encodeObjectKey [102] 3,
        encodeObjectKey [102] 4] ∧
      Collected 4 liveAndDeleted (erased liveAndDeleted s.deleted) [101] ∧
      Collected 4 liveAndDeleted (erased liveAndDeleted s.deleted) [102] := by
  have hw : Compacts false liveAndDeleted 4 (encodeRevisionKey [100]) (encodeRevisionKey [103])
      compactAtFour := ⟨rfl, rfl, rfl, fun k r v _ _ => by simp [expired, compactAtFour]⟩
  obtain ⟨n, n', s, s', hrun, hcol, -⟩ := compact_collects_garbage ⟨true, [47], [], 0, false⟩
    ⟨liveAndDeleted, fun _ _ => [], 1, 4, 0⟩ readable_liveAndDeleted
    (fun k _ => agrees_liveAndDeleted k) (by decide +kernel) hw hw
  have heval : (Frozen.call ⟨true, [47], [], 0, false⟩ ⟨liveAndDeleted, fun _ _ => [], 1, 4, 0⟩
      (runWithBackoffRetry false compactAtFour .empty)).map (fun x => (x.1.2, x.2.deleted)) =
      some (.ok 1, [encodeObjectKey [101] 1, encodeObjectKey [102] 0, encodeObjectKey [102] 3,
        encodeObjectKey [102] 4]) := by decide +kernel
  have hin (k : Bytes) (hk : Plain k) (h : [100] ≤ k ∧ k < [103]) (r : ℕ) (hr : r < 2 ^ 64) :
      encodeRevisionKey [100] ≤ encodeObjectKey k r ∧
        encodeObjectKey k r < encodeRevisionKey [103] :=
    (mem_interval (by decide +kernel) (by decide +kernel) hk hr).mpr h
  rw [hrun] at heval
  obtain ⟨hn, hdel⟩ := Prod.mk.inj (Option.some.inj heval)
  refine ⟨s, ?_, hdel, hcol _ (by decide +kernel) (hin _ (by decide +kernel) (by decide +kernel)),
    hcol _ (by decide +kernel) (hin _ (by decide +kernel) (by decide +kernel))⟩
  rw [hrun]
  dsimp only at hn
  rw [hn]

end Worker
end KubeBrain

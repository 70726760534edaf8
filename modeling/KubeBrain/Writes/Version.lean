import KubeBrain.Backend.Events
import KubeBrain.Storage.Effects

/-! Versions of user keys, and the batches that write them. -/
namespace KubeBrain

open Coder

namespace Coder

theorem length_indexValue (r : ℕ) (d : Bool) : (indexValue r d).length = if d then 9 else 8 := by
  cases d <;> simp [indexValue]

theorem take_indexValue (r : ℕ) (d : Bool) : (indexValue r d).take 8 = uint64ToBytes r := by
  rw [indexValue, List.take_left' (length_uint64ToBytes r)]

theorem toNat_take_indexValue {r : ℕ} (hr : r < 2 ^ 64) (d : Bool) :
    Bytes.toNatBE ((indexValue r d).take 8) = r := by
  rw [take_indexValue, toNat_uint64ToBytes hr]

theorem parseRevision_indexValue {r : ℕ} (hr : r < 2 ^ 64) (d : Bool) :
    parseRevision (indexValue r d) = .ok r d := by
  unfold parseRevision
  rw [length_indexValue, toNat_take_indexValue hr]
  cases d <;> simp

theorem indexValue_injective {r r' : ℕ} {d d' : Bool} (hr : r < 2 ^ 64) (hr' : r' < 2 ^ 64)
    (h : indexValue r d = indexValue r' d') : r = r' ∧ d = d' := by
  have hp := parseRevision_indexValue hr d
  rw [h, parseRevision_indexValue hr' d'] at hp
  injection hp with h₁ h₂
  exact ⟨h₁.symm, h₂.symm⟩

/-- A revision key never holds the tombstone: its ninth byte is zero. -/
theorem indexValue_ne_tombStone (r : ℕ) (d : Bool) : indexValue r d ≠ tombStoneBytes := by
  intro h
  have hlen := congrArg List.length h
  rw [length_indexValue] at hlen
  cases d with
  | false => exact absurd hlen (by decide)
  | true =>
    have hlast := congrArg (fun l : Bytes => l[8]?) h
    simp only [indexValue, if_true] at hlast
    rw [List.getElem?_append_right (by simp)] at hlast
    simp only [length_uint64ToBytes] at hlast
    exact absurd hlast (by decide)

/-- Object keys with a revision are no revision keys. -/
theorem encodeObjectKey_ne_encodeRevisionKey {k k' : Bytes} {r : ℕ} (h0 : 0 < r)
    (hr : r < 2 ^ 64) : encodeObjectKey k r ≠ encodeRevisionKey k' := by
  intro h
  have := (encodeObjectKey_injective hr (by decide) h).2
  omega

theorem encodeRevisionKey_injective {k k' : Bytes}
    (h : encodeRevisionKey k = encodeRevisionKey k') : k = k' :=
  (encodeObjectKey_injective (by decide) (by decide) h).1

end Coder

/-- A version of a user key: its value, and whether the revision key got the deletion flag. -/
structure Version where
  key : Bytes
  rev : ℕ
  val : Bytes
  deleted : Bool
  deriving DecidableEq

/-- The user key and the revision that a batch writes. -/
def Writer.target : Writer → Option (Bytes × ℕ)
  | create k r | update k r _ | delete k r _ | overwrite k r _ => some (k, r)
  | record _ => none

/-- The batches of the write path, and the version that each writes. -/
inductive Wrote : Batch → Version → Prop where
  | create (k : Bytes) (r : ℕ) (val : Bytes) (ttl : ℤ) :
    Wrote ⟨.create k r, [.putIfNotExist (encodeRevisionKey k) (uint64ToBytes r) ttl,
      .put (encodeObjectKey k r) val ttl]⟩ ⟨k, r, val, false⟩
  | recreate (k : Bytes) (r : ℕ) (val : Bytes) (ttl : ℤ) (old : Bytes) (p : ℕ)
    (hold : parseRevision old = .ok p true) (hlt : p < r) :
    Wrote ⟨.create k r, [.cas (encodeRevisionKey k) (uint64ToBytes r) old ttl,
      .put (encodeObjectKey k r) val ttl]⟩ ⟨k, r, val, false⟩
  | update (k : Bytes) (r e : ℕ) (val : Bytes) (he : e ≤ r) :
    Wrote ⟨.update k r e, [.cas (encodeRevisionKey k) (uint64ToBytes r) (uint64ToBytes e) 0,
      .put (encodeObjectKey k r) val 0]⟩ ⟨k, r, val, false⟩
  | delete (k : Bytes) (r e : ℕ) (he : e ≤ r) :
    Wrote ⟨.delete k r e, [.cas (encodeRevisionKey k) (uint64ToBytes r ++ [0]) (uint64ToBytes e) 0,
      .put (encodeObjectKey k r) tombStoneBytes 0]⟩ ⟨k, r, tombStoneBytes, true⟩
  | overwrite (k : Bytes) (r o : ℕ) (val : Bytes) (ho : o ≤ r) :
    Wrote ⟨.overwrite k r o, overwriteBatch k val r o⟩ ⟨k, r, val, decide (val = tombStoneBytes)⟩

def Batch.version (b : Batch) : Option Version :=
  match b.writer, b.ops with
  | .create k r, [_, .put _ val _] => some ⟨k, r, val, false⟩
  | .update k r _, [_, .put _ val _] => some ⟨k, r, val, false⟩
  | .delete k r _, [_, .put _ val _] => some ⟨k, r, val, true⟩
  | .overwrite k r _, [_, .put _ val _] => some ⟨k, r, val, decide (val = tombStoneBytes)⟩
  | _, _ => none

theorem Batch.version_of_target {b : Batch} (h : b.writer.target = none) : b.version = none := by
  obtain ⟨writer, ops⟩ := b
  cases writer with
  | record C => rfl
  | _ => cases h

namespace Wrote

variable {b : Batch} {v : Version} {st st' : Store}

theorem version (h : Wrote b v) : b.version = some v := by
  cases h <;> rfl

theorem target (h : Wrote b v) : b.writer.target = some (v.key, v.rev) := by
  cases h <;> rfl

/-- What a write met when its compare held: no revision key, or one whose revision is not
above its own. -/
def Met (v : Version) (st : Store) : Prop :=
  st.get (encodeRevisionKey v.key) = none ∨
    ∃ old p d, st.get (encodeRevisionKey v.key) = some old ∧ parseRevision old = .ok p d ∧
      p ≤ v.rev

private theorem cas_apply {k new old val : Bytes} {r p : ℕ} {d d' : Bool} {ttl ttl' : ℤ}
    (hnew : new = indexValue r d') (hparse : parseRevision old = .ok p d) (hp : p ≤ r)
    (h : BatchOp.applyAll st [.cas (encodeRevisionKey k) new old ttl,
      .put (encodeObjectKey k r) val ttl'] = some st') :
    st' = (st.insert (encodeRevisionKey k) (indexValue r d')).insert (encodeObjectKey k r) val ∧
      Met ⟨k, r, val, d'⟩ st := by
  obtain ⟨hget, rfl⟩ := BatchOp.applyAll_cas_put.mp h
  subst hnew
  exact ⟨rfl, .inr ⟨old, p, d, hget, hparse, hp⟩⟩

theorem apply (h : Wrote b v) (hrev : v.rev < 2 ^ 64) (ha : BatchOp.applyAll st b.ops = some st') :
    st' = (st.insert (encodeRevisionKey v.key) (indexValue v.rev v.deleted)).insert
      (encodeObjectKey v.key v.rev) v.val ∧ Met v st := by
  have hfalse (n : ℕ) : uint64ToBytes n = indexValue n false := by simp [indexValue]
  cases h with
  | create k r val ttl =>
    obtain ⟨hget, rfl⟩ := BatchOp.applyAll_putIfNotExist_put.mp ha
    rw [hfalse]
    exact ⟨rfl, .inl hget⟩
  | recreate k r val ttl old p hold hlt => exact cas_apply (hfalse r) hold hlt.le ha
  | update k r e val he =>
    have he' : e < 2 ^ 64 := lt_of_le_of_lt he hrev
    exact cas_apply (hfalse r) (hfalse e ▸ parseRevision_indexValue he' false) he ha
  | delete k r e he =>
    have he' : e < 2 ^ 64 := lt_of_le_of_lt he hrev
    exact cas_apply rfl (hfalse e ▸ parseRevision_indexValue he' false) he ha
  | overwrite k r o val ho =>
    have ho' : o < 2 ^ 64 := lt_of_le_of_lt ho hrev
    exact cas_apply rfl (parseRevision_indexValue ho' _) ho ha

/-- A version is written under the revision key and the object key of its user key. -/
theorem get_of_ne {key : Bytes} (h : Wrote b v) (hrev : v.rev < 2 ^ 64)
    (ha : BatchOp.applyAll st b.ops = some st') (hidx : key ≠ encodeRevisionKey v.key)
    (hobj : key ≠ encodeObjectKey v.key v.rev) : st'.get key = st.get key := by
  rw [(h.apply hrev ha).1, SortedMap.get_insert_of_ne _ _ hobj, SortedMap.get_insert_of_ne _ _ hidx]

theorem get_index (h : Wrote b v) (h0 : 0 < v.rev) (hrev : v.rev < 2 ^ 64)
    (ha : BatchOp.applyAll st b.ops = some st') :
    st'.get (encodeRevisionKey v.key) = some (indexValue v.rev v.deleted) := by
  rw [(h.apply hrev ha).1, SortedMap.get_insert_of_ne _ _
    (encodeObjectKey_ne_encodeRevisionKey h0 hrev).symm, SortedMap.get_insert_self]

theorem get_object (h : Wrote b v) (hrev : v.rev < 2 ^ 64)
    (ha : BatchOp.applyAll st b.ops = some st') :
    st'.get (encodeObjectKey v.key v.rev) = some v.val := by
  rw [(h.apply hrev ha).1, SortedMap.get_insert_self]

end Wrote

/-- The versions that a list of batches writes, in order. -/
def versions (bs : List Batch) : List Version := bs.filterMap Batch.version

@[simp] theorem versions_append (bs bs' : List Batch) :
    versions (bs ++ bs') = versions bs ++ versions bs' := List.filterMap_append

end KubeBrain

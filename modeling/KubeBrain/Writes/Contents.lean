import KubeBrain.Lib.Mvcc
import KubeBrain.Writes.Version

/-! What a store holds of a user key: its versions, and the index that names the newest. -/
namespace KubeBrain

open Coder

/-- The versions of a user key in a store. -/
def objects (st : Store) (k : Bytes) : Mvcc.Versions Bytes := fun r v =>
  0 < r ∧ r < 2 ^ 64 ∧ st.get (encodeObjectKey k r) = some v

/-- The revision that the revision key of a user key names, and whether it is a deletion. -/
def index (st : Store) (k : Bytes) : Option (ℕ × Bool) :=
  match st.get (encodeRevisionKey k) with
  | none => none
  | some val => match parseRevision val with
    | .ok q d => some (q, d)
    | .invalidFormat => none

/-- The revision key has the form that the write path gives it. -/
def Shaped (st : Store) (k : Bytes) : Prop := ∀ val, st.get (encodeRevisionKey k) = some val →
  ∃ q d, q < 2 ^ 64 ∧ val = indexValue q d

/-- The index of a user key names its newest version and says whether that is a tombstone;
without an index the newest version that is left is a tombstone. -/
structure Agrees (st : Store) (k : Bytes) : Prop where
  shaped : Shaped st k
  named : ∀ q d, index st k = some (q, d) →
    (∃ v, objects st k q v ∧ (v = tombStoneBytes ↔ d = true)) ∧ ∀ r v, objects st k r v → r ≤ q
  unnamed : index st k = none → (∀ r v, ¬ objects st k r v) ∨
    ∃ r, objects st k r tombStoneBytes ∧ ∀ r' v, objects st k r' v → r' ≤ r

variable {st st' : Store} {k k' : Bytes} {r r' q : ℕ} {d : Bool} {v v' : Bytes}

theorem index_of_get (h : st.get (encodeRevisionKey k) = some (indexValue q d))
    (hq : q < 2 ^ 64) : index st k = some (q, d) := by
  simp only [index, h, parseRevision_indexValue hq]

theorem index_of_get_none (h : st.get (encodeRevisionKey k) = none) : index st k = none := by
  simp only [index, h]

theorem Shaped.get_of_index (hs : Shaped st k) (h : index st k = some (q, d)) :
    q < 2 ^ 64 ∧ st.get (encodeRevisionKey k) = some (indexValue q d) := by
  cases hget : st.get (encodeRevisionKey k) with
  | none =>
    rw [index_of_get_none hget] at h
    cases h
  | some val =>
    obtain ⟨q', d', hq', rfl⟩ := hs val hget
    rw [index_of_get hget hq'] at h
    obtain ⟨rfl, rfl⟩ := Prod.mk.inj (Option.some.inj h)
    exact ⟨hq', rfl⟩

theorem Agrees.of_index (hget : st.get (encodeRevisionKey k) = some (indexValue q d))
    (hv : objects st k q v) (hd : v = tombStoneBytes ↔ d = true)
    (hmax : ∀ r v, objects st k r v → r ≤ q) : Agrees st k where
  shaped := fun _ hval => ⟨q, d, hv.2.1, Option.some.inj (hval.symm.trans hget)⟩
  named := fun q' d' h => by
    rw [index_of_get hget hv.2.1] at h
    obtain ⟨rfl, rfl⟩ := Prod.mk.inj (Option.some.inj h)
    exact ⟨⟨v, hv, hd⟩, hmax⟩
  unnamed := fun h => by
    rw [index_of_get hget hv.2.1] at h
    cases h

theorem Agrees.of_absent (h : ∀ r v, r < 2 ^ 64 → st.get (encodeObjectKey k r) ≠ some v) :
    Agrees st k where
  shaped := fun val hval => absurd hval (h 0 val (by decide))
  named := fun q d hidx => by
    have hnone : st.get (encodeRevisionKey k) = none :=
      Option.eq_none_iff_forall_ne_some.mpr fun val => h 0 val (by decide)
    rw [index_of_get_none hnone] at hidx
    cases hidx
  unnamed := fun _ => .inl fun r v hv => h r v hv.2.1 hv.2.2

theorem Shaped.erase (hs : Shaped st k) (key : Bytes) : Shaped (st.erase key) k := by
  intro val hval
  rw [SortedMap.get_erase] at hval
  split at hval
  · cases hval
  · exact hs val hval

theorem index_congr (h : st'.get (encodeRevisionKey k) = st.get (encodeRevisionKey k)) :
    index st' k = index st k := by
  simp only [index, h]

section Erase

theorem objects_erase (hr : r < 2 ^ 64) : objects (st.erase (encodeObjectKey k r)) k' r' v' ↔
      ¬ (k' = k ∧ r' = r) ∧ objects st k' r' v' := by
  unfold objects
  rw [SortedMap.get_erase]
  by_cases heq : encodeObjectKey k' r' = encodeObjectKey k r
  · rw [if_pos heq]
    constructor
    · rintro ⟨-, -, ⟨⟩⟩
    · rintro ⟨hne, -, hr', -⟩
      exact absurd (encodeObjectKey_injective hr' hr heq) hne
  · rw [if_neg heq]
    have hne : ¬ (k' = k ∧ r' = r) := by
      rintro ⟨rfl, rfl⟩
      exact heq rfl
    simp [hne]

theorem index_erase (h0 : 0 < r) (hr : r < 2 ^ 64) :
    index (st.erase (encodeObjectKey k r)) k' = index st k' :=
  index_congr (st.get_erase_of_ne (encodeObjectKey_ne_encodeRevisionKey h0 hr).symm)

theorem index_erase_of_ne (h : k' ≠ k) (hr : r < 2 ^ 64) :
    index (st.erase (encodeObjectKey k r)) k' = index st k' :=
  index_congr (st.get_erase_of_ne fun heq =>
    h (encodeObjectKey_injective (by decide) hr heq).1)

theorem objects_erase_index :
    objects (st.erase (encodeRevisionKey k)) k' r' v' ↔ objects st k' r' v' := by
  unfold encodeRevisionKey
  rw [objects_erase (by decide), and_iff_right_iff_imp]
  rintro ⟨h0, -⟩ ⟨-, rfl⟩
  exact absurd h0 (lt_irrefl 0)

theorem index_erase_index_self : index (st.erase (encodeRevisionKey k)) k = none :=
  index_of_get_none (st.get_erase_self _)

end Erase

section Write

variable {b : Batch} {x : Version}

theorem objects_wrote (h : Wrote b x) (h0 : 0 < x.rev) (hrev : x.rev < 2 ^ 64)
    (ha : BatchOp.applyAll st b.ops = some st') : objects st' k r v ↔
      (¬ (k = x.key ∧ r = x.rev) ∧ objects st k r v) ∨ k = x.key ∧ r = x.rev ∧ v = x.val := by
  by_cases hself : k = x.key ∧ r = x.rev
  · obtain ⟨rfl, rfl⟩ := hself
    have hget := h.get_object hrev ha
    constructor
    · rintro ⟨-, -, hv⟩
      exact .inr ⟨rfl, rfl, Option.some.inj (hv.symm.trans hget)⟩
    · rintro (⟨hne, -⟩ | ⟨-, -, rfl⟩)
      · exact absurd ⟨rfl, rfl⟩ hne
      · exact ⟨h0, hrev, hget⟩
  · have hsame (hr0 : 0 < r) (hr : r < 2 ^ 64) :
        st'.get (encodeObjectKey k r) = st.get (encodeObjectKey k r) :=
      h.get_of_ne hrev ha (encodeObjectKey_ne_encodeRevisionKey hr0 hr)
        fun heq => hself (encodeObjectKey_injective hr hrev heq)
    have hrest : ¬ (k = x.key ∧ r = x.rev ∧ v = x.val) := fun h' => hself ⟨h'.1, h'.2.1⟩
    simp only [hself, hrest, not_false_eq_true, true_and, or_false, objects]
    constructor
    · rintro ⟨hr0, hr, hget⟩
      exact ⟨hr0, hr, hsame hr0 hr ▸ hget⟩
    · rintro ⟨hr0, hr, hget⟩
      exact ⟨hr0, hr, (hsame hr0 hr).trans hget⟩

theorem index_wrote_self (h : Wrote b x) (h0 : 0 < x.rev) (hrev : x.rev < 2 ^ 64)
    (ha : BatchOp.applyAll st b.ops = some st') : index st' x.key = some (x.rev, x.deleted) :=
  index_of_get (h.get_index h0 hrev ha) hrev

theorem get_index_wrote (h : Wrote b x) (h0 : 0 < x.rev) (hrev : x.rev < 2 ^ 64)
    (ha : BatchOp.applyAll st b.ops = some st') (hk : k ≠ x.key) :
    st'.get (encodeRevisionKey k) = st.get (encodeRevisionKey k) :=
  h.get_of_ne hrev ha (fun heq => hk (encodeRevisionKey_injective heq))
    (encodeObjectKey_ne_encodeRevisionKey h0 hrev).symm

theorem Shaped.wrote (hs : Shaped st k) (h : Wrote b x) (h0 : 0 < x.rev) (hrev : x.rev < 2 ^ 64)
    (ha : BatchOp.applyAll st b.ops = some st') : Shaped st' k := by
  intro val hval
  by_cases hk : k = x.key
  · subst hk
    rw [h.get_index h0 hrev ha] at hval
    exact ⟨x.rev, x.deleted, hrev, (Option.some.inj hval).symm⟩
  · rw [get_index_wrote h h0 hrev ha hk] at hval
    exact hs val hval

/-- Batches that name no internal key change nothing of any user key. -/
theorem get_record (hkeys : ∀ o ∈ b.ops, ¬ ∃ k r, o.key = encodeObjectKey k r)
    (ha : BatchOp.applyAll st b.ops = some st') (k : Bytes) (r : ℕ) :
    st'.get (encodeObjectKey k r) = st.get (encodeObjectKey k r) :=
  BatchOp.get_applyAll ha fun o ho heq => hkeys o ho ⟨k, r, heq.symm⟩

end Write

end KubeBrain

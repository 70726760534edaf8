import KubeBrain.Lib.Bytes

/-! Internal keys of the storage: `pkg/backend/coder`. A user key has one revision key,
with revision zero, and one object key for each revision. -/
namespace KubeBrain

/-- Revisions are `uint64` numbers. -/
abbrev maxUint64 : ℕ := 2 ^ 64 - 1

namespace Coder

variable {k : Bytes} {r : ℕ} {k' : Bytes} {r' : ℕ}

def magicBytes : Bytes := [0x57, 0xfb, 0x80, 0x8b]

def splitByte : Byte := 36

def uint64ToBytes (n : ℕ) : Bytes := Bytes.ofNatBE 8 n

/-- Layout `{magic}{raw_key}{split_key}{revision}`. -/
def encodeObjectKey (userKey : Bytes) (revision : ℕ) : Bytes :=
  magicBytes ++ (userKey ++ splitByte :: uint64ToBytes revision)

def encodeRevisionKey (key : Bytes) : Bytes := encodeObjectKey key 0

/-- Result of `Decode`; `panic` is an index outside the string. -/
inductive Decoded where
  | ok (userKey : Bytes) (revision : ℕ)
  | badMagic
  | badSplit
  | panic
  deriving DecidableEq, Repr

def decode (internalKey : Bytes) : Decoded :=
  if internalKey.length < magicBytes.length then .panic
  else if internalKey.take magicBytes.length ≠ magicBytes then .badMagic
  else if internalKey.length < 9 then .panic
  else if internalKey[internalKey.length - 9]? ≠ some splitByte then .badSplit
  else .ok ((internalKey.drop magicBytes.length).take (internalKey.length - 9 - magicBytes.length))
    (Bytes.toNatBE (internalKey.drop (internalKey.length - 8)))

inductive ParsedRevision where
  | ok (rev : ℕ) (isTombStone : Bool)
  | invalidFormat
  deriving DecidableEq, Repr

def parseRevision (revisionBytes : Bytes) : ParsedRevision :=
  if revisionBytes.length = 8 then .ok (Bytes.toNatBE (revisionBytes.take 8)) false
  else if revisionBytes.length = 9 then .ok (Bytes.toNatBE (revisionBytes.take 8)) true
  else .invalidFormat

/-- Value of a revision key: the revision, followed by a zero byte after a deletion. -/
def indexValue (rev : ℕ) (deleted : Bool) : Bytes :=
  uint64ToBytes rev ++ if deleted then [0] else []

/-- User keys for which the internal keys of one key are contiguous. -/
def Plain (key : Bytes) : Prop := ∀ b ∈ key, splitByte < b

instance (key : Bytes) : Decidable (Plain key) := inferInstanceAs (Decidable (∀ b ∈ key, _))

@[simp] theorem length_uint64ToBytes (n : ℕ) : (uint64ToBytes n).length = 8 :=
  Bytes.length_ofNatBE 8 n

theorem pow_eight : 256 ^ 8 = 2 ^ 64 := by norm_num

theorem toNat_uint64ToBytes {n : ℕ} (h : n < 2 ^ 64) : Bytes.toNatBE (uint64ToBytes n) = n := by
  rw [uint64ToBytes, Bytes.toNatBE_ofNatBE, pow_eight, Nat.mod_eq_of_lt h]

theorem uint64ToBytes_lt_iff {m n : ℕ} (hm : m < 2 ^ 64) (hn : n < 2 ^ 64) :
    uint64ToBytes m < uint64ToBytes n ↔ m < n :=
  Bytes.ofNatBE_lt_iff (by omega) (by omega)

@[simp] theorem length_encodeObjectKey (k : Bytes) (r : ℕ) :
    (encodeObjectKey k r).length = k.length + 13 := by
  simp [encodeObjectKey, magicBytes]

/-- Decoding an internal key gives back what was encoded. -/
theorem decode_encodeObjectKey (k : Bytes) (h : r < 2 ^ 64) :
    decode (encodeObjectKey k r) = .ok k r := by
  have hlen := length_encodeObjectKey k r
  have hm : magicBytes.length = 4 := rfl
  have hsplit : (encodeObjectKey k r)[k.length + 4]? = some splitByte := by
    rw [encodeObjectKey, List.getElem?_append_right (by omega),
      List.getElem?_append_right (by omega)]
    simp [hm]
  have hrev : (encodeObjectKey k r).drop (k.length + 5) = uint64ToBytes r := by
    have he : encodeObjectKey k r = (magicBytes ++ k ++ [splitByte]) ++ uint64ToBytes r := by
      simp [encodeObjectKey]
    rw [he]
    exact List.drop_left' (by simp [hm]; omega)
  unfold decode
  rw [hlen, hm, if_neg (by omega), if_neg, if_neg (by omega), if_neg]
  · rw [show k.length + 13 - 8 = k.length + 5 by omega, hrev, toNat_uint64ToBytes h,
      show k.length + 13 - 9 - 4 = k.length by omega]
    simp [encodeObjectKey, hm]
  · rw [show k.length + 13 - 9 = k.length + 4 by omega, hsplit]
    simp
  · simp [encodeObjectKey, hm]

/-- `Decode` accepts nothing but internal keys. -/
theorem encode_of_decode {b : Bytes} (h : decode b = .ok k r) :
    b = encodeObjectKey k r ∧ r < 2 ^ 64 := by
  have hm : magicBytes.length = 4 := rfl
  unfold decode at h
  rw [hm] at h
  split at h
  · cases h
  next h4 =>
  split at h
  · cases h
  next hmagic =>
  split at h
  · cases h
  next h9 =>
  split at h
  · cases h
  next hsplit =>
  simp only [ne_eq, not_not] at hmagic hsplit
  obtain ⟨rfl, rfl⟩ : (b.drop 4).take (b.length - 9 - 4) = k ∧
      Bytes.toNatBE (b.drop (b.length - 8)) = r := by simpa using h
  have h13 : 13 ≤ b.length := by
    by_contra hlt
    have hi : b.length - 9 < 4 := by omega
    have hmem : (b.take 4)[b.length - 9]? = some splitByte := by
      rw [List.getElem?_take_of_lt hi, hsplit]
    rw [hmagic] at hmem
    have := List.mem_of_getElem? hmem
    revert this
    decide
  have hlen8 : (b.drop (b.length - 8)).length = 8 := by simp; omega
  have hcons : b.drop (b.length - 9) = splitByte :: b.drop (b.length - 8) := by
    have hlt : b.length - 9 < b.length := by omega
    rw [List.drop_eq_getElem_cons hlt]
    rw [List.getElem?_eq_getElem hlt] at hsplit
    rw [Option.some.inj hsplit, show b.length - 9 + 1 = b.length - 8 by omega]
  constructor
  · rw [encodeObjectKey, uint64ToBytes, Bytes.ofNatBE_toNatBE hlen8, ← hcons]
    conv_lhs => rw [← List.take_append_drop 4 b, hmagic]
    congr 1
    conv_lhs => rw [← List.take_append_drop (b.length - 9 - 4) (b.drop 4)]
    rw [List.drop_drop, show 4 + (b.length - 9 - 4) = b.length - 9 by omega]
  · have := Bytes.toNatBE_lt (b.drop (b.length - 8))
    rw [hlen8] at this
    omega

theorem decode_eq_panic_iff {c : Bytes} (hmagic : magicBytes <+: c) :
    decode c = .panic ↔ c.length < 9 := by
  have hm : magicBytes.length = 4 := rfl
  have hlen := hmagic.length_le
  have htake : c.take magicBytes.length = magicBytes := (List.prefix_iff_eq_take.mp hmagic).symm
  unfold decode
  rw [if_neg (by omega), if_neg (by rw [htake]; simp)]
  by_cases h : c.length < 9
  · simp [h]
  · simp only [h, if_false, iff_false]
    split <;> nofun

theorem encodeObjectKey_injective (hr : r < 2 ^ 64) (hr' : r' < 2 ^ 64)
    (h : encodeObjectKey k r = encodeObjectKey k' r') : k = k' ∧ r = r' := by
  have := decode_encodeObjectKey k hr
  rw [h, decode_encodeObjectKey k' hr'] at this
  injection this with h₁ h₂
  exact ⟨h₁.symm, h₂.symm⟩

/-- Internal keys of plain user keys are ordered by user key, then by revision. -/
theorem encodeObjectKey_lt_iff (hk : Plain k) (hk' : Plain k') (hr : r < 2 ^ 64)
    (hr' : r' < 2 ^ 64) :
    encodeObjectKey k r < encodeObjectKey k' r' ↔ k < k' ∨ k = k' ∧ r < r' := by
  rw [encodeObjectKey, encodeObjectKey, Bytes.append_lt_append_left_iff]
  have longer {p t : Bytes} {y : Byte} (hp : Plain (p ++ y :: t)) (s s' : Bytes) :
      p ++ splitByte :: s < p ++ y :: t ++ splitByte :: s' := by
    rw [List.append_assoc]
    exact Bytes.append_cons_lt _ _ _ (hp y (by simp))
  have self_lt (p t : Bytes) (y : Byte) : p < p ++ y :: t := by
    conv_lhs => rw [← List.append_nil p]
    rw [Bytes.append_lt_append_left_iff]
    exact List.nil_lt_cons y t
  rcases Bytes.first_difference k k' with ⟨t, rfl⟩ | ⟨t, rfl⟩ | ⟨p, x, y, s, t, hxy, rfl, rfl⟩
  · cases t with
    | nil =>
      rw [List.append_nil, Bytes.append_lt_append_left_iff]
      simp [uint64ToBytes_lt_iff hr hr']
    | cons y t => simp only [longer hk', self_lt, true_or]
  · cases t with
    | nil =>
      rw [List.append_nil, Bytes.append_lt_append_left_iff]
      simp [uint64ToBytes_lt_iff hr hr']
    | cons y t =>
      have h₁ := longer hk (uint64ToBytes r') (uint64ToBytes r)
      have h₂ := self_lt k' t y
      simp only [not_lt_of_gt h₁, not_lt_of_gt h₂, h₂.ne', false_and, or_self]
  · rw [List.append_assoc, List.append_assoc, Bytes.append_lt_append_left_iff,
      Bytes.append_lt_append_left_iff]
    simp [List.cons_lt_cons_iff, hxy]

/-- Internal keys of one user key are ordered by revision, whatever the bytes of the key. -/
theorem encodeObjectKey_le_iff (k : Bytes) (hr : r < 2 ^ 64) (hr' : r' < 2 ^ 64) :
    encodeObjectKey k r ≤ encodeObjectKey k r' ↔ r ≤ r' := by
  have hsplit (n : ℕ) :
    encodeObjectKey k n = (magicBytes ++ k ++ [splitByte]) ++ uint64ToBytes n := by
    simp [encodeObjectKey]
  rw [hsplit, hsplit, Bytes.append_le_append_left_iff, ← not_lt, uint64ToBytes_lt_iff hr' hr,
    not_lt]

theorem encodeObjectKey_lt (hk : Plain k) (hk' : Plain k') (h : k < k') :
    encodeObjectKey k 0 < encodeObjectKey k' 0 :=
  (encodeObjectKey_lt_iff hk hk' (by decide) (by decide)).mpr (.inl h)

theorem encodeRevisionKey_le (hk : Plain k) (hk' : Plain k') :
    encodeRevisionKey k ≤ encodeRevisionKey k' ↔ k ≤ k' := by
  rw [← not_lt, ← not_lt]
  unfold encodeRevisionKey
  rw [encodeObjectKey_lt_iff hk' hk (by decide) (by decide)]
  simp

/-- What lies between two internal keys of `k` is one of `k`, if its user key is plain. -/
theorem eq_of_between (hk : Plain k) (hk' : Plain k') {R : ℕ} (hr : r < 2 ^ 64) (hr' : r' < 2 ^ 64)
    (hR : R < 2 ^ 64) (hlo : encodeObjectKey k r ≤ encodeObjectKey k' r')
    (hhi : encodeObjectKey k' r' ≤ encodeObjectKey k R) : k' = k ∧ r ≤ r' ∧ r' ≤ R := by
  rw [← not_lt, encodeObjectKey_lt_iff hk' hk hr' hr] at hlo
  rw [← not_lt, encodeObjectKey_lt_iff hk hk' hR hr'] at hhi
  simp only [not_or, not_and, not_lt] at hlo hhi
  obtain rfl : k' = k := le_antisymm hhi.1 hlo.1
  exact ⟨rfl, hlo.2 rfl, hhi.2 rfl⟩

/-- Internal keys decode to what was encoded and nothing else of their length decodes. Those of
plain user keys are in the order of user key and revision, so that the internal keys of one user
key start with its revision key and have none of another user key between them. -/
theorem internal_keys_embed : (∀ k r, r < 2 ^ 64 → decode (encodeObjectKey k r) = .ok k r) ∧
    (∀ b : Bytes, 13 ≤ b.length →
      ((∃ k r, decode b = .ok k r) ↔ ∃ k r, r < 2 ^ 64 ∧ encodeObjectKey k r = b) ∧
      ∀ k r, decode b = .ok k r → encodeObjectKey k r = b) ∧
    (∀ k k', Plain k → Plain k' → ∀ r r', r < 2 ^ 64 → r' < 2 ^ 64 →
      (encodeObjectKey k r < encodeObjectKey k' r' ↔ k < k' ∨ k = k' ∧ r < r')) ∧
    (∀ k r, r < 2 ^ 64 → encodeRevisionKey k ≤ encodeObjectKey k r) ∧
    ∀ k k', Plain k → Plain k' → ∀ r₁ r r₂, r₁ < 2 ^ 64 → r < 2 ^ 64 → r₂ < 2 ^ 64 →
      encodeObjectKey k r₁ ≤ encodeObjectKey k' r → encodeObjectKey k' r ≤ encodeObjectKey k r₂ →
      k' = k := by
  refine ⟨fun k r hr => decode_encodeObjectKey k hr, fun b _ => ⟨⟨?_, ?_⟩, fun k r h => ?_⟩,
    fun k k' hk hk' r r' hr hr' => encodeObjectKey_lt_iff hk hk' hr hr', fun k r hr => ?_, ?_⟩
  · rintro ⟨k, r, h⟩
    obtain ⟨hb, hr⟩ := encode_of_decode h
    exact ⟨k, r, hr, hb.symm⟩
  · rintro ⟨k, r, hr, rfl⟩
    exact ⟨k, r, decode_encodeObjectKey k hr⟩
  · exact (encode_of_decode h).1.symm
  · exact (encodeObjectKey_le_iff k (by decide) hr).mpr (Nat.zero_le r)
  · intro k k' hk hk' r₁ r r₂ hr₁ hr hr₂ hlo hhi
    exact (eq_of_between hk hk' hr₁ hr hr₂ hlo hhi).1

/-- The order at a key that continues another one: `"/a"` comes with all its revisions before
`"/a/"`. -/
theorem internal_keys_embed_slash :
    encodeObjectKey [47, 97] maxUint64 < encodeObjectKey [47, 97, 47] 0 :=
  (internal_keys_embed.2.2.1 [47, 97] [47, 97, 47] (by simp [Plain, splitByte])
    (by simp [Plain, splitByte]) maxUint64 0 (by decide) (by decide)).mpr (.inl (by decide))

end Coder
end KubeBrain

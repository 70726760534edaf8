import KubeBrain.Backend.Scanner
import KubeBrain.Storage.Engine
import KubeBrain.Storage.Tikv

/-! Borders of partitions: moved back to the first internal key of their user key they
separate the user keys before them from those after them. -/
namespace KubeBrain

open Coder

/-- Internal keys of user keys whose versions are contiguous. -/
def PlainInternal (key : Bytes) : Prop :=
  ∃ k r, Plain k ∧ r < 2 ^ 64 ∧ key = encodeObjectKey k r

theorem PlainInternal.decode_ne_panic {c : Bytes} (h : PlainInternal c) : decode c ≠ .panic := by
  obtain ⟨k, r, -, hr, rfl⟩ := h
  rw [decode_encodeObjectKey k hr]
  nofun

namespace Scanner

variable {st : Store} {lo hi : Bytes}

variable {c : Bytes} {r : ℕ}

/-- The keys of an interval are internal keys of plain user keys. -/
def Keyed (st : Store) (lo hi : Bytes) : Prop :=
  ∀ key v, st.get key = some v → lo ≤ key → key < hi → PlainInternal key

/-- The first internal key of a plain user key. -/
def Aligned (b : Bytes) : Prop := ∃ k, Plain k ∧ b = encodeRevisionKey k

theorem items_eq_range (st : Store) (h : lo ≤ hi) : Engine.items st lo hi 0 = st.range lo hi := by
  simp only [Engine.items, not_lt_of_ge h, if_false, if_true]

theorem Keyed.mono {lo' hi' : Bytes} (h : Keyed st lo hi) (hlo : lo ≤ lo') (hhi : hi' ≤ hi) :
    Keyed st lo' hi' :=
  fun key v hv hl hh => h key v hv (hlo.trans hl) (hh.trans_le hhi)

/-- The first internal key of the user key of an internal key. -/
def align (b : Bytes) : Bytes :=
  match decode b with
  | .ok k _ => encodeRevisionKey k
  | _ => b

theorem adjustEnd_eq {b : Bytes} (h : decode b ≠ .panic) : adjustEnd b = some (align b) := by
  unfold adjustEnd align
  cases hd : decode b with
  | panic => exact absurd hd h
  | ok k r =>
    obtain ⟨rfl, -⟩ := encode_of_decode hd
    dsimp only
    split
    · rfl
    · next h0 =>
      obtain rfl : r = 0 := by simpa using h0
      rfl
  | badMagic => rfl
  | badSplit => rfl

theorem adjustFrom_pieces {bs : List Bytes} (hbs : ∀ b ∈ bs, decode b ≠ .panic)
    (prevEnd : Option Bytes) (lo hi : Bytes) : adjustFrom prevEnd (Tikv.pieces lo bs hi) =
      some (Tikv.pieces (prevEnd.getD lo) (bs.map align) hi) := by
  induction bs generalizing prevEnd lo with
  | nil => rfl
  | cons b bs ih =>
    have hrest := ih (fun c hc => hbs c (List.mem_cons_of_mem _ hc)) (some (align b)) b
    obtain ⟨q, ps, hq⟩ : ∃ q ps, Tikv.pieces b bs hi = q :: ps := by
      cases bs <;> exact ⟨_, _, rfl⟩
    rw [hq] at hrest
    rw [Tikv.pieces, hq, adjustFrom, adjustEnd_eq (hbs b List.mem_cons_self)]
    dsimp only
    rw [hrest]
    rfl

theorem adjustPartitionsBorders_pieces {bs : List Bytes} (hsorted : (lo :: bs).Pairwise (· < ·))
    (hbs : ∀ b ∈ bs, decode b ≠ .panic) :
    adjustPartitionsBorders (Tikv.pieces lo bs hi) = some (Tikv.pieces lo (bs.map align) hi) := by
  have hstarts : (Tikv.pieces lo bs hi).Pairwise fun p q => p.start ≤ q.start := by
    rw [← List.pairwise_map, Tikv.start_pieces]
    exact hsorted.imp le_of_lt
  unfold adjustPartitionsBorders
  rw [List.Pairwise.insertionSort_eq hstarts]
  exact adjustFrom_pieces hbs none lo hi

/-- A border that makes `Decode` look outside the string stops the adjustment. -/
theorem adjustFrom_panic {bs : List Bytes} (hc : c ∈ bs) (hpanic : decode c = .panic)
    (prevEnd : Option Bytes) (lo hi : Bytes) :
    adjustFrom prevEnd (Tikv.pieces lo bs hi) = none := by
  induction bs generalizing prevEnd lo with
  | nil => cases hc
  | cons b bs ih =>
    obtain ⟨q, ps, hq⟩ : ∃ q ps, Tikv.pieces b bs hi = q :: ps := by
      cases bs <;> exact ⟨_, _, rfl⟩
    rw [Tikv.pieces, hq, adjustFrom]
    rcases List.mem_cons.mp hc with rfl | hc
    · simp only [adjustEnd, hpanic]
    · rw [← hq]
      cases adjustEnd b with
      | none => rfl
      | some stop => simp only [ih hc (some stop) b]

variable {a b : Bytes} {bs : List Bytes}

theorem align_encodeObjectKey (k : Bytes) (hr : r < 2 ^ 64) :
    align (encodeObjectKey k r) = encodeRevisionKey k := by
  simp only [align, decode_encodeObjectKey k hr]

theorem align_of_not_internal (h : ∀ u q, q < 2 ^ 64 → c ≠ encodeObjectKey u q) : align c = c := by
  unfold align
  split
  · next u q hd =>
    obtain ⟨heq, hq⟩ := encode_of_decode hd
    exact absurd heq (h u q hq)
  · rfl

theorem align_le (c : Bytes) : align c ≤ c := by
  unfold align
  split
  · next k r hd =>
    obtain ⟨rfl, hr⟩ := encode_of_decode hd
    exact (encodeObjectKey_le_iff k (by decide) hr).mpr (Nat.zero_le r)
  · exact le_rfl

theorem align_mono {d : Bytes} (hc : PlainInternal c) (hd : PlainInternal d) (h : c < d) :
    align c ≤ align d := by
  obtain ⟨k, r, hk, hr, rfl⟩ := hc
  obtain ⟨k', r', hk', hr', rfl⟩ := hd
  rw [align_encodeObjectKey k hr, align_encodeObjectKey k' hr', encodeRevisionKey_le hk hk']
  rcases (encodeObjectKey_lt_iff hk hk' hr hr').mp h with h | ⟨rfl, -⟩
  · exact h.le
  · exact le_rfl

/-- After a plain user key no border moves back before it. -/
theorem le_align (ha : Plain a) (hc : PlainInternal c) (h : encodeObjectKey a 0 < c) :
    encodeObjectKey a 0 ≤ align c := by
  have hself : align (encodeObjectKey a 0) = encodeObjectKey a 0 :=
    align_encodeObjectKey a (by decide)
  rw [← hself]
  exact align_mono ⟨a, 0, ha, by decide, rfl⟩ hc h

theorem aligned_align (hc : PlainInternal c) : Aligned (align c) := by
  obtain ⟨k, r, hk, hr, rfl⟩ := hc
  exact ⟨k, hk, align_encodeObjectKey k hr⟩

/-- Moving the borders back keeps them in order between the ends of the interval. -/
theorem chain_align (hsorted : (lo :: bs).Pairwise (· < ·)) (hbs : ∀ c ∈ bs, PlainInternal c)
    (hlow : ∀ c ∈ bs, lo ≤ align c) (hstop : ∀ c ∈ bs, c < hi) (hle : lo ≤ hi) :
    (lo :: bs.map align).Pairwise (· ≤ ·) ∧ ∀ c ∈ lo :: bs.map align, c ≤ hi := by
  constructor
  · rw [List.pairwise_cons, List.forall_mem_map, List.pairwise_map]
    exact ⟨hlow, (List.pairwise_cons.mp hsorted).2.imp_of_mem fun hc hd h =>
      align_mono (hbs _ hc) (hbs _ hd) h⟩
  · rw [List.forall_mem_cons, List.forall_mem_map]
    exact ⟨hle, fun c hc => (align_le c).trans (hstop c hc).le⟩

theorem le_of_mem_pieces (hchain : (lo :: bs).Pairwise (· ≤ ·)) (hhi : ∀ c ∈ lo :: bs, c ≤ hi)
    {p : Partition} (hp : p ∈ Tikv.pieces lo bs hi) : p.start ≤ p.stop := by
  induction bs generalizing lo with
  | nil =>
    obtain rfl := List.mem_singleton.mp hp
    exact hhi lo List.mem_cons_self
  | cons c bs ih =>
    obtain ⟨hle, hrest⟩ := List.pairwise_cons.mp hchain
    rcases List.mem_cons.mp hp with rfl | hp
    · exact hle c List.mem_cons_self
    · exact ih hrest (fun d hd => hhi d (List.mem_cons_of_mem _ hd)) hp

/-- Pieces that all end after their start lie between borders in order. -/
theorem chain_of_pieces (h : ∀ p ∈ Tikv.pieces lo bs hi, p.start ≤ p.stop) :
    (lo :: bs).Pairwise (· ≤ ·) := by
  induction bs generalizing lo with
  | nil => exact List.pairwise_singleton _ lo
  | cons c bs ih =>
    obtain ⟨hlo, hrest⟩ := List.forall_mem_cons.mp h
    have hchain := ih hrest
    refine List.pairwise_cons.mpr ⟨List.forall_mem_cons.mpr ⟨hlo, fun d hd => ?_⟩, hchain⟩
    exact le_trans hlo ((List.pairwise_cons.mp hchain).1 d hd)

/-- Of sorted borders, one below another stands before it. -/
theorem le_of_sorted {cs : List Bytes} {g : Bytes → Bytes} {d : Bytes}
    (hsorted : cs.Pairwise (· < ·)) (hmap : (cs.map g).Pairwise (· ≤ ·)) (hd : d ∈ cs) (hc : c ∈ cs)
    (hdc : d < c) : g d ≤ g c := by
  induction cs with
  | nil => cases hd
  | cons x cs ih =>
    obtain ⟨hx, hsorted⟩ := List.pairwise_cons.mp hsorted
    obtain ⟨hgx, hmap⟩ := List.pairwise_cons.mp hmap
    rcases List.mem_cons.mp hc with rfl | hc'
    · rcases List.mem_cons.mp hd with rfl | hd'
      · exact le_rfl
      · exact absurd (hx d hd') (lt_asymm hdc)
    · rcases List.mem_cons.mp hd with rfl | hd'
      · exact hgx _ (List.mem_map_of_mem hc')
      · exact ih hsorted hmap hd' hc'

/-- After one internal key of a plain user key, and not after the next, both of them in the
interval. -/
def Tears (lo hi x : Bytes) : Prop :=
  ∃ k r, Plain k ∧ r + 1 < 2 ^ 64 ∧ lo ≤ encodeObjectKey k r ∧ encodeObjectKey k r < x ∧
    x ≤ encodeObjectKey k (r + 1) ∧ encodeObjectKey k (r + 1) < hi

/-- A border with internal keys of a plain user key on both sides stands between two of them
that follow each other. -/
theorem tears_of_between {x k : Bytes} {r' : ℕ} (hk : Plain k) (hr : r < 2 ^ 64) (hr' : r' < 2 ^ 64)
    (hlo : lo ≤ encodeObjectKey k r) (hx : encodeObjectKey k r < x) (hx' : x ≤ encodeObjectKey k r')
    (hhi : encodeObjectKey k r' < hi) : Tears lo hi x := by
  have hex : ∃ n, x ≤ encodeObjectKey k n ∧ n ≤ r' := ⟨r', hx', le_rfl⟩
  classical
  obtain ⟨hfind, hle⟩ := Nat.find_spec hex
  have hlt : r < Nat.find hex := by
    by_contra hge
    have := (encodeObjectKey_le_iff k (by omega) hr).mpr (not_lt.mp hge)
    exact absurd (hfind.trans this) (not_le.mpr hx)
  obtain ⟨n, hn⟩ : ∃ n, Nat.find hex = n + 1 := ⟨Nat.find hex - 1, by omega⟩
  have hmin := Nat.find_min hex (m := n) (by omega)
  rw [not_and_or, not_le] at hmin
  rw [hn] at hfind hle hlt
  refine ⟨k, n, hk, by omega, hlo.trans ?_, hmin.resolve_right (by omega), hfind,
    ((encodeObjectKey_le_iff k (by omega) hr').mpr hle).trans_lt hhi⟩
  exact (encodeObjectKey_le_iff k hr (by omega)).mpr (by omega)

/-- Between borders that tear nothing, one partition has all internal keys of a plain user
key. -/
theorem exists_piece {lo' : Bytes} (hbs : ∀ c ∈ bs, ¬ Tears lo hi c) {k : Bytes} (hk : Plain k) :
    ∃ p ∈ Tikv.pieces lo' bs hi, ∀ r, r < 2 ^ 64 → lo ≤ encodeObjectKey k r →
      lo' ≤ encodeObjectKey k r → encodeObjectKey k r < hi →
      p.start ≤ encodeObjectKey k r ∧ encodeObjectKey k r < p.stop := by
  induction bs generalizing lo' with
  | nil => exact ⟨⟨lo', hi⟩, List.mem_singleton.mpr rfl, fun r _ _ hlo hhi => ⟨hlo, hhi⟩⟩
  | cons c bs ih =>
    obtain ⟨hc, hbs⟩ := List.forall_mem_cons.mp hbs
    by_cases hafter : ∃ r', r' < 2 ^ 64 ∧ c ≤ encodeObjectKey k r' ∧ encodeObjectKey k r' < hi
    · obtain ⟨r', hr', hcr, hhi'⟩ := hafter
      obtain ⟨p, hp, hall⟩ := @ih c hbs
      refine ⟨p, List.mem_cons_of_mem _ hp, fun r hr hlo _ hhi => hall r hr hlo ?_ hhi⟩
      by_contra hlt
      exact hc (tears_of_between hk hr hr' hlo (not_le.mp hlt) hcr hhi')
    · refine ⟨⟨lo', c⟩, List.mem_cons_self, fun r hr _ hlo hhi => ⟨hlo, ?_⟩⟩
      by_contra hge
      exact hafter ⟨r, hr, not_lt.mp hge, hhi⟩

/-- Bytes that stand after the split byte between two revisions that follow each other, both of
which the interval has for the user key. -/
structure FollowsIn (lo hi k : Bytes) (r : ℕ) (w : Bytes) : Prop where
  max : r + 1 < 2 ^ 64
  after : uint64ToBytes r < w
  upto : w ≤ uint64ToBytes (r + 1)
  start : lo ≤ encodeObjectKey k r
  stop : encodeObjectKey k (r + 1) < hi

/-- Borders at which the adjustment goes wrong: too short to decode; an internal key whose first
internal key is below the start or below where an earlier border is left; no internal key, but
among those of a plain user key; an internal key of a user key that continues a plain one with the
split byte. -/
inductive Misplaced (lo hi : Bytes) (bs : List Bytes) (c : Bytes) : Prop
  | short (h : c.length < 9)
  | overtaken (u d : Bytes) (q : ℕ) (hq : q < 2 ^ 64) (hc : c = encodeObjectKey u q)
      (hd : d ∈ lo :: bs) (hdc : d < c) (habove : encodeRevisionKey u < d)
      (hmoved : ∀ u' q', q' < 2 ^ 64 → d = encodeObjectKey u' q' →
        encodeRevisionKey u < encodeRevisionKey u')
  | raw (k w : Bytes) (r : ℕ) (hk : Plain k) (hraw : ∀ u q, q < 2 ^ 64 → c ≠ encodeObjectKey u q)
      (hc : c = magicBytes ++ (k ++ splitByte :: w)) (hw : FollowsIn lo hi k r w)
  | nested (k y : Bytes) (q r : ℕ) (hk : Plain k) (hq : q < 2 ^ 64)
      (hc : c = encodeObjectKey (k ++ splitByte :: y) q)
      (hw : FollowsIn lo hi k r (y ++ splitByte :: uint64ToBytes 0))

/-- Where an earlier border is left, against the first internal key of a later one. -/
theorem lt_align_iff {x d : Bytes} : x < align d ↔ x < d ∧ ∀ u' q', q' < 2 ^ 64 →
    d = encodeObjectKey u' q' → x < encodeRevisionKey u' := by
  constructor
  · intro h
    refine ⟨h.trans_le (align_le d), ?_⟩
    rintro u' q' hq' rfl
    rwa [align_encodeObjectKey u' hq'] at h
  · rintro ⟨hd, hmoved⟩
    unfold align
    split
    · next u' q' hdec =>
      obtain ⟨heq, hq'⟩ := encode_of_decode hdec
      exact hmoved u' q' hq' heq
    · exact hd

/-- What lies among the internal keys of a user key starts like them. -/
theorem exists_suffix {x k : Bytes} {r' : ℕ} (hx : encodeObjectKey k r < x)
    (hx' : x ≤ encodeObjectKey k r') : ∃ w, x = magicBytes ++ (k ++ splitByte :: w) ∧
      uint64ToBytes r < w ∧ w ≤ uint64ToBytes r' := by
  have hsplit (t : Bytes) : magicBytes ++ (k ++ splitByte :: t) =
      (magicBytes ++ (k ++ [splitByte])) ++ t := by simp
  unfold encodeObjectKey at hx hx'
  rw [hsplit] at hx hx'
  obtain ⟨w, rfl⟩ := Bytes.prefix_of_between hx.le hx'
  rw [Bytes.append_lt_append_left_iff] at hx
  rw [Bytes.append_le_append_left_iff] at hx'
  exact ⟨w, (hsplit w).symm, hx, hx'⟩

theorem tears_of_followsIn {k w : Bytes} (hk : Plain k) (hw : FollowsIn lo hi k r w) :
    Tears lo hi (magicBytes ++ (k ++ splitByte :: w)) := by
  refine ⟨k, r, hk, hw.max, hw.start, ?_, ?_, hw.stop⟩
  · unfold encodeObjectKey
    rw [Bytes.append_lt_append_left_iff, Bytes.append_lt_append_left_iff, List.cons_lt_cons_iff]
    exact .inr ⟨rfl, hw.after⟩
  · unfold encodeObjectKey
    rw [Bytes.append_le_append_left_iff, Bytes.append_le_append_left_iff, ← not_lt,
      List.cons_lt_cons_iff]
    rintro (h | ⟨-, h⟩)
    · exact lt_irrefl _ h
    · exact absurd h (not_lt.mpr hw.upto)

/-- The first internal key of a user key lies among those of a plain one only if it continues
that with the split byte. -/
theorem nested_of_eq {u k w : Bytes} (hk : Plain k) (hr : r < 2 ^ 64) (hw : uint64ToBytes r < w)
    (h : encodeRevisionKey u = magicBytes ++ (k ++ splitByte :: w)) :
    ∃ y, u = k ++ splitByte :: y ∧ w = y ++ splitByte :: uint64ToBytes 0 := by
  have hu : u ++ splitByte :: uint64ToBytes 0 = k ++ splitByte :: w :=
    List.append_cancel_left h
  have hself : ¬ u = k := by
    rintro rfl
    have hzero : uint64ToBytes 0 = w := (List.cons.inj (List.append_cancel_left hu)).2
    subst hzero
    exact absurd ((uint64ToBytes_lt_iff hr (by decide)).mp hw) (Nat.not_lt_zero r)
  rcases List.append_eq_append_iff.mp hu with ⟨t, rfl, ht⟩ | ⟨t, rfl, ht⟩
  · cases t with
    | nil => exact absurd (List.append_nil u).symm hself
    | cons x t =>
      obtain ⟨rfl, -⟩ := List.cons.inj ht
      exact absurd (hk splitByte (by simp)) (lt_irrefl _)
  · cases t with
    | nil => exact absurd (List.append_nil k) hself
    | cons x t =>
      obtain ⟨rfl, rfl⟩ := List.cons.inj ht
      exact ⟨t, rfl, rfl⟩

/-- A border of the interval is left inside a user key exactly if it is misplaced so. -/
theorem tears_align_iff : Tears lo hi (align c) ↔
    (∃ k w r, Plain k ∧ (∀ u q, q < 2 ^ 64 → c ≠ encodeObjectKey u q) ∧
      c = magicBytes ++ (k ++ splitByte :: w) ∧ FollowsIn lo hi k r w) ∨
    ∃ k y q r, Plain k ∧ q < 2 ^ 64 ∧ c = encodeObjectKey (k ++ splitByte :: y) q ∧
      FollowsIn lo hi k r (y ++ splitByte :: uint64ToBytes 0) := by
  constructor
  · rintro ⟨k, r, hk, hmax, hlo, hx, hx', hhi⟩
    obtain ⟨w, heq, hw, hw'⟩ := exists_suffix hx hx'
    by_cases hraw : ∀ u q, q < 2 ^ 64 → c ≠ encodeObjectKey u q
    · rw [align_of_not_internal hraw] at heq
      exact .inl ⟨k, w, r, hk, hraw, heq, hmax, hw, hw', hlo, hhi⟩
    · push Not at hraw
      obtain ⟨u, q, hq, rfl⟩ := hraw
      rw [align_encodeObjectKey u hq] at heq
      obtain ⟨y, rfl, rfl⟩ := nested_of_eq hk (by omega) hw heq
      exact .inr ⟨k, y, q, r, hk, hq, rfl, hmax, hw, hw', hlo, hhi⟩
  · rintro (⟨k, w, r, hk, hraw, rfl, hw⟩ | ⟨k, y, q, r, hk, hq, rfl, hw⟩)
    · rw [align_of_not_internal hraw]
      exact tears_of_followsIn hk hw
    · rw [align_encodeObjectKey _ hq]
      have hnested := tears_of_followsIn hk hw
      unfold encodeRevisionKey encodeObjectKey
      rwa [List.append_assoc]

/-- However a division of the interval cuts it: the adjustment comes to an end and leaves
contiguous partitions of the interval in order, none of which has only some of the internal keys of
a plain user key, exactly if no border is misplaced. -/
theorem border_adjustment_splits_no_key_iff {a b : Bytes} {bs : List Bytes}
    (hab : encodeObjectKey a 0 ≤ encodeObjectKey b 0)
    (hsorted : (encodeObjectKey a 0 :: bs).Pairwise (· < ·))
    (hstop : ∀ c ∈ bs, c < encodeObjectKey b 0) :
    (∃ bs', adjustPartitionsBorders (Tikv.pieces (encodeObjectKey a 0) bs (encodeObjectKey b 0)) =
        some (Tikv.pieces (encodeObjectKey a 0) bs' (encodeObjectKey b 0)) ∧
      (∀ p ∈ Tikv.pieces (encodeObjectKey a 0) bs' (encodeObjectKey b 0), p.start ≤ p.stop) ∧
      ∀ k, Plain k → ∃ p ∈ Tikv.pieces (encodeObjectKey a 0) bs' (encodeObjectKey b 0),
        ∀ r, r < 2 ^ 64 → encodeObjectKey a 0 ≤ encodeObjectKey k r →
          encodeObjectKey k r < encodeObjectKey b 0 →
          p.start ≤ encodeObjectKey k r ∧ encodeObjectKey k r < p.stop) ↔
      ∀ c ∈ bs, ¬ Misplaced (encodeObjectKey a 0) (encodeObjectKey b 0) bs c := by
  set lo := encodeObjectKey a 0 with hlo
  set hi := encodeObjectKey b 0 with hhi
  have hstart := (List.pairwise_cons.mp hsorted).1
  have hpanic (c : Bytes) (hc : c ∈ bs) : decode c = .panic ↔ c.length < 9 :=
    decode_eq_panic_iff (Bytes.prefix_of_between (hstart c hc).le (hstop c hc).le)
  have hself : align lo = lo := align_encodeObjectKey a (by decide)
  constructor
  · rintro ⟨bs', hadjust, hpieces, hkeys⟩ c hc hbad
    have hdecode (d : Bytes) (hd : d ∈ bs) : decode d ≠ .panic := by
      intro h
      have hstarts : (Tikv.pieces lo bs hi).Pairwise fun p q => p.start ≤ q.start := by
        rw [← List.pairwise_map, Tikv.start_pieces]
        exact hsorted.imp le_of_lt
      rw [adjustPartitionsBorders, List.Pairwise.insertionSort_eq hstarts,
        adjustFrom_panic hd h] at hadjust
      cases hadjust
    rw [adjustPartitionsBorders_pieces hsorted hdecode] at hadjust
    rw [← Option.some.inj hadjust] at hpieces hkeys
    have hchain := chain_of_pieces hpieces
    have htears : ¬ Tears lo hi (align c) := by
      rintro ⟨k, r, hk, hmax, hl, hx, hx', hh⟩
      obtain ⟨p, hp, hall⟩ := hkeys k hk
      have hle : encodeObjectKey k r ≤ encodeObjectKey k (r + 1) := hx.le.trans hx'
      have hfirst := hall r (by omega) hl (hle.trans_lt hh)
      have hnext := hall (r + 1) hmax (hl.trans hle) hh
      rcases Tikv.border_of_piece hchain hp (List.mem_map_of_mem hc) with h | h
      · exact absurd (hx.trans_le h) (not_lt.mpr hfirst.1)
      · exact absurd (h.trans hx') (not_le.mpr hnext.2)
    cases hbad with
    | short h => exact hdecode c hc ((hpanic c hc).mpr h)
    | overtaken u d q hq heq hd hdc habove hmoved =>
      have hlt : align c < align d := by
        rw [heq, align_encodeObjectKey u hq]
        exact lt_align_iff.mpr ⟨habove, hmoved⟩
      have hmap : ((lo :: bs).map align).Pairwise (· ≤ ·) := by
        rw [List.map_cons, hself]
        exact hchain
      exact absurd (le_of_sorted hsorted hmap hd (List.mem_cons_of_mem lo hc) hdc) (not_le.mpr hlt)
    | raw k w r hk hraw heq hw =>
      exact htears (tears_align_iff.mpr (.inl ⟨k, w, r, hk, hraw, heq, hw⟩))
    | nested k y q r hk hq heq hw =>
      exact htears (tears_align_iff.mpr (.inr ⟨k, y, q, r, hk, hq, heq, hw⟩))
  · intro hgood
    have hdecode (c : Bytes) (hc : c ∈ bs) : decode c ≠ .panic :=
      fun h => hgood c hc (.short ((hpanic c hc).mp h))
    have hmono (d c : Bytes) (hd : d ∈ lo :: bs) (hc : c ∈ bs) (hdc : d < c) :
        align d ≤ align c := by
      by_contra hlt
      rw [not_le] at hlt
      by_cases hraw : ∀ u q, q < 2 ^ 64 → c ≠ encodeObjectKey u q
      · rw [align_of_not_internal hraw] at hlt
        exact absurd ((align_le d).trans_lt hdc) (lt_asymm hlt)
      · push Not at hraw
        obtain ⟨u, q, hq, heq⟩ := hraw
        rw [heq, align_encodeObjectKey u hq] at hlt
        obtain ⟨habove, hmoved⟩ := lt_align_iff.mp hlt
        exact hgood c hc (.overtaken u d q hq heq hd hdc habove hmoved)
    have hchain : (lo :: bs.map align).Pairwise (· ≤ ·) := by
      rw [List.pairwise_cons, List.forall_mem_map, List.pairwise_map]
      refine ⟨fun c hc => hself ▸ hmono lo c List.mem_cons_self hc (hstart c hc), ?_⟩
      exact (List.pairwise_cons.mp hsorted).2.imp_of_mem fun hd hc h =>
        hmono _ _ (List.mem_cons_of_mem lo hd) hc h
    have hends : ∀ c ∈ lo :: bs.map align, c ≤ hi := by
      rw [List.forall_mem_cons, List.forall_mem_map]
      exact ⟨hab, fun c hc => (align_le c).trans (hstop c hc).le⟩
    refine ⟨bs.map align, adjustPartitionsBorders_pieces hsorted hdecode,
      fun p hp => le_of_mem_pieces hchain hends hp, fun k hk => ?_⟩
    have htears : ∀ c ∈ bs.map align, ¬ Tears lo hi c := by
      rw [List.forall_mem_map]
      intro c hc h
      rcases tears_align_iff.mp h with ⟨k, w, r, hk, hraw, heq, hw⟩ | ⟨k, y, q, r, hk, hq, heq, hw⟩
      · exact hgood c hc (.raw k w r hk hraw heq hw)
      · exact hgood c hc (.nested k y q r hk hq heq hw)
    obtain ⟨p, hp, hall⟩ := @exists_piece lo hi _ lo htears k hk
    exact ⟨p, hp, fun r hr hl hh => hall r hr hl hl hh⟩

/-- A border inside `"b"` is moved back, a raw key stays. -/
theorem border_adjustment_splits_no_key_mixed :
    ∃ bs', adjustPartitionsBorders (Tikv.pieces (encodeObjectKey [97] 0)
        [encodeObjectKey [98] 5, magicBytes ++ [98, 98, 98, 98, 98]] (encodeObjectKey [99] 0)) =
        some (Tikv.pieces (encodeObjectKey [97] 0) bs' (encodeObjectKey [99] 0)) ∧
      ∃ p ∈ Tikv.pieces (encodeObjectKey [97] 0) bs' (encodeObjectKey [99] 0),
        p.start ≤ encodeObjectKey [98] 0 ∧ encodeObjectKey [98] 7 < p.stop := by
  have hsplit (k y : Bytes) (n : ℕ) : k ++ splitByte :: y ≠ List.replicate n 98 := by
    intro h
    have hmem : splitByte ∈ List.replicate n (98 : Byte) := h ▸ by simp
    exact absurd (List.eq_of_mem_replicate hmem) (by decide)
  have hraw (u : Bytes) (q : ℕ) : magicBytes ++ [98, 98, 98, 98, 98] ≠ encodeObjectKey u q := by
    intro h
    exact hsplit u (uint64ToBytes q) 5 (List.append_cancel_left h).symm
  have hgood : ∀ c ∈ [encodeObjectKey [98] 5, magicBytes ++ [98, 98, 98, 98, 98]],
      ¬ Misplaced (encodeObjectKey [97] 0) (encodeObjectKey [99] 0)
        [encodeObjectKey [98] 5, magicBytes ++ [98, 98, 98, 98, 98]] c := by
    refine List.forall_mem_cons.mpr ⟨fun h => ?_, List.forall_mem_singleton.mpr fun h => ?_⟩
    · cases h with
      | short h => exact absurd h (by decide)
      | overtaken u d q hq heq hd hdc habove hmoved =>
        obtain ⟨rfl, -⟩ := encodeObjectKey_injective (by decide) hq heq
        simp only [List.mem_cons, List.not_mem_nil, or_false] at hd
        rcases hd with rfl | rfl | rfl
        · exact absurd habove (by decide)
        · exact absurd hdc (lt_irrefl _)
        · exact absurd hdc (by decide)
      | raw k w r hk hraw => exact absurd rfl (hraw [98] 5 (by decide))
      | nested k y q r hk hq heq =>
        exact hsplit k y 1 (encodeObjectKey_injective (by decide) hq heq).1.symm
    · cases h with
      | short h => exact absurd h (by decide)
      | overtaken u d q hq heq => exact hraw u q heq
      | raw k w r hk hraw heq => exact hsplit k w 5 (List.append_cancel_left heq).symm
      | nested k y q r hk hq heq => exact hraw _ q heq
  obtain ⟨bs', hadjust, -, hkeys⟩ := (border_adjustment_splits_no_key_iff (a := [97]) (b := [99])
    (by decide) (by decide) (by decide)).mpr hgood
  obtain ⟨p, hp, hall⟩ := hkeys [98] (by decide +kernel)
  exact ⟨bs', hadjust, p, hp, (hall 0 (by decide) (by decide) (by decide)).1,
    (hall 7 (by decide) (by decide) (by decide)).2⟩

/-- Between two internal keys of `"b"`, and none itself. -/
def cutKey : Bytes := encodeObjectKey [98] 1 ++ [0]

/-- Borders between `"a"` and `"c"` for which the adjustment fails. A short one makes `Decode`
look before the start of the string. One that does not decode stays between two internal keys of
a user key; if a border after it is moved back, a partition even ends before it starts. -/
theorem border_adjustment_fails :
    ((encodeObjectKey [97] 0 < magicBytes ++ [98] ∧ magicBytes ++ [98] < encodeObjectKey [99] 0) ∧
      adjustPartitionsBorders (Tikv.pieces (encodeObjectKey [97] 0) [magicBytes ++ [98]]
        (encodeObjectKey [99] 0)) = none) ∧
    ((encodeObjectKey [97] 0 < cutKey ∧ cutKey < encodeObjectKey [99] 0) ∧
      adjustPartitionsBorders (Tikv.pieces (encodeObjectKey [97] 0) [cutKey]
        (encodeObjectKey [99] 0)) =
        some [⟨encodeObjectKey [97] 0, cutKey⟩, ⟨cutKey, encodeObjectKey [99] 0⟩] ∧
      encodeObjectKey [98] 0 < cutKey ∧ cutKey < encodeObjectKey [98] 2) ∧
    ((cutKey < encodeObjectKey [98] 5 ∧ encodeObjectKey [98] 5 < encodeObjectKey [99] 0) ∧
      adjustPartitionsBorders (Tikv.pieces (encodeObjectKey [97] 0)
        [cutKey, encodeObjectKey [98] 5] (encodeObjectKey [99] 0)) =
        some [⟨encodeObjectKey [97] 0, cutKey⟩, ⟨cutKey, encodeObjectKey [98] 0⟩,
          ⟨encodeObjectKey [98] 0, encodeObjectKey [99] 0⟩] ∧
      encodeObjectKey [98] 0 < cutKey) := by
  decide

end Scanner
end KubeBrain

import KubeBrain.Backend.Range
import KubeBrain.Scan.Borders
import Mathlib.Algebra.Ring.Parity

/-! The ranges that a compaction covers. The borders of all prefixes are sorted together and
taken in pairs, so a key is covered when it lies below an odd number of the prefixes. -/
namespace KubeBrain

open Coder

/-- An error of `fmt.Errorf`. -/
structure OptionError where
  format : String
  args : List Bytes
  deriving DecidableEq

def validateSkipped (keyPrefix : Bytes) : List Bytes → Option OptionError
  | [] => none
  | skippedPrefix :: rest =>
    if ¬ keyPrefix.isPrefixOf skippedPrefix then
      some ⟨"skipped prefix %s has no prefix %s", [skippedPrefix, keyPrefix]⟩
    else if [47].isSuffixOf skippedPrefix then
      some ⟨"skipped prefix %s is invalid, make sure it has no / suffix", [skippedPrefix]⟩
    else validateSkipped keyPrefix rest

/-- What `KubeBrainOption.Validate` checks of the prefixes. -/
def validate (cfg : Config) : Option OptionError :=
  if [47].isSuffixOf cfg.keyPrefix then
    some ⟨"prefix %s is invalid, make sure it has no / suffix", [cfg.keyPrefix]⟩
  else validateSkipped cfg.keyPrefix cfg.skippedPrefixes

theorem of_validateSkipped {p : Bytes} {skipped : List Bytes}
    (h : validateSkipped p skipped = none) :
    ∀ s ∈ skipped, p <+: s ∧ ¬ [47] <:+ s := by
  induction skipped with
  | nil => simp
  | cons s rest ih =>
    unfold validateSkipped at h
    split at h
    · cases h
    next hpre =>
    split at h
    · cases h
    next hsuf =>
    rw [List.forall_mem_cons]
    exact ⟨⟨by simpa using hpre, by simpa using hsuf⟩, ih h⟩

theorem of_validate {cfg : Config} (h : validate cfg = none) :
    (¬ [47] <:+ cfg.keyPrefix) ∧ ∀ s ∈ cfg.skippedPrefixes, cfg.keyPrefix <+: s ∧ ¬ [47] <:+ s := by
  unfold validate at h
  split at h
  · cases h
  next hsuf => exact ⟨by simpa using hsuf, of_validateSkipped h⟩

/-- The internal keys of a directory lie from its first border on and below its second. -/
def Covers (pair : Bytes × Bytes) (key : Bytes) : Prop := pair.1 ≤ key ∧ key < pair.2

instance (pair : Bytes × Bytes) (key : Bytes) : Decidable (Covers pair key) :=
  inferInstanceAs (Decidable (_ ∧ _))

/-- Even-odd rule: a key lies in one of the pairs when the number of borders up to it is odd. -/
theorem covered_iff_odd {l : List Bytes} (hs : l.Pairwise (· ≤ ·)) (heven : Even l.length)
    (x : Bytes) : (∃ pair ∈ pairs l, Covers pair x) ↔ Odd (l.countP fun b => decide (b ≤ x)) := by
  induction l using pairs.induct with
  | case1 a b rest ih =>
    obtain ⟨ha, hb, hrest⟩ : (a ≤ b ∧ ∀ c ∈ rest, a ≤ c) ∧ (∀ c ∈ rest, b ≤ c) ∧
        rest.Pairwise (· ≤ ·) := by simpa [List.pairwise_cons] using hs
    have hlen : Even rest.length := by
      simp only [List.length_cons] at heven
      rw [Nat.even_iff] at heven ⊢
      omega
    have ih := ih hrest hlen
    have hnone (hx : x < b) : rest.countP (fun c => decide (c ≤ x)) = 0 := by
      rw [List.countP_eq_zero]
      intro c hc
      simpa using hx.trans_le (hb c hc)
    rw [pairs, List.exists_mem_cons_iff, ih, List.countP_cons, List.countP_cons]
    unfold Covers
    rcases lt_or_ge x a with hxa | hax
    · have hxb := hxa.trans_le ha.1
      simp [not_le.mpr hxa, not_le.mpr hxb, hnone hxb]
    · rcases lt_or_ge x b with hxb | hbx
      · simp [hax, hxb, not_le.mpr hxb, hnone hxb]
      · simp [hax, hbx, not_lt.mpr hbx, Nat.odd_add_one]
  | case2 l hl =>
    have hnil : l = [] := by
      cases l with
      | nil => rfl
      | cons a l => cases l with
        | nil => exact absurd heven (by simp)
        | cons b rest => exact absurd rfl (hl a b rest)
    subst hnil
    simp [pairs]

/-- The borders of one prefix. -/
def dirRange (key : Bytes) : Bytes × Bytes :=
  (encodeObjectKey (withSlash key) 0, encodeObjectKey (prefixEnd (withSlash key)) 0)

theorem odd_countP_borders (keys : List Bytes)
    (hle : ∀ key ∈ keys, (dirRange key).1 ≤ (dirRange key).2) (x : Bytes) :
    Odd ((keys.flatMap fun key => [(dirRange key).1, (dirRange key).2]).countP
      fun b => decide (b ≤ x)) ↔ Odd (keys.countP fun key => decide (Covers (dirRange key) x)) := by
  induction keys with
  | nil => rfl
  | cons key keys ih =>
    obtain ⟨hkey, hkeys⟩ := List.forall_mem_cons.mp hle
    have ih := ih hkeys
    rw [List.flatMap_cons, List.countP_append, List.countP_cons, List.countP_cons, List.countP_nil,
      List.countP_cons]
    rw [Nat.odd_iff, Nat.odd_iff] at ih ⊢
    unfold Covers at ih ⊢
    rcases lt_or_ge x (dirRange key).1 with h₁ | h₁
    · simp only [not_le.mpr h₁, not_le.mpr (h₁.trans_le hkey), false_and, decide_false]
      simpa using ih
    · rcases lt_or_ge x (dirRange key).2 with h₂ | h₂
      · simp only [h₁, h₂, not_le.mpr h₂, and_self, decide_true, decide_false, if_true]
        simp only [Bool.false_eq_true, if_false]
        omega
      · simp only [h₁, h₂, not_lt.mpr h₂, and_false, decide_true, decide_false, if_true]
        simp only [Bool.false_eq_true, if_false]
        omega

theorem dirRange_eq {x : Bytes} (h : ¬ [47] <:+ x) :
    dirRange x = (encodeObjectKey (x ++ [47]) 0, encodeObjectKey (x ++ [48]) 0) := by
  have hslash : withSlash x = x ++ [47] := if_neg (by simpa using h)
  rw [dirRange, hslash, prefixEnd_concat x (by decide)]
  rfl

/-- Zero bytes are below whatever has another byte. -/
theorem uint64ToBytes_zero_lt (t s : Bytes) {b : Byte} (hb : 0 < b) :
    uint64ToBytes 0 < t ++ b :: s := by
  have hzero : uint64ToBytes 0 = List.replicate 8 0 := by decide
  rw [hzero]
  generalize 8 = n
  induction t generalizing n with
  | nil =>
    cases n with
    | zero => exact List.nil_lt_cons _ _
    | succ n => exact List.cons_lt_cons_iff.mpr (.inl hb)
  | cons c t ih =>
    cases n with
    | zero => exact List.nil_lt_cons _ _
    | succ n =>
      rw [List.replicate_succ, List.cons_append, List.cons_lt_cons_iff]
      rcases eq_or_ne c 0 with rfl | hc
      · exact .inr ⟨rfl, ih n⟩
      · exact .inl (Fin.pos_iff_ne_zero.mpr hc)

/-- A plain key sorts after the separator. -/
theorem split_le {k : Bytes} (hk : Plain k) :
    splitByte :: uint64ToBytes 0 ≤ k ++ splitByte :: uint64ToBytes 0 := by
  cases k with
  | nil => exact le_rfl
  | cons b k =>
    refine le_of_lt ?_
    rw [List.cons_append, List.cons_lt_cons_iff]
    exact .inl (hk b (by simp))

/-- The index key of a plain key lies in the range of a directory when the key does. -/
theorem covers_dirRange {x k : Bytes} (hslash : ¬ [47] <:+ x) (hk : Plain k) :
    Covers (dirRange x) (encodeObjectKey k 0) ↔ x ++ [47] <+: k := by
  rw [dirRange_eq hslash]
  unfold Covers encodeObjectKey
  simp only [Bytes.append_le_append_left_iff, Bytes.append_lt_append_left_iff, List.append_assoc]
  constructor
  · rintro ⟨hlo, hhi⟩
    -- after the separator of the index key there are only zeros
    have hstart : x <+: k := by
      have hpre := Bytes.prefix_of_between hlo hhi.le
      rcases List.prefix_or_prefix_of_prefix hpre (List.prefix_append k _) with h | h
      · exact h
      · obtain ⟨t, rfl⟩ := h
        rw [List.prefix_append_right_inj] at hpre
        cases t with
        | nil => simp
        | cons b t =>
          obtain ⟨rfl, -⟩ := List.cons_prefix_cons.mp hpre
          rw [List.append_assoc, Bytes.append_le_append_left_iff, List.cons_append, ← not_lt,
            List.cons_lt_cons_iff] at hlo
          exact absurd (.inr ⟨rfl, uint64ToBytes_zero_lt t _ (by decide)⟩) hlo
    obtain ⟨t, rfl⟩ := hstart
    rw [List.append_assoc, Bytes.append_le_append_left_iff] at hlo
    rw [List.append_assoc, Bytes.append_lt_append_left_iff] at hhi
    rw [List.prefix_append_right_inj]
    cases t with
    | nil => exact absurd hlo (not_le.mpr (Bytes.append_cons_lt [] _ _ (by decide)))
    | cons b t =>
      have ht : Plain t := fun c hc => hk c (by simp [hc])
      rw [List.singleton_append, List.cons_append, ← not_lt, List.cons_lt_cons_iff, not_or,
        not_lt] at hlo
      rw [List.singleton_append, List.cons_append, List.cons_lt_cons_iff] at hhi
      rcases hhi with hlt | ⟨rfl, hlt⟩
      · have hb : b = 47 := le_antisymm (Nat.le_of_lt_succ hlt) hlo.1
        rw [hb]
        exact List.cons_prefix_cons.mpr ⟨rfl, List.nil_prefix⟩
      · exact absurd hlt (not_lt.mpr (split_le ht))
  · rintro ⟨t, rfl⟩
    have ht : Plain t := fun c hc => hk c (by simp [hc])
    simp only [List.append_assoc, Bytes.append_le_append_left_iff, Bytes.append_lt_append_left_iff]
    exact ⟨split_le ht, Bytes.append_cons_lt [] _ _ (by decide)⟩

/-- The key lies in the directory `x`. -/
def Below (x k : Bytes) : Prop := x ++ [47] <+: k

instance (x k : Bytes) : Decidable (Below x k) := inferInstanceAs (Decidable (_ <+: _))

/-- A prefix that continues a key with the separator, so that its borders lie among the internal
keys of the key. -/
def Continues (d k : Bytes) : Prop :=
  ∃ z, d = k ++ splitByte :: z ∧ ¬ List.replicate 8 255 <+: z

/-- After eight greatest bytes nothing is below the greatest revision. -/
theorem le_maxUint64_iff (z s : Bytes) {b : Byte} (hb : b ≠ 255) :
    z ++ b :: s ≤ uint64ToBytes maxUint64 ↔ ¬ List.replicate 8 255 <+: z := by
  have hmax : uint64ToBytes maxUint64 = List.replicate 8 255 := by decide
  rw [hmax]
  constructor
  · rintro hle ⟨t, rfl⟩
    rw [List.append_assoc] at hle
    have heq := le_antisymm hle (Bytes.le_append _ _)
    simpa using congrArg List.length heq
  · intro hno
    by_contra hlt
    have hpre := Bytes.prefix_of_le (fun x hx => List.eq_of_mem_replicate hx) (not_le.mp hlt).le
    rcases List.prefix_or_prefix_of_prefix hpre (List.prefix_append z _) with h | ⟨t, ht⟩
    · exact hno h
    · cases t with
      | nil => exact hno (by simp [← ht])
      | cons c t =>
        rw [← ht, List.prefix_append_right_inj] at hpre
        obtain ⟨rfl, -⟩ := List.cons_prefix_cons.mp hpre
        exact hb (List.eq_of_mem_replicate (ht ▸ by simp : c ∈ List.replicate 8 255))

/-- A border lies among the internal keys of a plain key exactly if its prefix continues the
key. -/
theorem among_iff {d k : Bytes} (hk : Plain k) {b : Byte} (hb : b ≠ splitByte ∧ b ≠ 255 ∧ 0 < b) :
    encodeObjectKey k 0 < encodeObjectKey (d ++ [b]) 0 ∧
      encodeObjectKey (d ++ [b]) 0 ≤ encodeObjectKey k maxUint64 ↔ Continues d k := by
  constructor
  · rintro ⟨hlt, hle⟩
    obtain ⟨w, heq, hw, hw'⟩ := Scanner.exists_suffix hlt hle
    obtain ⟨y, hy, rfl⟩ := Scanner.nested_of_eq hk (by decide) hw heq
    rcases List.eq_nil_or_concat y with rfl | ⟨z, c, rfl⟩
    · exact absurd (List.append_inj' hy rfl).2 (by simpa using hb.1)
    · rw [List.concat_eq_append, ← List.cons_append, ← List.append_assoc] at hy
      obtain ⟨rfl, hc⟩ := List.append_inj' hy rfl
      obtain rfl : b = c := by simpa using hc
      rw [List.concat_eq_append, List.append_assoc, List.singleton_append,
        le_maxUint64_iff _ _ hb.2.1] at hw'
      exact ⟨z, rfl, hw'⟩
  · rintro ⟨z, rfl, hz⟩
    have hform : encodeObjectKey (k ++ splitByte :: z ++ [b]) 0 =
        magicBytes ++ (k ++ splitByte :: (z ++ b :: splitByte :: uint64ToBytes 0)) := by
      simp [encodeObjectKey]
    rw [hform]
    unfold encodeObjectKey
    rw [Bytes.append_lt_append_left_iff, Bytes.append_lt_append_left_iff,
      Bytes.append_le_append_left_iff, Bytes.append_le_append_left_iff, List.cons_lt_cons_iff,
      ← not_lt, List.cons_lt_cons_iff, not_or]
    refine ⟨.inr ⟨rfl, uint64ToBytes_zero_lt z _ hb.2.2⟩, lt_irrefl _, fun h => ?_⟩
    exact absurd ((le_maxUint64_iff z _ hb.2.1).mpr hz) (not_le.mpr h.2)

section Borders

variable {cfg : Config}

/-- `Prefix` and `SkippedPrefixes`. -/
def keyPrefixes (cfg : Config) : List Bytes := cfg.keyPrefix :: cfg.skippedPrefixes

theorem no_slash (hvalid : validate cfg = none) : ∀ x ∈ keyPrefixes cfg, ¬ [47] <:+ x := by
  obtain ⟨hp, hs⟩ := of_validate hvalid
  exact List.forall_mem_cons.mpr ⟨hp, fun s hmem => (hs s hmem).2⟩

theorem getCompactBorders_perm (cfg : Config) : (getCompactBorders cfg).Perm
    ((keyPrefixes cfg).flatMap fun key => [(dirRange key).1, (dirRange key).2]) :=
  List.perm_insertionSort _ _

theorem mem_getCompactBorders (hvalid : validate cfg = none) {b : Bytes} :
    b ∈ getCompactBorders cfg ↔ ∃ d ∈ keyPrefixes cfg,
      b = encodeObjectKey (d ++ [47]) 0 ∨ b = encodeObjectKey (d ++ [48]) 0 := by
  rw [(getCompactBorders_perm cfg).mem_iff, List.mem_flatMap]
  refine exists_congr fun d => and_congr_right fun hd => ?_
  rw [dirRange_eq (no_slash hvalid d hd)]
  simp

theorem getCompactBorders_sorted (cfg : Config) : (getCompactBorders cfg).Pairwise (· ≤ ·) :=
  List.pairwise_insertionSort _ _

theorem dirRange_le {x : Bytes} (h : ¬ [47] <:+ x) : (dirRange x).1 ≤ (dirRange x).2 := by
  rw [dirRange_eq h]
  unfold encodeObjectKey
  rw [Bytes.append_le_append_left_iff, List.append_assoc, List.append_assoc,
    Bytes.append_le_append_left_iff]
  exact (Bytes.append_cons_lt [] _ _ (by decide)).le

/-- An index key is compacted when its user key lies in an odd number of the prefixes. -/
theorem compacted_iff_odd (hvalid : validate cfg = none) {k : Bytes} (hk : Plain k) :
    (∃ pair ∈ pairs (getCompactBorders cfg), Covers pair (encodeObjectKey k 0)) ↔
      Odd ((keyPrefixes cfg).countP fun x => decide (Below x k)) := by
  have hslash := no_slash hvalid
  have hlen : Even (getCompactBorders cfg).length := by
    rw [(getCompactBorders_perm cfg).length_eq]
    simp [List.length_flatMap]
  rw [covered_iff_odd (getCompactBorders_sorted cfg) hlen, (getCompactBorders_perm cfg).countP_eq,
    odd_countP_borders _ fun x hx => dirRange_le (hslash x hx)]
  have hcount : ((keyPrefixes cfg).countP fun x =>
      decide (Covers (dirRange x) (encodeObjectKey k 0))) =
      (keyPrefixes cfg).countP fun x => decide (Below x k) := by
    apply List.countP_congr
    intro x hx
    rw [decide_eq_true_iff, decide_eq_true_iff]
    exact covers_dirRange (hslash x hx) hk
  rw [hcount]

/-- No border lies inside a pair. -/
theorem border_of_pair {l : List Bytes} (hs : l.Pairwise (· ≤ ·)) {pair : Bytes × Bytes}
    (h : pair ∈ pairs l) :
    (pair.1 ∈ l ∧ pair.2 ∈ l) ∧ ∀ b ∈ l, b ≤ pair.1 ∨ pair.2 ≤ b := by
  induction l using pairs.induct with
  | case1 a b rest ih =>
    obtain ⟨ha, hb, hrest⟩ : (a ≤ b ∧ ∀ c ∈ rest, a ≤ c) ∧ (∀ c ∈ rest, b ≤ c) ∧
        rest.Pairwise (· ≤ ·) := by simpa [List.pairwise_cons] using hs
    rw [pairs] at h
    rcases List.mem_cons.mp h with rfl | h
    · refine ⟨by simp, List.forall_mem_cons.mpr ⟨.inl le_rfl, List.forall_mem_cons.mpr
        ⟨.inr le_rfl, fun c hc => .inr (hb c hc)⟩⟩⟩
    · obtain ⟨⟨hfirst, hsecond⟩, hgap⟩ := ih hrest h
      refine ⟨⟨by simp [hfirst], by simp [hsecond]⟩, List.forall_mem_cons.mpr
        ⟨.inl (ha.2 _ hfirst), List.forall_mem_cons.mpr ⟨.inl (hb _ hfirst), hgap⟩⟩⟩
  | case2 l hl =>
    rw [pairs] at h
    · cases h
    · exact hl

/-- All internal keys of a plain key lie in one pair exactly if its index key lies in one and no
prefix continues the key. -/
theorem compacted_iff (hvalid : validate cfg = none) {k : Bytes} (hk : Plain k) :
    (∃ pair ∈ pairs (getCompactBorders cfg), ∀ r, r < 2 ^ 64 → Covers pair (encodeObjectKey k r)) ↔
      Odd ((keyPrefixes cfg).countP fun x => decide (Below x k)) ∧
      ∀ d ∈ keyPrefixes cfg, ¬ Continues d k := by
  rw [← compacted_iff_odd hvalid hk]
  constructor
  · rintro ⟨pair, hpair, hall⟩
    refine ⟨⟨pair, hpair, hall 0 (by decide)⟩, fun d hd hcont => ?_⟩
    obtain ⟨hlt, hle⟩ := (among_iff hk (b := 47) (by decide)).mpr hcont
    have hborder := (mem_getCompactBorders hvalid).mpr ⟨d, hd, .inl rfl⟩
    rcases (border_of_pair (getCompactBorders_sorted cfg) hpair).2 _ hborder with h | h
    · exact absurd (h.trans (hall 0 (by decide)).1) (not_le.mpr hlt)
    · exact absurd (h.trans hle) (not_le.mpr (hall maxUint64 (by decide)).2)
  · rintro ⟨⟨pair, hpair, hindex⟩, hno⟩
    refine ⟨pair, hpair, fun r hr => ⟨hindex.1.trans ?_, ?_⟩⟩
    · exact (encodeObjectKey_le_iff k (by decide) hr).mpr (Nat.zero_le r)
    · by_contra hge
      have hle : pair.2 ≤ encodeObjectKey k maxUint64 :=
        (not_lt.mp hge).trans ((encodeObjectKey_le_iff k hr (by decide)).mpr (Nat.le_pred_of_lt hr))
      obtain ⟨d, hd, heq | heq⟩ := (mem_getCompactBorders hvalid).mp
        (border_of_pair (getCompactBorders_sorted cfg) hpair).1.2
      · rw [heq] at hle
        exact hno d hd ((among_iff hk (by decide)).mp ⟨heq ▸ hindex.2, hle⟩)
      · rw [heq] at hle
        exact hno d hd ((among_iff hk (by decide)).mp ⟨heq ▸ hindex.2, hle⟩)

/-- Where the ranges are right for a key: a skipped key lies below an even number of the prefixes,
repetitions counted, and no prefix continues a key that is to be compacted. -/
def RangesRight (cfg : Config) (k : Bytes) : Prop :=
  if ∃ s ∈ cfg.skippedPrefixes, Below s k then
    Even ((keyPrefixes cfg).countP fun x => decide (Below x k)) ∨
      ∃ d ∈ keyPrefixes cfg, Continues d k
  else Below cfg.keyPrefix k → ∀ d ∈ keyPrefixes cfg, ¬ Continues d k

/-- The ranges of a compaction are the prefix without the skipped ones, for the keys for which they
are right: all internal keys of a plain user key lie in one of the pairs if and only if it lies
below the prefix and below none of the others. -/
theorem compact_ranges_exact_iff (hvalid : validate cfg = none) {k : Bytes} (hk : Plain k) :
    ((∃ pair ∈ pairs (getCompactBorders cfg), ∀ r, r < 2 ^ 64 → Covers pair (encodeObjectKey k r)) ↔
      Below cfg.keyPrefix k ∧ ∀ s ∈ cfg.skippedPrefixes, ¬ Below s k) ↔ RangesRight cfg k := by
  rw [compacted_iff hvalid hk]
  unfold RangesRight
  by_cases hskipped : ∃ s ∈ cfg.skippedPrefixes, Below s k
  · have hkept : ¬ (Below cfg.keyPrefix k ∧ ∀ s ∈ cfg.skippedPrefixes, ¬ Below s k) := by
      rintro ⟨-, h⟩
      obtain ⟨s, hs, hb⟩ := hskipped
      exact h s hs hb
    rw [if_pos hskipped, iff_false_right hkept, not_and_or, Nat.not_odd_iff_even]
    simp only [not_forall, not_not, exists_prop]
  · have hcount : ((keyPrefixes cfg).countP fun x => decide (Below x k)) =
        if Below cfg.keyPrefix k then 1 else 0 := by
      have hzero : (cfg.skippedPrefixes.countP fun x => decide (Below x k)) = 0 := by
        rw [List.countP_eq_zero]
        intro s hs hb
        exact hskipped ⟨s, hs, by simpa using hb⟩
      rw [keyPrefixes, List.countP_cons, hzero]
      simp
    have hnone : ∀ s ∈ cfg.skippedPrefixes, ¬ Below s k := fun s hs hb => hskipped ⟨s, hs, hb⟩
    rw [if_neg hskipped, hcount, and_iff_left hnone]
    by_cases hp : Below cfg.keyPrefix k
    · simp [hp]
    · simp [hp]

/-- Prefix `/r` and the given skipped prefixes. -/
def skipping (skipped : List Bytes) : Config := ⟨true, [47, 114], skipped, 0, false⟩

theorem not_continues {d k : Bytes} (h : splitByte ∉ d) : ¬ Continues d k := by
  rintro ⟨z, rfl, -⟩
  exact h (by simp)

/-- The keys of `/r/b` are compacted when `/r/a` is skipped. -/
theorem compact_ranges_exact_sibling :
    (∃ pair ∈ pairs (getCompactBorders (skipping [[47, 114, 47, 97]])), ∀ r, r < 2 ^ 64 →
      Covers pair (encodeObjectKey [47, 114, 47, 98] r)) ↔
    Below [47, 114] [47, 114, 47, 98] ∧ ∀ s ∈ [[47, 114, 47, 97]], ¬ Below s [47, 114, 47, 98] := by
  have hsplit : ∀ d ∈ keyPrefixes (skipping [[47, 114, 47, 97]]), splitByte ∉ d := by decide
  have hvalid : validate (skipping [[47, 114, 47, 97]]) = none := rfl
  refine (compact_ranges_exact_iff hvalid (by decide +kernel)).mpr ?_
  rw [RangesRight, if_neg (by decide)]
  exact fun _ d hd => not_continues (hsplit d hd)

/-- The configuration is accepted, and the key is compacted though it is skipped. -/
def Overrun (cfg : Config) (k : Bytes) : Prop :=
  validate cfg = none ∧ Plain k ∧ (∃ s ∈ cfg.skippedPrefixes, Below s k) ∧
    ∃ pair ∈ pairs (getCompactBorders cfg), ∀ r, r < 2 ^ 64 → Covers pair (encodeObjectKey k r)

/-- Three ways to compact skipped keys: the prefix `/r/a` is given twice, `/r/a/b` is given with
`/r/a`, and `/rs` starts with the prefix `/r` but does not lie below it. -/
theorem skipped_keys_compacted :
    Overrun (skipping [[47, 114, 47, 97], [47, 114, 47, 97]]) [47, 114, 47, 97, 47, 120] ∧
    Overrun (skipping [[47, 114, 47, 97], [47, 114, 47, 97, 47, 98]])
      [47, 114, 47, 97, 47, 98, 47, 120] ∧
    Overrun (skipping [[47, 114, 115]]) [47, 114, 115, 47, 120] := by
  have hodd {skipped : List Bytes} {k : Bytes} (hvalid : validate (skipping skipped) = none)
      (hk : Plain k) (hsplit : ∀ d ∈ keyPrefixes (skipping skipped), splitByte ∉ d)
      (hcount : Odd ((keyPrefixes (skipping skipped)).countP fun x => decide (Below x k))) :
      ∃ pair ∈ pairs (getCompactBorders (skipping skipped)), ∀ r, r < 2 ^ 64 →
        Covers pair (encodeObjectKey k r) :=
    (compacted_iff hvalid hk).mpr ⟨hcount, fun d hd => not_continues (hsplit d hd)⟩
  refine ⟨⟨rfl, by decide +kernel, ⟨[47, 114, 47, 97], by decide, by decide⟩, ?_⟩,
    ⟨rfl, by decide +kernel, ⟨[47, 114, 47, 97], by decide, by decide⟩, ?_⟩,
    ⟨rfl, by decide +kernel, ⟨[47, 114, 115], by decide, by decide⟩, ?_⟩⟩
  · exact hodd rfl (by decide +kernel) (by decide) (by decide)
  · exact hodd rfl (by decide +kernel) (by decide) (by decide)
  · exact hodd rfl (by decide +kernel) (by decide) (by decide)

end Borders

end KubeBrain

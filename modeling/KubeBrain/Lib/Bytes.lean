import Mathlib.Data.List.Lex
import Mathlib.Order.Fin.Basic
import Mathlib.Tactic.Ring
import Mathlib.Tactic.Linarith

/-! Byte strings in lexicographic order and fixed-width big-endian numbers. -/

abbrev Byte := Fin 256

/-- A constant, so that literals of bytes carry no proof of their own. -/
instance instNeZeroByte : NeZero 256 := ⟨by decide⟩

abbrev Bytes := List Byte

namespace Bytes

theorem append_lt_append_left_iff (p a b : Bytes) : p ++ a < p ++ b ↔ a < b := by
  induction p with
  | nil => rfl
  | cons x p ih => simp [ih]

theorem append_le_append_left_iff (p a b : Bytes) : p ++ a ≤ p ++ b ↔ a ≤ b := by
  rw [← not_lt, ← not_lt, append_lt_append_left_iff]

/-- A string is below another when they first differ at a smaller byte. -/
theorem append_cons_lt (p a b : Bytes) {x y : Byte} (h : x < y) : p ++ x :: a < p ++ y :: b := by
  rw [append_lt_append_left_iff, List.cons_lt_cons_iff]
  exact .inl h

/-- Two strings agree up to a first difference, or one continues the other. -/
theorem first_difference (a b : Bytes) : a <+: b ∨ b <+: a ∨
    ∃ p x y s t, x ≠ y ∧ a = p ++ x :: s ∧ b = p ++ y :: t := by
  induction a generalizing b with
  | nil => exact .inl (List.nil_prefix)
  | cons x a ih =>
    cases b with
    | nil => exact .inr (.inl List.nil_prefix)
    | cons y b =>
      by_cases hxy : x = y
      · subst hxy
        rcases ih b with h | h | ⟨p, u, v, s, t, huv, rfl, rfl⟩
        · exact .inl (List.cons_prefix_cons.mpr ⟨rfl, h⟩)
        · exact .inr (.inl (List.cons_prefix_cons.mpr ⟨rfl, h⟩))
        · exact .inr (.inr ⟨x :: p, u, v, s, t, huv, rfl, rfl⟩)
      · exact .inr (.inr ⟨[], x, y, a, b, hxy, rfl, rfl⟩)

/-- What lies between two strings with a common start has that start. -/
theorem prefix_of_between {p a b x : Bytes} (ha : p ++ a ≤ x) (hb : x ≤ p ++ b) : p <+: x := by
  induction p generalizing x with
  | nil => exact List.nil_prefix
  | cons c p ih =>
    cases x with
    | nil => exact absurd ha (not_le.mpr (List.nil_lt_cons _ _))
    | cons d x =>
      rw [List.cons_append, ← not_lt, List.cons_lt_cons_iff, not_or, not_and, not_lt] at ha hb
      obtain rfl : c = d := le_antisymm ha.1 hb.1
      exact List.cons_prefix_cons.mpr ⟨rfl, ih (not_lt.mp (ha.2 rfl)) (not_lt.mp (hb.2 rfl))⟩

/-- A zero byte makes the next string. -/
theorem lt_concat_zero_iff (a b : Bytes) : a < b ++ [0] ↔ a ≤ b := by
  induction b generalizing a with
  | nil =>
    cases a with
    | nil => simp
    | cons x a => simp [List.cons_lt_cons_iff]
  | cons y b ih =>
    cases a with
    | nil => simp [← not_lt]
    | cons x a =>
      rw [List.cons_append, List.cons_lt_cons_iff, ih, ← not_lt (a := y :: b),
        List.cons_lt_cons_iff]
      rcases lt_trichotomy x y with h | rfl | h
      · simp [h, h.ne', not_lt_of_gt h]
      · simp
      · simp [h, h.ne', not_lt_of_gt h]

/-- Only continuations of a string of greatest bytes are above it. -/
theorem prefix_of_le {t k : Bytes} (ht : ∀ x ∈ t, x = 255) (h : t ≤ k) : t <+: k := by
  induction t generalizing k with
  | nil => exact List.nil_prefix
  | cons x t ih =>
    obtain rfl := ht x List.mem_cons_self
    cases k with
    | nil => exact absurd h (not_le.mpr (List.nil_lt_cons _ _))
    | cons y k =>
      rw [← not_lt, List.cons_lt_cons_iff, not_or, not_and, not_lt] at h
      obtain rfl : (255 : Byte) = y := le_antisymm h.1 (Fin.le_last y)
      refine List.cons_prefix_cons.mpr ⟨rfl, ih (fun x hx => ht x (List.mem_cons_of_mem _ hx)) ?_⟩
      exact not_lt.mp (h.2 rfl)

theorem le_append (a b : Bytes) : a ≤ a ++ b := by
  rw [← not_lt]
  intro h
  have h : a ++ b < a ++ [] := by rwa [List.append_nil]
  rw [append_lt_append_left_iff] at h
  exact List.not_lt_nil b h

/-- The continuations of a string are what lies below its last byte that can be incremented. -/
theorem between_iff_prefix (q : Bytes) {b : Byte} {t k : Bytes} (hb : b < 255)
    (ht : ∀ x ∈ t, x = 255) : q ++ b :: t ≤ k ∧ k < q ++ [b + 1] ↔ q ++ b :: t <+: k := by
  have hsucc : (b + 1).val = b.val + 1 := Fin.val_add_one_of_lt (n := 255) hb
  constructor
  · rintro ⟨hle, hlt⟩
    obtain ⟨k, rfl⟩ := prefix_of_between hle hlt.le
    rw [append_le_append_left_iff] at hle
    rw [append_lt_append_left_iff] at hlt
    rw [List.prefix_append_right_inj]
    cases k with
    | nil => exact absurd hle (not_le.mpr (List.nil_lt_cons _ _))
    | cons c k =>
      rw [← not_lt, List.cons_lt_cons_iff, not_or, not_and, not_lt, not_lt] at hle
      rw [List.cons_lt_cons_iff] at hlt
      have hcb : c = b := by
        rcases hlt with hlt | ⟨-, hlt⟩
        · have := hle.1
          rw [Fin.le_def] at this
          rw [Fin.lt_def] at hlt
          exact Fin.ext (by omega)
        · exact absurd hlt (List.not_lt_nil k)
      subst hcb
      exact List.cons_prefix_cons.mpr ⟨rfl, prefix_of_le ht (hle.2 rfl)⟩
  · rintro ⟨k, rfl⟩
    refine ⟨le_append _ _, ?_⟩
    rw [List.append_assoc]
    refine append_cons_lt q _ _ ?_
    rw [Fin.lt_def]
    omega
/-- The last byte of a string that can be incremented. -/
theorem exists_last_lt {p : Bytes} (h : ∃ b ∈ p, b < 255) :
    ∃ q b t, p = q ++ b :: t ∧ b < 255 ∧ ∀ x ∈ t, x = 255 := by
  induction p with
  | nil =>
    obtain ⟨b, hb, -⟩ := h
    cases hb
  | cons x p ih =>
    by_cases hp : ∃ b ∈ p, b < 255
    · obtain ⟨q, b, t, rfl, hb, ht⟩ := ih hp
      exact ⟨x :: q, b, t, rfl, hb, ht⟩
    · have hmax (y : Byte) (hy : y ∈ p) : y = 255 :=
        le_antisymm (Fin.le_last y) (not_lt.mp fun hlt => hp ⟨y, hy, hlt⟩)
      obtain ⟨b, hb, hlt⟩ := h
      rcases List.mem_cons.mp hb with rfl | hb
      · exact ⟨[], b, p, rfl, hlt, hmax⟩
      · exact absurd ⟨b, hb, hlt⟩ hp

/-- The `n` low bytes of a number, most significant first. -/
def ofNatBE : ℕ → ℕ → Bytes
  | 0, _ => []
  | n + 1, r => Fin.ofNat 256 (r / 256 ^ n) :: ofNatBE n r

def toNatBE : Bytes → ℕ
  | [] => 0
  | b :: bs => b.val * 256 ^ bs.length + toNatBE bs

@[simp] theorem length_ofNatBE (n r : ℕ) : (ofNatBE n r).length = n := by
  induction n with
  | zero => rfl
  | succ n ih => simp [ofNatBE, ih]

theorem toNatBE_lt (bs : Bytes) : toNatBE bs < 256 ^ bs.length := by
  induction bs with
  | nil => simp [toNatBE]
  | cons b bs ih =>
    have hb := b.isLt
    simp only [toNatBE, List.length_cons, pow_succ]
    nlinarith

theorem toNatBE_ofNatBE (n r : ℕ) : toNatBE (ofNatBE n r) = r % 256 ^ n := by
  induction n with
  | zero => simp [ofNatBE, toNatBE, Nat.mod_one]
  | succ n ih =>
    simp only [ofNatBE, toNatBE, length_ofNatBE, ih, Fin.val_ofNat]
    rw [pow_succ, Nat.mod_mul]
    ring

theorem toNatBE_injective {a b : Bytes} (hl : a.length = b.length)
    (h : toNatBE a = toNatBE b) : a = b := by
  induction a generalizing b with
  | nil => exact (List.length_eq_zero_iff.mp hl.symm).symm
  | cons x a ih =>
    cases b with
    | nil => simp at hl
    | cons y b =>
      have hl' : a.length = b.length := by simpa using hl
      simp only [toNatBE, hl'] at h
      have ha := toNatBE_lt a
      have hb := toNatBE_lt b
      rw [hl'] at ha
      have hxy : x.val = y.val := by
        rcases Nat.lt_trichotomy x.val y.val with hlt | heq | hlt
        · nlinarith
        · exact heq
        · nlinarith
      have hab : toNatBE a = toNatBE b := by rw [hxy] at h; omega
      rw [ih hl' hab, Fin.ext hxy]

theorem ofNatBE_toNatBE {bs : Bytes} {n : ℕ} (h : bs.length = n) : ofNatBE n (toNatBE bs) = bs := by
  subst h
  apply toNatBE_injective (by simp)
  rw [toNatBE_ofNatBE, Nat.mod_eq_of_lt (toNatBE_lt bs)]

/-- Strings of one length compare as the numbers they denote. -/
theorem lt_iff_toNatBE_lt {a b : Bytes} (hl : a.length = b.length) :
    a < b ↔ toNatBE a < toNatBE b := by
  induction a generalizing b with
  | nil => simp [List.length_eq_zero_iff.mp hl.symm]
  | cons x a ih =>
    cases b with
    | nil => simp at hl
    | cons y b =>
      have hl' : a.length = b.length := by simpa using hl
      have ha := toNatBE_lt a
      have hb := toNatBE_lt b
      rw [List.cons_lt_cons_iff, ih hl']
      simp only [toNatBE, hl'] at ha ⊢
      rcases Nat.lt_trichotomy x.val y.val with hlt | heq | hlt
      · have hx : x < y := hlt
        simp only [hx, true_or, true_iff]
        nlinarith
      · obtain rfl := Fin.ext heq
        simp
      · have hx : ¬ x < y := fun h => by have : x.val < y.val := h; omega
        have hne : x ≠ y := fun h => by subst h; omega
        simp only [hx, hne, false_and, or_self, false_iff, not_lt]
        nlinarith

theorem ofNatBE_lt_iff {n r r' : ℕ} (hr : r < 256 ^ n) (hr' : r' < 256 ^ n) :
    ofNatBE n r < ofNatBE n r' ↔ r < r' := by
  rw [lt_iff_toNatBE_lt (by simp), toNatBE_ofNatBE, toNatBE_ofNatBE, Nat.mod_eq_of_lt hr,
    Nat.mod_eq_of_lt hr']

end Bytes

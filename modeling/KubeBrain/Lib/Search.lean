import Mathlib.Data.Nat.Notation

/-! Binary search over a predicate that stays true once it is true. -/
namespace Search

/-- Halve the interval `[i, j)` until it is empty; `fuel` bounds its length. -/
def loop (f : ℕ → Bool) : ℕ → ℕ → ℕ → ℕ
  | 0, i, _ => i
  | fuel + 1, i, j =>
    if i < j then
      let h := (i + j) / 2
      if f h then loop f fuel i h else loop f fuel (h + 1) j
    else i

/-- Least index below `n` at which `f` holds, or `n`. -/
def search (n : ℕ) (f : ℕ → Bool) : ℕ := loop f n 0 n

/-- The same loop when the predicate may fail. -/
def loopM (f : ℕ → Option Bool) : ℕ → ℕ → ℕ → Option ℕ
  | 0, i, _ => some i
  | fuel + 1, i, j =>
    if i < j then
      let h := (i + j) / 2
      match f h with
      | none => none
      | some true => loopM f fuel i h
      | some false => loopM f fuel (h + 1) j
    else some i

def searchM (n : ℕ) (f : ℕ → Option Bool) : Option ℕ := loopM f n 0 n

private theorem loop_spec {f : ℕ → Bool} {n : ℕ}
    (hf : ∀ a b, a ≤ b → b < n → f a = true → f b = true) {fuel i j : ℕ} (hfuel : j ≤ i + fuel)
    (hij : i ≤ j) (hjn : j ≤ n)
    (hlow : ∀ k, k < i → f k = false) (hhigh : ∀ k, j ≤ k → k < n → f k = true) :
    loop f fuel i j ≤ n ∧ (∀ k, k < loop f fuel i j → f k = false) ∧
      ∀ k, loop f fuel i j ≤ k → k < n → f k = true := by
  induction fuel generalizing i j with
  | zero =>
    obtain rfl : i = j := by omega
    exact ⟨hjn, hlow, hhigh⟩
  | succ fuel ih =>
    unfold loop
    split
    · next hlt =>
      dsimp only
      split
      · next hm =>
        apply ih (by omega) (by omega) (by omega) hlow
        intro k hk hkn
        exact hf _ k hk hkn hm
      · next hm =>
        apply ih (by omega) (by omega) hjn _ hhigh
        intro k hk
        cases hfk : f k with
        | false => rfl
        | true => exact absurd (hf k _ (by omega) (by omega) hfk) hm
    · next hlt =>
      obtain rfl : i = j := by omega
      exact ⟨hjn, hlow, hhigh⟩

theorem search_spec {f : ℕ → Bool} {n : ℕ} (hf : ∀ a b, a ≤ b → b < n → f a = true → f b = true) :
    search n f ≤ n ∧ (∀ k, k < search n f → f k = false) ∧
      ∀ k, search n f ≤ k → k < n → f k = true := by
  apply loop_spec hf (by omega) (Nat.zero_le n) (Nat.le_refl n)
  · intro k hk
    exact absurd hk (Nat.not_lt_zero k)
  · intro k hk hkn
    omega

private theorem loopM_eq {f : ℕ → Option Bool} {g : ℕ → Bool} {n : ℕ}
    (hf : ∀ k, k < n → f k = some (g k)) (fuel i : ℕ) {j : ℕ} (hj : j ≤ n) :
    loopM f fuel i j = some (loop g fuel i j) := by
  induction fuel generalizing i j with
  | zero => rfl
  | succ fuel ih =>
    unfold loopM loop
    split
    · next hlt =>
      have hmid : f ((i + j) / 2) = some (g ((i + j) / 2)) := hf _ (by omega)
      simp only [hmid]
      cases g ((i + j) / 2) with
      | true => exact ih i (by omega)
      | false => exact ih ((i + j) / 2 + 1) hj
    · rfl

/-- A predicate that never fails below `n` is all the search looks at. -/
theorem searchM_eq {f : ℕ → Option Bool} {g : ℕ → Bool} {n : ℕ}
    (hf : ∀ k, k < n → f k = some (g k)) : searchM n f = some (search n g) :=
  loopM_eq hf n 0 (Nat.le_refl n)

end Search

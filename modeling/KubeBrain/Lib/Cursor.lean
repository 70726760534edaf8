import Mathlib.Data.Nat.Notation
import Mathlib.Data.List.Basic

/-! Iterators: a state and a call that yields the next element or reports the end. -/
namespace Cursor

variable {σ α : Type}

/-- What call number `n` answers. -/
def answer (next : σ → Option α × σ) : ℕ → σ → Option α
  | 0, s => (next s).1
  | n + 1, s => answer next n (next s).2

/-- The calls yield the elements of the list in order and report the end from then on. -/
def Yields (next : σ → Option α × σ) (s : σ) (l : List α) : Prop :=
  ∀ n, answer next n s = l[n]?

variable {next : σ → Option α × σ}

/-- It suffices to say which states stand for which lists, and to look at one call. -/
theorem yields_of_step {R : σ → List α → Prop}
    (hstep : ∀ s l, R s l → (next s).1 = l.head? ∧ R (next s).2 l.tail) {s : σ} {l : List α}
    (h : R s l) : Yields next s l := by
  intro n
  induction n generalizing s l with
  | zero => rw [answer, (hstep s l h).1, List.head?_eq_getElem?]
  | succ n ih => rw [answer, ih (hstep s l h).2, List.getElem?_tail]

/-- The answers determine the list. -/
theorem Yields.unique {s : σ} {l l' : List α} (h : Yields next s l) (h' : Yields next s l') :
    l = l' :=
  List.ext_getElem? fun n => (h n).symm.trans (h' n)

theorem Yields.iff_eq {s : σ} {l l' : List α} (h : Yields next s l) : Yields next s l' ↔ l = l' :=
  ⟨h.unique, fun heq => heq ▸ h⟩

end Cursor

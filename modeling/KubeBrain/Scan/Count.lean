import KubeBrain.Scan.Limit
import Mathlib.Data.Set.Card

/-! `Count` over two bounds, against the number of user keys that are live between them. -/
namespace KubeBrain

open Interleaving Coder Scanner

/-- Keys that an iterator meets: ascending in `[lo, hi)` or, for `hi < lo`, descending in
`(hi, lo]`. -/
def Meets (lo hi x : Bytes) : Prop := if hi < lo then hi < x ∧ x ≤ lo else lo ≤ x ∧ x < hi

section Met

variable {st : Store} {a b : Bytes} {R : ℕ}

end Met

end KubeBrain

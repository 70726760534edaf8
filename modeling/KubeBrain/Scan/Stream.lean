import KubeBrain.Scan.Partitions
import KubeBrain.Scan.Visible

/-! A range read in streams, one for each pair of borders that `GetPartitions` returns. The
borders are internal keys and may lie between two versions of one user key. -/
namespace KubeBrain

open Interleaving Coder Scanner

/-- The revision that a read uses. -/
def effective (f : Frozen) (rev : ℕ) : ℕ := if rev = 0 then f.committedRevision else rev

variable {cfg : Config} {f : Frozen} {rev : ℕ} {start stop : Bytes} {ps : List Partition}

variable (cfg f) in
theorem call_getPartitions (a b : Bytes) : (f.call cfg (handleGetPartitions a b)).map Prod.fst =
      let ps := Tikv.getPartitions (f.regions (encodeObjectKey a 0) (encodeObjectKey b 0))
        (encodeObjectKey a 0) (encodeObjectKey b 0)
      some (.ok ⟨f.committedRevision, ps.length, partitionKeys ps⟩) := rfl

section Severed

variable {st : Store} {R : ℕ} {lo hi c : Bytes}

theorem readable_append {lo c hi : Bytes} (hlo : lo ≤ c) (hhi : c ≤ hi) :
    readable R (Engine.items st lo hi 0) =
      readable R (Engine.items st lo c 0) ++ readable R (Engine.items st c hi 0) := by
  rw [items_eq_range st hlo, items_eq_range st hhi, items_eq_range st (hlo.trans hhi),
    st.range_append hlo hhi]
  simp [readable]

end Severed

end KubeBrain

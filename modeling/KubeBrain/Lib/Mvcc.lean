import Mathlib.Data.Nat.Find
import Mathlib.Order.Basic

/-! Versions of one value, and what may be removed of them so that reads at or above some
revision stay the same. Dead versions are deletions. -/
namespace Mvcc

/-- The value `v` was written at revision `r`. -/
abbrev Versions (V : Type) := ℕ → V → Prop

variable {V : Type} {dead : V → Prop} {H P : Versions V} {G R r : ℕ} {v : V}

/-- `v` at `r` is the newest version at or below `R`. -/
def Newest (H : Versions V) (R r : ℕ) (v : V) : Prop :=
  H r v ∧ r ≤ R ∧ ∀ r' v', H r' v' → r' ≤ R → r' ≤ r

/-- A read at `R` finds `v`, written at `r`. -/
def Live (dead : V → Prop) (H : Versions V) (R r : ℕ) (v : V) : Prop := Newest H R r v ∧ ¬ dead v

theorem exists_newest (h : H r v) (hr : r ≤ R) : ∃ r' v', Newest H R r' v' := by
  classical
  obtain ⟨v', hv'⟩ := Nat.findGreatest_spec (P := fun n => ∃ v, H n v) hr ⟨v, h⟩
  exact ⟨_, v', hv', Nat.findGreatest_le _, fun r'' v'' h'' hle =>
    Nat.le_findGreatest hle ⟨v'', h''⟩⟩

/-- `P` is left of the history `H` after removals at `G`: all versions above `G`, and the
newest one at `G` unless it is dead and nothing older is left. -/
structure Compacted (dead : V → Prop) (H P : Versions V) (G : ℕ) : Prop where
  sub : ∀ r v, P r v → H r v
  above : ∀ r v, H r v → G < r → P r v
  newest : ∀ r v, Newest H G r v → P r v ∨ dead v ∧ ∀ r' v', P r' v' → G < r'

namespace Compacted

theorem refl (dead : V → Prop) (H : Versions V) (G : ℕ) : Compacted dead H H G :=
  ⟨fun _ _ h => h, fun _ _ h _ => h, fun _ _ h => .inl h.1⟩

variable (h : Compacted dead H P G)

include h

/-- Reads at or above `G` find the same version in what is left as in the history. -/
theorem live_iff (hR : G ≤ R) : Live dead P R r v ↔ Live dead H R r v := by
  constructor
  · intro ⟨⟨hP, hr, hmax⟩, hv⟩
    obtain ⟨n, x, hn⟩ := exists_newest (h.sub r v hP) hr
    have hrn : r ≤ n := hn.2.2 r v (h.sub r v hP) hr
    have hnr : n ≤ r := by
      by_cases hG : G < n
      · exact hmax n x (h.above n x hn.1 hG) hn.2.1
      · have hnG : Newest H G n x :=
          ⟨hn.1, by omega, fun r' v' h' hle => hn.2.2 r' v' h' (hle.trans hR)⟩
        rcases h.newest n x hnG with hPn | ⟨-, hnone⟩
        · exact hmax n x hPn hn.2.1
        · have := hnone r v hP
          omega
    obtain rfl : r = n := by omega
    exact ⟨⟨h.sub r v hP, hr, hn.2.2⟩, hv⟩
  · intro ⟨⟨hH, hr, hmax⟩, hv⟩
    have hP : P r v := by
      by_cases hG : G < r
      · exact h.above r v hH hG
      · have hrG : Newest H G r v :=
          ⟨hH, by omega, fun r' v' h' hle => hmax r' v' h' (hle.trans hR)⟩
        exact (h.newest r v hrG).resolve_right fun hd => hv hd.1
    exact ⟨⟨hP, hr, fun r' v' h' hle => hmax r' v' (h.sub r' v' h') hle⟩, hv⟩

theorem raise {G' : ℕ} (hG : G ≤ G') : Compacted dead H P G' := by
  refine ⟨h.sub, fun r v hH hr => h.above r v hH (by omega), fun r v hn => ?_⟩
  by_cases hr : G < r
  · exact .inl (h.above r v hn.1 hr)
  · have hnG : Newest H G r v :=
      ⟨hn.1, by omega, fun r' v' h' hle => hn.2.2 r' v' h' (hle.trans hG)⟩
    refine (h.newest r v hnG).imp id fun ⟨hv, hnone⟩ => ⟨hv, fun r' v' h' => ?_⟩
    have := hnone r' v' h'
    by_contra hle
    have := hn.2.2 r' v' (h.sub r' v' h') (by omega)
    omega

/-- A version at or below `G` may be removed when a newer one was written at or below `G`,
or when it is dead and no older one is left. -/
theorem remove (hcase : (∃ r' v', H r' v' ∧ r < r' ∧ r' ≤ G) ∨
      r ≤ G ∧ (∀ v, P r v → dead v) ∧ ∀ r' v', P r' v' → r ≤ r') :
    Compacted dead H (fun r' v' => r' ≠ r ∧ P r' v') G := by
  have hr : r ≤ G := by
    rcases hcase with ⟨r', v', -, h₁, h₂⟩ | ⟨h₁, -⟩ <;> omega
  refine ⟨fun r' v' h' => h.sub r' v' h'.2, fun r' v' hH hlt => ⟨by omega, h.above r' v' hH hlt⟩,
    fun n x hn => ?_⟩
  rcases h.newest n x hn with hP | ⟨hx, hnone⟩
  · by_cases hnr : n = r
    · subst hnr
      rcases hcase with ⟨r', v', hH, h₁, h₂⟩ | ⟨-, hdead, hbare⟩
      · have := hn.2.2 r' v' hH h₂
        omega
      · refine .inr ⟨hdead x hP, fun r' v' h' => ?_⟩
        have hle := hbare r' v' h'.2
        by_contra hG
        have := hn.2.2 r' v' (h.sub r' v' h'.2) (by omega)
        exact h'.1 (by omega)
    · exact .inl ⟨hnr, hP⟩
  · exact .inr ⟨hx, fun r' v' h' => hnone r' v' h'.2⟩

/-- A version above `G` is added. -/
theorem insert (hr : G < r) (v : V) : Compacted dead (fun r' v' => H r' v' ∨ r' = r ∧ v' = v)
      (fun r' v' => P r' v' ∨ r' = r ∧ v' = v) G := by
  refine ⟨fun r' v' h' => h'.imp_left (h.sub r' v'),
    fun r' v' h' hlt => h'.imp_left fun hH => h.above r' v' hH hlt, fun n x hn => ?_⟩
  have hne : n ≠ r := by
    have := hn.2.1
    omega
  have hH : H n x := hn.1.resolve_right fun h' => hne h'.1
  have hnH : Newest H G n x := ⟨hH, hn.2.1, fun r' v' h' => hn.2.2 r' v' (.inl h')⟩
  refine (h.newest n x hnH).imp .inl fun ⟨hx, hnone⟩ => ⟨hx, fun r' v' h' => ?_⟩
  rcases h' with h' | ⟨rfl, -⟩
  · exact hnone r' v' h'
  · exact hr

end Compacted

/-- An index beside what is left of a history: it names the newest version that was ever
written and whether that is dead. An absent index says that the newest one was dead. -/
structure Indexed (dead : V → Prop) (H P : Versions V) (idx : Option (ℕ × Bool)) (G : ℕ) : Prop
    extends Compacted dead H P G where
  functional : ∀ r v v', H r v → H r v' → v = v'
  named : ∀ q d, idx = some (q, d) → (∃ v, P q v ∧ (dead v ↔ d = true)) ∧ ∀ r v, H r v → r ≤ q
  unnamed : idx = none → (∀ r v, ¬ H r v) ∨
    ∃ r v, H r v ∧ dead v ∧ ∀ r' v', H r' v' → r' ≤ r

namespace Indexed

variable {idx : Option (ℕ × Bool)}

theorem raise {G' : ℕ} (h : Indexed dead H P idx G) (hG : G ≤ G') : Indexed dead H P idx G' where
  toCompacted := h.toCompacted.raise hG
  functional := h.functional
  named := h.named
  unnamed := h.unnamed

/-- A version is removed that the index does not name. -/
theorem remove (h : Indexed dead H P idx G) (hcase : (∃ r' v', H r' v' ∧ r < r' ∧ r' ≤ G) ∨
      r ≤ G ∧ (∀ v, P r v → dead v) ∧ ∀ r' v', P r' v' → r ≤ r')
    (hidx : ∀ d, idx ≠ some (r, d)) : Indexed dead H (fun r' v' => r' ≠ r ∧ P r' v') idx G where
  toCompacted := h.toCompacted.remove hcase
  functional := h.functional
  named := fun q d hq => by
    obtain ⟨⟨v, hP, hd⟩, hmax⟩ := h.named q d hq
    have hne : q ≠ r := by
      rintro rfl
      exact hidx d hq
    exact ⟨⟨v, ⟨hne, hP⟩, hd⟩, hmax⟩
  unnamed := h.unnamed

/-- An index of a dead version is removed. -/
theorem unname {q : ℕ} (h : Indexed dead H P (some (q, true)) G) : Indexed dead H P none G where
  toCompacted := h.toCompacted
  functional := h.functional
  named := nofun
  unnamed := fun _ => by
    obtain ⟨⟨v, hP, hd⟩, hmax⟩ := h.named q true rfl
    exact .inr ⟨q, v, h.sub q v hP, hd.mpr rfl, hmax⟩

/-- A version above all others is added and the index names it. -/
theorem write {d : Bool} (h : Indexed dead H P idx G) (hr : G < r)
    (hmax : ∀ r' v', H r' v' → r' < r)
    (hd : dead v ↔ d = true) : Indexed dead (fun r' v' => H r' v' ∨ r' = r ∧ v' = v)
      (fun r' v' => P r' v' ∨ r' = r ∧ v' = v) (some (r, d)) G where
  toCompacted := h.toCompacted.insert hr v
  functional := by
    rintro n x y (hx | ⟨rfl, rfl⟩) (hy | ⟨hn, rfl⟩)
    · exact h.functional n x y hx hy
    · exact absurd (hmax n x hx) (hn ▸ lt_irrefl _)
    · exact absurd (hmax n y hy) (lt_irrefl _)
    · rfl
  named := by
    rintro q d' heq
    obtain ⟨rfl, rfl⟩ := Prod.mk.inj (Option.some.inj heq)
    refine ⟨⟨v, .inr ⟨rfl, rfl⟩, hd⟩, ?_⟩
    rintro n x (hx | ⟨rfl, -⟩)
    · exact (hmax n x hx).le
    · exact le_rfl
  unnamed := nofun

/-- Without an index the newest version that is left is dead. -/
theorem dead_of_unnamed (h : Indexed dead H P none G) (hP : P r v)
    (hmax : ∀ r' v', P r' v' → r' ≤ r) : dead v := by
  rcases h.unnamed rfl with hnone | ⟨n, x, hH, hx, htop⟩
  · exact absurd (h.sub r v hP) (hnone r v)
  · have hrn : r ≤ n := htop r v (h.sub r v hP)
    have hPn : P n x := by
      by_cases hn : G < n
      · exact h.above n x hH hn
      · have hnG : Newest H G n x := ⟨hH, not_lt.mp hn, fun r' v' h' _ => htop r' v' h'⟩
        rcases h.newest n x hnG with hPn | ⟨-, habove⟩
        · exact hPn
        · have := habove r v hP
          omega
    obtain rfl : n = r := le_antisymm (hmax n x hPn) hrn
    exact h.functional n x v hH (h.sub n v hP) ▸ hx

end Indexed
end Mvcc

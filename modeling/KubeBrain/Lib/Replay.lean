import KubeBrain.Lib.Mvcc
import Mathlib.Data.List.Pairwise
import Mathlib.Logic.Function.Basic

/-! Replaying a log of changes. A reader starts from some contents and applies the changes in
the order of their revisions. When the log tells the versions of a key, the reader has what a
read of the versions finds. -/
namespace Replay

/-- A key got a value at a revision, or was removed. -/
structure Change (K V : Type) where
  key : K
  rev : ℕ
  val : Option V

variable {K V : Type} {cs : List (Change K V)} {k : K}

/-- What a change leaves of its key. -/
def Change.entry (c : Change K V) : Option (V × ℕ) := c.val.map fun v => (v, c.rev)

theorem Change.entry_eq_some {c : Change K V} {v : V} {r : ℕ} :
    c.entry = some (v, r) ↔ c.val = some v ∧ c.rev = r := by
  cases h : c.val <;> simp [entry, h]

/-- The changes at or below a revision. -/
def upTo (R : ℕ) (cs : List (Change K V)) : List (Change K V) := cs.filter fun c => c.rev ≤ R

theorem mem_upTo {R : ℕ} {c : Change K V} : c ∈ upTo R cs ↔ c ∈ cs ∧ c.rev ≤ R := by
  simp [upTo]

theorem exists_newest_change (h : ∃ c ∈ cs, c.key = k) :
    ∃ c ∈ cs, c.key = k ∧ ∀ c' ∈ cs, c'.key = k → c'.rev ≤ c.rev := by
  induction cs with
  | nil =>
    obtain ⟨c, hc, -⟩ := h
    cases hc
  | cons d cs ih =>
    by_cases hrest : ∃ c ∈ cs, c.key = k
    · obtain ⟨c, hc, hk, hmax⟩ := ih hrest
      by_cases hd : d.key = k ∧ c.rev < d.rev
      · refine ⟨d, List.mem_cons_self, hd.1, fun c' hc' hk' => ?_⟩
        cases hc' with
        | head => exact le_rfl
        | tail _ hc' => exact (hmax c' hc' hk').trans hd.2.le
      · refine ⟨c, List.mem_cons_of_mem _ hc, hk, fun c' hc' hk' => ?_⟩
        cases hc' with
        | head => exact not_lt.mp fun hlt => hd ⟨hk', hlt⟩
        | tail _ hc' => exact hmax c' hc' hk'
    · obtain ⟨c, hc, hk⟩ := h
      refine ⟨c, hc, hk, fun c' hc' hk' => ?_⟩
      cases hc' with
      | tail _ hc' => exact absurd ⟨c', hc', hk'⟩ hrest
      | head =>
        cases hc with
        | head => exact le_rfl
        | tail _ hc => exact absurd ⟨c, hc, hk⟩ hrest

/-- The log up to a revision goes on from the log up to an earlier one. -/
theorem upTo_split (hsorted : cs.Pairwise fun a b => a.rev < b.rev) {H N : ℕ} (hHN : H ≤ N) :
    upTo N cs = upTo H cs ++ (upTo N cs).filter fun c => H < c.rev := by
  induction cs with
  | nil => rfl
  | cons c cs ih =>
    obtain ⟨hlt, hsorted⟩ := List.pairwise_cons.mp hsorted
    by_cases hc : c.rev ≤ H
    · have hN : upTo N (c :: cs) = c :: upTo N cs := List.filter_cons_of_pos (by simp; omega)
      have hH : upTo H (c :: cs) = c :: upTo H cs := List.filter_cons_of_pos (by simpa using hc)
      rw [hN, hH, List.cons_append, List.filter_cons, if_neg (by simpa using hc), ← ih hsorted]
    · have hnone : upTo H (c :: cs) = [] := by
        apply List.filter_eq_nil_iff.mpr
        intro d hd
        rcases List.mem_cons.mp hd with rfl | hd
        · simpa using hc
        · have := hlt d hd
          simp
          omega
      rw [hnone, List.nil_append, eq_comm, List.filter_eq_self]
      intro d hd
      rcases List.mem_cons.mp (mem_upTo.mp hd).1 with rfl | hd
      · simpa using hc
      · have := hlt d hd
        simp
        omega

/-- A first part of a sorted log is the log up to a revision. -/
theorem exists_upTo_of_prefix (hsorted : cs.Pairwise fun a b => a.rev < b.rev)
    {ds : List (Change K V)} (hds : ds <+: cs) {H F : ℕ} (hHF : H ≤ F)
    (hcs : ∀ c ∈ cs, H < c.rev ∧ c.rev ≤ F) :
    ∃ N, H ≤ N ∧ N ≤ F ∧ ds = upTo N cs ∧ (ds = cs → N = F) := by
  obtain ⟨rest, rfl⟩ := hds
  cases rest with
  | nil =>
    refine ⟨F, hHF, le_rfl, ?_, fun _ => rfl⟩
    rw [List.append_nil, eq_comm]
    apply List.filter_eq_self.mpr
    intro c hc
    simpa using (hcs c (by simpa using hc)).2
  | cons d rest =>
    -- the reader has everything below the next change
    obtain ⟨-, hrest, hbefore⟩ := List.pairwise_append.mp hsorted
    have hd := hcs d (by simp)
    refine ⟨d.rev - 1, by omega, by omega, ?_, fun h => by simp at h⟩
    have hfirst : upTo (d.rev - 1) ds = ds := by
      apply List.filter_eq_self.mpr
      intro c hc
      have := hbefore c hc d List.mem_cons_self
      simp
      omega
    have hlast : upTo (d.rev - 1) (d :: rest) = [] := by
      apply List.filter_eq_nil_iff.mpr
      intro c hc
      rcases List.mem_cons.mp hc with rfl | hc
      · simp
        omega
      · have := (List.pairwise_cons.mp hrest).1 c hc
        simp
        omega
    show ds = List.filter _ (ds ++ d :: rest)
    rw [List.filter_append]
    change ds = upTo (d.rev - 1) ds ++ upTo (d.rev - 1) (d :: rest)
    rw [hfirst, hlast, List.append_nil]

/-- The log tells the versions of a key up to `R`: they are those of `B`, up to `start`, those of
the changes, and versions that a change has superseded. A removal is the version `tomb`. -/
structure Tells (tomb : V) (B H : Mvcc.Versions V) (start R : ℕ) (k : K)
    (cs : List (Change K V)) : Prop where
  le : start ≤ R
  sorted : cs.Pairwise fun a b => a.rev < b.rev
  above : ∀ c ∈ cs, start < c.rev
  below : ∀ r v, B r v → r ≤ start
  value : ∀ c ∈ cs, c.val ≠ some tomb
  functional : ∀ r v v', H r v → H r v' → v = v'
  initial : ∀ r v, B r v → H r v
  changed : ∀ c ∈ cs, c.key = k → c.rev ≤ R → H c.rev (c.val.getD tomb)
  told : ∀ r v, H r v → r ≤ R → B r v ∨ ∃ c ∈ cs, c.key = k ∧ r ≤ c.rev ∧ c.rev ≤ R

namespace Tells

variable {tomb : V} {B H : Mvcc.Versions V} {start R r : ℕ} {v : V}

variable (h : Tells tomb B H start R k cs)

include h

/-- Without a change of the key up to `R` its versions are the first ones. -/
theorem newest_of_unchanged (hnone : ∀ c ∈ upTo R cs, c.key ≠ k) :
    Mvcc.Newest H R r v ↔ Mvcc.Newest B start r v := by
  have hB (r : ℕ) (v : V) (hH : H r v) (hr : r ≤ R) : B r v := by
    rcases h.told r v hH hr with hB | ⟨c, hc, hk, -, hle⟩
    · exact hB
    · exact absurd hk (hnone c (mem_upTo.mpr ⟨hc, hle⟩))
  constructor
  · intro hn
    have hv := hB r v hn.1 hn.2.1
    refine ⟨hv, h.below r v hv, fun r' v' hB' hle => ?_⟩
    exact hn.2.2 r' v' (h.initial r' v' hB') (hle.trans h.le)
  · intro hn
    refine ⟨h.initial r v hn.1, hn.2.1.trans h.le, fun r' v' hH' hle => ?_⟩
    have hB' := hB r' v' hH' hle
    exact hn.2.2 r' v' hB' (h.below r' v' hB')

/-- With changes of the key up to `R` its newest version is that of the newest change. -/
theorem newest_of_changed {c : Change K V} (hc : c ∈ cs) (hk : c.key = k) (hle : c.rev ≤ R)
    (hmax : ∀ c' ∈ upTo R cs, c'.key = k → c'.rev ≤ c.rev) :
    Mvcc.Newest H R c.rev (c.val.getD tomb) := by
  refine ⟨h.changed c hc hk hle, hle, fun r' v' hH' hr' => ?_⟩
  rcases h.told r' v' hH' hr' with hB | ⟨d, hd, hdk, hrd, hdR⟩
  · have := h.below r' v' hB
    have := h.above c hc
    omega
  · exact hrd.trans (hmax d (mem_upTo.mpr ⟨hd, hdR⟩) hdk)

theorem newest_unique {r' : ℕ} {v' : V}
    (hn : Mvcc.Newest H R r v) (hn' : Mvcc.Newest H R r' v') : r = r' ∧ v = v' := by
  obtain rfl : r = r' := le_antisymm (hn'.2.2 r v hn.1 hn.2.1) (hn.2.2 r' v' hn'.1 hn'.2.1)
  exact ⟨rfl, h.functional r v v' hn.1 hn'.1⟩

end Tells

/-- What a reader knows of the keys: their values, with the revisions they were written at. -/
abbrev Contents (K V : Type) := K → Option (V × ℕ)

variable [DecidableEq K] {m : Contents K V}

def apply (m : Contents K V) (c : Change K V) : Contents K V := Function.update m c.key c.entry

def replay (m : Contents K V) (cs : List (Change K V)) : Contents K V := cs.foldl apply m

theorem replay_cons (c : Change K V) : replay m (c :: cs) = replay (apply m c) cs := rfl

theorem replay_append (cs' : List (Change K V)) :
    replay m (cs ++ cs') = replay (replay m cs) cs' := List.foldl_append

theorem apply_of_ne {c : Change K V} (h : c.key ≠ k) : apply m c k = m k :=
  Function.update_of_ne (Ne.symm h) _ _

theorem apply_self (c : Change K V) : apply m c c.key = c.entry := Function.update_self _ _ _

/-- What becomes of a key depends on what was known of this key. -/
theorem replay_congr {m' : Contents K V} (h : m k = m' k) : replay m cs k = replay m' cs k := by
  induction cs generalizing m m' with
  | nil => exact h
  | cons c cs ih =>
    apply ih
    by_cases hc : c.key = k
    · subst hc
      rw [apply_self, apply_self]
    · rw [apply_of_ne hc, apply_of_ne hc, h]

/-- A log without changes of a key leaves the key as it was. -/
theorem replay_of_absent (h : ∀ c ∈ cs, c.key ≠ k) : replay m cs k = m k := by
  induction cs generalizing m with
  | nil => rfl
  | cons c cs ih =>
    rw [replay_cons, ih fun c' hc' => h c' (List.mem_cons_of_mem _ hc')]
    exact apply_of_ne (h c List.mem_cons_self)

/-- A reader that is told of some keys only knows these keys as well as any other reader. -/
theorem replay_filter {p : K → Bool} (hk : p k = true) :
    replay m (cs.filter fun c => p c.key) k = replay m cs k := by
  induction cs generalizing m with
  | nil => rfl
  | cons c cs ih =>
    rw [List.filter_cons, replay_cons]
    split
    · exact ih
    · next hc =>
      have hne : c.key ≠ k := fun heq => hc (heq ▸ hk)
      rw [ih]
      exact replay_congr (apply_of_ne hne).symm

/-- The newest change of a key decides. -/
theorem replay_newest (hsorted : cs.Pairwise fun a b => a.rev < b.rev) {c : Change K V}
    (hc : c ∈ cs) (hk : c.key = k) (hmax : ∀ c' ∈ cs, c'.key = k → c'.rev ≤ c.rev) :
    replay m cs k = c.entry := by
  induction cs generalizing m with
  | nil => cases hc
  | cons d cs ih =>
    obtain ⟨hlt, hsorted⟩ := List.pairwise_cons.mp hsorted
    have hmax' (c' : Change K V) (hc' : c' ∈ cs) : c'.key = k → c'.rev ≤ c.rev :=
      hmax c' (List.mem_cons_of_mem _ hc')
    rw [replay_cons]
    cases hc with
    | head =>
      -- the changes after it are newer, so none of them is of its key
      have hrest : ∀ c' ∈ cs, c'.key ≠ k := by
        intro c' hc' hkey
        have := hmax' c' hc' hkey
        have := hlt c' hc'
        omega
      rw [replay_of_absent hrest, ← hk]
      exact apply_self c
    | tail _ hc => exact ih hsorted hc hmax'

/-- A reader who knows the keys `p` as of revision `H`, and has been told a first part of the later
changes of these keys, knows them as of some later revision. -/
theorem replay_follows (hsorted : cs.Pairwise fun a b => a.rev < b.rev) {m₀ : Contents K V}
    {p : K → Bool} {H F : ℕ} (hHF : H ≤ F)
    (hm : ∀ k, p k = true → m k = replay m₀ (upTo H cs) k) {ds : List (Change K V)}
    (hds : ds <+: (upTo F cs).filter fun c => decide (H < c.rev) && p c.key) :
    ∃ N, H ≤ N ∧ N ≤ F ∧
      (ds = ((upTo F cs).filter fun c => decide (H < c.rev) && p c.key) → N = F) ∧
      ∀ k, p k = true → replay m ds k = replay m₀ (upTo N cs) k := by
  obtain ⟨N, hHN, hNF, hN, hwhole⟩ := exists_upTo_of_prefix ((hsorted.filter _).filter _) hds hHF
    (by
      intro c hc
      obtain ⟨hc, hp⟩ := List.mem_filter.mp hc
      rw [Bool.and_eq_true, decide_eq_true_iff] at hp
      exact ⟨hp.1, (mem_upTo.mp hc).2⟩)
  refine ⟨N, hHN, hNF, hwhole, fun k hk => ?_⟩
  have hpart : ds = ((upTo N cs).filter fun c => H < c.rev).filter fun c => p c.key := by
    rw [hN]
    simp only [upTo, List.filter_filter]
    apply List.filter_congr
    intro c _
    rw [Bool.eq_iff_iff]
    simp only [Bool.and_eq_true, decide_eq_true_eq]
    constructor
    · intro hc
      exact ⟨hc.2.1.2, hc.2.1.1, hc.1⟩
    · intro hc
      exact ⟨hc.2.2, ⟨hc.2.1, hc.1⟩, hc.2.2.trans hNF⟩
  calc replay m ds k = replay m ((upTo N cs).filter fun c => H < c.rev) k := by
        rw [hpart, replay_filter hk]
    _ = replay (replay m₀ (upTo H cs)) ((upTo N cs).filter fun c => H < c.rev) k :=
        replay_congr (hm k hk)
    _ = replay m₀ (upTo N cs) k := by rw [← replay_append, ← upTo_split hsorted hHN]

/-- A reader who started from the first versions and has replayed the log up to `R` knows what a
read at `R` finds. -/
theorem Tells.live_iff_replay {tomb : V} {B H : Mvcc.Versions V} {start R r : ℕ} {v : V}
    (h : Tells tomb B H start R k cs)
    (hm : ∀ r v, m k = some (v, r) ↔ Mvcc.Live (· = tomb) B start r v) :
    Mvcc.Live (· = tomb) H R r v ↔ replay m (upTo R cs) k = some (v, r) := by
  by_cases hsome : ∃ c ∈ upTo R cs, c.key = k
  · obtain ⟨c, hc, hk, hmax⟩ := exists_newest_change hsome
    obtain ⟨hmem, hle⟩ := mem_upTo.mp hc
    have hnew := h.newest_of_changed hmem hk hle hmax
    have hreplay : replay m (upTo R cs) k = c.entry :=
      replay_newest (h.sorted.filter _) hc hk hmax
    rw [hreplay, Change.entry_eq_some]
    constructor
    · rintro ⟨hn, hlive⟩
      obtain ⟨rfl, rfl⟩ := h.newest_unique hn hnew
      cases hval : c.val with
      | none => exact absurd (by rw [hval]; rfl) hlive
      | some x => exact ⟨rfl, rfl⟩
    · rintro ⟨hval, rfl⟩
      rw [hval] at hnew
      exact ⟨hnew, fun hdead => h.value c hmem (hdead ▸ hval)⟩
  · have hnone : ∀ c ∈ upTo R cs, c.key ≠ k := fun c hc hk => hsome ⟨c, hc, hk⟩
    rw [replay_of_absent hnone, hm]
    exact and_congr_left' (h.newest_of_unchanged hnone)

end Replay

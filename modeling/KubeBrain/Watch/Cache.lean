import KubeBrain.Backend.Ring
import Mathlib.Data.List.Basic
import Mathlib.Data.Nat.ModEq

/-! The cache of recent events as a window of all events that were ever added to it. -/
namespace KubeBrain

namespace Ring

variable {r : Ring} {added : List Event}

/-- The slots hold the last of the events that were added. -/
def Holds (r : Ring) (added : List Event) : Prop :=
  r.e = added.length ∧ ∀ i, r.s ≤ i → i < r.e → r.arr (i % r.l) = added[i]?

theorem holds_new {l : ℕ} (h : 0 < l) : (Ring.new l h).Holds [] :=
  ⟨rfl, fun i _ hi => absurd hi (Nat.not_lt_zero i)⟩

/-- Positions of a window no longer than the ring have slots of their own. -/
theorem mod_ne {l i e : ℕ} (h : i < e) (hl : e - i < l) : i % l ≠ e % l := by
  intro heq
  have hdvd : l ∣ e - i := (Nat.modEq_iff_dvd' h.le).mp heq
  exact absurd (Nat.le_of_dvd (by omega) hdvd) (by omega)

theorem Holds.add (hr : r.Holds added) (event : Event) :
    (r.add event).Holds (added ++ [event]) := by
  obtain ⟨he, harr⟩ := hr
  refine ⟨by simp [Ring.add, he], fun i hs hi => ?_⟩
  have hs : (if r.e = r.s + r.l then r.s + 1 else r.s) ≤ i := hs
  have hi : i < r.e + 1 := hi
  have hsize := r.size
  show Function.update r.arr (r.e % r.l) (some event) (i % r.l) = _
  by_cases hie : i = r.e
  · subst hie
    rw [Function.update_self, he, List.getElem?_concat_length]
  · have hlt : i < r.e := by omega
    have hwindow : r.e - i < r.l ∧ r.s ≤ i := by
      split at hs <;> omega
    rw [Function.update_of_ne (mod_ne hlt hwindow.1), harr i hwindow.2 hlt,
      List.getElem?_append_left (by omega)]

theorem Holds.get (hr : r.Holds added) {i : ℕ} (h : r.s ≤ i ∧ i < r.e) :
    added[i]? = some (r.get i h) := by
  rw [← hr.2 i h.1 h.2]
  exact (Option.some_get _).symm

/-- Successive positions in successive slots, as long as they do not wrap around. -/
theorem slots_eq (hr : r.Holds added) {a n : ℕ} (hs : r.s ≤ a) (he : a + n ≤ r.e)
    (hwrap : a % r.l + n ≤ r.l) :
    (List.range' (a % r.l) n).map r.arr = ((added.drop a).take n).map some := by
  induction n generalizing a with
  | zero => simp
  | succ n ih =>
    have hget := hr.2 a hs (by omega)
    have hlen : a < added.length := by
      have := hr.1
      omega
    rw [List.getElem?_eq_getElem hlen] at hget
    rw [List.range'_succ, List.map_cons, hget, List.drop_eq_getElem_cons hlen,
      List.take_succ_cons, List.map_cons]
    congr 1
    cases n with
    | zero => simp
    | succ n =>
      -- the next position has the next slot
      have hmod : (a + 1) % r.l = a % r.l + 1 := by
        rw [Nat.add_mod, Nat.mod_eq_of_lt (by omega : 1 < r.l), Nat.mod_eq_of_lt (by omega)]
      rw [← hmod]
      exact ih (by omega) (by omega) (by omega)

theorem slice_eq (hr : r.Holds added) {a n : ℕ} (hs : r.s ≤ a) (he : a + n ≤ r.e)
    (hwrap : a % r.l + n ≤ r.l) : r.slice (a % r.l) (a % r.l + n) = (added.drop a).take n := by
  unfold slice
  rw [Nat.add_sub_cancel_left, ← Function.id_comp r.arr, ← List.filterMap_map,
    slots_eq hr hs he hwrap, List.filterMap_map]
  simp

/-- The positions from `a` on lie in one run of slots, or in one up to the end of the array and
one from its start. -/
theorem window_cases {a : ℕ} (hs : r.s ≤ a) (he : a < r.e) :
    (r.index a < r.index r.e ∧ r.index r.e = r.index a + (r.e - a)) ∨
    (r.index r.e ≤ r.index a ∧ r.index a < r.l ∧ r.l - r.index a + r.index r.e = r.e - a ∧
      (a + (r.l - r.index a)) % r.l = 0) := by
  have hsize := r.size
  have hpos := r.pos
  have ha := Nat.div_add_mod a r.l
  have hb := Nat.div_add_mod r.e r.l
  have hal := Nat.mod_lt a hpos
  have hbl := Nat.mod_lt r.e hpos
  have hdiv : a / r.l ≤ r.e / r.l := Nat.div_le_div_right he.le
  have hdiv' : r.e / r.l ≤ a / r.l + 1 := by
    have hle : r.e ≤ a + r.l := by omega
    calc r.e / r.l ≤ (a + r.l) / r.l := Nat.div_le_div_right hle
      _ = a / r.l + 1 := Nat.add_div_right a hpos
  have hcases : r.e / r.l = a / r.l ∨ r.e / r.l = a / r.l + 1 := by omega
  unfold index
  rcases hcases with hq | hq
  · rw [hq] at hb
    exact .inl ⟨by omega, by omega⟩
  · rw [hq, Nat.mul_add, Nat.mul_one] at hb
    have hnext : a + (r.l - a % r.l) = r.l * (a / r.l + 1) := by
      rw [Nat.mul_add, Nat.mul_one]
      omega
    exact .inr ⟨by omega, hal, by omega, by rw [hnext, Nat.mul_mod_right]⟩

/-- The two slices of `findEvents` are the events from a position on. -/
theorem slices_eq (hr : r.Holds added) {a : ℕ} (hs : r.s ≤ a) (he : a < r.e) :
    (if r.index a < r.index r.e then r.slice (r.index a) (r.index r.e)
      else r.slice (r.index a) r.l ++ r.slice 0 (r.index r.e)) = added.drop a := by
  have hlen : (added.drop a).length = r.e - a := by rw [List.length_drop, ← hr.1]
  rcases window_cases hs he with ⟨hlt, hn⟩ | ⟨hge, hal, hn, hnext⟩
  · have hl := Nat.mod_lt r.e r.pos
    rw [if_pos hlt, hn]
    unfold index at hn ⊢
    rw [slice_eq hr hs (by omega) (by omega), ← hlen, List.take_length]
  · rw [if_neg (not_lt.mpr hge)]
    unfold index at hge hal hn hnext ⊢
    have hl := Nat.mod_lt r.e r.pos
    have hfirst : r.slice (a % r.l) r.l = (added.drop a).take (r.l - a % r.l) := by
      have hslice := slice_eq hr hs (by omega : a + (r.l - a % r.l) ≤ r.e) (by omega)
      rwa [show a % r.l + (r.l - a % r.l) = r.l by omega] at hslice
    have hsecond : r.slice 0 (r.e % r.l) = added.drop (a + (r.l - a % r.l)) := by
      have hslice := slice_eq hr (by omega : r.s ≤ a + (r.l - a % r.l))
        (by omega : a + (r.l - a % r.l) + r.e % r.l ≤ r.e) (by omega)
      rw [hnext, Nat.zero_add] at hslice
      rw [hslice]
      apply List.take_of_length_le
      rw [List.length_drop, ← hr.1]
      omega
    rw [hfirst, hsecond, ← List.drop_drop, List.take_append_drop]

theorem filter_eq_drop {l : List Event} {p : Event → Bool} {k : ℕ}
    (hlow : ∀ (i : ℕ) (ev : Event), i < k → l[i]? = some ev → p ev = false)
    (hhigh : ∀ (i : ℕ) (ev : Event), k ≤ i → l[i]? = some ev → p ev = true) :
    l.filter p = l.drop k := by
  conv_lhs => rw [← List.take_append_drop k l]
  rw [List.filter_append]
  have hnone : (l.take k).filter p = [] := by
    rw [List.filter_eq_nil_iff]
    intro ev hev
    obtain ⟨i, hi⟩ := List.mem_iff_getElem?.mp hev
    rw [List.getElem?_take] at hi
    split at hi
    · next hik => simp [hlow i ev hik hi]
    · cases hi
  have hall : (l.drop k).filter p = l.drop k := by
    rw [List.filter_eq_self]
    intro ev hev
    obtain ⟨i, hi⟩ := List.mem_iff_getElem?.mp hev
    rw [List.getElem?_drop] at hi
    exact hhigh (k + i) ev (by omega) hi
  rw [hnone, hall, List.nil_append]

theorem Holds.newest (hr : r.Holds added) (he : r.e ≠ 0) : added.getLast? = some (r.newest he) := by
  rw [List.getLast?_eq_getElem?, ← hr.1]
  exact hr.get _

theorem Holds.oldest (hr : r.Holds added) (he : r.e ≠ 0) :
    added[r.s]? = some (r.oldest he) := hr.get _

theorem revision_lt (hsorted : added.Pairwise fun a b => a.revision < b.revision) {i j : ℕ}
    {a b : Event} (hij : i < j) (ha : added[i]? = some a) (hb : added[j]? = some b) :
    a.revision < b.revision := by
  obtain ⟨hi, rfl⟩ := List.getElem?_eq_some_iff.mp ha
  obtain ⟨hj, rfl⟩ := List.getElem?_eq_some_iff.mp hb
  exact List.pairwise_iff_getElem.mp hsorted i j hi hj hij

/-- The condition that the search of `findEvents` evaluates at a position of the window. -/
def probe (r : Ring) (revision i : ℕ) : Bool :=
  (r.arr (r.index (r.s + i))).any fun ev => revision ≤ ev.revision

variable (hr : r.Holds added)

include hr

theorem probe_eq {revision i : ℕ} {ev : Event} (hi : i < r.e - r.s)
    (hev : added[r.s + i]? = some ev) : r.probe revision i = decide (revision ≤ ev.revision) := by
  have harr : r.arr (r.index (r.s + i)) = some ev :=
    (hr.2 (r.s + i) (by omega) (by omega)).trans hev
  simp only [probe, harr, Option.any_some]

variable (hsorted : added.Pairwise fun a b => a.revision < b.revision)

include hsorted

/-- The search ends at the first event of the window that is asked for. -/
theorem search_window {revision : ℕ} (he : r.e ≠ 0) (hle : revision ≤ (r.newest he).revision) :
    Search.search (r.e - r.s) (r.probe revision) < r.e - r.s ∧
      ((added.drop r.s).filter fun ev => decide (revision ≤ ev.revision)) =
        added.drop (r.s + Search.search (r.e - r.s) (r.probe revision)) := by
  have hlt := r.lt he
  have hat {i : ℕ} (hi : i < r.e - r.s) : ∃ ev, added[r.s + i]? = some ev :=
    ⟨_, hr.get ⟨by omega, by omega⟩⟩
  have hmono : ∀ a b, a ≤ b → b < r.e - r.s → r.probe revision a = true →
      r.probe revision b = true := by
    intro a b hab hb ha
    obtain ⟨eva, heva⟩ := hat (show a < r.e - r.s by omega)
    obtain ⟨evb, hevb⟩ := hat hb
    rw [probe_eq hr (by omega) heva, decide_eq_true_iff] at ha
    rw [probe_eq hr hb hevb, decide_eq_true_iff]
    rcases Nat.eq_or_lt_of_le hab with rfl | hab
    · rwa [Option.some.inj (hevb.symm.trans heva)]
    · exact ha.trans (revision_lt hsorted (by omega) heva hevb).le
  obtain ⟨-, hbelow, habove⟩ := Search.search_spec hmono
  refine ⟨?_, ?_⟩
  · by_contra hge
    have hlast : added[r.s + (r.e - r.s - 1)]? = some (r.newest he) := by
      rw [show r.s + (r.e - r.s - 1) = r.e - 1 by omega]
      exact hr.get _
    have hn := hbelow (r.e - r.s - 1) (by omega)
    rw [probe_eq hr (by omega) hlast, decide_eq_false_iff_not] at hn
    exact hn hle
  · rw [← List.drop_drop]
    apply filter_eq_drop
    · intro i ev hi hev
      rw [List.getElem?_drop] at hev
      have hil := (List.getElem?_eq_some_iff.mp hev).1
      rw [← hr.1] at hil
      rw [← probe_eq hr (by omega) hev]
      exact hbelow i hi
    · intro i ev hi hev
      rw [List.getElem?_drop] at hev
      have hil := (List.getElem?_eq_some_iff.mp hev).1
      rw [← hr.1] at hil
      rw [← probe_eq hr (by omega) hev]
      exact habove i hi (by omega)

/-- No event before the window is asked for when the oldest one is not too new. -/
theorem filter_window {revision : ℕ} (he : r.e ≠ 0) (hle : (r.oldest he).revision ≤ revision) :
    (added.filter fun ev => decide (revision ≤ ev.revision)) =
      (added.drop r.s).filter fun ev => decide (revision ≤ ev.revision) := by
  conv_lhs => rw [← List.take_append_drop r.s added]
  rw [List.filter_append, List.append_left_eq_self, List.filter_eq_nil_iff]
  intro ev hev
  obtain ⟨i, hi⟩ := List.mem_iff_getElem?.mp hev
  rw [List.getElem?_take] at hi
  split at hi
  · next his =>
    have := revision_lt hsorted his hi (hr.oldest he)
    simp only [decide_eq_true_eq]
    omega
  · cases hi

/-- What the cache answers, in terms of all events that were added. -/
def Answers (added : List Event) (revision : ℕ) : FindRet → Prop
  | .empty => added = []
  | .high => ∀ ev ∈ added, ev.revision < revision
  | .low oldest => oldest ∈ added ∧ revision < oldest.revision
  | .found newest events => added.getLast? = some newest ∧ revision ≤ newest.revision ∧
      events = added.filter fun ev => decide (revision ≤ ev.revision)

theorem findEvents_spec (revision : ℕ) : Answers added revision (r.findEvents revision) := by
  unfold findEvents
  split
  · next he => exact List.length_eq_zero_iff.mp (hr.1.symm.trans he)
  next he =>
  split
  · next hhigh =>
    intro ev hev
    obtain ⟨i, hi⟩ := List.mem_iff_getElem?.mp hev
    have hil := (List.getElem?_eq_some_iff.mp hi).1
    have hnewest : added[r.e - 1]? = some (r.newest he) := hr.get _
    rw [← hr.1] at hil
    by_cases hie : i = r.e - 1
    · subst hie
      rwa [Option.some.inj (hi.symm.trans hnewest)]
    · exact (revision_lt hsorted (by omega) hi hnewest).trans hhigh
  next hhigh =>
  split
  · next hlow => exact ⟨List.mem_of_getElem? (hr.oldest he), hlow⟩
  next hlow =>
  obtain ⟨hidx, hdrop⟩ := search_window hr hsorted he (Nat.not_lt.mp hhigh)
  have hfilter := (filter_window hr hsorted he (Nat.not_lt.mp hlow)).trans hdrop
  have hslices := slices_eq hr
    (show r.s ≤ r.s + Search.search (r.e - r.s) (r.probe revision) by omega) (by omega)
  show Answers added revision
    (if r.index (r.s + Search.search (r.e - r.s) (r.probe revision)) < r.index r.e then _ else _)
  split
  · next hc =>
    rw [if_pos hc] at hslices
    exact ⟨hr.newest he, Nat.not_lt.mp hhigh, hslices.trans hfilter.symm⟩
  · next hc =>
    rw [if_neg hc] at hslices
    exact ⟨hr.newest he, Nat.not_lt.mp hhigh, hslices.trans hfilter.symm⟩

/-- The event is still in the ring. -/
def Caches (r : Ring) (ev : Event) : Prop := ∃ i, r.s ≤ i ∧ i < r.e ∧ r.arr (r.index i) = some ev

/-- The cache says so when an event that is asked for has been overwritten. -/
theorem low_of_evicted {revision : ℕ} {ev : Event}
    (hev : ev ∈ added) (hle : revision ≤ ev.revision) (hgone : ¬ r.Caches ev) :
    ∃ oldest, r.findEvents revision = .low oldest := by
  obtain ⟨i, hi⟩ := List.mem_iff_getElem?.mp hev
  have hil := (List.getElem?_eq_some_iff.mp hi).1
  have he : r.e ≠ 0 := by
    have := hr.1
    omega
  have hbefore : i < r.s := by
    by_contra hs
    rw [← hr.1] at hil
    exact hgone ⟨i, by omega, hil, (hr.2 i (by omega) hil).trans hi⟩
  have hless {j : ℕ} {b : Event} (hij : i < j) (hb : added[j]? = some b) :
      ev.revision < b.revision := by
    obtain ⟨hj, rfl⟩ := List.getElem?_eq_some_iff.mp hb
    obtain ⟨-, rfl⟩ := List.getElem?_eq_some_iff.mp hi
    exact List.pairwise_iff_getElem.mp hsorted i j hil hj hij
  have hlt := r.lt he
  have hnewest : ev.revision < (r.newest he).revision := hless (by omega) (hr.get _)
  have holdest : ev.revision < (r.oldest he).revision := hless hbefore (hr.get _)
  refine ⟨r.oldest he, ?_⟩
  rw [findEvents, dif_neg he, if_neg (by omega), if_pos (by omega)]

end Ring
end KubeBrain

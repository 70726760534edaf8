import KubeBrain.Backend.RingArray
import KubeBrain.Watch.Cache

/-! The array of the watch cache holds the last events that were added since it was reset, and
`FindEvents` copies exactly the ones that are asked for. -/
namespace KubeBrain

namespace Go

variable {α : Type}

variable {src : List α}

theorem slice_eq {a : List α} {i j : ℕ} (hij : i ≤ j) (hj : j ≤ a.length) :
    slice a i j = some ((a.take j).drop i) := if_pos ⟨hij, hj⟩

theorem copyAt_eq {dst : List α} {k : ℕ} (h : k + src.length ≤ dst.length) :
    copyAt dst k src = some (dst.take k ++ src ++ dst.drop (k + src.length)) := by
  have htake : src.take (dst.length - k) = src := List.take_of_length_le (by omega)
  rw [copyAt, if_pos (by omega), htake]

/-- A copy to the start of a new array. -/
theorem copyAt_zero {a : α} {n : ℕ} (h : src.length ≤ n) :
    copyAt (List.replicate n a) 0 src = some (src ++ List.replicate (n - src.length) a) := by
  rw [copyAt_eq (by simpa using h)]
  simp

/-- A copy that fills the rest of an array. -/
theorem copyAt_append {pre rest : List α} {k : ℕ} (hk : k = pre.length)
    (h : src.length = rest.length) : copyAt (pre ++ rest) k src = some (pre ++ src) := by
  subst hk
  rw [copyAt_eq (by simp [h])]
  simp [h]

end Go

namespace Ring

/-- The cursors of `Reset`. -/
def reset (r : Ring) : Ring :=
  { r with
    s := 0
    e := 0
    le := Nat.le_refl 0
    lt := fun h => absurd rfl h
    size := Nat.zero_le _
    filled := fun _ _ h => absurd h (Nat.not_lt_zero _) }

theorem holds_reset (r : Ring) : r.reset.Holds [] :=
  ⟨rfl, fun i _ hi => absurd hi (Nat.not_lt_zero i)⟩

end Ring

namespace RingArray

variable {l : ℕ} {added : List Event}

/-- Events that were added since the last reset. -/
def since (calls : List Call) : List Event :=
  calls.foldl (fun evs call => match call with
    | .add event => evs ++ [event]
    | .reset => []) []

/-- The array holds the slots of the ring, whatever the ones outside of the window hold. -/
structure Represents (r : RingArray) (g : Ring) : Prop where
  s : r.s = g.s
  e : r.e = g.e
  l : r.l = g.l
  length : r.arr.length = g.l
  slots : ∀ i, i < g.l → r.arr[i]? = some (g.arr i)

variable {r : RingArray} {g : Ring}

namespace Represents

theorem newRing {l : ℕ} (hl : 0 < l) : (newRing l).Represents (.new l hl) :=
  ⟨rfl, rfl, rfl, List.length_replicate, fun _ hi => List.getElem?_replicate_of_lt hi⟩

theorem index (h : r.Represents g) (i : ℕ) : r.index i = g.index i := by
  unfold RingArray.index Ring.index
  rw [h.l]

theorem index_lt (g : Ring) (i : ℕ) : g.index i < g.l := Nat.mod_lt i g.pos

variable (h : r.Represents g)

include h

theorem add (event : Event) : ∃ r', r.add event = some r' ∧ r'.Represents (g.add event) := by
  have hlt := index_lt g g.e
  have hadd : r.add event = some _ := if_pos (by rw [h.index, h.e, h.length]; exact hlt)
  refine ⟨_, hadd, ?_, ?_, h.l, ?_, fun i hi => ?_⟩
  · show (if r.e = r.s + r.l then r.s + 1 else r.s) = _
    rw [h.e, h.s, h.l]
    rfl
  · show r.e + 1 = _
    rw [h.e]
    rfl
  · show (r.arr.set _ _).length = _
    rw [List.length_set]
    exact h.length
  · have hi : i < g.l := hi
    show (r.arr.set (r.index r.e) (some event))[i]? =
      some (Function.update g.arr (g.index g.e) (some event) i)
    rw [h.index, h.e]
    by_cases hie : g.index g.e = i
    · subst hie
      rw [List.getElem?_set_self (by rw [h.length]; exact hlt), Function.update_self]
    · rw [List.getElem?_set_ne hie, Function.update_of_ne (Ne.symm hie)]
      exact h.slots i hi

theorem reset : r.reset.Represents g.reset :=
  ⟨rfl, rfl, h.l, h.length, h.slots⟩

theorem slot (i : ℕ) : r.arr[r.index i]? = some (g.arr (g.index i)) := by
  rw [h.index]
  exact h.slots _ (index_lt g i)

theorem arr_eq : r.arr = (List.range' 0 g.l).map g.arr := by
  apply List.ext_getElem?
  intro i
  rw [List.getElem?_map]
  by_cases hi : i < g.l
  · rw [h.slots i hi, List.getElem?_range' hi, Option.map_some, Nat.zero_add, Nat.one_mul]
  · rw [List.getElem?_eq_none (by rw [h.length]; omega),
      List.getElem?_eq_none (by rw [List.length_range']; omega), Option.map_none]

/-- A slice that lies in the array, as slots. -/
theorem slice {i j : ℕ} (hij : i ≤ j) (hj : j ≤ g.l) :
    Go.slice r.arr i j = some ((List.range' i (j - i)).map g.arr) := by
  rw [Go.slice_eq hij (by rw [h.length]; exact hj), h.arr_eq, ← List.map_take, ← List.map_drop]
  congr 2
  apply List.ext_getElem?
  intro k
  rw [List.getElem?_drop, List.getElem?_take]
  by_cases hk : i + k < j
  · rw [if_pos hk, List.getElem?_range' (by omega), List.getElem?_range' (by omega)]
    congr 1
    omega
  · rw [if_neg hk, List.getElem?_eq_none]
    rw [List.length_range']
    omega

end Represents

/-- The ring after some calls: its window is as long as the array allows. -/
structure Window (r : RingArray) (g : Ring) (l : ℕ) (added : List Event) : Prop where
  represents : r.Represents g
  holds : g.Holds added
  capacity : g.l = l
  start : g.s = added.length - l

theorem Window.apply (h : r.Window g l added) (call : Call) :
    ∃ r' g', r.apply call = some r' ∧ r'.Window g' l (match call with
      | .add event => added ++ [event]
      | .reset => []) := by
  cases call with
  | add event =>
    obtain ⟨r', hr', hrep⟩ := h.represents.add event
    refine ⟨r', _, hr', hrep, h.holds.add event, h.capacity, ?_⟩
    have hs := h.start
    have he := h.holds.1
    have hl := h.capacity
    show (if g.e = g.s + g.l then g.s + 1 else g.s) = _
    rw [List.length_append, List.length_singleton]
    have hsize := g.size
    split <;> omega
  | reset =>
    refine ⟨_, _, rfl, h.represents.reset, g.holds_reset, h.capacity, ?_⟩
    show 0 = 0 - l
    omega

theorem window_after (hl : 0 < l) (calls : List Call) :
    ∃ r g, after l calls = some r ∧ r.Window g l (since calls) := by
  have run (calls : List Call) (r : RingArray) (g : Ring) (added : List Event)
      (h : r.Window g l added) :
      ∃ r' g', calls.foldlM RingArray.apply r = some r' ∧
        r'.Window g' l (calls.foldl (fun evs call => match call with
          | .add event => evs ++ [event]
          | .reset => []) added) := by
    induction calls generalizing r g added with
    | nil => exact ⟨r, g, rfl, h⟩
    | cons call calls ih =>
      obtain ⟨r₁, g₁, hr₁, h₁⟩ := h.apply call
      obtain ⟨r₂, g₂, hr₂, h₂⟩ := ih r₁ g₁ _ h₁
      refine ⟨r₂, g₂, ?_, h₂⟩
      rw [List.foldlM_cons, hr₁]
      exact hr₂
  refine run calls (newRing l) (.new l hl) [] ⟨.newRing hl, Ring.holds_new hl, rfl, ?_⟩
  show 0 = 0 - l
  omega

/-- The copies fill the answer with the events from the position on. -/
theorem copied_eq (h : r.Represents g) (hg : g.Holds added) {idx : ℕ} (hidx : idx < g.e - g.s) :
    r.copied idx = some ((added.drop (g.s + idx)).map some) := by
  have hin := Represents.index_lt g g.e
  have hle : g.s ≤ g.s + idx := by omega
  have hlen : (added.drop (g.s + idx)).length = g.e - (g.s + idx) := by
    rw [List.length_drop, ← hg.1]
  unfold copied
  rw [h.e, h.s, h.l, h.index, h.index, h.length, show g.e - g.s - idx = g.e - (g.s + idx) by omega]
  rcases Ring.window_cases hle (by omega) with ⟨hlt, hn⟩ | ⟨hge, hal, hn, hnext⟩
  · have hslots := Ring.slots_eq hg hle (show g.s + idx + (g.e - (g.s + idx)) ≤ g.e by omega)
      (by unfold Ring.index at hn hin; omega)
    rw [if_pos hlt, h.slice hlt.le hin.le, Option.bind_eq_bind, Option.bind_some,
      Go.copyAt_zero (by simp; omega)]
    rw [show g.index g.e - g.index (g.s + idx) = g.e - (g.s + idx) by omega]
    unfold Ring.index
    rw [hslots, ← hlen, List.take_length]
    simp
  · have hfirst := Ring.slots_eq hg hle
      (show g.s + idx + (g.l - g.index (g.s + idx)) ≤ g.e by omega)
      (by unfold Ring.index at hal ⊢; omega)
    have hsecond := Ring.slots_eq hg (show g.s ≤ g.s + idx + (g.l - g.index (g.s + idx)) by omega)
      (show g.s + idx + (g.l - g.index (g.s + idx)) + g.index g.e ≤ g.e by omega)
      (by rw [hnext]; omega)
    rw [hnext, ← List.drop_drop] at hsecond
    have hrest : ((added.drop (g.s + idx)).drop (g.l - g.index (g.s + idx))).length =
        g.index g.e := by
      rw [List.length_drop, hlen]
      omega
    rw [List.take_of_length_le hrest.le] at hsecond
    rw [if_neg (not_lt.mpr hge), h.slice hal.le le_rfl, h.slice (Nat.zero_le _) hin.le]
    simp only [Option.bind_eq_bind, Option.bind_some, Nat.sub_zero]
    rw [Go.copyAt_zero (by simp; omega), Option.bind_some,
      Go.copyAt_append (by simp) (by simp; omega), hsecond]
    change List.map g.arr (List.range' (g.index (g.s + idx)) _) = _ at hfirst
    rw [hfirst, ← List.map_append, List.take_append_drop]

/-- What `findEvents` answers when `added` were added and the ring still has the `kept` ones. -/
structure Finds (added kept : List Event) (revision : ℕ) (ret : FindRet) : Prop where
  empty : ret.empty = true ↔ added = []
  newest : ret.newest = added.getLast?
  oldest : ret.oldest = kept.head?
  high : ret.high = true ↔ ∃ ev, ret.newest = some ev ∧ ev.revision < revision
  low : ret.low = true ↔ ∃ ev, ret.oldest = some ev ∧ revision < ev.revision
  events : added ≠ [] → ret.high = false → ret.low = false →
    ret.events = (kept.filter fun ev => decide (revision ≤ ev.revision)).map some

theorem Window.newest (h : r.Window g l added) (he : g.e ≠ 0) :
    r.newest = some (some (g.newest he)) := by
  have hlt := g.lt he
  unfold RingArray.newest
  rw [h.represents.e, h.represents.slot]
  exact congrArg some ((h.holds.2 (g.e - 1) (by omega) (by omega)).trans (h.holds.get _))

theorem Window.oldest (h : r.Window g l added) (he : g.e ≠ 0) :
    r.oldest = some (some (g.oldest he)) := by
  unfold RingArray.oldest
  rw [h.represents.s, h.represents.slot]
  exact congrArg some ((h.holds.2 g.s le_rfl (g.lt he)).trans (h.holds.get _))

theorem Window.search (h : r.Window g l added) (revision : ℕ) :
    (Search.searchM (r.e - r.s) fun i => r.arr[r.index (r.s + i)]?.bind fun event =>
      event.bind fun ev => pure (decide (revision ≤ ev.revision))) =
      some (Search.search (g.e - g.s) (g.probe revision)) := by
  rw [h.represents.e, h.represents.s]
  apply Search.searchM_eq
  intro i hi
  have hget := h.holds.get (i := g.s + i) ⟨by omega, by omega⟩
  have hslot : g.arr (g.index (g.s + i)) = some _ :=
    (h.holds.2 (g.s + i) (by omega) (by omega)).trans hget
  rw [h.represents.slot, hslot, Ring.probe_eq h.holds hi hget]
  rfl

theorem findEvents_of_window (h : r.Window g l added)
    (hsorted : added.Pairwise fun a b => a.revision < b.revision) (revision : ℕ) :
    ∃ ret, r.findEvents revision = some ret ∧
      Finds added (added.drop (added.length - l)) revision ret := by
  have hlen : r.e = added.length := h.represents.e.trans h.holds.1
  unfold findEvents
  by_cases hnil : added = []
  · subst hnil
    rw [if_pos (show r.e = 0 from hlen)]
    exact ⟨_, rfl, by simp, by simp, by simp, by simp, by simp, fun h => absurd rfl h⟩
  · have he : g.e ≠ 0 := by
      rw [h.holds.1]
      exact fun h0 => hnil (List.length_eq_zero_iff.mp h0)
    have hkept : (added.drop (added.length - l)).head? = some (g.oldest he) := by
      rw [List.head?_drop, ← h.start]
      exact h.holds.oldest he
    have horder : (g.oldest he).revision ≤ (g.newest he).revision := by
      have hlt := g.lt he
      by_cases hone : g.s = g.e - 1
      · exact le_of_eq (congrArg Event.revision (by unfold Ring.oldest Ring.newest; congr))
      · exact (Ring.revision_lt hsorted (by omega) (h.holds.oldest he) (h.holds.get _)).le
    rw [if_neg (by rw [h.represents.e]; exact he), h.newest he, h.oldest he]
    simp only [Option.bind_eq_bind, Option.bind_some, h.search]
    split
    · next hhigh =>
      refine ⟨_, rfl, by simpa using hnil, (h.holds.newest he).symm, hkept.symm, ?_, ?_, ?_⟩
      · simpa using hhigh
      · simp only [Bool.false_eq_true, Option.some.injEq, exists_eq_left', false_iff]
        omega
      · exact fun _ hh => absurd hh (by simp)
    next hhigh =>
    split
    · next hlow =>
      refine ⟨_, rfl, by simpa using hnil, (h.holds.newest he).symm, hkept.symm, ?_, ?_, ?_⟩
      · simpa using Nat.not_lt.mp hhigh
      · simpa using hlow
      · exact fun _ _ hl => absurd hl (by simp)
    next hlow =>
    obtain ⟨hidx, hdrop⟩ := Ring.search_window h.holds hsorted he (Nat.not_lt.mp hhigh)
    rw [copied_eq h.represents h.holds hidx]
    refine ⟨_, rfl, by simpa using hnil, (h.holds.newest he).symm, hkept.symm, ?_, ?_, ?_⟩
    · simpa using Nat.not_lt.mp hhigh
    · simpa using Nat.not_lt.mp hlow
    · intro _ _ _
      rw [← h.start, hdrop]

/-- The watch cache returns exact suffixes: whatever was added and reset before, `findEvents`
reads no slot outside of the array and answers for the last `l` events since the reset. -/
theorem findEvents_exact {l : ℕ} (hl : 1 ≤ l) (calls : List Call)
    (hsorted : (since calls).Pairwise fun a b => a.revision < b.revision) (revision : ℕ) :
    ∃ r ret, after l calls = some r ∧ r.findEvents revision = some ret ∧
      Finds (since calls) ((since calls).drop ((since calls).length - l)) revision ret := by
  obtain ⟨r, g, hr, h⟩ := window_after hl calls
  obtain ⟨ret, hret, hfinds⟩ := findEvents_of_window h hsorted revision
  exact ⟨r, ret, hr, hret, hfinds⟩

/-- Calls after which a ring of two slots has wrapped around. -/
def wrapped : List Call :=
  let put (revision : ℕ) : Call := .add ⟨.put, revision, ⟨[47], [], revision⟩⟩
  [put 7, .reset, put 4, put 5, put 8]

theorem findEvents_exact_wrapped : (since wrapped).map Event.revision = [4, 5, 8] ∧
    ∃ r ret, after 2 wrapped = some r ∧ r.findEvents 6 = some ret ∧
      Finds (since wrapped) ((since wrapped).drop ((since wrapped).length - 2)) 6 ret :=
  ⟨rfl, findEvents_exact (by decide) wrapped (by decide) 6⟩

example : ((after 2 wrapped).bind fun r => r.findEvents 6) =
    some { newest := some ⟨.put, 8, ⟨[47], [], 8⟩⟩, oldest := some ⟨.put, 5, ⟨[47], [], 5⟩⟩,
           events := [some ⟨.put, 8, ⟨[47], [], 8⟩⟩] } := by decide

end RingArray
end KubeBrain

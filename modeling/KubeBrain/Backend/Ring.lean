import KubeBrain.Lib.Search
import KubeBrain.Coder
import Mathlib.Logic.Function.Basic

/-! Events and the ring that caches the most recent ones: `pkg/backend/ring.go`. -/
namespace KubeBrain

/-- `proto.Event_EventType`. -/
inductive Verb where
  | create
  | put
  | delete
  deriving DecidableEq, Repr

structure KeyValue where
  key : Bytes
  value : Bytes
  revision : ℕ
  deriving DecidableEq, Repr

/-- An event as watchers receive it. -/
structure Event where
  type : Verb
  revision : ℕ
  kv : KeyValue
  deriving DecidableEq, Repr

/-- The slots from `s` on and below `e`, taken modulo `l`, hold the cached events. -/
structure Ring where
  s : ℕ
  e : ℕ
  l : ℕ
  arr : ℕ → Option Event
  pos : 0 < l
  le : s ≤ e
  lt : e ≠ 0 → s < e
  size : e ≤ s + l
  filled : ∀ i, s ≤ i → i < e → (arr (i % l)).isSome

namespace Ring

def new (l : ℕ) (h : 0 < l) : Ring where
  s := 0
  e := 0
  l := l
  arr := fun _ => none
  pos := h
  le := by omega
  lt := by omega
  size := by omega
  filled := by omega

def index (r : Ring) (i : ℕ) : ℕ := i % r.l

private theorem add_filled (r : Ring) (event : Event) (i : ℕ)
    (hs : (if r.e = r.s + r.l then r.s + 1 else r.s) ≤ i) (he : i < r.e + 1) :
    (Function.update r.arr (r.index r.e) (some event) (i % r.l)).isSome := by
  by_cases hi : i % r.l = r.index r.e
  · rw [hi, Function.update_self]
    rfl
  · rw [Function.update_of_ne hi]
    have hne : i ≠ r.e := by
      intro h
      exact hi (by rw [h, index])
    exact r.filled i (by split at hs <;> omega) (by omega)

def add (r : Ring) (event : Event) : Ring where
  s := if r.e = r.s + r.l then r.s + 1 else r.s
  e := r.e + 1
  l := r.l
  arr := Function.update r.arr (r.index r.e) (some event)
  pos := r.pos
  le := by have := r.le; have := r.pos; split <;> omega
  lt := by have := r.le; have := r.pos; intro; split <;> omega
  size := by have := r.size; split <;> omega
  filled := r.add_filled event

/-- The cached event of a position in `[s, e)`. -/
def get (r : Ring) (i : ℕ) (h : r.s ≤ i ∧ i < r.e) : Event :=
  (r.arr (r.index i)).get (r.filled i h.1 h.2)

def newest (r : Ring) (h : r.e ≠ 0) : Event :=
  r.get (r.e - 1) ⟨by have := r.lt h; omega, by omega⟩

def oldest (r : Ring) (h : r.e ≠ 0) : Event := r.get r.s ⟨le_refl _, r.lt h⟩

inductive FindRet where
  | empty
  | high
  | low (oldest : Event)
  | found (newest : Event) (events : List Event)
  deriving DecidableEq, Repr

/-- Events of the slots `arr[i:j]`. -/
def slice (r : Ring) (i j : ℕ) : List Event := (List.range' i (j - i)).filterMap r.arr

/-- Events from `revision` on. -/
def findEvents (r : Ring) (revision : ℕ) : FindRet :=
  if h : r.e = 0 then .empty
  else if (r.newest h).revision < revision then .high
  else if revision < (r.oldest h).revision then .low (r.oldest h)
  else
    let idx := Search.search (r.e - r.s) fun i =>
      (r.arr (r.index (r.s + i))).any fun ev => revision ≤ ev.revision
    if r.index (r.s + idx) < r.index r.e then
      .found (r.newest h) (r.slice (r.index (r.s + idx)) (r.index r.e))
    else
      .found (r.newest h) (r.slice (r.index (r.s + idx)) r.l ++ r.slice 0 (r.index r.e))

end Ring
end KubeBrain

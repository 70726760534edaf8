import KubeBrain.Backend.Ring

/-! The ring with the array of pointers that `pkg/backend/ring.go` keeps. A read or a slice
outside of an array and a field of a nil pointer are panics, which are `none` here. The
cursors do not overflow. -/
namespace KubeBrain

namespace Go

variable {α : Type}

/-- `a[i:j]`. -/
def slice (a : List α) (i j : ℕ) : Option (List α) :=
  if i ≤ j ∧ j ≤ a.length then some ((a.take j).drop i) else none

/-- `copy(dst[k:], src)`. -/
def copyAt (dst : List α) (k : ℕ) (src : List α) : Option (List α) :=
  if k ≤ dst.length then
    some (dst.take k ++ src.take (dst.length - k) ++ dst.drop (k + src.length))
  else none

end Go

structure RingArray where
  s : ℕ
  e : ℕ
  l : ℕ
  arr : List (Option Event)

namespace RingArray

def newRing (l : ℕ) : RingArray := ⟨0, 0, l, List.replicate l none⟩

def index (r : RingArray) (i : ℕ) : ℕ := i % r.l

def add (r : RingArray) (event : Event) : Option RingArray :=
  if r.index r.e < r.arr.length then
    some { r with
      arr := r.arr.set (r.index r.e) (some event)
      s := if r.e = r.s + r.l then r.s + 1 else r.s
      e := r.e + 1 }
  else none

/-- The slots keep what they hold. -/
def reset (r : RingArray) : RingArray := { r with s := 0, e := 0 }

def newest (r : RingArray) : Option (Option Event) := r.arr[r.index (r.e - 1)]?

def oldest (r : RingArray) : Option (Option Event) := r.arr[r.index r.s]?

structure FindRet where
  empty : Bool := false
  high : Bool := false
  low : Bool := false
  newest : Option Event := none
  oldest : Option Event := none
  events : List (Option Event) := []
  deriving DecidableEq, Repr

/-- The end of `FindEvents`: the slots from position `s + idx` on are copied in one or two
pieces. -/
def copied (r : RingArray) (idx : ℕ) : Option (List (Option Event)) := do
  let events := List.replicate (r.e - r.s - idx) none
  if r.index (r.s + idx) < r.index r.e then
    Go.copyAt events 0 (← Go.slice r.arr (r.index (r.s + idx)) (r.index r.e))
  else
    let events ← Go.copyAt events 0 (← Go.slice r.arr (r.index (r.s + idx)) r.arr.length)
    Go.copyAt events (r.l - r.index (r.s + idx)) (← Go.slice r.arr 0 (r.index r.e))

/-- Events from `revision` on. -/
def findEvents (r : RingArray) (revision : ℕ) : Option FindRet := do
  if r.e = 0 then return { empty := true }
  let newest ← r.newest
  let oldest ← r.oldest
  let ret : FindRet := { newest, oldest }
  if (← newest).revision < revision then return { ret with high := true }
  if revision < (← oldest).revision then return { ret with low := true }
  let idx ← Search.searchM (r.e - r.s) fun i => do
    let event ← r.arr[r.index (r.s + i)]?
    return decide (revision ≤ (← event).revision)
  return { ret with events := ← r.copied idx }

/-- Calls that change the ring. -/
inductive Call where
  | add (event : Event)
  | reset

def apply (r : RingArray) : Call → Option RingArray
  | .add event => r.add event
  | .reset => some r.reset

/-- The ring after a sequence of calls on a new one. -/
def after (l : ℕ) (calls : List Call) : Option RingArray := calls.foldlM apply (newRing l)

end RingArray
end KubeBrain

import Mathlib.Data.List.Nodup

/-! Linked cells on a heap, and the lists they hold. -/
namespace Linked

structure Node (α : Type) where
  value : α
  next : Option ℕ

/-- Cells are allocated at the end; an address is the index of its cell. -/
abbrev Heap (α : Type) := List (Node α)

variable {α : Type} {heap heap' : Heap α} {head : Option ℕ} {as : List ℕ} {xs : List α}

/-- Following `next` from `head` visits the cells at `as`, which hold `xs`, and ends there. -/
inductive Chain (heap : Heap α) : Option ℕ → List ℕ → List α → Prop
  | nil : Chain heap none [] []
  | cons {a : ℕ} {x : α} {next : Option ℕ} {as : List ℕ} {xs : List α}
      (read : heap[a]? = some ⟨x, next⟩) (rest : Chain heap next as xs) :
      Chain heap (some a) (a :: as) (x :: xs)

namespace Chain

variable (h : Chain heap head as xs)

include h

theorem length_eq : as.length = xs.length := by
  induction h with
  | nil => rfl
  | cons _ _ ih => simp [ih]

theorem head_eq : head = as.head? := by
  cases h <;> rfl

theorem head_eq_none_iff : head = none ↔ xs = [] := by
  cases h <;> simp

theorem lt_of_mem {a : ℕ} (ha : a ∈ as) : a < heap.length := by
  induction h with
  | nil => simp at ha
  | cons read _ ih =>
    rcases List.mem_cons.mp ha with rfl | ha
    · exact (List.getElem?_eq_some_iff.mp read).1
    · exact ih ha

/-- A fresh cell that the last cell of a chain is made to point at becomes its last cell. -/
theorem snoc (hnodup : as.Nodup) {last : ℕ} (hlast : as.getLast? = some last) (x : α) :
    Chain (heap.modify last (fun node => { node with next := some heap.length }) ++ [⟨x, none⟩])
      head (as ++ [heap.length]) (xs ++ [x]) := by
  have hfresh : (heap.modify last (fun node => { node with next := some heap.length }) ++
      [⟨x, none⟩])[heap.length]? = some ⟨x, none⟩ := by
    simp
  induction h with
  | nil => simp at hlast
  | @cons a y next as xs read rest ih =>
    have hlt : a < heap.length := (List.getElem?_eq_some_iff.mp read).1
    cases rest with
    | nil =>
      obtain rfl : a = last := by simpa using hlast
      refine .cons ?_ (.cons hfresh .nil)
      rw [List.getElem?_append_left (by simpa using hlt), List.getElem?_modify_eq, read]
      rfl
    | @cons b z next' bs zs read' rest' =>
      have hlast' : (b :: bs).getLast? = some last := by
        rwa [List.getLast?_cons_cons] at hlast
      obtain ⟨hnotin, hnodup'⟩ := List.nodup_cons.mp hnodup
      have hne : last ≠ a := by
        rintro rfl
        exact hnotin (List.mem_of_getLast? hlast')
      refine .cons ?_ (ih hnodup' hlast')
      rw [List.getElem?_append_left (by simpa using hlt), List.getElem?_modify_ne _ _ hne, read]

end Chain
end Linked

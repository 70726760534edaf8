import Mathlib.Data.List.Basic

/-! Runs of equal keys in a list: the last element of each run that satisfies a predicate. -/
namespace Runs

variable {α κ : Type} {key : α → κ} {p : α → Prop}

variable {l : List α} {lt : α → α → Prop}

/-- No run that goes on from the first list to the second has an end there. -/
def Seam (key : α → κ) (p : α → Prop) (l₁ l₂ : List α) : Prop :=
  ∀ a ∈ l₁.getLast?, p a → l₂.head?.map key ≠ some (key a)

theorem seam_cons_cons {a b : α} {l₁ l₂ : List α} :
    Seam key p (a :: b :: l₁) l₂ ↔ Seam key p (b :: l₁) l₂ := by
  simp [Seam]

/-- Where elements of one key are ordered, the last of them is the greatest. -/
theorem last_iff (hlt : l.Pairwise fun a b => key a = key b → lt a b)
    (hasymm : ∀ a b, lt a b → ¬ lt b a) {a : α} :
    (∃ l₁ l₂, l = l₁ ++ a :: l₂ ∧ ∀ b ∈ l₂, key b ≠ key a) ↔
      a ∈ l ∧ ∀ b ∈ l, key b = key a → ¬ lt a b := by
  constructor
  · rintro ⟨l₁, l₂, rfl, hne⟩
    obtain ⟨-, -, hbefore⟩ := List.pairwise_append.mp hlt
    refine ⟨by simp, fun b hb hkey hab => ?_⟩
    rcases List.mem_append.mp hb with hb | hb
    · exact hasymm b a (hbefore b hb a List.mem_cons_self hkey) hab
    · rcases List.mem_cons.mp hb with rfl | hb
      · exact hasymm b b hab hab
      · exact hne b hb hkey
  · rintro ⟨ha, hmax⟩
    obtain ⟨l₁, l₂, rfl⟩ := List.append_of_mem ha
    obtain ⟨-, hafter, -⟩ := List.pairwise_append.mp hlt
    refine ⟨l₁, l₂, rfl, fun b hb hkey => hmax b (by simp [hb]) hkey ?_⟩
    exact (List.pairwise_cons.mp hafter).1 b hb hkey.symm

variable [DecidableEq κ] [DecidablePred p]

/-- The last elements of the runs, as far as they satisfy the predicate. -/
def ends (key : α → κ) (p : α → Prop) [DecidablePred p] : List α → List α
  | [] => []
  | a :: l => if p a ∧ l.head?.map key ≠ some (key a) then a :: ends key p l else ends key p l

theorem ends_cons (a : α) (l : List α) : ends key p (a :: l) =
    (if p a ∧ l.head?.map key ≠ some (key a) then [a] else []) ++ ends key p l := by
  rw [ends]
  split <;> rfl

theorem ends_cons_of_not {a : α} (h : ¬ p a) (l : List α) : ends key p (a :: l) = ends key p l := by
  rw [ends, if_neg fun h' => h h'.1]

theorem ends_sublist (l : List α) : (ends key p l).Sublist l := by
  induction l with
  | nil => exact .slnil
  | cons a l ih =>
    rw [ends]
    split
    · exact ih.cons_cons a
    · exact ih.cons a

theorem mem_ends {a : α} : a ∈ ends key p l ↔
    p a ∧ ∃ l₁ l₂, l = l₁ ++ a :: l₂ ∧ l₂.head?.map key ≠ some (key a) := by
  induction l with
  | nil => simp [ends]
  | cons b l ih =>
    rw [ends_cons, List.mem_append, ih]
    constructor
    · rintro (hb | ⟨ha, l₁, l₂, rfl, hne⟩)
      · split at hb
        · next h =>
          obtain rfl := List.mem_singleton.mp hb
          exact ⟨h.1, [], l, rfl, h.2⟩
        · cases hb
      · exact ⟨ha, b :: l₁, l₂, rfl, hne⟩
    · rintro ⟨ha, l₁, l₂, heq, hne⟩
      cases l₁ with
      | nil =>
        obtain ⟨rfl, rfl⟩ := List.cons.inj heq
        left
        rw [if_pos ⟨ha, hne⟩]
        exact List.mem_singleton.mpr rfl
      | cons c l₁ =>
        obtain ⟨rfl, rfl⟩ := List.cons.inj heq
        exact .inr ⟨ha, l₁, l₂, rfl, hne⟩

/-- Cut in two, a list has the ends of both parts, and where a run goes on one end more. -/
theorem ends_append (l₁ l₂ : List α) :
    (Seam key p l₁ l₂ → ends key p l₁ ++ ends key p l₂ = ends key p (l₁ ++ l₂)) ∧
      (¬ Seam key p l₁ l₂ →
        (ends key p (l₁ ++ l₂)).length < (ends key p l₁ ++ ends key p l₂).length) := by
  induction l₁ with
  | nil => exact ⟨fun _ => rfl, fun h => absurd (by simp [Seam]) h⟩
  | cons a l₁ ih =>
    cases l₁ with
    | nil =>
      have hone : ends key p [a] = if p a then [a] else [] := by simp [ends]
      rw [hone, List.cons_append, List.nil_append, ends_cons]
      constructor
      · intro hseam
        by_cases ha : p a
        · rw [if_pos ha, if_pos ⟨ha, hseam a rfl ha⟩]
        · rw [if_neg ha, if_neg fun h => ha h.1]
      · intro hseam
        obtain ⟨ha, heq⟩ : p a ∧ l₂.head?.map key = some (key a) := by
          simpa [Seam] using hseam
        rw [if_pos ha, if_neg fun h => h.2 heq]
        simp
    | cons b l₁ =>
      rw [seam_cons_cons, ends_cons a, List.cons_append, ends_cons a, List.append_assoc]
      have hhead : (b :: l₁ ++ l₂).head? = (b :: l₁).head? := rfl
      rw [hhead]
      constructor
      · intro hseam
        rw [ih.1 hseam]
      · intro hseam
        rw [List.length_append, List.length_append]
        exact Nat.add_lt_add_left (ih.2 hseam) _

section Ordered

variable {l : List α}

theorem mem_ends_of_last {a : α} (ha : p a)
    (h : ∃ l₁ l₂, l = l₁ ++ a :: l₂ ∧ ∀ b ∈ l₂, key b ≠ key a) : a ∈ ends key p l := by
  obtain ⟨l₁, l₂, rfl, hne⟩ := h
  refine mem_ends.mpr ⟨ha, l₁, l₂, rfl, ?_⟩
  cases l₂ with
  | nil => simp
  | cons b l₂ => simpa using hne b List.mem_cons_self

/-- Where the keys come in order, an element ends its run if it is the last of its key. -/
theorem last_of_mem_ends {r : κ → κ → Prop} (hr : l.Pairwise fun a b => r (key a) (key b))
    (hanti : ∀ x y, r x y → r y x → x = y) {a : α} (ha : a ∈ ends key p l) :
    ∃ l₁ l₂, l = l₁ ++ a :: l₂ ∧ ∀ b ∈ l₂, key b ≠ key a := by
  obtain ⟨-, l₁, l₂, rfl, hne⟩ := mem_ends.mp ha
  refine ⟨l₁, l₂, rfl, fun b hb hkey => ?_⟩
  obtain ⟨-, hafter, -⟩ := List.pairwise_append.mp hr
  obtain ⟨hfirst, hrest⟩ := List.pairwise_cons.mp hafter
  cases l₂ with
  | nil => cases hb
  | cons c l₂ =>
    rcases List.mem_cons.mp hb with rfl | hb
    · exact hne (by simp [hkey])
    · have hca := (List.pairwise_cons.mp hrest).1 b hb
      rw [hkey] at hca
      exact hne (by simp [hanti _ _ hca (hfirst c List.mem_cons_self)])

/-- Where the keys come in order and the elements of one key too, the ends are the greatest
elements of their keys. -/
theorem mem_ends_iff {lt : α → α → Prop} (hlt : l.Pairwise fun a b => key a = key b → lt a b)
    (hasymm : ∀ a b, lt a b → ¬ lt b a) {r : κ → κ → Prop}
    (hr : l.Pairwise fun a b => r (key a) (key b)) (hanti : ∀ x y, r x y → r y x → x = y) {a : α} :
    a ∈ ends key p l ↔ p a ∧ a ∈ l ∧ ∀ b ∈ l, key b = key a → ¬ lt a b := by
  rw [← last_iff hlt hasymm]
  constructor
  · intro h
    exact ⟨(mem_ends.mp h).1, last_of_mem_ends hr hanti h⟩
  · rintro ⟨hp, hlast⟩
    exact mem_ends_of_last hp hlast

/-- If every end is the last of its key, there is one end for each key. -/
theorem pairwise_ends (hnodup : l.Nodup)
    (h : ∀ a ∈ ends key p l, ∃ l₁ l₂, l = l₁ ++ a :: l₂ ∧ ∀ b ∈ l₂, key b ≠ key a) :
    (ends key p l).Pairwise fun a b => key a ≠ key b := by
  induction l with
  | nil => exact .nil
  | cons x l ih =>
    obtain ⟨hx, hnodup⟩ := List.nodup_cons.mp hnodup
    have hrest : (ends key p l).Pairwise fun a b => key a ≠ key b := by
      refine ih hnodup fun a ha => ?_
      obtain ⟨l₁, l₂, heq, hne⟩ := h a (by rw [ends_cons]; exact List.mem_append_right _ ha)
      cases l₁ with
      | nil =>
        obtain ⟨rfl, rfl⟩ := List.cons.inj heq
        exact absurd ((ends_sublist l).mem ha) hx
      | cons y l₁ =>
        obtain ⟨rfl, rfl⟩ := List.cons.inj heq
        exact ⟨l₁, l₂, rfl, hne⟩
    rw [ends]
    split
    · next hend =>
      refine List.pairwise_cons.mpr ⟨fun b hb => ?_, hrest⟩
      obtain ⟨l₁, l₂, heq, hne⟩ := h x (by rw [ends, if_pos hend]; exact List.mem_cons_self)
      cases l₁ with
      | nil =>
        obtain ⟨-, rfl⟩ := List.cons.inj heq
        exact (hne b ((ends_sublist l).mem hb)).symm
      | cons y l₁ =>
        obtain ⟨rfl, rfl⟩ := List.cons.inj heq
        exact absurd (by simp) hx
    · exact hrest

end Ordered

end Runs

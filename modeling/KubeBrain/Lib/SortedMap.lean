import Mathlib.Data.List.Sort
import Mathlib.Order.Basic

/-! Finite maps over a linear order, kept as strictly sorted association lists so that
range scans in both directions are list operations. -/

/-- The entries are strictly sorted by key, hence every key occurs once. -/
structure SortedMap (κ β : Type) [LinearOrder κ] where
  entries : List (κ × β)
  sorted : entries.Pairwise fun a b => a.1 < b.1

namespace SortedMap

variable {κ β : Type} [LinearOrder κ]

variable {k : κ} (m : SortedMap κ β)

def empty : SortedMap κ β := ⟨[], List.Pairwise.nil⟩

def get (m : SortedMap κ β) (k : κ) : Option β :=
  (m.entries.find? fun e => e.1 = k).map Prod.snd

def erase (m : SortedMap κ β) (k : κ) : SortedMap κ β :=
  ⟨m.entries.filter fun e => e.1 ≠ k, m.sorted.filter _⟩

def insert (m : SortedMap κ β) (k : κ) (v : β) : SortedMap κ β where
  entries := (m.entries.filter fun e => e.1 < k) ++ (k, v) :: m.entries.filter fun e => k < e.1
  sorted := by
    rw [List.pairwise_append, List.pairwise_cons]
    refine ⟨m.sorted.filter _, ⟨fun e he => ?_, m.sorted.filter _⟩, fun a ha b hb => ?_⟩
    · simpa using (List.mem_filter.mp he).2
    · have ha' : a.1 < k := by simpa using (List.mem_filter.mp ha).2
      rcases List.mem_cons.mp hb with rfl | hb
      · exact ha'
      · exact ha'.trans (by simpa using (List.mem_filter.mp hb).2)

/-- Ascending scan of `[lo, hi)`. -/
def range (m : SortedMap κ β) (lo hi : κ) : List (κ × β) :=
  m.entries.filter fun e => lo ≤ e.1 ∧ e.1 < hi

/-- Descending scan of `(lo, hi]`, from `hi` downwards. -/
def rangeDesc (m : SortedMap κ β) (hi lo : κ) : List (κ × β) :=
  (m.entries.filter fun e => lo < e.1 ∧ e.1 ≤ hi).reverse

theorem mem_entries {m : SortedMap κ β} {v : β} : (k, v) ∈ m.entries ↔ m.get k = some v := by
  obtain ⟨es, hs⟩ := m
  simp only [get, Option.map_eq_some_iff]
  induction es with
  | nil => simp
  | cons e es ih =>
    obtain ⟨hlt, hs⟩ := List.pairwise_cons.mp hs
    by_cases he : e.1 = k
    · subst he
      simp only [List.mem_cons, List.find?_cons, decide_true, Option.some.injEq]
      constructor
      · rintro (h | h)
        · exact ⟨e, rfl, by rw [← h]⟩
        · exact absurd (hlt _ h) (lt_irrefl _)
      · rintro ⟨_, rfl, hv⟩
        exact .inl (by rw [← hv])
    · simp only [List.mem_cons, List.find?_cons, he, decide_false]
      rw [← ih hs]
      constructor
      · rintro (h | h)
        · exact absurd (congrArg Prod.fst h).symm he
        · exact h
      · exact .inr

@[simp] theorem get_empty (k : κ) : (empty : SortedMap κ β).get k = none := rfl

theorem get_insert (k k' : κ) (v : β) :
    (m.insert k v).get k' = if k' = k then some v else m.get k' := by
  apply Option.ext
  intro w
  rw [← Option.mem_def, Option.mem_def, ← mem_entries]
  simp only [insert, List.mem_append, List.mem_filter, List.mem_cons, decide_eq_true_eq,
    Prod.mk.injEq]
  split
  · next h => subst h; simp [eq_comm]
  · next h =>
    rw [← mem_entries]
    constructor
    · rintro (⟨h', -⟩ | ⟨h', -⟩ | ⟨h', -⟩)
      · exact h'
      · exact absurd h' h
      · exact h'
    · intro h'
      rcases lt_or_gt_of_ne h with hl | hl
      · exact .inl ⟨h', hl⟩
      · exact .inr (.inr ⟨h', hl⟩)

@[simp] theorem get_insert_self (k : κ) (v : β) :
    (m.insert k v).get k = some v := by simp [get_insert]

theorem get_insert_of_ne {k' : κ} (v : β) (h : k' ≠ k) :
    (m.insert k v).get k' = m.get k' := by simp [get_insert, h]

theorem get_erase (k k' : κ) : (m.erase k).get k' = if k' = k then none else m.get k' := by
  apply Option.ext
  intro w
  rw [← mem_entries]
  simp only [erase, List.mem_filter, mem_entries]
  split
  · next h => simp [h]
  · next h => simp [h]

@[simp] theorem get_erase_self (k : κ) : (m.erase k).get k = none := by
  simp [get_erase]

theorem get_erase_of_ne {k' : κ} (h : k' ≠ k) :
    (m.erase k).get k' = m.get k' := by simp [get_erase, h]

theorem mem_range {m : SortedMap κ β} {lo hi : κ} {v : β} :
    (k, v) ∈ m.range lo hi ↔ m.get k = some v ∧ lo ≤ k ∧ k < hi := by
  simp [range, mem_entries]

theorem mem_rangeDesc {m : SortedMap κ β} {lo hi : κ} {v : β} :
    (k, v) ∈ m.rangeDesc hi lo ↔ m.get k = some v ∧ lo < k ∧ k ≤ hi := by
  simp [rangeDesc, mem_entries]

theorem range_sorted (lo hi : κ) :
    (m.range lo hi).Pairwise fun a b => a.1 < b.1 := m.sorted.filter _

/-- Strictly sorted lists with the same members are equal. -/
theorem eq_of_sorted {α : Type} {l₁ l₂ : List (κ × α)}
    (h₁ : l₁.Pairwise fun a b => a.1 < b.1) (h₂ : l₂.Pairwise fun a b => a.1 < b.1)
    (h : ∀ e, e ∈ l₁ ↔ e ∈ l₂) : l₁ = l₂ := by
  have nodup {l : List (κ × α)} (hl : l.Pairwise fun a b => a.1 < b.1) : l.Nodup := by
    apply hl.imp
    intro a b hab he
    exact lt_irrefl _ (he ▸ hab)
  have hp : l₁.Perm l₂ := (List.perm_ext_iff_of_nodup (nodup h₁) (nodup h₂)).mpr h
  exact hp.eq_of_pairwise (fun a b _ _ hab hba => absurd (hab.trans hba) (lt_irrefl _)) h₁ h₂

/-- Adjacent scans make up the scan of both intervals. -/
theorem range_append {lo mid hi : κ} (hlo : lo ≤ mid) (hhi : mid ≤ hi) :
    m.range lo hi = m.range lo mid ++ m.range mid hi := by
  apply eq_of_sorted (m.range_sorted lo hi)
  · apply List.pairwise_append.mpr
    refine ⟨m.range_sorted lo mid, m.range_sorted mid hi, ?_⟩
    rintro ⟨k, v⟩ hk ⟨k', v'⟩ hk'
    exact (mem_range.mp hk).2.2.trans_le (mem_range.mp hk').2.1
  · rintro ⟨k, v⟩
    rw [List.mem_append, mem_range, mem_range, mem_range]
    constructor
    · rintro ⟨hget, hl, hh⟩
      rcases lt_or_ge k mid with hm | hm
      · exact .inl ⟨hget, hl, hm⟩
      · exact .inr ⟨hget, hm, hh⟩
    · rintro (⟨hget, hl, hh⟩ | ⟨hget, hl, hh⟩)
      · exact ⟨hget, hl, hh.trans_le hhi⟩
      · exact ⟨hget, hlo.trans hl, hh⟩

end SortedMap

import KubeBrain.Storage.Engine

/-! Iterators of the `memkv`, `badger` and `tikv` adapters, drained: what they yield of a
sorted map, from their start bound on. -/
namespace KubeBrain

/-- The storages behind the interface. -/
inductive Adapter where
  | memkv
  | badger
  | tikv
  deriving DecidableEq, Repr

/-- Pairs at or below a key, from the key downwards. -/
def downFrom (st : Store) (key : Bytes) : List (Bytes × Bytes) :=
  (st.entries.filter fun e => e.1 ≤ key).reverse

/-- Pairs at or above a key, from the key upwards. -/
def upFrom (st : Store) (key : Bytes) : List (Bytes × Bytes) :=
  st.entries.filter fun e => key ≤ e.1

namespace Memkv

/-- The limit is not looked at. Here `backward` means ascending, as in the source. -/
def iter (st : Store) (start stop : Bytes) (_limit : ℕ) : Iter :=
  let backward := decide (start < stop)
  let elems := if backward then upFrom st start else downFrom st start
  ⟨elems.takeWhile fun e => if backward then decide (e.1 < stop) else decide (stop < e.1), none⟩

end Memkv

namespace Badger

def inRange (reverse : Bool) (stop key : Bytes) : Bool :=
  if reverse then decide (stop < key) else decide (key < stop)

/-- Calls of `Next` when `counter` pairs were looked at. -/
def drain (reverse : Bool) (stop : Bytes) (limit : ℕ) :
    ℕ → List (Bytes × Bytes) → List (Bytes × Bytes)
  | _, [] => []
  | counter, e :: rest =>
    if limit ≠ 0 ∧ limit ≤ counter then []
    else if inRange reverse stop e.1 then
      e :: drain reverse stop limit (counter + 1) rest
    else []

/-- The timestamp of the call is not looked at. -/
def iter (st : Store) (start stop : Bytes) (limit : ℕ) : Iter :=
  let reverse := decide (stop < start)
  ⟨drain reverse stop limit 0 (if reverse then downFrom st start else upFrom st start), none⟩

end Badger

namespace Tikv

/-- The border check of `Next`: whether the iteration ends before the key. -/
def checkBorder (reverse : Bool) (stop key : Bytes) : Bool :=
  if reverse then decide (key ≤ stop) else decide (stop ≤ key)

/-- Calls of `Next` after the first one, when `count` of them were made. -/
def drain (reverse : Bool) (stop : Bytes) (limit : ℕ) :
    ℕ → List (Bytes × Bytes) → List (Bytes × Bytes)
  | _, [] => []
  | count, e :: rest =>
    if 0 < limit ∧ limit ≤ count then []
    else if checkBorder reverse stop e.1 then []
    else e :: drain reverse stop limit (count + 1) rest

/-- The first pair is yielded without a look at the border; descending iterations are not
bounded by the engine. -/
def iter (st : Store) (start stop : Bytes) (limit : ℕ) : Iter :=
  let reverse := decide (stop < start)
  match if reverse then downFrom st start else st.range start stop with
  | [] => ⟨[], none⟩
  | e :: rest => ⟨e :: drain reverse stop limit 0 rest, none⟩

end Tikv

def Adapter.iter : Adapter → Store → Bytes → Bytes → ℕ → Iter
  | memkv => Memkv.iter
  | badger => Badger.iter
  | tikv => Tikv.iter

/-- An iterator that yields pairs in descending order from its start bound. It may stop
anywhere, and go beyond its end bound, but it does not miss the first pair before that. -/
structure Descends (st : Store) (start stop : Bytes) (it : Iter) : Prop where
  err : it.err = none
  items : it.items <+: downFrom st start
  first : it.items = [] → ∀ key val, st.get key = some val → key ≤ start → key ≤ stop

section

variable {st : Store} {start stop : Bytes}

theorem mem_downFrom {key val : Bytes} :
    (key, val) ∈ downFrom st start ↔ st.get key = some val ∧ key ≤ start := by
  simp [downFrom, SortedMap.mem_entries]

theorem downFrom_sorted (st : Store) (start : Bytes) :
    (downFrom st start).Pairwise fun a b => b.1 < a.1 := by
  rw [downFrom, List.pairwise_reverse]
  exact st.sorted.filter _

/-- The first pair of an iteration is the greatest at or below the bound. -/
theorem Descends.head {it : Iter} (h : Descends st start stop it) {key val : Bytes}
    {rest : List (Bytes × Bytes)} (hit : it.items = (key, val) :: rest) :
    st.get key = some val ∧ key ≤ start ∧
      ∀ key' val', st.get key' = some val' → key' ≤ start → key' ≤ key := by
  obtain ⟨more, hmore⟩ := h.items
  rw [hit, List.cons_append] at hmore
  have hmem := mem_downFrom.mp (hmore ▸ List.mem_cons_self)
  refine ⟨hmem.1, hmem.2, fun key' val' hget hle => ?_⟩
  have hsorted := downFrom_sorted st start
  rw [← hmore, List.pairwise_cons] at hsorted
  rcases List.mem_cons.mp (hmore.symm ▸ mem_downFrom.mpr ⟨hget, hle⟩) with heq | hrest
  · exact (congrArg Prod.fst heq).le
  · exact (hsorted.1 _ hrest).le

/-- A prefix of the pairs that is empty only if the first pair is beyond the end bound. -/
theorem descends_of_head {items : List (Bytes × Bytes)} (hitems : items <+: downFrom st start)
    (hfirst : items = [] → ∀ e ∈ (downFrom st start).head?, e.1 ≤ stop) :
    Descends st start stop ⟨items, none⟩ where
  err := rfl
  items := hitems
  first := fun hnil key val hget hle => by
    have hmem := mem_downFrom.mpr ⟨hget, hle⟩
    have hsorted := downFrom_sorted st start
    cases hl : downFrom st start with
    | nil =>
      rw [hl] at hmem
      cases hmem
    | cons e rest =>
      have he := hfirst hnil e (by rw [hl]; rfl)
      rw [hl] at hmem hsorted
      rcases List.mem_cons.mp hmem with rfl | hrest
      · exact he
      · exact ((List.pairwise_cons.mp hsorted).1 _ hrest).le.trans he

theorem Badger.drain_prefix (reverse : Bool) (stop : Bytes) (limit counter : ℕ)
    (l : List (Bytes × Bytes)) : Badger.drain reverse stop limit counter l <+: l := by
  induction l generalizing counter with
  | nil => exact List.prefix_refl _
  | cons e rest ih =>
    unfold drain
    split
    · exact List.nil_prefix
    · split
      · exact List.cons_prefix_cons.mpr ⟨rfl, ih _⟩
      · exact List.nil_prefix

theorem Tikv.drain_prefix (reverse : Bool) (stop : Bytes) (limit count : ℕ)
    (l : List (Bytes × Bytes)) : Tikv.drain reverse stop limit count l <+: l := by
  induction l generalizing count with
  | nil => exact List.prefix_refl _
  | cons e rest ih =>
    unfold drain
    split
    · exact List.nil_prefix
    · split
      · exact List.nil_prefix
      · exact List.cons_prefix_cons.mpr ⟨rfl, ih _⟩

/-- All three adapters descend. -/
theorem Adapter.descends (a : Adapter) (st : Store) {start stop : Bytes} (h : stop < start)
    (limit : ℕ) : Descends st start stop (a.iter st start stop limit) := by
  cases a with
  | memkv =>
    show Descends st start stop (Memkv.iter st start stop limit)
    simp only [Memkv.iter, not_lt_of_gt h, decide_false, Bool.false_eq_true, if_false]
    apply descends_of_head (List.takeWhile_prefix _)
    intro hnil e he
    cases hl : downFrom st start with
    | nil => simp [hl] at he
    | cons e' rest =>
      rw [hl] at hnil he
      obtain rfl := Option.some.inj he
      rw [List.takeWhile_cons] at hnil
      split at hnil
      · cases hnil
      · next hlt => simpa using hlt
  | badger =>
    show Descends st start stop (Badger.iter st start stop limit)
    simp only [Badger.iter, h, decide_true, if_true]
    apply descends_of_head (Badger.drain_prefix _ _ _ _ _)
    intro hnil e he
    cases hl : downFrom st start with
    | nil => simp [hl] at he
    | cons e' rest =>
      rw [hl] at hnil he
      obtain rfl := Option.some.inj he
      unfold Badger.drain at hnil
      split at hnil
      · next hlimit => omega
      · split at hnil
        · cases hnil
        · next hlt => simpa [Badger.inRange] using hlt
  | tikv =>
    show Descends st start stop (Tikv.iter st start stop limit)
    simp only [Tikv.iter, h, decide_true, if_true]
    cases hl : downFrom st start with
    | nil => exact descends_of_head List.nil_prefix (by simp [hl])
    | cons e rest =>
      apply descends_of_head
      · rw [hl]
        exact List.cons_prefix_cons.mpr ⟨rfl, Tikv.drain_prefix _ _ _ _ _⟩
      · exact nofun

/-- Where the predicate holds downwards in the order of a list, it picks a prefix. -/
theorem filter_prefix_of_pairwise {α : Type} {p : α → Bool} {l : List α}
    (h : l.Pairwise fun a b => p b = true → p a = true) : l.filter p <+: l := by
  induction l with
  | nil => exact List.prefix_refl _
  | cons a l ih =>
    obtain ⟨ha, hl⟩ := List.pairwise_cons.mp h
    rw [List.filter_cons]
    split
    · exact List.cons_prefix_cons.mpr ⟨rfl, ih hl⟩
    · next hpa =>
      have hnone : l.filter p = [] := List.filter_eq_nil_iff.mpr fun b hb hpb => hpa (ha b hb hpb)
      rw [hnone]
      exact List.nil_prefix

/-- So does the engine. -/
theorem Engine.descends (st : Store) {start stop : Bytes} (h : stop < start) (limit : ℕ) :
    Descends st start stop ⟨Engine.items st start stop limit, none⟩ := by
  have hdesc : st.rangeDesc start stop = (downFrom st start).filter fun e => stop < e.1 := by
    simp only [SortedMap.rangeDesc, downFrom, List.filter_reverse, List.filter_filter,
      Bool.decide_and]
  have hprefix : st.rangeDesc start stop <+: downFrom st start := by
    rw [hdesc]
    apply filter_prefix_of_pairwise
    apply (downFrom_sorted st start).imp
    intro a b hlt hb
    simp only [decide_eq_true_eq] at hb ⊢
    exact hb.trans hlt
  have hmem {key val : Bytes} (hget : st.get key = some val) (hle : key ≤ start)
      (hnil : st.rangeDesc start stop = []) : key ≤ stop := by
    by_contra hlt
    have := SortedMap.mem_rangeDesc.mpr ⟨hget, not_le.mp hlt, hle⟩
    rw [hnil] at this
    cases this
  unfold Engine.items
  rw [if_pos h]
  dsimp only
  split
  · exact ⟨rfl, hprefix, fun hnil key val hget hle => hmem hget hle hnil⟩
  · next hlimit =>
    refine ⟨rfl, (List.take_prefix _ _).trans hprefix, fun hnil key val hget hle => ?_⟩
    rcases List.take_eq_nil_iff.mp hnil with h0 | hnil
    · exact absurd h0 hlimit
    · exact hmem hget hle hnil

end

end KubeBrain

import KubeBrain.Lib.Cursor
import KubeBrain.Storage.Iterators

/-! Calls of `Next` on the iterators of the adapters, against the contract of `KvStorage.Iter`. -/
namespace KubeBrain

namespace Memkv

/-- `init` has collected the pairs; `calls` is the index plus one. -/
structure Cursor where
  buf : List (Bytes × Bytes)
  calls : ℕ

def newIter (st : Store) (start stop : Bytes) (limit : ℕ) : Cursor :=
  ⟨(iter st start stop limit).items, 0⟩

def next (it : Cursor) : Option (Bytes × Bytes) × Cursor :=
  (it.buf[it.calls]?, { it with calls := it.calls + 1 })

end Memkv

namespace Badger

/-- The iterator of the engine is at the head of `items`, or past the end. -/
structure Cursor where
  items : List (Bytes × Bytes)
  reverse : Bool
  stop : Bytes
  limit : ℕ
  counter : ℕ
  seeked : Bool
  /-- The error that was returned, which can only be `io.EOF`. -/
  err : Bool

/-- `Seek` will put the engine's iterator at the first of the pairs from `start` on. -/
def newIter (st : Store) (start stop : Bytes) (limit : ℕ) : Cursor :=
  let reverse := decide (stop < start)
  ⟨if reverse then downFrom st start else upFrom st start, reverse, stop, limit, 0, false, false⟩

def next (it : Cursor) : Option (Bytes × Bytes) × Cursor :=
  if it.err then (none, it)
  else
    let items := if it.seeked then it.items.tail else it.items
    let it := { it with items := items, seeked := true }
    match items with
    | [] => (none, { it with err := true })
    | e :: _ =>
      if it.limit ≠ 0 ∧ it.limit ≤ it.counter then (none, { it with err := true })
      else
        let it := { it with counter := it.counter + 1 }
        if inRange it.reverse it.stop e.1 then (some e, it) else (none, { it with err := true })

end Badger

namespace Tikv

/-- Pairs below a key, downwards: what `IterReverse` yields. -/
def downBelow (st : Store) (key : Bytes) : List (Bytes × Bytes) :=
  (st.entries.filter fun e => e.1 < key).reverse

structure Cursor where
  items : List (Bytes × Bytes)
  count : ℕ
  limit : ℤ
  reverse : Bool
  stop : Bytes
  moved : Bool

/-- The limit is converted to a signed number. -/
def newIter (st : Store) (start stop : Bytes) (limit : ℕ) : Cursor :=
  let reverse := decide (stop < start)
  ⟨if reverse then downBelow st (start ++ [0]) else st.range start stop, 0,
    (limit : ℤ).bmod (2 ^ 64), reverse, stop, false⟩

def next (it : Cursor) : Option (Bytes × Bytes) × Cursor :=
  if it.items = [] ∨ 0 < it.limit ∧ it.limit ≤ it.count then (none, it)
  else if it.moved = false then (it.items.head?, { it with moved := true })
  else
    let it := { it with count := it.count + 1, items := it.items.tail }
    match it.items with
    | [] => (none, it)
    | e :: _ => if checkBorder it.reverse it.stop e.1 then (none, it) else (some e, it)

end Tikv

namespace Adapter

/-- The iterator of the adapter yields the pairs and then `io.EOF`. -/
def Yields (a : Adapter) (st : Store) (start stop : Bytes) (limit : ℕ)
    (l : List (Bytes × Bytes)) : Prop :=
  match a with
  | memkv => Cursor.Yields Memkv.next (Memkv.newIter st start stop limit) l
  | badger => Cursor.Yields Badger.next (Badger.newIter st start stop limit) l
  | tikv => Cursor.Yields Tikv.next (Tikv.newIter st start stop limit) l

end Adapter

section Order

variable {α : Type} {p : α → Bool} {l : List α}

/-- The pairs from the bound on that satisfy a bound on the other side come first. -/
theorem takeWhile_eq_filter_of_pairwise (h : l.Pairwise fun a b => p b = true → p a = true) :
    l.takeWhile p = l.filter p := by
  induction l with
  | nil => rfl
  | cons a l ih =>
    obtain ⟨ha, hl⟩ := List.pairwise_cons.mp h
    rw [List.takeWhile_cons, List.filter_cons]
    split
    · rw [ih hl]
    · next hpa =>
      exact (List.filter_eq_nil_iff.mpr fun b hb hpb => hpa (ha b hb hpb)).symm

variable (st : Store) (start stop : Bytes)

theorem upFrom_inRange : (upFrom st start).Pairwise fun a b =>
    Badger.inRange false stop b.1 = true → Badger.inRange false stop a.1 = true := by
  refine (st.sorted.filter _).imp fun hlt hb => ?_
  simp only [Badger.inRange, Bool.false_eq_true, if_false, decide_eq_true_eq] at hb ⊢
  exact hlt.trans hb

theorem downFrom_inRange : (downFrom st start).Pairwise fun a b =>
    Badger.inRange true stop b.1 = true → Badger.inRange true stop a.1 = true := by
  refine (downFrom_sorted st start).imp fun hlt hb => ?_
  simp only [Badger.inRange, if_true, decide_eq_true_eq] at hb ⊢
  exact hb.trans hlt

theorem filter_upFrom : (upFrom st start).filter (fun e => Badger.inRange false stop e.1) =
    st.range start stop := by
  simp only [upFrom, SortedMap.range, Badger.inRange, Bool.false_eq_true, if_false,
    List.filter_filter, Bool.decide_and, Bool.and_comm]

theorem filter_downFrom : (downFrom st start).filter (fun e => Badger.inRange true stop e.1) =
    st.rangeDesc start stop := by
  simp only [downFrom, SortedMap.rangeDesc, Badger.inRange, if_true, List.filter_reverse,
    List.filter_filter, Bool.decide_and]

theorem downBelow_concat : Tikv.downBelow st (start ++ [0]) = downFrom st start := by
  simp only [Tikv.downBelow, downFrom, Bytes.lt_concat_zero_iff]

theorem Tikv.checkBorder_eq (reverse : Bool) (stop key : Bytes) :
    Tikv.checkBorder reverse stop key = !Badger.inRange reverse stop key := by
  cases reverse <;> simp [Tikv.checkBorder, Badger.inRange, ← decide_not]

end Order

section Drained

variable {reverse : Bool} {stop : Bytes} {limit count : ℕ} {l : List (Bytes × Bytes)}

/-- After the first call the two adapters count and compare alike. -/
theorem Tikv.drain_eq_badger : Tikv.drain reverse stop limit count l =
    Badger.drain reverse stop limit count l := by
  induction l generalizing count with
  | nil => rfl
  | cons e l ih =>
    unfold Tikv.drain Badger.drain
    rw [Tikv.checkBorder_eq, ih]
    simp only [Nat.pos_iff_ne_zero]
    split
    · rfl
    · cases Badger.inRange reverse stop e.1 <;> rfl

theorem Badger.drain_of_limit (h : limit ≠ 0 ∧ limit ≤ count) :
    Badger.drain reverse stop limit count l = [] := by
  cases l with
  | nil => rfl
  | cons e l => rw [Badger.drain, if_pos h]

theorem Badger.drain_eq_nil (h : ∀ e ∈ l, Badger.inRange reverse stop e.1 = false) :
    Badger.drain reverse stop limit count l = [] := by
  cases l with
  | nil => rfl
  | cons e l =>
    unfold Badger.drain
    split
    · rfl
    · rw [h e List.mem_cons_self]
      rfl

/-- In the order of the iteration, the calls yield the pairs in range up to the limit. -/
theorem Badger.drain_eq (h : l.Pairwise fun a b => Badger.inRange reverse stop b.1 = true →
      Badger.inRange reverse stop a.1 = true) :
    Badger.drain reverse stop limit count l =
      if limit = 0 then l.filter fun e => Badger.inRange reverse stop e.1
      else (l.filter fun e => Badger.inRange reverse stop e.1).take (limit - count) := by
  induction l generalizing count with
  | nil => simp [Badger.drain]
  | cons e l ih =>
    obtain ⟨he, hl⟩ := List.pairwise_cons.mp h
    by_cases hlimit : limit ≠ 0 ∧ limit ≤ count
    · rw [Badger.drain_of_limit hlimit, if_neg hlimit.1, Nat.sub_eq_zero_of_le hlimit.2,
        List.take_zero]
    · unfold Badger.drain
      rw [if_neg hlimit, ih hl, List.filter_cons]
      split
      · split
        · rfl
        · next h0 =>
          rw [show limit - count = limit - (count + 1) + 1 by omega, List.take_succ_cons]
      · next hout =>
        have hnone : (l.filter fun e => Badger.inRange reverse stop e.1) = [] :=
          List.filter_eq_nil_iff.mpr fun b hb hpb => hout (he b hb hpb)
        simp [hnone]

end Drained

section Calls

variable (st : Store) (start stop : Bytes) (limit : ℕ)

theorem Memkv.yields_iter : Cursor.Yields Memkv.next (Memkv.newIter st start stop limit)
    (Memkv.iter st start stop limit).items := by
  refine Cursor.yields_of_step (R := fun it l => l = it.buf.drop it.calls) ?_ rfl
  rintro it l rfl
  exact ⟨by simp [Memkv.next], by simp [Memkv.next]⟩

/-- What the calls on an iterator of `badger` are going to yield. -/
def Badger.Cursor.Stands (it : Badger.Cursor) (l : List (Bytes × Bytes)) : Prop :=
  if it.err then l = []
  else l = Badger.drain it.reverse it.stop it.limit it.counter
    (if it.seeked then it.items.tail else it.items)

theorem Badger.stands_next {it : Badger.Cursor} {l : List (Bytes × Bytes)} (h : it.Stands l) :
    (Badger.next it).1 = l.head? ∧ (Badger.next it).2.Stands l.tail := by
  unfold Badger.Cursor.Stands at h
  split at h
  · next herr =>
    subst h
    simp [Badger.next, Badger.Cursor.Stands, herr]
  · next herr =>
    subst h
    unfold Badger.next
    rw [if_neg herr]
    dsimp only
    cases hitems : (if it.seeked then it.items.tail else it.items) with
    | nil => simp [Badger.drain, Badger.Cursor.Stands]
    | cons e rest =>
      unfold Badger.drain
      dsimp only
      split
      · simp [Badger.Cursor.Stands]
      · split
        · refine ⟨rfl, ?_⟩
          simp [Badger.Cursor.Stands, herr]
        · simp [Badger.Cursor.Stands]

theorem Badger.yields_iter : Cursor.Yields Badger.next (Badger.newIter st start stop limit)
    (Badger.iter st start stop limit).items := by
  refine Cursor.yields_of_step (fun it l => Badger.stands_next) ?_
  simp [Badger.Cursor.Stands, Badger.newIter, Badger.iter]

/-- What the calls on an iterator of `tikv` are going to yield, in the order of the engine. -/
structure Tikv.Cursor.Stands (it : Tikv.Cursor) (l : List (Bytes × Bytes)) : Prop where
  order : it.items.Pairwise fun a b => Badger.inRange it.reverse it.stop b.1 = true →
    Badger.inRange it.reverse it.stop a.1 = true
  items : l =
    if it.moved then Badger.drain it.reverse it.stop it.limit.toNat it.count it.items.tail
    else match it.items with
      | [] => []
      | e :: rest => e :: Badger.drain it.reverse it.stop it.limit.toNat it.count rest
  fresh : it.moved = false → it.count = 0

theorem Tikv.stands_next {it : Tikv.Cursor} {l : List (Bytes × Bytes)} (h : it.Stands l) :
    (Tikv.next it).1 = l.head? ∧ (Tikv.next it).2.Stands l.tail := by
  obtain ⟨items, count, lim, reverse, stop, moved⟩ := it
  obtain ⟨horder, rfl, hfresh⟩ := h
  dsimp only at horder hfresh ⊢
  cases items with
  | nil =>
    refine ⟨by cases moved <;> rfl, horder, ?_, hfresh⟩
    cases moved <;> rfl
  | cons e rest =>
    cases moved with
    | false =>
      obtain rfl := hfresh rfl
      have hnone : ¬ (e :: rest = [] ∨ 0 < lim ∧ lim ≤ ((0 : ℕ) : ℤ)) := by simp
      unfold Tikv.next
      rw [if_neg hnone]
      exact ⟨rfl, horder, rfl, nofun⟩
    | true =>
      by_cases hlimit : 0 < lim ∧ lim ≤ count
      · have hdone : Badger.drain reverse stop lim.toNat count rest = [] :=
          Badger.drain_of_limit (by omega)
        unfold Tikv.next
        rw [if_pos (.inr hlimit)]
        simp only [if_true, List.tail_cons, hdone]
        exact ⟨rfl, horder, by simp [hdone], nofun⟩
      · unfold Tikv.next
        rw [if_neg (by simpa using hlimit)]
        dsimp only [List.tail_cons]
        obtain ⟨-, horder⟩ := List.pairwise_cons.mp horder
        cases rest with
        | nil => exact ⟨rfl, horder, rfl, nofun⟩
        | cons e' rest =>
          have hlimit' : ¬ (lim.toNat ≠ 0 ∧ lim.toNat ≤ count) := by omega
          simp only [Bool.true_eq_false, if_false, if_true]
          rw [Tikv.checkBorder_eq, Badger.drain, if_neg hlimit']
          cases hin : Badger.inRange reverse stop e'.1 with
          | true => exact ⟨rfl, horder, rfl, nofun⟩
          | false =>
            -- the engine goes on beyond the border, where every pair is out of range
            refine ⟨rfl, horder, ?_, nofun⟩
            obtain ⟨hfirst, -⟩ := List.pairwise_cons.mp horder
            refine (Badger.drain_eq_nil fun x hx => ?_).symm
            by_contra hx'
            have := hfirst x hx (by simpa using hx')
            simp [hin] at this

theorem Tikv.yields_iter : Cursor.Yields Tikv.next (Tikv.newIter st start stop limit)
    (Tikv.iter st start stop ((limit : ℤ).bmod (2 ^ 64)).toNat).items := by
  refine Cursor.yields_of_step (fun it l => Tikv.stands_next) ?_
  unfold Tikv.newIter Tikv.iter
  rw [downBelow_concat]
  generalize (limit : ℤ).bmod (2 ^ 64) = lim
  by_cases h : stop < start
  · simp only [h, decide_true, if_true]
    refine ⟨downFrom_inRange st start stop, ?_, fun _ => rfl⟩
    cases downFrom st start with
    | nil => rfl
    | cons e rest => simp only [Tikv.drain_eq_badger, Bool.false_eq_true, if_false]
  · simp only [h, decide_false, Bool.false_eq_true, if_false]
    refine ⟨?_, ?_, fun _ => rfl⟩
    · rw [← filter_upFrom]
      exact (upFrom_inRange st start stop).filter _
    · cases st.range start stop with
      | nil => rfl
      | cons e rest => simp only [Tikv.drain_eq_badger, Bool.false_eq_true, if_false]

end Calls

section Contract

variable (st : Store) (start stop : Bytes) (limit : ℕ)

/-- The pairs that the calls run through, and the direction. -/
theorem items_zero : Engine.items st start stop 0 =
    if stop < start then (downFrom st start).filter fun e => Badger.inRange true stop e.1
    else (upFrom st start).filter fun e => Badger.inRange false stop e.1 := by
  rw [filter_downFrom, filter_upFrom]
  rfl

theorem Memkv.items_iter :
    (Memkv.iter st start stop limit).items = Engine.items st start stop 0 := by
  rw [items_zero]
  unfold Memkv.iter
  rcases lt_trichotomy start stop with h | rfl | h
  · simp only [h, not_lt_of_gt h, decide_true, if_true, if_false]
    exact takeWhile_eq_filter_of_pairwise (upFrom_inRange st start stop)
  · -- with equal bounds it runs downwards, and nothing is in range
    simp only [lt_irrefl, decide_false, Bool.false_eq_true, if_false]
    refine (takeWhile_eq_filter_of_pairwise (downFrom_inRange st start start)).trans ?_
    rw [filter_downFrom, filter_upFrom]
    have hdown : st.rangeDesc start start = [] := List.eq_nil_iff_forall_not_mem.mpr fun e he =>
      absurd (SortedMap.mem_rangeDesc.mp he).2 (by simp)
    have hup : st.range start start = [] := List.eq_nil_iff_forall_not_mem.mpr fun e he =>
      absurd (SortedMap.mem_range.mp he).2 (by simp)
    rw [hdown, hup]
  · simp only [h, not_lt_of_gt h, decide_false, Bool.false_eq_true, if_false, if_true]
    exact takeWhile_eq_filter_of_pairwise (downFrom_inRange st start stop)

theorem items_cut : Engine.items st start stop limit =
    if limit = 0 then Engine.items st start stop 0
    else (Engine.items st start stop 0).take limit := rfl

theorem Badger.items_iter :
    (Badger.iter st start stop limit).items = Engine.items st start stop limit := by
  rw [items_cut, items_zero]
  unfold Badger.iter
  by_cases h : stop < start
  · simp only [h, decide_true, if_true]
    exact Badger.drain_eq (downFrom_inRange st start stop)
  · simp only [h, decide_false, Bool.false_eq_true, if_false]
    exact Badger.drain_eq (upFrom_inRange st start stop)

theorem items_limit_eq_iff : Engine.items st start stop 0 = Engine.items st start stop limit ↔
    limit = 0 ∨ (Engine.items st start stop 0).length ≤ limit := by
  rw [@items_cut _ _ _ limit]
  split
  · next h0 => simp [h0]
  · next h0 =>
    rw [or_iff_right h0]
    constructor
    · intro heq
      have hlen := congrArg List.length heq
      rw [List.length_take] at hlen
      omega
    · intro hle
      exact (List.take_of_length_le hle).symm

/-- The calls on an iterator of `tikv` in the order of the engine: one pair too many counts, and
the first pair is not compared with the end bound. -/
theorem Tikv.drained_iff {reverse : Bool} {signed : ℕ} {l : List (Bytes × Bytes)}
    (horder : l.Pairwise fun a b => Badger.inRange reverse stop b.1 = true →
      Badger.inRange reverse stop a.1 = true) (hsigned : signed = 0 ∨ signed = limit) :
    (l.head?.toList ++ Tikv.drain reverse stop signed 0 l.tail =
      if limit = 0 then l.filter fun e => Badger.inRange reverse stop e.1
      else (l.filter fun e => Badger.inRange reverse stop e.1).take limit) ↔
    (limit = 0 ∨ (l.filter fun e => Badger.inRange reverse stop e.1).length ≤ limit) ∧
      ∀ e ∈ l.head?, Badger.inRange reverse stop e.1 = true := by
  cases l with
  | nil => simp [Tikv.drain]
  | cons e rest =>
    obtain ⟨hfirst, hrest⟩ := List.pairwise_cons.mp horder
    rw [List.tail_cons, Tikv.drain_eq_badger, Badger.drain_eq hrest, Nat.sub_zero, List.filter_cons]
    generalize hF : (rest.filter fun e => Badger.inRange reverse stop e.1) = F
    by_cases he : Badger.inRange reverse stop e.1 = true
    · have hhead : ∀ e' ∈ (e :: rest).head?, Badger.inRange reverse stop e'.1 = true := by
        simpa using he
      rw [if_pos he, and_iff_left hhead]
      by_cases h0 : limit = 0
      · have hs : signed = 0 := by omega
        simp [h0, hs]
      · -- after the first pair, `limit` more are yielded, or all if the limit is negative
        rw [if_neg h0, or_iff_right h0, List.length_cons]
        obtain ⟨n, rfl⟩ := Nat.exists_eq_succ_of_ne_zero h0
        rw [Nat.succ_eq_add_one, List.take_succ_cons]
        simp only [List.head?_cons, Option.toList_some, List.singleton_append, List.cons.injEq,
          true_and, Nat.add_le_add_iff_right]
        constructor
        · intro heq
          have hlen := congrArg List.length heq
          rcases hsigned with rfl | rfl
          · simpa using hlen
          · rw [if_neg (by omega), List.length_take, List.length_take] at hlen
            omega
        · intro hle
          rw [List.take_of_length_le hle]
          split
          · rfl
          · exact List.take_of_length_le (by omega)
    · have hnone : F = [] := by
        rw [← hF]
        exact List.filter_eq_nil_iff.mpr fun b hb hpb => he (hfirst b hb hpb)
      simp [he, hnone]

theorem Tikv.items_iter_iff {signed : ℕ} (hsigned : signed = 0 ∨ signed = limit) :
    (Tikv.iter st start stop signed).items = Engine.items st start stop limit ↔
      (limit = 0 ∨ (Engine.items st start stop 0).length ≤ limit) ∧
        (stop < start → ∀ e ∈ (downFrom st start).head?, stop < e.1) := by
  have hiter : (Tikv.iter st start stop signed).items =
      (if stop < start then downFrom st start else st.range start stop).head?.toList ++
        Tikv.drain (decide (stop < start)) stop signed 0
          (if stop < start then downFrom st start else st.range start stop).tail := by
    unfold Tikv.iter
    simp only [decide_eq_true_eq]
    cases (if stop < start then downFrom st start else st.range start stop) with
    | nil => rfl
    | cons e rest => rfl
  rw [@items_cut _ _ _ limit, hiter, items_zero]
  by_cases hdir : stop < start
  · simp only [hdir, decide_true, if_true, forall_const]
    rw [Tikv.drained_iff stop limit (downFrom_inRange st start stop) hsigned]
    simp [Badger.inRange]
  · -- the engine bounds an ascending iteration
    have hall : ∀ e ∈ st.range start stop, Badger.inRange false stop e.1 = true := by
      intro e he
      have := (SortedMap.mem_range.mp he).2.2
      simpa [Badger.inRange] using this
    have horder : (st.range start stop).Pairwise fun a b =>
        Badger.inRange false stop b.1 = true → Badger.inRange false stop a.1 = true := by
      rw [← filter_upFrom]
      exact (upFrom_inRange st start stop).filter _
    have hiff := Tikv.drained_iff stop limit horder hsigned
    rw [List.filter_eq_self.mpr hall] at hiff
    simp only [hdir, decide_false, if_false, false_imp_iff, and_true, filter_upFrom]
    rw [hiff, and_iff_left fun e he => hall e (List.mem_of_mem_head? he)]

/-- Where an adapter keeps to the contract: `memkv` does not count, `tikv` counts one pair too
many and does not compare the first pair of a descending iteration with the end bound. -/
def Adapter.Fits (a : Adapter) : Prop :=
  match a with
  | badger => True
  | memkv => limit = 0 ∨ (Engine.items st start stop 0).length ≤ limit
  | tikv => (limit = 0 ∨ (Engine.items st start stop 0).length ≤ limit) ∧
      (stop < start → ∀ e ∈ (downFrom st start).head?, stop < e.1)

variable {st start stop limit}

/-- The calls yield the pairs between the bounds in the direction of the bounds, up to the limit,
and `io.EOF` from then on: exactly for these bounds and limits. -/
theorem iterators_keep_contract_iff (a : Adapter) (hlimit : limit < 2 ^ 64) :
    a.Yields st start stop limit (Engine.items st start stop limit) ↔
      a.Fits st start stop limit := by
  cases a with
  | memkv =>
    apply (Memkv.yields_iter st start stop limit).iff_eq.trans
    rw [Memkv.items_iter, items_limit_eq_iff]
    rfl
  | badger =>
    apply (Badger.yields_iter st start stop limit).iff_eq.trans
    exact iff_of_true (Badger.items_iter st start stop limit) trivial
  | tikv =>
    -- a limit that becomes negative does not count
    have hsigned : ((limit : ℤ).bmod (2 ^ 64)).toNat = 0 ∨
        ((limit : ℤ).bmod (2 ^ 64)).toNat = limit := by
      rw [Int.bmod_def, Int.emod_eq_of_lt (by omega) (by exact_mod_cast hlimit)]
      split <;> omega
    apply (Tikv.yields_iter st start stop limit).iff_eq.trans
    exact Tikv.items_iter_iff st start stop limit hsigned

end Contract

/-- Two pairs. -/
def twoPairs : Store := ⟨[([1], [9]), ([2], [8])], by decide⟩

theorem iterators_keep_contract_down :
    Adapter.tikv.Yields twoPairs [2] [0] 0 [([2], [8]), ([1], [9])] := by
  have hfirst : ∀ e ∈ (downFrom twoPairs [2]).head?, ([0] : Bytes) < e.1 := by decide
  exact (@iterators_keep_contract_iff twoPairs [2] [0] 0 .tikv (by decide)).mpr
    ⟨.inl rfl, fun _ => hfirst⟩

/-- With a limit of one pair the second call on `memkv` and on `tikv` yields the second pair, and
`tikv` starts a descending iteration with a pair below the end bound. -/
theorem iterators_break_contract :
    (Cursor.answer Memkv.next 1 (Memkv.newIter twoPairs [1] [3] 1) = some ([2], [8]) ∧
      Cursor.answer Tikv.next 1 (Tikv.newIter twoPairs [1] [3] 1) = some ([2], [8]) ∧
      Engine.items twoPairs [1] [3] 1 = [([1], [9])]) ∧
    Cursor.answer Tikv.next 0 (Tikv.newIter twoPairs [4] [3] 0) = some ([2], [8]) ∧
      Engine.items twoPairs [4] [3] 0 = [] := by
  decide

end KubeBrain

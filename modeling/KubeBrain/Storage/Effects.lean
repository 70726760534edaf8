import KubeBrain.Storage.Engine

/-! What a call can do to the engine: one statement for each kind of call. -/
namespace KubeBrain

namespace BatchOp

variable {st st' : Store}

theorem get_apply {o : BatchOp} {k : Bytes} (h : o.apply st = some st') (hk : k ≠ o.key) :
    st'.get k = st.get k := by
  cases o with
  | putIfNotExist key val ttl | cas key val old ttl =>
    simp only [apply] at h
    split at h
    · obtain rfl := Option.some.inj h
      exact st.get_insert_of_ne val hk
    · cases h
  | put key val ttl =>
    obtain rfl := Option.some.inj h
    exact st.get_insert_of_ne val hk
  | del key =>
    obtain rfl := Option.some.inj h
    exact st.get_erase_of_ne hk

/-- A batch changes nothing but the keys it names. -/
theorem get_applyAll {ops : List BatchOp} {k : Bytes} (h : applyAll st ops = some st')
    (hk : ∀ o ∈ ops, k ≠ o.key) : st'.get k = st.get k := by
  induction ops generalizing st with
  | nil =>
    obtain rfl := Option.some.inj h
    rfl
  | cons o os ih =>
    simp only [applyAll] at h
    split at h
    · cases h
    · next st₁ ho =>
      have h₁ := ih h fun o' ho' => hk o' (List.mem_cons_of_mem _ ho')
      exact h₁.trans (get_apply ho (hk o List.mem_cons_self))

theorem applyAll_cas_put {key new old key' val : Bytes} {ttl ttl' : ℤ} :
    applyAll st [cas key new old ttl, put key' val ttl'] = some st' ↔
      st.get key = some old ∧ st' = (st.insert key new).insert key' val := by
  simp only [applyAll, apply]
  by_cases h : st.get key = some old
  · simp [h, eq_comm]
  · simp [h]

theorem applyAll_putIfNotExist_put {key new key' val : Bytes} {ttl ttl' : ℤ} :
    applyAll st [putIfNotExist key new ttl, put key' val ttl'] = some st' ↔
      st.get key = none ∧ st' = (st.insert key new).insert key' val := by
  simp only [applyAll, apply]
  by_cases h : st.get key = none
  · simp [h, eq_comm]
  · simp [h]

end BatchOp

namespace Engine

variable {s s' : State}

variable {b : Batch} {ch : Choice} {r : Option Err} {key : Bytes} {p : Policy} {start : Bytes}

theorem land_eq_some : s.land b = some s' ↔ ∃ now, BatchOp.applyAll s.now b.ops = some now ∧
      s' = { s.write now with landed := s.landed ++ [(b, s.now)] } := by
  unfold State.land
  cases BatchOp.applyAll s.now b.ops with
  | none => simp
  | some now => simp [eq_comm]

/-- The state after a batch has taken effect, field by field. -/
theorem land_fields (h : s.land b = some s') :
    BatchOp.applyAll s.now b.ops = some s'.now ∧ s'.past = s.past ++ [s.now] ∧
      s'.landed = s.landed ++ [(b, s.now)] ∧ s'.pending = s.pending ∧ s'.gcRev = s.gcRev := by
  obtain ⟨now, happly, rfl⟩ := land_eq_some.mp h
  exact ⟨happly, rfl, rfl, rfl, rfl⟩

/-- Which other batches are undecided does not matter to a batch that takes effect. -/
theorem land_pending {ps : List Batch} (h : State.land { s with pending := ps } b = some s') :
    ∃ s₀, s.land b = some s₀ ∧ s' = { s₀ with pending := ps } := by
  obtain ⟨now, happly, rfl⟩ := land_eq_some.mp h
  exact ⟨_, land_eq_some.mpr ⟨now, happly, rfl⟩, rfl⟩

/-- How a commit can end: it lands and is answered without an error or with an uncertain
one, it is dropped with a definite error, or it stays undecided. -/
theorem execCommit_cases (h : execCommit s b ch = some (s', r)) :
    (ch = .ok ∧ s.land b = some s' ∧ r = none) ∨
    (∃ e, ch = .failApplied e ∧ s.land b = some s' ∧ r = some e ∧ e.isUncertain = true) ∨
    (∃ e, ch = .fail e ∧ s' = s ∧ r = some e ∧ e.isUncertain = false) ∨
    (∃ n, ch = .pend n ∧ s' = { s with pending := s.pending ++ [b] } ∧
      r = some (.uncertain n)) := by
  cases ch with
  | ok =>
    simp only [execCommit, Option.map_eq_some_iff, Prod.mk.injEq] at h
    obtain ⟨s₁, hl, rfl, rfl⟩ := h
    exact .inl ⟨rfl, hl, rfl⟩
  | failApplied e =>
    simp only [execCommit] at h
    split at h
    · next he =>
      simp only [Option.map_eq_some_iff, Prod.mk.injEq] at h
      obtain ⟨s₁, hl, rfl, rfl⟩ := h
      exact .inr (.inl ⟨e, rfl, hl, rfl, he⟩)
    · cases h
  | fail e =>
    simp only [execCommit] at h
    split at h
    · cases h
    · next he =>
      obtain ⟨rfl, rfl⟩ := Prod.mk.inj (Option.some.inj h)
      rw [not_or] at he
      exact .inr (.inr (.inl ⟨e, rfl, rfl, rfl, by simpa using he.1⟩))
  | pend n =>
    simp only [execCommit, Option.some.injEq, Prod.mk.injEq] at h
    obtain ⟨rfl, rfl⟩ := h
    exact .inr (.inr (.inr ⟨n, rfl, rfl, rfl⟩))
  | stopAfter _ _ | partitions _ | landPending _ | discardPending _ => cases h

/-- A commit answers that a key was not found only if it compares with a key that is not there. -/
theorem misses_of_keyNotFound (h : execCommit s b ch = some (s', some .keyNotFound)) :
    misses s.now b = true := by
  cases ch with
  | fail e =>
    simp only [execCommit] at h
    split at h
    · cases h
    · next he =>
      obtain ⟨-, rfl⟩ : s = s' ∧ e = .keyNotFound := by simpa using h
      have hmiss := (not_or.mp he).2
      simpa using hmiss
  | failApplied e =>
    simp only [execCommit] at h
    split at h
    · next he =>
      obtain ⟨s₁, -, heq⟩ := Option.map_eq_some_iff.mp h
      obtain rfl : e = .keyNotFound := Option.some.inj (Prod.mk.inj heq).2
      cases he
    · cases h
  | ok =>
    obtain ⟨s₁, -, heq⟩ := Option.map_eq_some_iff.mp h
    cases (Prod.mk.inj heq).2
  | pend n => cases (Prod.mk.inj (Option.some.inj h)).2
  | stopAfter _ _ | partitions _ | landPending _ | discardPending _ => cases h

/-- A deletion may take effect whatever it answers; without an error it has. -/
theorem execDel_cases {C : ℕ} (h : execDel s C key ch = some (s', r)) :
    (∀ e, r = some e → e.isCASFailed = false) ∧
      (s' = { s.write (s.now.erase key) with gcRev := max s.gcRev C } ∨
        s' = { s with gcRev := max s.gcRev C } ∧ r ≠ none) := by
  cases ch with
  | ok =>
    simp only [execDel, Option.some.injEq, Prod.mk.injEq] at h
    obtain ⟨rfl, rfl⟩ := h
    exact ⟨nofun, .inl rfl⟩
  | fail e | failApplied e =>
    simp only [execDel] at h
    split at h
    · cases h
    · next he =>
      obtain ⟨rfl, rfl⟩ := Prod.mk.inj (Option.some.inj h)
      have hcas : ∀ e', some e = some e' → e'.isCASFailed = false := by
        intro e' heq
        obtain rfl := Option.some.inj heq
        simpa using he
      first
        | exact ⟨hcas, .inl rfl⟩
        | exact ⟨hcas, .inr ⟨rfl, by simp⟩⟩
  | _ => cases h

/-- A compare-and-delete removes nothing but the pair it was given. -/
theorem execDelCurrent_cases {C : ℕ} {val : Bytes}
    (h : execDelCurrent s C key val ch = some (s', r)) :
    (s.now.get key = some val ∧ (∀ e, r = some e → e.isCASFailed = false) ∧
      (s' = { s.write (s.now.erase key) with gcRev := max s.gcRev C } ∨
        s' = { s with gcRev := max s.gcRev C } ∧ r ≠ none)) ∨
    (s.now.get key ≠ some val ∧ s' = { s with gcRev := max s.gcRev C } ∧ r ≠ none) := by
  unfold execDelCurrent at h
  split at h
  · next hval => exact .inl ⟨hval, execDel_cases h⟩
  · next hval =>
    split at h
    · obtain ⟨rfl, rfl⟩ := Prod.mk.inj (Option.some.inj h)
      exact .inr ⟨hval, rfl, by simp⟩
    · cases h

theorem exec_get {r : Except Err Bytes} (h : exec p s (.get key) ch = some (s', r)) :
    s' = s ∧ (∀ v, r = .ok v → s.now.get key = some v) ∧
      (r = .error .keyNotFound → s.now.get key = none) := by
  cases ch with
  | ok =>
    obtain ⟨rfl, rfl⟩ := Prod.mk.inj (Option.some.inj h)
    cases hget : s.now.get key with
    | none => simp
    | some v => simp [eq_comm]
  | fail e =>
    unfold exec at h
    dsimp only at h
    split at h
    · cases h
    · next he =>
      obtain ⟨rfl, rfl⟩ := Prod.mk.inj (Option.some.inj h)
      exact ⟨rfl, nofun, fun heq => absurd (Except.error.inj heq) he⟩
  | _ => cases h

/-- The store that an iterator reads. -/
def seen (p : Policy) (s : State) (ts : ℕ) : Store :=
  match p with
  | .atTimestamp => s.snapshot ts
  | .atCreation => s.now

theorem seen_mem (p : Policy) (s : State) (ts : ℕ) : seen p s ts ∈ s.past ++ [s.now] := by
  have hnow : s.now ∈ s.past ++ [s.now] := List.mem_append_right _ (List.mem_singleton_self _)
  cases p with
  | atCreation => exact hnow
  | atTimestamp =>
    show s.snapshot ts ∈ _
    unfold State.snapshot
    split
    · exact hnow
    · cases h : (s.past ++ [s.now])[ts - 1]? with
      | none => exact hnow
      | some st => exact List.mem_of_getElem? h

theorem get_of_mem_items {st : Store} {stop : Bytes} {limit : ℕ} {val : Bytes}
    (h : (key, val) ∈ items st start stop limit) : st.get key = some val := by
  have hall (h : (key, val) ∈ if stop < start then st.rangeDesc start stop
      else st.range start stop) : st.get key = some val := by
    split at h
    · exact (SortedMap.mem_rangeDesc.mp h).1
    · exact (SortedMap.mem_range.mp h).1
  unfold items at h
  dsimp only at h
  by_cases hl : limit = 0
  · rw [if_pos hl] at h
    exact hall h
  · rw [if_neg hl] at h
    exact hall (List.mem_of_mem_take h)

/-- An iterator yields a prefix of its range; without an error it yields all of it. -/
theorem exec_iter {reader : Reader} {stop : Bytes} {ts limit : ℕ} {r : Except Err Iter}
    (h : exec p s (.iter reader start stop ts limit) ch = some (s', r)) :
    s' = s ∧ r ≠ .error .keyNotFound ∧ ∀ it, r = .ok it →
      it.items <+: items (seen p s ts) start stop limit ∧ it.err ≠ some .keyNotFound ∧
      (it.err = none → it.items = items (seen p s ts) start stop limit) := by
  have hview : execIter.view p s start stop ts limit = items (seen p s ts) start stop limit := by
    cases p <;> rfl
  unfold exec at h
  simp only [Option.map_eq_some_iff, Prod.mk.injEq] at h
  obtain ⟨r', hr, rfl, rfl⟩ := h
  refine ⟨rfl, ?_⟩
  cases ch with
  | ok =>
    simp only [execIter, Option.some.injEq] at hr
    subst hr
    refine ⟨nofun, fun it hit => ?_⟩
    obtain rfl := Except.ok.inj hit
    exact ⟨hview ▸ List.prefix_refl _, nofun, fun _ => hview⟩
  | fail e =>
    simp only [execIter] at hr
    split at hr
    · cases hr
    · next he =>
      obtain rfl := Option.some.inj hr
      exact ⟨fun h => he (Except.error.inj h), nofun⟩
  | stopAfter n e =>
    simp only [execIter] at hr
    split at hr
    · cases hr
    · next he =>
      obtain rfl := Option.some.inj hr
      refine ⟨nofun, fun it hit => ?_⟩
      obtain rfl := Except.ok.inj hit
      exact ⟨hview ▸ List.take_prefix _ _, fun h => he (Option.some.inj h), nofun⟩
  | _ => cases hr

theorem exec_getTimestampOracle {r : Except Err ℕ}
    (h : exec p s .getTimestampOracle ch = some (s', r)) :
    s' = s ∧ ∀ ts, r = .ok ts → ts = s.timestamp := by
  cases ch with
  | ok | fail e =>
    obtain ⟨rfl, rfl⟩ := Prod.mk.inj (Option.some.inj h)
    simp [eq_comm]
  | _ => cases h

theorem exec_getPartitions {stop : Bytes} {r : Except Err (List Partition)}
    (h : exec p s (.getPartitions start stop) ch = some (s', r)) :
    s' = s ∧ ∀ ps, r = .ok ps → ch = .partitions ps := by
  cases ch with
  | partitions ps | fail e =>
    obtain ⟨rfl, rfl⟩ := Prod.mk.inj (Option.some.inj h)
    simp
  | _ => cases h

/-- Only a commit brings in a batch, which takes effect or is undecided. -/
theorem exec_batches {o : KvOp} {r : o.Res} (h : exec p s o ch = some (s', r)) :
    (s'.landed = s.landed ∧ s'.pending = s.pending) ∨ ∃ w ops, o = .commit w ops ∧
      (s'.landed = s.landed ++ [(⟨w, ops⟩, s.now)] ∧ s'.pending = s.pending ∨
        s'.landed = s.landed ∧ s'.pending = s.pending ++ [⟨w, ops⟩] ∧ ∃ n, ch = .pend n) := by
  cases o with
  | getTimestampOracle =>
    obtain ⟨rfl, -⟩ := exec_getTimestampOracle h
    exact .inl ⟨rfl, rfl⟩
  | getPartitions start stop =>
    obtain ⟨rfl, -⟩ := exec_getPartitions h
    exact .inl ⟨rfl, rfl⟩
  | get key =>
    obtain ⟨rfl, -⟩ := exec_get h
    exact .inl ⟨rfl, rfl⟩
  | iter reader start stop ts limit =>
    obtain ⟨rfl, -⟩ := exec_iter h
    exact .inl ⟨rfl, rfl⟩
  | commit w ops =>
    have hland (hl : s.land ⟨w, ops⟩ = some s') :
        s'.landed = s.landed ++ [(⟨w, ops⟩, s.now)] ∧ s'.pending = s.pending := by
      obtain ⟨-, -, hlanded, hpending, -⟩ := land_fields hl
      exact ⟨hlanded, hpending⟩
    rcases execCommit_cases h with ⟨-, hl, -⟩ | ⟨e, -, hl, -⟩ | ⟨e, -, rfl, -⟩ | ⟨n, rfl, rfl, -⟩
    · exact .inr ⟨w, ops, rfl, .inl (hland hl)⟩
    · exact .inr ⟨w, ops, rfl, .inl (hland hl)⟩
    · exact .inl ⟨rfl, rfl⟩
    · exact .inr ⟨w, ops, rfl, .inr ⟨rfl, rfl, n, rfl⟩⟩
  | del C key =>
    rcases (execDel_cases h).2 with rfl | ⟨rfl, -⟩
    · exact .inl ⟨rfl, rfl⟩
    · exact .inl ⟨rfl, rfl⟩
  | delCurrent C key val =>
    rcases execDelCurrent_cases h with ⟨-, -, rfl | ⟨rfl, -⟩⟩ | ⟨-, rfl, -⟩
    · exact .inl ⟨rfl, rfl⟩
    · exact .inl ⟨rfl, rfl⟩
    · exact .inl ⟨rfl, rfl⟩

/-- Undecided batches land or are dropped. -/
theorem env_cases (h : env s ch = some s') : ∃ i b, s.pending[i]? = some b ∧
      (ch = .landPending i ∧ State.land { s with pending := s.pending.eraseIdx i } b = some s' ∨
        ch = .discardPending i ∧ s' = { s with pending := s.pending.eraseIdx i }) := by
  cases ch with
  | landPending i =>
    simp only [env] at h
    split at h
    · cases h
    · next b hb => exact ⟨i, b, hb, .inl ⟨rfl, h⟩⟩
  | discardPending i =>
    simp only [env] at h
    split at h
    · cases h
    · next b hb => exact ⟨i, b, hb, .inr ⟨rfl, (Option.some.inj h).symm⟩⟩
  | _ => cases h

/-- Contents that were seen stay in the past, and the revision of the compactions rises. -/
structure PastGrows (s s' : State) : Prop where
  past : s.past ++ [s.now] <+: s'.past ++ [s'.now]
  gcRev : s.gcRev ≤ s'.gcRev

theorem PastGrows.refl (s : State) : PastGrows s s := ⟨List.prefix_refl _, le_rfl⟩

theorem PastGrows.trans {s₁ s₂ s₃ : State} (h₁ : PastGrows s₁ s₂) (h₂ : PastGrows s₂ s₃) :
    PastGrows s₁ s₃ :=
  ⟨h₁.past.trans h₂.past, h₁.gcRev.trans h₂.gcRev⟩

/-- The contents are kept or pushed to the past. -/
private theorem later_of_fields
    (hpast : s'.past = s.past ∧ s'.now = s.now ∨ s'.past = s.past ++ [s.now])
    (hgc : s.gcRev ≤ s'.gcRev) : PastGrows s s' := by
  refine ⟨?_, hgc⟩
  rcases hpast with ⟨hpast, hnow⟩ | hpast
  · exact hpast ▸ hnow ▸ List.prefix_refl _
  · rw [hpast]
    exact List.prefix_append _ _

theorem exec_later {o : KvOp} {r : o.Res} (h : exec p s o ch = some (s', r)) : PastGrows s s' := by
  have hland {b : Batch} (hl : s.land b = some s') : PastGrows s s' := by
    obtain ⟨-, hpast, -, -, hgc⟩ := land_fields hl
    exact later_of_fields (.inr hpast) hgc.ge
  have hdel {k : Bytes} {C : ℕ} (hs : s' = { s.write (s.now.erase k) with
      gcRev := max s.gcRev C } ∨ s' = { s with gcRev := max s.gcRev C }) : PastGrows s s' := by
    rcases hs with rfl | rfl
    · exact later_of_fields (.inr rfl) (le_max_left _ _)
    · exact later_of_fields (.inl ⟨rfl, rfl⟩) (le_max_left _ _)
  cases o with
  | getTimestampOracle =>
    obtain ⟨rfl, -⟩ := exec_getTimestampOracle h
    exact PastGrows.refl _
  | getPartitions start stop =>
    obtain ⟨rfl, -⟩ := exec_getPartitions h
    exact PastGrows.refl _
  | get key =>
    obtain ⟨rfl, -⟩ := exec_get h
    exact PastGrows.refl _
  | iter reader start stop ts limit =>
    obtain ⟨rfl, -⟩ := exec_iter h
    exact PastGrows.refl _
  | commit w ops =>
    rcases execCommit_cases h with ⟨-, hl, -⟩ | ⟨e, -, hl, -⟩ | ⟨e, -, rfl, -⟩ | ⟨n, -, rfl, -⟩
    · exact hland hl
    · exact hland hl
    · exact PastGrows.refl _
    · exact later_of_fields (.inl ⟨rfl, rfl⟩) le_rfl
  | del C key => exact hdel ((execDel_cases h).2.imp_right And.left)
  | delCurrent C key val =>
    rcases execDelCurrent_cases h with ⟨-, -, hs⟩ | ⟨-, hs, -⟩
    · exact hdel (hs.imp_right And.left)
    · exact hdel (k := key) (.inr hs)

theorem env_later (h : env s ch = some s') : PastGrows s s' := by
  obtain ⟨i, b, -, ⟨-, hl⟩ | ⟨-, rfl⟩⟩ := env_cases h
  · obtain ⟨-, hpast, -, -, hgc⟩ := land_fields hl
    exact later_of_fields (.inr hpast) hgc.ge
  · exact later_of_fields (.inl ⟨rfl, rfl⟩) le_rfl

/-- A timestamp keeps naming the contents it was taken at. -/
theorem snapshot_timestamp (s : State) : s.snapshot s.timestamp = s.now := by
  simp [State.snapshot, State.timestamp]

end Engine
end KubeBrain

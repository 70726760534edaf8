import KubeBrain.Lib.Outline
import KubeBrain.Scan.Limit

/-! What a list worker returns, whatever the goroutines around it do and however often its
iterators fail: when it succeeds, it has found what its tally of the pairs says. -/
namespace KubeBrain

open Interleaving Coder

namespace Receiver

/-- The receiver collects in place, or only counts. -/
def Local : Receiver → Prop
  | .stream .. => False
  | _ => True

/-- The receiver of a worker that has found `all`, up to its limit. -/
def cut (all : List KeyValue) : Receiver → Receiver
  | .common _ limit => .common (if 0 < limit then all.take limit.toNat else all) limit
  | r => r.kept all

/-- No more than the limit was found. -/
def Room (found : List KeyValue) : Receiver → Prop
  | .common _ limit => 0 < limit → (found.length : ℤ) ≤ limit
  | _ => True

/-- The same receiver, but for what it has collected. -/
def Same (r₀ r : Receiver) : Prop := r.kept [] = r₀.kept []

variable {r₀ r : Receiver} {found : List KeyValue}

theorem same_kept (r₀ : Receiver) (found : List KeyValue) : r₀.Same (r₀.kept found) := by
  cases r₀ <;> rfl

theorem Same.facts (h : r₀.Same r) :
    (r₀.Local → r.Local) ∧ (r₀.Unlimited → r.Unlimited) ∧ ∀ all, r.cut all = r₀.cut all := by
  cases r₀ <;> cases r <;> cases h <;> exact ⟨id, id, fun _ => rfl⟩

theorem cut_of_unlimited (h : r₀.Unlimited) (all : List KeyValue) : r₀.cut all = r₀.kept all := by
  cases r₀ with
  | common acc limit => simp [cut, kept, if_neg (not_lt.mpr h)]
  | _ => rfl

theorem append_kept (hr : r₀.Local) (found : List KeyValue) (key value : Bytes) (rev : ℕ) :
    (r₀.kept found).append key value rev = pure (r₀.kept (found ++ [⟨key, value, rev⟩])) := by
  cases r₀ with
  | empty => rfl
  | common acc limit => rfl
  | stream readRev id batch => exact hr.elim

theorem flush_kept (hr : r₀.Local) (found : List KeyValue) :
    (r₀.kept found).flush = pure (r₀.kept found) := by
  cases r₀ with
  | empty => rfl
  | common acc limit => rfl
  | stream readRev id batch => exact hr.elim

/-- A receiver that needs no more has reached its limit. -/
theorem cut_of_enough (hroom : r₀.Room found) (hmore : (r₀.kept found).needMore = false)
    {all : List KeyValue} (hstem : found <+: all) :
    r₀.kept found = r₀.cut all ∧ ¬ r₀.Unlimited := by
  cases r₀ with
  | empty => cases hmore
  | stream readRev id batch => cases hmore
  | common acc limit =>
    by_cases hlimit : 0 < limit
    · have hle : (found.length : ℤ) ≤ limit := hroom hlimit
      have hge : limit ≤ (found.length : ℤ) := by
        simpa [kept, needMore, hlimit] using hmore
      refine ⟨?_, fun h => absurd hlimit (not_lt.mpr h)⟩
      have htake : all.take limit.toNat = found := by
        rw [List.prefix_iff_eq_take.mp hstem]
        congr 1
        omega
      simp only [kept, cut, if_pos hlimit, htake]
    · simp [kept, needMore, hlimit] at hmore

/-- A receiver that needs more takes one more pair. -/
theorem cut_of_more (hmore : (r₀.kept found).needMore = true) {all last : List KeyValue}
    (hall : all = found ++ last) (hlast : last.length ≤ 1) : r₀.kept all = r₀.cut all := by
  cases r₀ with
  | empty => rfl
  | stream readRev id batch => rfl
  | common acc limit =>
    by_cases hlimit : 0 < limit
    · have hlt : (found.length : ℤ) < limit := by
        simpa [kept, needMore, hlimit] using hmore
      have htake : all.take limit.toNat = all := by
        apply List.take_of_length_le
        rw [hall, List.length_append]
        omega
      simp only [kept, cut, if_pos hlimit, htake]
    · simp only [kept, cut, if_neg hlimit]

theorem room_of_more (hmore : (r₀.kept found).needMore = true) {found' : List KeyValue}
    (hlen : found'.length ≤ found.length + 1) : r₀.Room found' := by
  cases r₀ with
  | common acc limit =>
    intro hlimit
    have hlt : (found.length : ℤ) < limit := by
      simpa [kept, needMore, hlimit] using hmore
    omega
  | _ => trivial

end Receiver

namespace Worker

variable {ttl : Bool} {w : WorkerConfig} {r₀ : Receiver} {t : Tally} {st : State}

/-- The worker reads, and expires nothing. -/
structure Lists (w : WorkerConfig) : Prop where
  compact : w.compact = false
  timeout : w.timeoutRevision = 0

/-- The state of a list worker is that of a tally. -/
structure Tracks (r₀ : Receiver) (t : Tally) (st : State) : Prop where
  seen : (st.prevUserKey, st.prevRevision, st.prevValue) = t.seen
  receiver : st.receiver = r₀.kept t.found
  count : st.count = t.found.length

theorem tracks_start (r₀ : Receiver) (failedKey : Bytes) :
    Tracks r₀ Tally.start ⟨[], 0, [], 0, r₀.reset, failedKey⟩ := by
  refine ⟨rfl, ?_, rfl⟩
  cases r₀ <;> rfl

theorem Tracks.same (h : Tracks r₀ t st) : r₀.Same st.receiver := by
  rw [h.receiver]
  exact Receiver.same_kept r₀ t.found

theorem Tracks.last (h : Tracks r₀ t st) :
    t.last = if 0 < st.prevRevision ∧ st.prevValue ≠ tombStoneBytes then
      [⟨st.prevUserKey, st.prevValue, st.prevRevision⟩] else [] := by
  obtain ⟨hkey, hrev, hval⟩ : st.prevUserKey = t.prevUserKey ∧ st.prevRevision = t.prevRevision ∧
      st.prevValue = t.prevValue := by simpa [Tally.seen] using h.seen
  rw [Tally.last, hkey, hrev, hval]

theorem processPrev_eq (hw : Lists w) (hr : r₀.Local) (h : Tracks r₀ t st) (k : Bytes) :
    ∃ st', processPrev w k st = pure st' ∧ Tracks r₀ (t.prev w k) st' := by
  have hkey : st.prevUserKey = t.prevUserKey := congrArg Prod.fst h.seen
  have hlast := h.last
  unfold processPrev Tally.prev
  by_cases hne : k ≠ st.prevUserKey
  · have hne' : k ≠ t.prevUserKey := hkey ▸ hne
    rw [if_pos hne, if_pos hne']
    split
    · next hsome =>
      rw [if_pos hsome] at hlast
      rw [h.receiver, Receiver.append_kept hr]
      refine ⟨_, rfl, h.seen, ?_, ?_⟩
      · rw [Tally.all, hlast]
      · rw [Tally.all, hlast, List.length_append, ← h.count]
        rfl
    · next hnone =>
      rw [if_neg hnone] at hlast
      have hall : t.all = t.found := by rw [Tally.all, hlast, List.append_nil]
      exact ⟨st, rfl, h.seen, by rw [hall]; exact h.receiver, by rw [hall]; exact h.count⟩
  · have hne' : ¬ k ≠ t.prevUserKey := hkey ▸ hne
    have hlist {n : ℕ} : ¬ (w.compact = true ∧ 0 < n) := by simp [hw.compact]
    rw [if_neg hne, if_neg hne', if_neg hlist, if_neg hlist]
    exact ⟨st, rfl, h⟩

/-- Without deletions a pair is taken in without any call. -/
theorem step_eq (hw : Lists w) (hr : r₀.Local) (h : Tracks r₀ t st) {e : Bytes × Bytes}
    (he : ¬ Malformed ttl w e) :
    ∃ st', step ttl w e.1 e.2 st = pure st' ∧ Tracks r₀ (t.add ttl w e) st' := by
  unfold step Tally.add
  unfold Malformed at he
  cases hdec : decode e.1 with
  | panic =>
    rw [hdec] at he
    exact absurd trivial he
  | badMagic => exact ⟨st, rfl, h⟩
  | badSplit => exact ⟨st, rfl, h⟩
  | ok k r =>
    have hexpire : compactIfExpired ttl w e.1 k r e.2 st.failedKey = pure (false, st.failedKey) :=
      if_pos (.inr (.inl hw.timeout))
    have hexpired : expired ttl w k r e.2 = false := if_pos (.inr (.inl hw.timeout))
    have hpair : t.pair w e.1 e.2 k r =
        if w.revision < r then t else (t.prev w k).see k r e.2 := by
      simp [Tally.pair, Tally.tombstone, Tally.current, hw.compact]
    simp only [hexpire, hexpired, hpair, Bool.false_eq_true, if_false]
    show ∃ st', process w e.1 e.2 k r { st with failedKey := st.failedKey } = pure st' ∧ _
    unfold process
    split
    · exact ⟨st, rfl, h⟩
    · obtain ⟨st₁, hprev, h₁⟩ := processPrev_eq hw hr h k
      have htomb : compactTombstone w e.1 e.2 k st₁ = pure st₁ := by
        simp [compactTombstone, hw.compact]
      refine ⟨{ st₁ with prevUserKey := k, prevRevision := r, prevValue := e.2 }, ?_, rfl,
        h₁.receiver, h₁.count⟩
      rw [hprev]
      show (compactTombstone w e.1 e.2 k st₁ >>= _) = _
      rw [htomb]
      simp [hw.compact]

/-- What the caller of a worker may rely on: its checks of the context, and what its iterators
yield of the pairs. -/
structure Reads (O : Spec sig Outcome) (w : WorkerConfig) (view : List (Bytes × Bytes))
    (I : O.Ghost → Prop) : Prop where
  done : ∀ g, I g → O.Pre g .ctxDone ∧ ∀ r g', O.Post g .ctxDone r g' → I g'
  iter : ∀ g reader, I g →
    O.Pre g (.kv (.iter reader w.partition.start w.partition.stop w.tso 0)) ∧
    ∀ (r : Except Err Iter) g',
      O.Post g (.kv (.iter reader w.partition.start w.partition.stop w.tso 0)) r g' →
      I g' ∧ ∀ it, r = .ok it → it.items <+: view ∧ (it.err = none → it.items = view)

/-- How the loop over pairs ends for a list worker. -/
def Ended (ttl : Bool) (w : WorkerConfig) (r₀ : Receiver) (t : Tally) (items : List (Bytes × Bytes))
    (err : Option Err) (st : State) : Exit → Prop
  | .canceled => r₀.Same st.receiver
  | .enough => st.receiver.needMore = false ∧ ∃ t', Tracks r₀ t' st ∧ r₀.Room t'.found ∧
      t'.found <+: (t.addAll ttl w items).found
  | .ended e => e = err ∧ Tracks r₀ (t.addAll ttl w items) st ∧ st.receiver.needMore = true

variable {O : Spec sig Outcome} {view : List (Bytes × Bytes)} {I : O.Ghost → Prop} {g : O.Ghost}

theorem safe_loop (hO : Reads O w view I) (hw : Lists w) (hr : r₀.Local) (err : Option Err)
    (items : List (Bytes × Bytes)) (hitems : ∀ e ∈ items, ¬ Malformed ttl w e) (hg : I g)
    (h : Tracks r₀ t st) (hroom : r₀.Room t.found) :
    O.Safe (fun g' a => I g' ∧ Ended ttl w r₀ t items err a.1 a.2) g (loop ttl w err items st) := by
  induction items generalizing g t st with
  | nil =>
    unfold loop
    split
    · next hmore =>
      obtain ⟨hpre, hpost⟩ := hO.done g hg
      apply Spec.Safe.call_bind hpre
      intro b g₁ hb
      split
      · exact ⟨hpost b g₁ hb, h.same⟩
      · exact ⟨hpost b g₁ hb, rfl, h, hmore⟩
    · next hmore => exact ⟨hg, by simpa using hmore, t, h, hroom, List.prefix_refl _⟩
  | cons e items ih =>
    unfold loop
    split
    · next hmore =>
      obtain ⟨hpre, hpost⟩ := hO.done g hg
      apply Spec.Safe.call_bind hpre
      intro b g₁ hb
      have hg₁ := hpost b g₁ hb
      split
      · exact ⟨hg₁, h.same⟩
      · obtain ⟨st₁, hstep, h₁⟩ := step_eq hw hr h (hitems e List.mem_cons_self)
        show O.Safe _ g₁ (step ttl w e.1 e.2 st >>= fun st => loop ttl w err items st)
        rw [hstep]
        apply ih (fun e' he' => hitems e' (List.mem_cons_of_mem _ he')) hg₁ h₁
        rw [h.receiver] at hmore
        apply Receiver.room_of_more hmore
        rcases Tally.found_add ttl w t e with hf | hf
        · rw [hf]
          exact Nat.le_succ _
        · rw [hf, Tally.all, List.length_append]
          have := t.length_last_le
          omega
    · next hmore =>
      exact ⟨hg, by simpa using hmore, t, h, hroom, Tally.found_prefix_addAll t (e :: items)⟩

/-- What a list worker hands over. -/
def Found (ttl : Bool) (w : WorkerConfig) (r₀ : Receiver) (view : List (Bytes × Bytes))
    (r : Receiver) : Except Err ℕ → Prop
  | .error _ => r₀.Same r
  | .ok n => r = r₀.cut (Tally.start.addAll ttl w view).all ∧
      (r₀.Unlimited → n = (Tally.start.addAll ttl w view).all.length)

theorem finish_eq (hr : r₀.Local) (h : Tracks r₀ t st) (hmore : st.receiver.needMore = true) :
    finish st = pure (r₀.kept t.all, t.all.length) := by
  have hlast := h.last
  unfold finish
  split
  · next hsome =>
    rw [if_pos ⟨hsome.1, hsome.2.1⟩] at hlast
    rw [h.receiver, Receiver.append_kept hr]
    show ((r₀.kept _).flush >>= _) = _
    rw [Receiver.flush_kept hr, Tally.all, hlast, List.length_append, h.count]
    rfl
  · next hnone =>
    rw [if_neg fun hsome => hnone ⟨hsome.1, hsome.2, hmore⟩] at hlast
    rw [h.receiver, Receiver.flush_kept hr, Tally.all, hlast, List.append_nil, h.count]
    rfl

theorem safe_run (hO : Reads O w view I) (hw : Lists w) (hr : r₀.Local)
    (hview : ∀ e ∈ view, ¬ Malformed ttl w e) (failedKey : Bytes) (hg : I g) :
    O.Safe (fun g' a => I g' ∧ Found ttl w r₀ view a.1 a.2.2) g (run ttl w r₀ failedKey) := by
  unfold run
  dsimp only
  obtain ⟨hpre, hpost⟩ := hO.iter g (if w.compact then .compact w.revision else .list w.revision) hg
  apply Spec.Safe.call_bind hpre
  intro (res : Except Err Iter) g₁ hres
  obtain ⟨hg₁, hit⟩ := hpost res g₁ hres
  cases res with
  | error e => exact ⟨hg₁, rfl⟩
  | ok it =>
    obtain ⟨hstem, hwhole⟩ := hit it rfl
    have hroom : r₀.Room Tally.start.found := by
      cases r₀ with
      | common acc limit => exact fun h => h.le
      | _ => trivial
    apply (safe_loop hO hw hr it.err it.items (fun e he => hview e (hstem.subset he)) hg₁
      (tracks_start r₀ failedKey) hroom).bind
    intro g₂ a hg₂
    obtain ⟨st, exit⟩ := a
    obtain ⟨hg₂, hend⟩ := hg₂
    cases exit with
    | canceled => exact ⟨hg₂, hend⟩
    | enough =>
      obtain ⟨hmore, t', ht', hroom', hfound⟩ := hend
      rw [ht'.receiver] at hmore
      have hall : t'.found <+: (Tally.start.addAll ttl w view).all := by
        have hgrow : (Tally.start.addAll ttl w it.items).found <+:
            (Tally.start.addAll ttl w view).found := by
          obtain ⟨rest, hrest⟩ := hstem
          have hsplit : Tally.start.addAll ttl w view =
              (Tally.start.addAll ttl w it.items).addAll ttl w rest := by
            rw [← hrest]
            exact List.foldl_append
          rw [hsplit]
          exact Tally.found_prefix_addAll _ rest
        exact (hfound.trans hgrow).trans (List.prefix_append _ _)
      obtain ⟨hcut, hlimited⟩ := Receiver.cut_of_enough hroom' hmore hall
      exact ⟨hg₂, ht'.receiver.trans hcut, fun hun => absurd hun hlimited⟩
    | ended e =>
      obtain ⟨rfl, ht', hmore⟩ := hend
      cases herr : it.err with
      | some e => exact ⟨hg₂, ht'.same⟩
      | none =>
        rw [hwhole herr] at ht'
        show O.Safe _ g₂ (finish st >>= _)
        rw [finish_eq hr ht' hmore]
        rw [ht'.receiver] at hmore
        exact ⟨hg₂, Receiver.cut_of_more hmore rfl (Tally.length_last_le _), fun _ => rfl⟩

theorem Found.of_same {r r' : Receiver} {res : Except Err ℕ} (h : Found ttl w r view r' res)
    (hsame : r₀.Same r) : Found ttl w r₀ view r' res := by
  obtain ⟨-, hun, hcut⟩ := hsame.facts
  cases res with
  | error e => exact Eq.trans h hsame
  | ok n => exact ⟨h.1.trans (hcut _), fun hr => h.2 (hun hr)⟩

/-- Attempts that fail leave no trace in the one that succeeds. -/
theorem safe_attempts (hO : Reads O w view I) (hw : Lists w) (hr : r₀.Local)
    (hview : ∀ e ∈ view, ¬ Malformed ttl w e) (steps : ℕ) (failedKey : Bytes) (latest : Err)
    (hg : I g) :
    O.Safe (fun g' a => I g' ∧ Found ttl w r₀ view a.1 a.2) g
      (attempts ttl w steps r₀ failedKey latest) := by
  induction steps generalizing g r₀ failedKey latest with
  | zero => exact ⟨hg, rfl⟩
  | succ steps ih =>
    obtain ⟨hpre, hpost⟩ := hO.done g hg
    unfold attempts
    apply Spec.Safe.call_bind hpre
    intro b g₁ hb
    have hg₁ := hpost b g₁ hb
    split
    · exact ⟨hg₁, rfl⟩
    · apply (safe_run hO hw hr hview failedKey hg₁).bind
      intro g₂ a hg₂
      obtain ⟨r, failedKey, res⟩ := a
      obtain ⟨hg₂, hfound⟩ := hg₂
      cases res with
      | ok n => exact ⟨hg₂, hfound⟩
      | error e =>
        have hsame : r₀.Same r := hfound
        apply (ih (hsame.facts.1 hr) failedKey e hg₂).mono
        intro g₃ b hb
        exact ⟨hb.1, hb.2.of_same hsame⟩

end Worker
end KubeBrain

import KubeBrain.Backend.Steps
import KubeBrain.Lib.Rely
import KubeBrain.Writes.Contents

/-! What compactions may remove: the versions that are left, the index and the revision of
the compactions keep reads at or above that revision as they were. -/
namespace KubeBrain

open Interleaving Coder

/-- User keys whose versions are contiguous, and that a worker can remember as failed. -/
def UserKey (k : Bytes) : Prop := Plain k ∧ k ≠ []

/-- User keys that a compaction never takes for expired events. -/
def Lasting (supportTTL : Bool) (k : Bytes) : Prop :=
  UserKey k ∧ (supportTTL = true ∨ contains k events = false)

namespace Sweep

/-- What has been written of each user key, and at or below which revisions nothing is
written any more. -/
structure Setting (p : Engine.Policy) where
  cfg : Config
  hist : Engine.State → Bytes → Mvcc.Versions Bytes
  quiet : LeaderState (engine p) → ℕ → Prop
  hist_congr : ∀ e e' : Engine.State, e'.landed = e.landed → hist e' = hist e

section

variable {p : Engine.Policy} (S : Setting p)

/-- The version is newer than anything that was written, read or compacted. -/
structure Fresh (s : LeaderState (engine p)) (x : Version) : Prop where
  user : UserKey x.key
  pos : 0 < x.rev
  lt : x.rev < 2 ^ 64
  above : ∀ C, S.quiet s C → C < x.rev
  tombstone : x.val = tombStoneBytes ↔ x.deleted = true
  newest : ∀ r val, S.hist s.kv x.key r val → r < x.rev
  gcRev : s.kv.gcRev < x.rev

/-- What is known of the steps of a run: which batches take effect, and where nothing is
written any more. -/
structure Lands (s : LeaderState (engine p)) (x : Option (ℕ × Op))
    (s' : LeaderState (engine p)) : Prop where
  quiet : ∀ C, S.quiet s C → S.quiet s' C
  pushed : ∀ i C time, x = some (i, .historyPush C time) → S.quiet s' C
  batch : ∀ b, s'.kv.landed = s.kv.landed ++ [(b, s.kv.now)] →
    (b.writer.target = none ∧ S.hist s'.kv = S.hist s.kv) ∨
      ∃ x, Wrote b x ∧ Fresh S s x ∧ ∀ k r val, S.hist s'.kv k r val ↔
        S.hist s.kv k r val ∨ k = x.key ∧ r = x.rev ∧ val = x.val

/-- Besides the record there are only internal keys of user keys among the internal keys, and
indexes have the form of the write path. -/
structure WellKept (st : Store) : Prop where
  internal : ∀ key val, st.get key = some val → magicBytes <+: key →
    key = getCompactKey S.cfg.keyPrefix ∨
      ∃ k r, UserKey k ∧ r < 2 ^ 64 ∧ key = encodeObjectKey k r
  shaped : ∀ k, Lasting S.cfg.supportTTL k → Shaped st k

/-- Batches that write no version write the record. -/
def OnRecord (b : Batch) : Prop :=
  b.writer.target = none → ∀ o ∈ b.ops, o.key = getCompactKey S.cfg.keyPrefix

structure Inv (e : Engine.State) : Prop extends WellKept S e.now where
  pending : ∀ b ∈ e.pending, OnRecord S b
  indexed : ∀ k, Lasting S.cfg.supportTTL k →
    Mvcc.Indexed (· = tombStoneBytes) (S.hist e k) (objects e.now k) (index e.now k) e.gcRev

/-- Of what lies at or below `C` nothing is in `st'` that was not in `st`. -/
structure Shrinks (C : ℕ) (st st' : Store) : Prop where
  objects : ∀ k, Lasting S.cfg.supportTTL k → ∀ r v, r ≤ C → objects st' k r v → objects st k r v
  index : ∀ k, Lasting S.cfg.supportTTL k → ∀ q d, q ≤ C → index st' k = some (q, d) →
    index st k = some (q, d)

structure Rely (s s' : LeaderState (engine p)) : Prop where
  past : s.kv.past ++ [s.kv.now] <+: s'.kv.past ++ [s'.kv.now]
  hist : ∀ k r v, S.hist s.kv k r v → S.hist s'.kv k r v
  quiet : ∀ C, S.quiet s C → S.quiet s' C
  shrinks : ∀ C, S.quiet s C → Shrinks S C s.kv.now s'.kv.now

/-- The store is one that the present contents have shrunk from, at or below `C`. -/
structure Fit (s : LeaderState (engine p)) (st : Store) (C : ℕ) : Prop extends WellKept S st where
  hist : ∀ k, Lasting S.cfg.supportTTL k → ∀ r v, objects st k r v → S.hist s.kv k r v
  shrinks : Shrinks S C st s.kv.now

/-- The timestamp names such a store. -/
structure Aimed (s : LeaderState (engine p)) (ts C : ℕ) : Prop where
  pos : 0 < ts
  le : ts ≤ s.kv.timestamp
  fit : Fit S s (s.kv.snapshot ts) C

/-- The border does not separate the versions of a user key. -/
def Whole (b : Bytes) : Prop := ∀ k, UserKey k → ∀ r r', r < 2 ^ 64 → r' < 2 ^ 64 →
  encodeObjectKey k r < b → encodeObjectKey k r' < b

structure CutBetweenKeys (q : Partition) : Prop where
  start : Whole q.start
  le : q.start ≤ q.stop

/-- A compaction at `C` may remove the version: a newer one was written at or below `C`, or it
is a tombstone with nothing older left and the index does not name it. -/
def Removable (s : LeaderState (engine p)) (C : ℕ) (k : Bytes) (r : ℕ) : Prop :=
  (∃ r' v', S.hist s.kv k r' v' ∧ r < r' ∧ r' ≤ C) ∨
    (r ≤ C ∧ (∀ v, objects s.kv.now k r v → v = tombStoneBytes) ∧
      ∀ r' v', objects s.kv.now k r' v' → r ≤ r') ∧ ∀ d, index s.kv.now k ≠ some (r, d)

def Ok (s : LeaderState (engine p)) : Op → Prop
  | .kv (.del C key) => ∃ k r, key = encodeObjectKey k r ∧ r < 2 ^ 64 ∧
      (Lasting S.cfg.supportTTL k → 0 < r ∧ Removable S s C k r)
  | .kv (.delCurrent C key val) => ∃ k, key = encodeRevisionKey k ∧
      (Lasting S.cfg.supportTTL k → ∃ q, q ≤ C ∧ q < 2 ^ 64 ∧ val = indexValue q true)
  | .kv (.commit w ops) => OnRecord S ⟨w, ops⟩
  | .spawn (.worker w _) => w.compact = true ∨ w.timeoutRevision ≠ 0 →
      w.compact = true ∧ S.quiet s w.revision ∧ CutBetweenKeys w.partition ∧
        Aimed S s w.tso w.revision
  | _ => True

/-- What the answers that compactions look at say. -/
def Fact (o : Op) (r : o.Res) (s' : LeaderState (engine p)) : Prop :=
  match o, r with
  | .kv .getTimestampOracle, r => ∀ ts, r = .ok ts → ts = s'.kv.timestamp
  | .kv (.getPartitions ..), r => ∀ ps qs, r = .ok ps →
      Scanner.adjustPartitionsBorders ps = some qs → ∀ q ∈ qs, CutBetweenKeys q
  | .kv (.iter _ start stop ts limit), r => ∀ it, r = .ok it →
      it.items <+: Engine.items (Engine.seen p s'.kv ts) start stop limit
  | .kv (.del _ key), r => (r = none → s'.kv.now.get key = none) ∧
      ∀ e, r = some e → e.isCASFailed = false
  | .kv (.delCurrent _ key val), r => (∀ e, r = some e → e.isCASFailed = true) →
      s'.kv.now.get key ≠ some val
  | .historyPush C _, _ => S.quiet s' C
  | _, _ => True

/-- Ranges are cut into partitions between user keys. -/
def Partitioned (cfg : Config) : Guard (leader cfg (engine p)) := fun _ m =>
  match m with
  | .op (.kv (.getPartitions ..)) (.kv (.partitions ps)) =>
    ∀ qs, Scanner.adjustPartitionsBorders ps = some qs → ∀ q ∈ qs, CutBetweenKeys q
  | _ => True

end

variable {p : Engine.Policy} {S : Setting p}

variable {s : LeaderState (engine p)}

theorem WellKept.user {st : Store} (h : WellKept S st) {key val k : Bytes} {r : ℕ}
    (hval : st.get key = some val) (hdec : decode key = .ok k r) : UserKey k := by
  obtain ⟨rfl, hr⟩ := encode_of_decode hdec
  rcases h.internal _ val hval (List.prefix_append _ _) with heq | ⟨k', r', hk', hr', heq⟩
  · exact absurd ⟨k, r, heq.symm⟩ (not_internal_getCompactKey _)
  · exact (encodeObjectKey_injective hr hr' heq).1 ▸ hk'

theorem OnRecord.not_internal {b : Batch} (h : OnRecord S b) (hb : b.writer.target = none) :
    ∀ o ∈ b.ops, ¬ Internal o.key :=
  fun o ho hint => not_internal_getCompactKey _ (h hb o ho ▸ hint)

theorem Shrinks.refl (C : ℕ) (st : Store) : Shrinks S C st st :=
  ⟨fun _ _ _ _ _ h => h, fun _ _ _ _ _ h => h⟩

theorem Shrinks.trans {C : ℕ} {st₁ st₂ st₃ : Store} (h₁ : Shrinks S C st₁ st₂)
    (h₂ : Shrinks S C st₂ st₃) : Shrinks S C st₁ st₃ where
  objects := fun k hk r v hr h => h₁.objects k hk r v hr (h₂.objects k hk r v hr h)
  index := fun k hk q d hq h => h₁.index k hk q d hq (h₂.index k hk q d hq h)

theorem Rely.refl (s : LeaderState (engine p)) : Rely S s s :=
  ⟨List.prefix_refl _, fun _ _ _ h => h, fun _ h => h, fun C _ => .refl C _⟩

theorem Rely.trans {s₁ s₂ s₃ : LeaderState (engine p)} (h₁ : Rely S s₁ s₂) (h₂ : Rely S s₂ s₃) :
    Rely S s₁ s₃ where
  past := h₁.past.trans h₂.past
  hist := fun k r v h => h₂.hist k r v (h₁.hist k r v h)
  quiet := fun C h => h₂.quiet C (h₁.quiet C h)
  shrinks := fun C h => (h₁.shrinks C h).trans (h₂.shrinks C (h₁.quiet C h))

theorem Fit.rely {s' : LeaderState (engine p)} {st : Store} {C : ℕ} (h : Fit S s st C)
    (hquiet : S.quiet s C) (hrely : Rely S s s') : Fit S s' st C where
  toWellKept := h.toWellKept
  hist := fun k hk r v hv => hrely.hist k r v (h.hist k hk r v hv)
  shrinks := h.shrinks.trans (hrely.shrinks C hquiet)

theorem fit_now (h : Inv S s.kv) (C : ℕ) : Fit S s s.kv.now C where
  toWellKept := h.toWellKept
  hist := fun k hk => (h.indexed k hk).sub
  shrinks := .refl C _

/-- A timestamp keeps naming the contents it named. -/
theorem snapshot_of_past {e e' : Engine.State} (h : e.past ++ [e.now] <+: e'.past ++ [e'.now])
    {ts : ℕ} (h0 : 0 < ts) (hle : ts ≤ e.timestamp) :
    ts ≤ e'.timestamp ∧ e'.snapshot ts = e.snapshot ts := by
  have hlen := h.length_le
  simp only [List.length_append, List.length_singleton] at hlen
  have hts : ts - 1 < (e.past ++ [e.now]).length := by
    simp only [Engine.State.timestamp] at hle
    simp only [List.length_append, List.length_singleton]
    omega
  constructor
  · simp only [Engine.State.timestamp] at hle ⊢
    omega
  · obtain ⟨rest, hrest⟩ := h
    simp only [Engine.State.snapshot, if_neg (Nat.ne_of_gt h0), ← hrest]
    rw [List.getElem?_append_left hts, List.getElem?_eq_getElem hts]
    rfl

theorem Aimed.rely {s' : LeaderState (engine p)} {ts C : ℕ} (h : Aimed S s ts C)
    (hquiet : S.quiet s C) (hrely : Rely S s s') : Aimed S s' ts C := by
  obtain ⟨hle, hsnap⟩ := snapshot_of_past hrely.past h.pos h.le
  exact ⟨h.pos, hle, hsnap ▸ h.fit.rely hquiet hrely⟩

theorem aimed_now (h : Inv S s.kv) (C : ℕ) : Aimed S s s.kv.timestamp C := by
  have hsnap := Engine.snapshot_timestamp s.kv
  exact ⟨Nat.succ_pos _, le_rfl, hsnap.symm ▸ fit_now h C⟩

/-- What an iterator reads under either policy. -/
theorem Aimed.seen {ts C : ℕ} (h : Aimed S s ts C) (hinv : Inv S s.kv) :
    Fit S s (Engine.seen p s.kv ts) C := by
  cases p with
  | atTimestamp => exact h.fit
  | atCreation => exact fit_now hinv C

section Moves

variable {e e' : Engine.State} {s s' : LeaderState (engine p)}

variable {st : Store}

theorem WellKept.erase (h : WellKept S st) (key : Bytes) : WellKept S (st.erase key) where
  internal := fun key' val hval hmagic => by
    rw [SortedMap.get_erase] at hval
    split at hval
    · cases hval
    · exact h.internal key' val hval hmagic
  shaped := fun k hk => (h.shaped k hk).erase key

theorem Shrinks.erase (C : ℕ) (hst : WellKept S st) (key : Bytes) :
    Shrinks S C st (st.erase key) := by
  have hget {key' val : Bytes} (h : (st.erase key).get key' = some val) :
      st.get key' = some val := by
    rw [SortedMap.get_erase] at h
    split at h
    · cases h
    · exact h
  constructor
  · rintro k - r v - ⟨h0, hr, hv⟩
    exact ⟨h0, hr, hget hv⟩
  · intro k hk q d _ hq
    obtain ⟨hlt, hval⟩ := ((hst.shaped k hk).erase key).get_of_index hq
    exact index_of_get (hget hval) hlt

/-- The contents stay; the revision of the compactions may rise. -/
theorem Inv.keep (h : Inv S e) (hnow : e'.now = e.now) (hlanded : e'.landed = e.landed)
    (hgc : e.gcRev ≤ e'.gcRev) (hpending : ∀ b ∈ e'.pending, OnRecord S b) : Inv S e' := by
  constructor
  · exact hnow ▸ h.toWellKept
  · exact hpending
  · intro k hk
    rw [S.hist_congr e e' hlanded, hnow]
    exact (h.indexed k hk).raise hgc

theorem Inv.eraseObject (h : Inv S s.kv) {C r : ℕ} {k : Bytes} (hr : r < 2 ^ 64)
    (hrem : Lasting S.cfg.supportTTL k → 0 < r ∧ Removable S s C k r)
    (hnow : e'.now = s.kv.now.erase (encodeObjectKey k r)) (hlanded : e'.landed = s.kv.landed)
    (hgc : e'.gcRev = max s.kv.gcRev C) (hpending : e'.pending = s.kv.pending) : Inv S e' := by
  constructor
  · exact hnow ▸ h.toWellKept.erase _
  · exact hpending ▸ h.pending
  · intro k' hk'
    rw [S.hist_congr s.kv e' hlanded, hnow, hgc]
    have hraise := (h.indexed k' hk').raise (le_max_left s.kv.gcRev C)
    by_cases hk : k' = k
    · subst hk
      obtain ⟨h0, hrem⟩ := hrem hk'
      rw [index_erase h0 hr]
      have hP : objects (s.kv.now.erase (encodeObjectKey k' r)) k' =
          fun r' v' => r' ≠ r ∧ objects s.kv.now k' r' v' := by
        funext r' v'
        simp [objects_erase hr]
      rw [hP]
      rcases hrem with ⟨r', v', hH, hlt, hle⟩ | ⟨⟨hle, htomb, hbare⟩, hidx⟩
      · apply hraise.remove (.inl ⟨r', v', hH, hlt, hle.trans (le_max_right _ _)⟩)
        intro d hidx
        exact absurd ((hraise.named r d hidx).2 r' v' hH) (not_le.mpr hlt)
      · exact hraise.remove (.inr ⟨hle.trans (le_max_right _ _), htomb, hbare⟩) hidx
    · have hP : objects (s.kv.now.erase (encodeObjectKey k r)) k' = objects s.kv.now k' := by
        funext r' v'
        simp [objects_erase hr, hk]
      rw [hP, index_erase_of_ne hk hr]
      exact hraise

theorem Inv.eraseIndex (h : Inv S e) {C : ℕ} {k val : Bytes}
    (hval : e.now.get (encodeRevisionKey k) = some val)
    (hrem : Lasting S.cfg.supportTTL k → ∃ q, q ≤ C ∧ q < 2 ^ 64 ∧ val = indexValue q true)
    (hnow : e'.now = e.now.erase (encodeRevisionKey k)) (hlanded : e'.landed = e.landed)
    (hgc : e'.gcRev = max e.gcRev C) (hpending : e'.pending = e.pending) : Inv S e' := by
  constructor
  · exact hnow ▸ h.toWellKept.erase _
  · exact hpending ▸ h.pending
  · intro k' hk'
    have hP : objects (e.now.erase (encodeRevisionKey k)) k' = objects e.now k' := by
      funext r' v'
      simp [objects_erase_index]
    rw [S.hist_congr e e' hlanded, hnow, hgc, hP]
    have hraise := (h.indexed k' hk').raise (le_max_left e.gcRev C)
    by_cases hk : k' = k
    · subst hk
      obtain ⟨q, -, hlt, rfl⟩ := hrem hk'
      rw [index_of_get hval hlt] at hraise
      rw [index_erase_index_self]
      exact hraise.unname
    · unfold encodeRevisionKey
      rw [index_erase_of_ne hk (by decide)]
      exact hraise

variable {b : Batch}

/-- A batch takes effect that writes no version. -/
theorem Inv.record (h : Inv S e) (hb : OnRecord S b) (hnone : b.writer.target = none)
    (ha : BatchOp.applyAll e.now b.ops = some e'.now) (hhist : S.hist e' = S.hist e)
    (hgc : e'.gcRev = e.gcRev) (hpending : ∀ b ∈ e'.pending, OnRecord S b) : Inv S e' := by
  have hsame := get_record (hb.not_internal hnone) ha
  constructor
  · constructor
    · intro key val hval hmagic
      by_cases hkey : key = getCompactKey S.cfg.keyPrefix
      · exact .inl hkey
      · have hget : e'.now.get key = e.now.get key :=
          BatchOp.get_applyAll ha fun o ho heq => hkey (heq.trans (hb hnone o ho))
        exact h.internal key val (hget ▸ hval) hmagic
    · intro k hk val hval
      exact h.shaped k hk val ((hsame k 0).symm.trans hval)
  · exact hpending
  · intro k hk
    have hP : objects e'.now k = objects e.now k := by
      funext r v
      simp only [objects, hsame]
    rw [hhist, hgc, hP, index_congr (hsame k 0)]
    exact h.indexed k hk

theorem Shrinks.record (C : ℕ) {st' : Store} (hkeys : ∀ o ∈ b.ops, ¬ Internal o.key)
    (ha : BatchOp.applyAll st b.ops = some st') : Shrinks S C st st' := by
  have hsame := get_record hkeys ha
  constructor
  · rintro k - r v - ⟨h0, hr, hv⟩
    exact ⟨h0, hr, (hsame k r).symm.trans hv⟩
  · intro k _ q d _ hq
    rwa [index_congr (hsame k 0)] at hq

/-- A batch takes effect that writes a fresh version. -/
theorem Inv.wrote {x : Version} (h : Inv S s.kv) (hw : Wrote b x) (hx : Fresh S s x)
    (ha : BatchOp.applyAll s.kv.now b.ops = some e'.now) (hhist : ∀ k r val, S.hist e' k r val ↔
      S.hist s.kv k r val ∨ k = x.key ∧ r = x.rev ∧ val = x.val)
    (hgc : e'.gcRev = s.kv.gcRev) (hpending : ∀ b ∈ e'.pending, OnRecord S b) : Inv S e' := by
  constructor
  · constructor
    · intro key val hval hmagic
      by_cases hidx : key = encodeRevisionKey x.key
      · exact .inr ⟨x.key, 0, hx.user, by decide, hidx⟩
      by_cases hobj : key = encodeObjectKey x.key x.rev
      · exact .inr ⟨x.key, x.rev, hx.user, hx.lt, hobj⟩
      · rw [hw.get_of_ne hx.lt ha hidx hobj] at hval
        exact h.internal key val hval hmagic
    · exact fun k hk => (h.shaped k hk).wrote hw hx.pos hx.lt ha
  · exact hpending
  · intro k hk
    rw [hgc]
    by_cases hkx : k = x.key
    · subst hkx
      have hP : objects e'.now x.key =
          fun r v => objects s.kv.now x.key r v ∨ r = x.rev ∧ v = x.val := by
        funext r v
        rw [eq_iff_iff, objects_wrote hw hx.pos hx.lt ha]
        constructor
        · rintro (⟨-, h'⟩ | ⟨-, h'⟩)
          · exact .inl h'
          · exact .inr h'
        · rintro (h' | h')
          · have := hx.newest r v ((h.indexed _ hk).sub r v h')
            exact .inl ⟨fun heq => absurd heq.2 (by omega), h'⟩
          · exact .inr ⟨rfl, h'⟩
      have hH : S.hist e' x.key = fun r v => S.hist s.kv x.key r v ∨ r = x.rev ∧ v = x.val := by
        funext r v
        simp [hhist]
      rw [hP, hH, index_wrote_self hw hx.pos hx.lt ha]
      exact (h.indexed _ hk).write hx.gcRev hx.newest hx.tombstone
    · have hP : objects e'.now k = objects s.kv.now k := by
        funext r v
        rw [eq_iff_iff, objects_wrote hw hx.pos hx.lt ha]
        simp [hkx]
      have hH : S.hist e' k = S.hist s.kv k := by
        funext r v
        simp [hhist, hkx]
      rw [hP, hH, index_congr (get_index_wrote hw hx.pos hx.lt ha hkx)]
      exact h.indexed k hk

theorem Shrinks.wrote {x : Version} {C : ℕ} (hw : Wrote b x) (hx : Fresh S s x) (hC : C < x.rev)
    (ha : BatchOp.applyAll s.kv.now b.ops = some st) : Shrinks S C s.kv.now st := by
  constructor
  · intro k _ r v hr hv
    rcases (objects_wrote hw hx.pos hx.lt ha).mp hv with ⟨-, h'⟩ | ⟨-, rfl, -⟩
    · exact h'
    · omega
  · intro k _ q d hq hidx
    by_cases hk : k = x.key
    · subst hk
      rw [index_wrote_self hw hx.pos hx.lt ha] at hidx
      obtain ⟨rfl, -⟩ := Prod.mk.inj (Option.some.inj hidx)
      omega
    · rwa [index_congr (get_index_wrote hw hx.pos hx.lt ha hk)] at hidx

end Moves

section Steps

variable {s s' : LeaderState (engine p)} {x : Option (ℕ × Op)}

variable {ch : LeaderChoice (engine p)}

theorem kept_step (hA : Lands S s x s') (hinv : Inv S s.kv) (hnow : s'.kv.now = s.kv.now)
    (hpast : s'.kv.past = s.kv.past) (hlanded : s'.kv.landed = s.kv.landed)
    (hgc : s.kv.gcRev ≤ s'.kv.gcRev) (hpending : ∀ b ∈ s'.kv.pending, OnRecord S b) :
    Inv S s'.kv ∧ Rely S s s' := by
  refine ⟨hinv.keep hnow hlanded hgc hpending, ?_, ?_, hA.quiet, fun C _ => ?_⟩
  · simp [hnow, hpast]
  · rw [S.hist_congr s.kv s'.kv hlanded]
    exact fun _ _ _ h => h
  · rw [hnow]
    exact .refl C _

theorem landed_step {b : Batch} (hA : Lands S s x s') (hinv : Inv S s.kv) (hb : OnRecord S b)
    (ha : BatchOp.applyAll s.kv.now b.ops = some s'.kv.now)
    (hpast : s'.kv.past = s.kv.past ++ [s.kv.now])
    (hlanded : s'.kv.landed = s.kv.landed ++ [(b, s.kv.now)]) (hgc : s'.kv.gcRev = s.kv.gcRev)
    (hpending : ∀ b ∈ s'.kv.pending, OnRecord S b) : Inv S s'.kv ∧ Rely S s s' := by
  have hprefix : s.kv.past ++ [s.kv.now] <+: s'.kv.past ++ [s'.kv.now] := by
    rw [hpast]
    exact List.prefix_append _ _
  rcases hA.batch b hlanded with ⟨hnone, hhist⟩ | ⟨v, hw, hfresh, hhist⟩
  · refine ⟨hinv.record hb hnone ha hhist hgc hpending, hprefix, ?_, hA.quiet,
      fun C _ => .record C (hb.not_internal hnone) ha⟩
    rw [hhist]
    exact fun _ _ _ h => h
  · refine ⟨hinv.wrote hw hfresh ha hhist hgc hpending, hprefix, ?_, hA.quiet, fun C hC => ?_⟩
    · exact fun k r val h => (hhist k r val).mpr (.inl h)
    · exact .wrote hw hfresh (hfresh.above C hC) ha

/-- A key is erased from the contents; `hinv'` says why that is allowed. -/
theorem erased_step {key : Bytes} (hA : Lands S s x s') (hinv : Inv S s.kv) (hinv' : Inv S s'.kv)
    (hnow : s'.kv.now = s.kv.now.erase key) (hpast : s'.kv.past = s.kv.past ++ [s.kv.now])
    (hlanded : s'.kv.landed = s.kv.landed) : Inv S s'.kv ∧ Rely S s s' := by
  refine ⟨hinv', ?_, ?_, hA.quiet, fun C _ => ?_⟩
  · rw [hpast]
    exact List.prefix_append _ _
  · rw [S.hist_congr s.kv s'.kv hlanded]
    exact fun _ _ _ h => h
  · rw [hnow]
    exact .erase C hinv.toWellKept key

theorem kv_step {outs : List (Option Outcome)} {i : ℕ} {o : KvOp} {r : o.Res}
    {sp : Option Leader.Goroutine} (hA : Lands S s (some (i, .kv o)) s')
    (hG : Partitioned S.cfg s (.op (.kv o) ch)) (hinv : Inv S s.kv) (hok : Ok S s (.kv o))
    (hex : Leader.exec S.cfg s outs i (.kv o) ch = some (s', r, sp)) :
    (Inv S s'.kv ∧ Rely S s s') ∧ Fact S (.kv o) r s' := by
  obtain ⟨c, e', rfl, hkv, rfl, rfl⟩ := Leader.exec_kv hex
  have hread (h : e' = s.kv) : Inv S e' ∧ Rely S s { s with kv := e' } := by
    subst h
    exact kept_step hA hinv rfl rfl rfl le_rfl hinv.pending
  cases o with
  | getTimestampOracle =>
    obtain ⟨rfl, hts⟩ := Engine.exec_getTimestampOracle hkv
    exact ⟨hread rfl, hts⟩
  | getPartitions start stop =>
    obtain ⟨rfl, hps⟩ := Engine.exec_getPartitions hkv
    refine ⟨hread rfl, fun ps qs hr => ?_⟩
    obtain rfl := hps ps hr
    exact hG qs
  | get key => exact ⟨hread (Engine.exec_get hkv).1, trivial⟩
  | iter reader start stop ts limit =>
    obtain ⟨rfl, -, hit⟩ := Engine.exec_iter hkv
    exact ⟨hread rfl, fun it hr => (hit it hr).1⟩
  | commit w ops =>
    refine ⟨?_, trivial⟩
    rcases Engine.execCommit_cases hkv with ⟨-, hl, -⟩ | ⟨e, -, hl, -⟩ | ⟨e, -, rfl, -⟩ |
      ⟨n, -, rfl, -⟩
    · obtain ⟨ha, hpast, hlanded, hpending, hgc⟩ := Engine.land_fields hl
      exact landed_step hA hinv hok ha hpast hlanded hgc (hpending ▸ hinv.pending)
    · obtain ⟨ha, hpast, hlanded, hpending, hgc⟩ := Engine.land_fields hl
      exact landed_step hA hinv hok ha hpast hlanded hgc (hpending ▸ hinv.pending)
    · exact hread rfl
    · exact kept_step hA hinv rfl rfl rfl le_rfl (List.forall_mem_snoc.mpr ⟨hinv.pending, hok⟩)
  | del C key =>
    obtain ⟨k, n, rfl, hn, hrem⟩ := hok
    obtain ⟨hcas, hcases⟩ := Engine.execDel_cases hkv
    rcases hcases with rfl | ⟨rfl, hr⟩
    · refine ⟨erased_step hA hinv (hinv.eraseObject hn hrem rfl rfl rfl rfl) rfl rfl rfl, ?_, hcas⟩
      exact fun _ => SortedMap.get_erase_self _ _
    · exact ⟨kept_step hA hinv rfl rfl rfl (le_max_left _ _) hinv.pending, fun h =>
        absurd h hr, hcas⟩
  | delCurrent C key val =>
    obtain ⟨k, rfl, hrem⟩ := hok
    rcases Engine.execDelCurrent_cases hkv with ⟨hval, hcas, rfl | ⟨rfl, hr⟩⟩ | ⟨hval, rfl, hr⟩
    · refine ⟨erased_step hA hinv (hinv.eraseIndex hval hrem rfl rfl rfl rfl) rfl rfl rfl, fun _ =>
        ?_⟩
      show (s.kv.now.erase (encodeRevisionKey k)).get _ ≠ _
      rw [SortedMap.get_erase_self]
      exact nofun
    · refine ⟨kept_step hA hinv rfl rfl rfl (le_max_left _ _) hinv.pending, fun hall => ?_⟩
      obtain ⟨e, rfl⟩ := Option.ne_none_iff_exists'.mp hr
      have := (hcas e rfl).symm.trans (hall e rfl)
      cases this
    · exact ⟨kept_step hA hinv rfl rfl rfl (le_max_left _ _) hinv.pending, fun _ => hval⟩

theorem op_step {outs : List (Option Outcome)} {i : ℕ} {o : Op} {r : o.Res}
    {sp : Option Leader.Goroutine} (hA : Lands S s (some (i, o)) s')
    (hG : Partitioned S.cfg s (.op o ch)) (hinv : Inv S s.kv) (hok : Ok S s o)
    (hex : Leader.exec S.cfg s outs i o ch = some (s', r, sp)) :
    Inv S s'.kv ∧ Rely S s s' ∧ Fact S o r s' := by
  have hrest (ho : ∀ o', o ≠ .kv o') : Inv S s'.kv ∧ Rely S s s' := by
    have hkv := Leader.exec_storage ho hex
    exact kept_step hA hinv (by rw [hkv]) (by rw [hkv]) (by rw [hkv]) (by rw [hkv])
      (hkv ▸ hinv.pending)
  cases o with
  | kv o =>
    obtain ⟨⟨h₁, h₂⟩, h₃⟩ := kv_step hA hG hinv hok hex
    exact ⟨h₁, h₂, h₃⟩
  | historyPush C time =>
    obtain ⟨h₁, h₂⟩ := hrest nofun
    exact ⟨h₁, h₂, hA.pushed i C time rfl⟩
  | _ =>
    obtain ⟨h₁, h₂⟩ := hrest nofun
    exact ⟨h₁, h₂, trivial⟩

theorem env_step (hA : Lands S s none s') (hinv : Inv S s.kv) (he : Leader.env s ch = some s') :
    Inv S s'.kv ∧ Rely S s s' := by
  rcases Leader.env_core he with ⟨c, e', -, hkv, rfl⟩ | ⟨-, hcore⟩
  · obtain ⟨n, b, hb, ⟨-, hl⟩ | ⟨-, rfl⟩⟩ := Engine.env_cases hkv
    · obtain ⟨ha, hpast, hlanded, hpending, hgc⟩ := Engine.land_fields hl
      refine landed_step hA hinv (hinv.pending b (List.mem_of_getElem? hb)) ha hpast hlanded hgc ?_
      exact fun b' hb' => hinv.pending b' (List.mem_of_mem_eraseIdx (hpending ▸ hb'))
    · exact kept_step hA hinv rfl rfl rfl le_rfl
        fun b' hb' => hinv.pending b' (List.mem_of_mem_eraseIdx hb')
  · have hkv : s'.kv = s.kv := congrArg CoreView.kv hcore
    exact kept_step hA hinv (by rw [hkv]) (by rw [hkv]) (by rw [hkv]) (by rw [hkv])
      (hkv ▸ hinv.pending)

end Steps

/-- Compactions on a leader, from a state whose indexes agree with what was written. -/
def protocol (S : Setting p) {s₀ : LeaderState (engine p)} (h₀ : Inv S s₀.kv) :
    Protocol (leader S.cfg (engine p)) where
  Inv := fun s => Inv S s.kv
  Rely := Rely S
  Ok := Ok S
  Fact := fun _ o r s' => Fact S o r s'
  Promise := fun _ _ _ => True
  started := fun _ _ => none
  joined := fun _ _ => none
  origin := s₀
  refl := Rely.refl
  trans := fun _ _ _ => Rely.trans
  origin_inv := h₀

end Sweep
end KubeBrain

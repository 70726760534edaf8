import KubeBrain.Writes.Spec

/-! The history of versions: which batches have taken effect or may still do so, how the
revision keys follow them, and what has been published of them. -/
namespace KubeBrain

open Interleaving Coder

namespace Writes

/-- The part of the state that writes, retries and compactions share. -/
structure View where
  committed : ℕ
  deal : ℕ
  notified : List WatchEvent
  appended : List WatchEvent
  queue : List WatchEvent
  kv : Engine.State
  histories : List (ℕ × ℕ)

def view {p : Engine.Policy} (s : LeaderState (engine p)) : View where
  committed := s.committedRevision
  deal := s.dealRevision
  notified := s.journal.notified
  appended := s.journal.appended
  queue := s.queue.map Prod.fst
  kv := s.kv
  histories := s.compactHistories

/-- The versions in the order in which their batches took effect. -/
def written (e : Engine.State) : List Version := versions (e.landed.map Prod.fst)

/-- The versions whose batches are undecided. -/
def undecided (e : Engine.State) : List Version := versions e.pending

/-- No write can take effect at or below this revision any more. -/
def Below (w : View) (C : ℕ) : Prop := C ≤ w.committed ∧ ∀ x ∈ undecided w.kv, C < x.rev

theorem Below.le {w : View} {C C' : ℕ} (h : Below w C) (hle : C' ≤ C) : Below w C' :=
  ⟨hle.trans h.1, fun x hx => lt_of_le_of_lt hle (h.2 x hx)⟩

theorem Below.max {w : View} {C C' : ℕ} (h : Below w C) (h' : Below w C') : Below w (max C C') :=
  ⟨max_le h.1 h'.1, fun x hx => max_lt (h.2 x hx) (h'.2 x hx)⟩

/-- What the sequencing of the events says of the shared part. -/
structure Ordered (start : ℕ) (w : View) : Prop where
  start_le : start ≤ w.committed
  le_deal : w.committed ≤ w.deal
  deal_lt : start < 2 ^ 63 → w.deal < 2 ^ 63
  filled : ∀ r, start < r → r ≤ w.committed → ∃ ev ∈ w.notified, ev.revision = r
  above : ∀ ev ∈ w.notified, start < ev.revision
  notified_le : ∀ ev ∈ w.notified, ev.revision ≤ w.deal
  unique : ∀ a ∈ w.notified, ∀ b ∈ w.notified, a.revision = b.revision → a = b
  appended : ∀ ev ∈ w.notified, ev.valid = false → ev.isUncertain = true →
    ev.revision ≤ w.committed → ev ∈ w.appended
  mem_appended : ∀ ev ∈ w.appended, ev ∈ w.notified
  mem_queue : ∀ ev ∈ w.queue, ev ∈ w.appended
  queue_sorted : w.queue.Pairwise fun a b => a.revision < b.revision

theorem ordered_of_sequenced {p : Engine.Policy} {start : ℕ} {s : LeaderState (engine p)}
    (h : Sequenced start s) : Ordered start (view s) := by
  obtain ⟨owed, batch, phase, hl⟩ := h
  obtain ⟨-, -, hnot, -⟩ := hl.dealt trivial
  obtain ⟨n, hqueue⟩ := hl.queue
  have hqueue : s.queue.map Prod.fst = s.journal.appended.drop n := hqueue
  have hfloor : s.committedRevision ≤ phase.appendFloor s.committedRevision := by
    have hheld := hl.held
    cases phase with
    | queued ev =>
      have hrev : ev.revision = s.committedRevision + 1 := hheld.1.2
      simp only [Phase.appendFloor]
      omega
    | _ => exact le_refl _
  constructor
  · exact hl.start_le
  · exact hl.committed_le_deal trivial
  · exact hl.deal_lt trivial
  · exact hl.filled
  · exact hl.above
  · exact hnot
  · exact fun a ha b hb => hl.eq_of_revision ha hb
  · intro ev hev hv hu hle
    exact (hl.mem_appended ev).mpr ⟨hev, hv, hu, le_trans hle hfloor⟩
  · intro ev hev
    exact ((hl.mem_appended ev).mp hev).1
  · intro ev hev
    have hev : ev ∈ s.queue.map Prod.fst := hev
    rw [hqueue] at hev
    exact List.mem_of_mem_drop hev
  · show (s.queue.map Prod.fst).Pairwise _
    rw [hqueue]
    exact hl.appended_sorted.drop

section

variable (m : WriteMode)

/-- A batch writes the compact record, or a version under a dealt revision. -/
def Formed (deal : ℕ) (b : Batch) : Prop :=
  (b.writer.target = none ∧ ∀ o ∈ b.ops, ¬ Internal o.key) ∨
    ∃ x, Wrote b x ∧ m.start < x.rev ∧ x.rev ≤ deal ∧ Allows m x

/-- The batch took effect on the contents it met, and a revision it replaced there was smaller
than its own. -/
def Applied (a : Batch × Store) : Prop :=
  (BatchOp.applyAll a.2 a.1.ops).isSome ∧
    ∀ x old p d, a.1.version = some x → a.2.get (encodeRevisionKey x.key) = some old →
      parseRevision old = .ok p d → p < x.rev

/-- Of two batches on one key the later one has the greater revision, and met at least the
revision of the earlier one. -/
def Succeeds (a b : Batch × Store) : Prop :=
  ∀ x y, a.1.version = some x → b.1.version = some y → x.key = y.key → x.rev < y.rev ∧
    ∀ old p d, b.2.get (encodeRevisionKey y.key) = some old → parseRevision old = .ok p d →
      x.rev ≤ p

/-- The newest version of a key has revision `q` and deletion flag `d`. -/
def Newest (ws : List Version) (k : Bytes) (q : ℕ) (d : Bool) : Prop :=
  (∀ x ∈ ws, x.key = k → x.rev ≤ q) ∧
    ((∃ x ∈ ws, x.key = k ∧ x.rev = q ∧ x.deleted = d) ∨
      q ≤ m.start ∧ m.base.get (encodeRevisionKey k) = some (indexValue q d))

structure History (w : View) : Prop where
  formed : ∀ b ∈ w.kv.landed.map Prod.fst ++ w.kv.pending, Formed m w.deal b
  applied : ∀ a ∈ w.kv.landed, Applied a
  nodup : ((written w.kv ++ undecided w.kv).map Version.rev).Nodup
  chain : w.kv.landed.Pairwise Succeeds
  index : ∀ k val, w.kv.now.get (encodeRevisionKey k) = some val →
    ∃ q d, val = indexValue q d ∧ Newest m (written w.kv) k q d
  unindexed : ∀ k, w.kv.now.get (encodeRevisionKey k) = none →
    ∀ x ∈ written w.kv, x.key = k → Below w x.rev
  shapes : ∀ st ∈ w.kv.past, ∀ k val, st.get (encodeRevisionKey k) = some val →
    ∃ q d, val = indexValue q d
  objects : m.restricted → ∀ k r val, m.start < r → r < 2 ^ 64 →
    w.kv.now.get (encodeObjectKey k r) = some val →
    ∃ x ∈ written w.kv, x.key = k ∧ x.rev = r ∧ x.val = val

/-- What the fate of a debt says of the versions. -/
def Fits (e : Engine.State) (d : Debt) : Prop :=
  match d.fate with
  | .fresh => ∀ x ∈ written e ++ undecided e, x.rev ≠ d.rev
  | .landed x => x ∈ written e ∧ x.rev = d.rev
  | .doubt x => x.rev = d.rev

structure Debts (w : View) (debt : ℕ → Option Debt) : Prop where
  dealt : ∀ i d, debt i = some d → m.start < d.rev ∧ d.rev ≤ w.deal ∧
    ∀ ev ∈ w.notified, ev.revision ≠ d.rev
  single : ∀ i j d d', debt i = some d → debt j = some d' → d.rev = d'.rev → i = j
  fits : ∀ i d, debt i = some d → Fits w.kv d
  told : ∀ x ∈ written w.kv ++ undecided w.kv,
    (∃ i d, debt i = some d ∧ (d.fate = .landed x ∨ d.fate = .doubt x)) ∨
      ∃ ev ∈ w.notified, ev.revision = x.rev ∧ Describes m ev x ∧
        (ev.valid = true ∨ ev.isUncertain = true)
  valid : ∀ ev ∈ w.notified, ev.valid = true →
    ∃ x ∈ written w.kv, x.rev = ev.revision ∧ Describes m ev x
  keys : m.restricted → ∀ ev ∈ w.notified, m.key ev.key

end

structure Limits (w : View) (gs : ℕ → Ghost) : Prop where
  queued : ∀ x ∈ undecided w.kv, ∀ ev ∈ w.appended, ev.revision = x.rev → ev ∈ w.queue
  seen : ∀ i, (gs i).seen ≤ w.committed
  limit : ∀ i, Below w (gs i).limit
  histories : ∀ h ∈ w.histories, Below w h.1
  gcRev : Below w w.kv.gcRev
  turn : ∀ i, (gs i).retrier = true → i = 1
  head : ∀ i ev, (gs i).head = some ev → (gs i).retrier = true ∧ w.queue.head? = some ev
  settled : ∀ i ev, (gs i).settled = true → (gs i).head = some ev →
    ∀ x ∈ undecided w.kv, x.rev ≠ ev.revision

structure Inv (m : WriteMode) (w : View) (gs : ℕ → Ghost) : Prop where
  history : History m w
  debts : Debts m w fun i => (gs i).debt
  limits : Limits w gs

abbrev outline (cfg : Config) (p : Engine.Policy) (m : WriteMode) :
    Outline (leader cfg (engine p)) where
  toSpec := spec m
  Inv := fun s gs => Inv m (view s) gs

variable {m : WriteMode} {w w' : View}

section Lists

variable {e : Engine.State}

theorem written_land {b : Batch} {x : Version} {e' : Engine.State} (h : b.version = some x)
    (hl : e.land b = some e') : written e' = written e ++ [x] := by
  obtain ⟨now, -, rfl⟩ := Engine.land_eq_some.mp hl
  simp [written, versions, h]

theorem written_land_record {b : Batch} {e' : Engine.State} (h : b.version = none)
    (hl : e.land b = some e') : written e' = written e := by
  obtain ⟨now, -, rfl⟩ := Engine.land_eq_some.mp hl
  simp [written, versions, h]

theorem mem_written {x : Version} : x ∈ written e ↔ ∃ y ∈ e.landed, y.1.version = some x := by
  simp [written, versions]

theorem mem_undecided {x : Version} : x ∈ undecided e ↔ ∃ b ∈ e.pending, b.version = some x := by
  simp [undecided, versions]

end Lists

namespace History

variable {x : Version} {e : Engine.State}

variable (h : History m w)

include h

theorem formed_version {b : Batch}
    (hb : b ∈ w.kv.landed.map Prod.fst ++ w.kv.pending) (hx : b.version = some x) :
    Wrote b x ∧ m.start < x.rev ∧ x.rev ≤ w.deal ∧ Allows m x := by
  rcases h.formed b hb with ⟨hnone, -⟩ | ⟨y, hw, hy⟩
  · rw [Batch.version_of_target hnone] at hx
    cases hx
  · obtain rfl := Option.some.inj (hx.symm.trans hw.version)
    exact ⟨hw, hy⟩

theorem mem_facts (hx : x ∈ written w.kv ++ undecided w.kv) :
    m.start < x.rev ∧ x.rev ≤ w.deal ∧ Allows m x := by
  rcases List.mem_append.mp hx with hx | hx
  · obtain ⟨y, hy, hyx⟩ := mem_written.mp hx
    exact (h.formed_version (List.mem_append_left _ (List.mem_map_of_mem hy)) hyx).2
  · obtain ⟨b, hb, hbx⟩ := mem_undecided.mp hx
    exact (h.formed_version (List.mem_append_right _ hb) hbx).2

theorem lt_of_newest (hdeal : w.deal < 2 ^ 63) {k : Bytes} {q : ℕ} {d : Bool}
    (hn : Newest m (written w.kv) k q d) : q < 2 ^ 63 := by
  rcases hn.2 with ⟨x, hx, -, rfl, -⟩ | ⟨hq, -⟩
  · have := (h.mem_facts (List.mem_append_left _ hx)).2.1
    omega
  · have := m.start_lt
    omega

/-- A revision key that a batch meets as it takes effect has the newest revision of the key,
and that is below the one of the batch. -/
theorem met_lt (hdeal : w.deal < 2 ^ 63) (hmet : Wrote.Met x w.kv.now)
    (hstart : m.start < x.rev) (hfresh : ∀ y ∈ written w.kv, y.rev ≠ x.rev) {old : Bytes} {p : ℕ}
    {d : Bool} (hget : w.kv.now.get (encodeRevisionKey x.key) = some old)
    (hparse : parseRevision old = .ok p d) :
    p < x.rev ∧ ∀ y ∈ written w.kv, y.key = x.key → y.rev ≤ p := by
  obtain ⟨q, f, rfl, hnew⟩ := h.index x.key old hget
  have hq := h.lt_of_newest hdeal hnew
  have hparse_q := parseRevision_indexValue (by omega : q < 2 ^ 64) f
  obtain ⟨rfl, rfl⟩ : q = p ∧ f = d := by
    injection hparse_q.symm.trans hparse with h₁ h₂
    exact ⟨h₁, h₂⟩
  refine ⟨?_, hnew.1⟩
  rcases hmet with hnone | ⟨old', p', d', hget', hparse', hle⟩
  · rw [hnone] at hget
    cases hget
  · obtain rfl := Option.some.inj (hget.symm.trans hget')
    injection hparse.symm.trans hparse' with h₁ h₂
    have hne : q ≠ x.rev := by
      rcases hnew.2 with ⟨z, hz, -, rfl, -⟩ | ⟨hq', -⟩
      · exact hfresh z hz
      · omega
    omega

/-- The revision of a batch that is about to take effect is above all versions of its key,
and the revision it meets is not below them. -/
theorem succeeds (hdeal : w.deal < 2 ^ 63) (hmet : Wrote.Met x w.kv.now)
    (hstart : m.start < x.rev) (hfresh : ∀ y ∈ written w.kv, y.rev ≠ x.rev)
    (habove : ∀ C, Below w C → C < x.rev) {y : Version} (hy : y ∈ written w.kv)
    (hkey : y.key = x.key) :
    y.rev < x.rev ∧ ∀ old p d, w.kv.now.get (encodeRevisionKey x.key) = some old →
      parseRevision old = .ok p d → y.rev ≤ p := by
  refine ⟨?_, fun old p d hget hparse =>
    (h.met_lt hdeal hmet hstart hfresh hget hparse).2 y hy hkey⟩
  rcases hmet with hnone | ⟨old, p, d, hget, hparse, hle⟩
  · exact habove _ (h.unindexed x.key hnone y hy hkey)
  · obtain ⟨hlt, hall⟩ :=
      h.met_lt hdeal (.inr ⟨old, p, d, hget, hparse, hle⟩) hstart hfresh hget hparse
    exact lt_of_le_of_lt (hall y hy hkey) hlt

theorem shape_now :
    ∀ st ∈ w.kv.past ++ [w.kv.now], ∀ k val, st.get (encodeRevisionKey k) = some val →
      ∃ q d, val = indexValue q d := by
  intro st hst k val hval
  rcases List.mem_snoc.mp hst with hst | rfl
  · exact h.shapes st hst k val hval
  · obtain ⟨q, d, hq, -⟩ := h.index k val hval
    exact ⟨q, d, hq⟩

/-- A batch with a version takes effect; `ps` are the batches that are still undecided. -/
theorem land (hdeal : w.deal < 2 ^ 63) {b : Batch} {ps : List Batch}
    (hps : ps.Sublist w.kv.pending) (hw : Wrote b x) (hstart : m.start < x.rev)
    (hle : x.rev ≤ w.deal) (hallow : Allows m x) (hfresh : ∀ y ∈ written w.kv, y.rev ≠ x.rev)
    (habove : ∀ C, Below w C → C < x.rev) (hl : w.kv.land b = some e)
    (hnodup : ((written e ++ versions ps).map Version.rev).Nodup) :
    History m { w with kv := { e with pending := ps } } := by
  have hwritten : written { e with pending := ps } = written w.kv ++ [x] :=
    (written_land hw.version hl :)
  have hund {C : ℕ} (hC : Below w C) : Below { w with kv := { e with pending := ps } } C :=
    ⟨hC.1, fun y hy => hC.2 y ((hps.filterMap Batch.version).subset hy)⟩
  obtain ⟨happly, hpast, hlanded, -, -⟩ := Engine.land_fields hl
  have hrev : x.rev < 2 ^ 64 := by omega
  have hpos : 0 < x.rev := by omega
  have hmet := (hw.apply hrev happly).2
  have hbelow {y : Version} (hy : y ∈ written w.kv) (hkey : y.key = x.key) :=
    h.succeeds hdeal hmet hstart hfresh habove hy hkey
  have hother {k : Bytes} (hk : k ≠ x.key) :
      e.now.get (encodeRevisionKey k) = w.kv.now.get (encodeRevisionKey k) :=
    hw.get_of_ne hrev happly (fun heq => hk (encodeRevisionKey_injective heq))
      (encodeObjectKey_ne_encodeRevisionKey hpos hrev).symm
  constructor
  · simp only [hlanded, List.map_append, List.append_assoc]
    obtain ⟨hpast, hpending⟩ := List.forall_mem_append.mp h.formed
    refine List.forall_mem_append.mpr ⟨hpast, List.forall_mem_cons.mpr ⟨?_, fun b' hb' => ?_⟩⟩
    · exact .inr ⟨x, hw, hstart, hle, hallow⟩
    · exact hpending b' (hps.subset hb')
  · simp only [hlanded]
    refine List.forall_mem_snoc.mpr ⟨h.applied, by simp only [happly, Option.isSome_some], ?_⟩
    intro z old p d hz hget hparse
    obtain rfl := Option.some.inj (hw.version.symm.trans hz)
    exact (h.met_lt hdeal hmet hstart hfresh hget hparse).1
  · exact hnodup
  · simp only [hlanded]
    refine List.pairwise_snoc.mpr ⟨h.chain, fun a ha y z hy hz hkey => ?_⟩
    obtain rfl := Option.some.inj (hw.version.symm.trans hz)
    exact hbelow (mem_written.mpr ⟨a, ha, hy⟩) hkey
  · intro k val hval
    rw [hwritten]
    by_cases hk : k = x.key
    · subst hk
      have hval' : some val = some (indexValue x.rev x.deleted) :=
        hval.symm.trans (hw.get_index hpos hrev happly)
      obtain rfl := Option.some.inj hval'
      refine ⟨x.rev, x.deleted, rfl, ?_, .inl ⟨x, by simp, rfl, rfl, rfl⟩⟩
      exact List.forall_mem_snoc.mpr ⟨fun y hy hkey => (hbelow hy hkey).1.le, fun _ => le_rfl⟩
    · obtain ⟨q, d, rfl, hnew⟩ := h.index k val ((hother hk).symm.trans hval)
      refine ⟨q, d, rfl, ?_, ?_⟩
      · exact List.forall_mem_snoc.mpr ⟨hnew.1, fun hkey => absurd hkey.symm hk⟩
      · rcases hnew.2 with ⟨y, hy, hrest⟩ | hbase
        · exact .inl ⟨y, List.mem_append_left _ hy, hrest⟩
        · exact .inr hbase
  · intro k hnone y hy hkey
    rw [hwritten] at hy
    have hk : k ≠ x.key := by
      rintro rfl
      have : some (indexValue x.rev x.deleted) = none :=
        (hw.get_index hpos hrev happly).symm.trans hnone
      cases this
    rcases List.mem_snoc.mp hy with hy | rfl
    · exact hund (h.unindexed k ((hother hk).symm.trans hnone) y hy hkey)
    · exact absurd hkey.symm hk
  · simp only [hpast]
    exact h.shape_now
  · intro ho k r val hr hr' hval
    rw [hwritten]
    by_cases heq : encodeObjectKey k r = encodeObjectKey x.key x.rev
    · obtain ⟨rfl, rfl⟩ := encodeObjectKey_injective hr' hrev heq
      have hval' : some val = some x.val := hval.symm.trans (hw.get_object hrev happly)
      obtain rfl := Option.some.inj hval'
      exact ⟨x, by simp, rfl, rfl, rfl⟩
    · have hsame := hw.get_of_ne hrev happly
        (encodeObjectKey_ne_encodeRevisionKey (by omega) hr') heq
      obtain ⟨y, hy, hrest⟩ := h.objects ho k r val hr hr' (hsame.symm.trans hval)
      exact ⟨y, List.mem_append_left _ hy, hrest⟩

/-- The contents change, but not the versions: revision keys keep their values or are
removed when nothing can land below their revisions, and object keys are at most removed. -/
theorem rewrite (hformed : ∀ b ∈ e.landed.map Prod.fst ++ e.pending, Formed m w.deal b)
    (happlied : ∀ a ∈ e.landed, Applied a) (hchain : e.landed.Pairwise Succeeds)
    (hwritten : written e = written w.kv) (hundecided : (undecided e).Sublist (undecided w.kv))
    (hpast : ∀ st ∈ e.past, st ∈ w.kv.past ++ [w.kv.now])
    (hindex : ∀ k, e.now.get (encodeRevisionKey k) = w.kv.now.get (encodeRevisionKey k) ∨
      e.now.get (encodeRevisionKey k) = none ∧
        ∀ x ∈ written w.kv, x.key = k → Below w x.rev)
    (hobjects : ∀ k r val, 0 < r → r < 2 ^ 64 → e.now.get (encodeObjectKey k r) = some val →
      w.kv.now.get (encodeObjectKey k r) = some val) : History m { w with kv := e } := by
  have hbelow {C : ℕ} (hC : Below w C) : Below { w with kv := e } C :=
    ⟨hC.1, fun x hx => hC.2 x (hundecided.subset hx)⟩
  constructor
  · exact hformed
  · exact happlied
  · rw [hwritten]
    exact ((List.Sublist.refl _).append hundecided).map Version.rev |>.nodup h.nodup
  · exact hchain
  · intro k val hval
    simp only [hwritten]
    rcases hindex k with hsame | ⟨hnone, -⟩
    · exact h.index k val (hsame.symm.trans hval)
    · rw [hnone] at hval
      cases hval
  · intro k hnone x hx hkey
    simp only [hwritten] at hx
    rcases hindex k with hsame | ⟨-, hall⟩
    · exact hbelow (h.unindexed k (hsame.symm.trans hnone) x hx hkey)
    · exact hbelow (hall x hx hkey)
  · intro st hst
    exact h.shape_now st (hpast st hst)
  · intro ho k r val hr hr' hval
    simp only [hwritten]
    exact h.objects ho k r val hr hr' (hobjects k r val (by omega) hr' hval)

/-- A batch without a version takes effect; `ps` are the batches that are still undecided. -/
theorem landRecord {b : Batch} {ps : List Batch} (hps : ps.Sublist w.kv.pending)
    (hnone : b.writer.target = none) (hkeys : ∀ o ∈ b.ops, ¬ Internal o.key)
    (hl : w.kv.land b = some e) : History m { w with kv := { e with pending := ps } } := by
  have hwritten : written { e with pending := ps } = written w.kv :=
    (written_land_record (Batch.version_of_target hnone) hl :)
  obtain ⟨happly, hpast, hlanded, -, -⟩ := Engine.land_fields hl
  have hsame {key : Bytes} (hkey : Internal key) : e.now.get key = w.kv.now.get key := by
    apply BatchOp.get_applyAll happly
    intro o ho heq
    exact hkeys o ho (heq ▸ hkey)
  refine h.rewrite ?_ ?_ ?_ hwritten (hps.filterMap _) ?_ ?_ ?_
  · simp only [hlanded, List.map_append, List.append_assoc]
    obtain ⟨hpast, hpending⟩ := List.forall_mem_append.mp h.formed
    refine List.forall_mem_append.mpr ⟨hpast, List.forall_mem_cons.mpr ⟨?_, fun b' hb' => ?_⟩⟩
    · exact .inl ⟨hnone, hkeys⟩
    · exact hpending b' (hps.subset hb')
  · simp only [hlanded]
    refine List.forall_mem_snoc.mpr ⟨h.applied, by simp only [happly, Option.isSome_some], ?_⟩
    intro z old p d hz
    rw [Batch.version_of_target hnone] at hz
    cases hz
  · simp only [hlanded]
    refine List.pairwise_snoc.mpr ⟨h.chain, fun a ha y z hy hz => ?_⟩
    rw [Batch.version_of_target hnone] at hz
    cases hz
  · simp only [hpast]
    exact fun st hst => hst
  · exact fun k => .inl (hsame ⟨k, 0, rfl⟩)
  · intro k r val _ _ hval
    exact (hsame ⟨k, r, rfl⟩).symm.trans hval

/-- An object key is removed. -/
theorem eraseObject {k : Bytes} {r n : ℕ} (h0 : 0 < r) (hr : r < 2 ^ 64) : History m { w with kv :=
      { w.kv.write (w.kv.now.erase (encodeObjectKey k r)) with gcRev := n } } := by
  have hindex (k' : Bytes) :=
    w.kv.now.get_erase_of_ne (encodeObjectKey_ne_encodeRevisionKey h0 hr :
      encodeObjectKey k r ≠ encodeRevisionKey k').symm
  have hobject (k' : Bytes) (r' : ℕ) (val : Bytes)
      (hval : (w.kv.now.erase (encodeObjectKey k r)).get (encodeObjectKey k' r') = some val) :
      w.kv.now.get (encodeObjectKey k' r') = some val := by
    rw [SortedMap.get_erase] at hval
    split at hval
    · cases hval
    · exact hval
  exact h.rewrite h.formed h.applied h.chain rfl (List.Sublist.refl _) (fun st hst => hst)
    (fun k' => .inl (hindex k')) fun k' r' val _ _ hval => hobject k' r' val hval

/-- A revision key is removed when no write can take effect at or below its revision. -/
theorem eraseIndex (hdeal : w.deal < 2 ^ 63) {k val : Bytes} {n : ℕ}
    (hval : w.kv.now.get (encodeRevisionKey k) = some val)
    (hbelow : Below w (Bytes.toNatBE (val.take 8))) :
    History m { w with kv :=
      { w.kv.write (w.kv.now.erase (encodeRevisionKey k)) with gcRev := n } } := by
  have hobject (k' : Bytes) (r' : ℕ) (h0 : 0 < r') (hr' : r' < 2 ^ 64) :=
    w.kv.now.get_erase_of_ne (encodeObjectKey_ne_encodeRevisionKey h0 hr' :
      encodeObjectKey k' r' ≠ encodeRevisionKey k)
  have hindex (k' : Bytes) : (w.kv.now.erase (encodeRevisionKey k)).get (encodeRevisionKey k') =
      w.kv.now.get (encodeRevisionKey k') ∨
      (w.kv.now.erase (encodeRevisionKey k)).get (encodeRevisionKey k') = none ∧
        ∀ x ∈ written w.kv, x.key = k' → Below w x.rev := by
    by_cases hk : k' = k
    · subst hk
      refine .inr ⟨w.kv.now.get_erase_self _, ?_⟩
      intro x hx hkey
      obtain ⟨q, d, rfl, hnew⟩ := h.index k' val hval
      have hq := h.lt_of_newest hdeal hnew
      rw [toNat_take_indexValue (by omega)] at hbelow
      exact hbelow.le (hnew.1 x hx hkey)
    · have hne : encodeRevisionKey k' ≠ encodeRevisionKey k :=
        fun heq => hk (encodeRevisionKey_injective heq)
      exact .inl (w.kv.now.get_erase_of_ne hne)
  exact h.rewrite h.formed h.applied h.chain rfl (List.Sublist.refl _) (fun st hst => hst) hindex
    fun k' r' val' h0 hr' hval' => (hobject k' r' h0 hr').symm.trans hval'

/-- Undecided batches are added or dropped. -/
theorem setPending {bs : List Batch} (hformed : ∀ b ∈ bs, Formed m w.deal b)
    (hnodup : ((written w.kv ++ versions bs).map Version.rev).Nodup)
    (hbelow : ∀ C, Below w C → ∀ x ∈ versions bs, C < x.rev) :
    History m { w with kv := { w.kv with pending := bs } } := by
  constructor
  · exact List.forall_mem_append.mpr ⟨(List.forall_mem_append.mp h.formed).1, hformed⟩
  · exact h.applied
  · exact hnodup
  · exact h.chain
  · exact h.index
  · intro k hnone x hx hkey
    have hx' := h.unindexed k hnone x hx hkey
    exact ⟨hx'.1, hbelow _ hx'⟩
  · exact h.shapes
  · exact h.objects

theorem congr_deal (hkv : w'.kv = w.kv) (hdeal : w.deal ≤ w'.deal)
    (hcommitted : w.committed ≤ w'.committed) : History m w' := by
  have hbelow {C : ℕ} (hC : Below w C) : Below w' C :=
    ⟨hC.1.trans hcommitted, hkv ▸ hC.2⟩
  constructor
  · rw [hkv]
    intro b hb
    rcases h.formed b hb with hrec | ⟨x, hw, h₁, h₂, h₃⟩
    · exact .inl hrec
    · exact .inr ⟨x, hw, h₁, h₂.trans hdeal, h₃⟩
  · exact hkv ▸ h.applied
  · exact hkv ▸ h.nodup
  · exact hkv ▸ h.chain
  · exact hkv ▸ h.index
  · intro k hnone x hx hkey
    rw [hkv] at hnone hx
    exact hbelow (h.unindexed k hnone x hx hkey)
  · exact hkv ▸ h.shapes
  · exact hkv ▸ h.objects

end History

end Writes
end KubeBrain

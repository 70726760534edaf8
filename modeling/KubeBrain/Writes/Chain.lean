import KubeBrain.Writes.Soundness

/-! The versions of a key form a chain: each batch that takes effect replaces the version
that its writer expected or observed. -/
namespace KubeBrain

open Interleaving Coder

namespace Writes

/-- The user key and the revision that a batch replaced in the contents it met. -/
def replaced (a : Batch × Store) : Option (Bytes × ℕ) :=
  match a.1.writer.target with
  | none => none
  | some (k, _) => match (a.2.get (encodeRevisionKey k)).map parseRevision with
    | some (.ok p _) => some (k, p)
    | _ => none

/-- What the writer of a batch relied on held in the contents that the batch met. -/
def MetExpected (a : Batch × Store) : Prop :=
  match a.1.writer with
  | .create k _ => a.2.get (encodeRevisionKey k) = none ∨
      ∃ p, (a.2.get (encodeRevisionKey k)).map parseRevision = some (.ok p true)
  | .update k _ e | .delete k _ e =>
      (a.2.get (encodeRevisionKey k)).map parseRevision = some (.ok e false)
  | .overwrite k _ o => ∃ d, (a.2.get (encodeRevisionKey k)).map parseRevision = some (.ok o d)
  | .record _ => True

theorem replaced_eq_some {a : Batch × Store} {k : Bytes} {p : ℕ} (h : replaced a = some (k, p)) :
    ∃ r old d, a.1.writer.target = some (k, r) ∧ a.2.get (encodeRevisionKey k) = some old ∧
      parseRevision old = .ok p d := by
  unfold replaced at h
  split at h
  · cases h
  · next k' r ht =>
    split at h
    · next p' d hget =>
      obtain ⟨rfl, rfl⟩ := Prod.mk.inj (Option.some.inj h)
      obtain ⟨old, hold, hparse⟩ := Option.map_eq_some_iff.mp hget
      exact ⟨r, old, d, ht, hold, hparse⟩
    · cases h

theorem metExpected_of_wrote {b : Batch} {x : Version} {st : Store} (h : Wrote b x)
    (hrev : x.rev < 2 ^ 64) (ha : (BatchOp.applyAll st b.ops).isSome) : MetExpected (b, st) := by
  have hfalse (n : ℕ) : uint64ToBytes n = indexValue n false := by simp [indexValue]
  obtain ⟨st', ha⟩ := Option.isSome_iff_exists.mp ha
  cases h with
  | create k r val ttl => exact .inl (BatchOp.applyAll_putIfNotExist_put.mp ha).1
  | recreate k r val ttl old p hold hlt =>
    refine .inr ⟨p, ?_⟩
    rw [(BatchOp.applyAll_cas_put.mp ha).1, Option.map_some, hold]
  | update k r e val he =>
    show (st.get _).map _ = _
    rw [(BatchOp.applyAll_cas_put.mp ha).1, Option.map_some, hfalse,
      parseRevision_indexValue (lt_of_le_of_lt he hrev)]
  | delete k r e he =>
    show (st.get _).map _ = _
    rw [(BatchOp.applyAll_cas_put.mp ha).1, Option.map_some, hfalse,
      parseRevision_indexValue (lt_of_le_of_lt he hrev)]
  | overwrite k r o val ho =>
    refine ⟨decide (val = tombStoneBytes), ?_⟩
    rw [(BatchOp.applyAll_cas_put.mp ha).1, Option.map_some,
      parseRevision_indexValue (lt_of_le_of_lt ho hrev)]

variable {m : WriteMode} {w : View}

theorem History.version_of_target (h : History m w) {a : Batch × Store} (ha : a ∈ w.kv.landed)
    {k : Bytes} {r : ℕ} (ht : a.1.writer.target = some (k, r)) :
    ∃ x, a.1.version = some x ∧ x.key = k ∧ x.rev = r := by
  have hmem := List.mem_append_left w.kv.pending (List.mem_map_of_mem (f := Prod.fst) ha)
  rcases h.formed a.1 hmem with ⟨hnone, -⟩ | ⟨x, hw, -⟩
  · rw [hnone] at ht
    cases ht
  · obtain ⟨rfl, rfl⟩ := Prod.mk.inj (Option.some.inj (hw.target.symm.trans ht))
    exact ⟨x, hw.version, rfl, rfl⟩

theorem History.metExpected (h : History m w) (hdeal : w.deal < 2 ^ 63) {a : Batch × Store}
    (ha : a ∈ w.kv.landed) : MetExpected a := by
  obtain ⟨b, st⟩ := a
  have hmem := List.mem_append_left w.kv.pending (List.mem_map_of_mem (f := Prod.fst) ha)
  rcases h.formed b hmem with ⟨hnone, -⟩ | ⟨x, hw, -, hle, -⟩
  · obtain ⟨writer, ops⟩ := b
    cases writer with
    | record C => trivial
    | _ => cases hnone
  · exact metExpected_of_wrote hw (by omega) (h.applied _ ha).1

/-- Batches on one key take effect in the order of their revisions. -/
theorem History.increasing (h : History m w) : w.kv.landed.Pairwise fun a b => ∀ k r r',
    a.1.writer.target = some (k, r) → b.1.writer.target = some (k, r') → r < r' := by
  refine h.chain.imp_of_mem ?_
  intro a b ha hb hab k r r' hr hr'
  obtain ⟨x, hx, rfl, rfl⟩ := h.version_of_target ha hr
  obtain ⟨y, hy, hkey, rfl⟩ := h.version_of_target hb hr'
  exact (hab x y hx hy hkey.symm).1

/-- A batch replaces a version of at least the last batch on the key, which is newer than the
one that this batch replaced. -/
theorem History.replaced_once (h : History m w) : w.kv.landed.Pairwise fun a b => ∀ k p,
    replaced a = some (k, p) → replaced b ≠ some (k, p) := by
  refine h.chain.imp_of_mem ?_
  intro a b ha hb hab k p hpa hpb
  obtain ⟨r, old, d, hta, hgeta, hparsea⟩ := replaced_eq_some hpa
  obtain ⟨r', old', d', htb, hgetb, hparseb⟩ := replaced_eq_some hpb
  obtain ⟨x, hx, rfl, rfl⟩ := h.version_of_target ha hta
  obtain ⟨y, hy, hkey, rfl⟩ := h.version_of_target hb htb
  have hlt : p < x.rev := (h.applied a ha).2 x old p d hx hgeta hparsea
  have hle : x.rev ≤ p := (hab x y hx hy hkey.symm).2 old' p d' (hkey ▸ hgetb) hparseb
  omega

end Writes

open Writes

variable {cfg : Config} {p : Engine.Policy}

/-- When undecided batches are decided before the retry worker reads their keys: batches that
take effect on one key have increasing revisions, each met the version that its writer
expected or observed (a creation none or a deleted one), and no version is replaced twice. -/
theorem no_lost_update {start : ℕ} (hstart : start < 2 ^ 63) {base : Store}
    (hbase : ∀ k val, base.get (encodeRevisionKey k) = some val →
      ∃ q d, q ≤ start ∧ val = indexValue q d)
    {c : Interleaving.Config (leader cfg (engine p))}
    (h : Config.Reach (Settles cfg p) (Leader.init cfg (engine p) start (Engine.init base)) c) :
    (Engine.State.landed c.state.kv).Pairwise (fun a b => ∀ k r r',
      a.1.writer.target = some (k, r) → b.1.writer.target = some (k, r') → r < r') ∧
    (∀ a ∈ Engine.State.landed c.state.kv, MetExpected a) ∧
    (Engine.State.landed c.state.kv).Pairwise fun a b => ∀ k q,
      replaced a = some (k, q) → replaced b ≠ some (k, q) := by
  let m : WriteMode :=
    ⟨start, base, False, fun _ => True, fun _ => True, hstart, hbase, False.elim⟩
  obtain ⟨gs, hgood⟩ := good_of_reach (m := m) (fun _ _ hg => hg) False.elim h
  have hist := hgood.inv.history
  have hord : Ordered start (view (p := p) c.state) := ordered_of_sequenced (sequenced_of_reach h)
  exact ⟨hist.increasing, fun a ha => hist.metExpected (hord.deal_lt hstart) ha, hist.replaced_once⟩

/-- The check of the condition on a schedule. -/
def settleCheck (s : LeaderState (engine .atTimestamp))
    (mv : Move (leader sampleConfig (engine .atTimestamp))) : Bool :=
  match mv with
  | .op (.kv (.iter (.retry n) ..)) _ =>
    (Engine.State.pending s.kv).all fun b => b.writer.target.all fun t => t.2 ≠ n
  | _ => true

theorem settles_of_check (s : LeaderState (engine .atTimestamp))
    (mv : Move (leader sampleConfig (engine .atTimestamp))) (h : settleCheck s mv = true) :
    Settles sampleConfig .atTimestamp s mv := by
  intro n start stop ts limit ch hmv b hb k hk
  subst hmv
  have hall := List.all_eq_true.mp h b hb
  simp [hk] at hall

/-- A key is created and updated; the update takes effect but is answered with an uncertain
error, and the retry worker writes it again. -/
def uncertainUpdate : List (Label (leader sampleConfig (engine .atTimestamp))) :=
  [.restart 3, .thread 3 (.request (.create ⟨[97], [98], 0⟩)), .thread 4 .none,
    .thread 4 (.kv .ok), .thread 4 .none, .thread 4 .none,
    .restart 3, .thread 3 (.request (.update ⟨⟨[97], [99], 1⟩, 0⟩)), .thread 5 .none,
    .thread 5 (.kv (.failApplied (.uncertain 0))), .thread 5 .none, .thread 5 .none] ++
  List.flatten (List.replicate 2 [.restart 0, .thread 0 .none, .thread 0 .none, .thread 0 .none,
    .thread 0 .none, .thread 0 .none, .thread 0 .none]) ++
  List.replicate 5 (.env .tick) ++
  [.restart 1, .thread 1 .none, .thread 1 .none, .thread 1 (.kv .ok), .thread 1 .none,
    .thread 1 (.kv .ok)]

theorem no_lost_update_overwrite :
    ∃ c, Config.Reach (Settles sampleConfig .atTimestamp) sampleInit c ∧
      (Engine.State.landed c.state.kv).map (fun a => a.1.writer) =
        [.create [97] 1, .update [97] 2 1, .overwrite [97] 3 2] ∧
      (Engine.State.landed c.state.kv).Pairwise fun a b => ∀ k q,
        replaced a = some (k, q) → replaced b ≠ some (k, q) := by
  obtain ⟨c, hreach, hval⟩ : ∃ c, Config.Reach (Settles sampleConfig .atTimestamp) sampleInit c ∧
      (Engine.State.landed c.state.kv).map (fun a => a.1.writer) =
        [.create [97] 1, .update [97] 2 1, .overwrite [97] 3 2] :=
    Config.exists_of_run settles_of_check uncertainUpdate (by rfl)
  exact ⟨c, hreach, hval, (no_lost_update (by decide) (by simp) hreach).2.2⟩

end KubeBrain

import KubeBrain.Backend.Solo
import KubeBrain.Scan.Partitions
import KubeBrain.Sweep.Soundness
import KubeBrain.Writes.Chain

/-! Compactions beside the write path. What takes effect lies above every revision at which a
compaction works, so in every run the index of a user key agrees with its versions. -/
namespace KubeBrain

open Interleaving Coder

/-- Contents that a leader may start on, with its sequencer at `start`. -/
structure Startable (cfg : Config) (start : ℕ) (base : Store) : Prop where
  start_lt : start < 2 ^ 63
  index_le : ∀ k val, base.get (encodeRevisionKey k) = some val →
    ∃ q d, q ≤ start ∧ val = indexValue q d
  objects_le : ∀ k r, start < r → r < 2 ^ 64 → base.get (encodeObjectKey k r) = none
  internal : ∀ key val, base.get key = some val → magicBytes <+: key →
    key = getCompactKey cfg.keyPrefix ∨ ∃ k r, UserKey k ∧ r < 2 ^ 64 ∧ key = encodeObjectKey k r
  agrees : ∀ k, Lasting cfg.supportTTL k → Agrees base k

/-- Requests that write name user keys and bring no tombstone. -/
def Proper : Request → Prop
  | .create r => UserKey r.key ∧ r.value ≠ tombStoneBytes
  | .update r => UserKey r.kv.key ∧ r.kv.value ≠ tombStoneBytes
  | .delete r => UserKey r.key
  | _ => True

instance (k : Bytes) : Decidable (UserKey k) := inferInstanceAs (Decidable (_ ∧ _))

instance : DecidablePred Proper
  | .create _ | .update _ => inferInstanceAs (Decidable (_ ∧ _))
  | .delete _ => inferInstanceAs (Decidable (UserKey _))
  | .get _ | .list _ | .count .. | .compact _ | .watch .. | .listByStream .. =>
    inferInstanceAs (Decidable True)

/-- Requests are proper, and batches are decided before the retry worker reads their keys. -/
def ProperSettled (cfg : Config) (p : Engine.Policy) : Guard (leader cfg (engine p)) := fun s mv =>
  Writes.Settles cfg p s mv ∧ ∀ r, mv = .op .accept (.request r) → Proper r

/-- Moreover ranges are cut into partitions between user keys. -/
def ProperPartitioned (cfg : Config) (p : Engine.Policy) :
    Guard (leader cfg (engine p)) := fun s mv =>
  ProperSettled cfg p s mv ∧ Sweep.Partitioned cfg s mv

namespace Writes

variable {cfg : Config} {p : Engine.Policy} {m : WriteMode}

/-- The version can still be written: its batch is undecided, or its revision is not yet
committed. -/
def Late (w : View) (x : Version) : Prop := x ∈ undecided w.kv ∨ w.committed < x.rev

theorem Late.above {w : View} {x : Version} {C : ℕ} (h : Late w x) (hC : Below w C) :
    C < x.rev := by
  rcases h with h | h
  · exact hC.2 x h
  · exact lt_of_le_of_lt hC.1 h

/-- A step in which only late versions are written or become undecided. -/
structure Advances (s s' : LeaderState (engine p)) : Prop where
  committed : s.committedRevision ≤ s'.committedRevision
  waiting : ∀ x ∈ undecided s'.kv, Late (view s) x
  landed : ∀ b, Engine.State.landed s'.kv =
    Engine.State.landed s.kv ++ [(b, Engine.State.now s.kv)] →
      ∀ x, b.version = some x → Late (view s) x

section Steps

variable {s s' : LeaderState (engine p)} {gs : ℕ → Ghost} {i : ℕ}

/-- The revision of a batch is owed until its event is published. -/
theorem late_of_pre (hinv : Inv m (view s) gs) (hord : Ordered m.start (view s)) {wr : Writer}
    {ops : List BatchOp} (hpre : PreKv m (gs i) (.commit wr ops)) {x : Version}
    (hx : Batch.version ⟨wr, ops⟩ = some x) : Late (view s) x := by
  cases wr with
  | record C => cases hx
  | _ =>
    obtain ⟨v, hw, hdebt, -⟩ := hpre
    obtain rfl := Option.some.inj (hw.version.symm.trans hx)
    exact .inr (hinv.debts.committed_lt hord hdebt)

/-- No batch comes in. -/
theorem Advances.of_same (hcommitted : s.committedRevision ≤ s'.committedRevision)
    (hlanded : Engine.State.landed s'.kv = Engine.State.landed s.kv)
    (hund : ∀ x ∈ undecided s'.kv, x ∈ undecided s.kv) : Advances s s' where
  committed := hcommitted
  waiting := fun x hx => .inl (hund x hx)
  landed := fun b hb => by
    have hlen := congrArg List.length (hlanded.symm.trans hb)
    simp at hlen

theorem advances_op {outs : List (Option Outcome)} {o : Op} {ch : LeaderChoice (engine p)}
    {r : o.Res} {sp : Option Leader.Goroutine}
    (hseq : Sequenced m.start (K := engine p) s ∧ Sequenced m.start (K := engine p) s')
    (hinv : Inv m (view s) gs) (hpre : Pre m (gs i) o)
    (hex : Leader.exec cfg s outs i o ch = some (s', r, sp)) : Advances s s' := by
  have hcommitted := hseq.1.committed_le hseq.2 (Leader.exec_journal hex).2
  by_cases ho : ∃ o', o = .kv o'
  · obtain ⟨o, rfl⟩ := ho
    obtain ⟨c, e, rfl, hkv, rfl, rfl⟩ := Leader.exec_kv hex
    have hkept (h : Engine.State.pending e = Engine.State.pending s.kv) (x : Version)
        (hx : x ∈ undecided e) : x ∈ undecided s.kv := by
      have hx : x ∈ versions (Engine.State.pending e) := hx
      rwa [h] at hx
    rcases Engine.exec_batches hkv with ⟨hlanded, hpending⟩ |
      ⟨wr, ops, rfl, ⟨hlanded, hpending⟩ | ⟨hlanded, hpending, -⟩⟩
    · exact .of_same hcommitted hlanded (hkept hpending)
    · have hord := ordered_of_sequenced hseq.1
      refine ⟨hcommitted, fun x hx => .inl (hkept hpending x hx), fun b hb x hx => ?_⟩
      have heq := List.append_cancel_left (hlanded.symm.trans hb)
      obtain ⟨rfl, -⟩ := Prod.mk.inj (List.singleton_inj.mp heq)
      exact late_of_pre hinv hord hpre hx
    · have hord := ordered_of_sequenced hseq.1
      refine ⟨hcommitted, fun x hx => ?_, fun b hb => ?_⟩
      · have hx : x ∈ versions (Engine.State.pending e) := hx
        rw [hpending, versions_append] at hx
        rcases List.mem_append.mp hx with hx | hx
        · exact .inl hx
        · obtain ⟨b, hb, hbx⟩ := List.mem_filterMap.mp hx
          rw [List.mem_singleton.mp hb] at hbx
          exact late_of_pre hinv hord hpre hbx
      · have hlen := congrArg List.length (hlanded.symm.trans hb)
        simp at hlen
  · have hkv := Leader.exec_storage (fun o' h => ho ⟨o', h⟩) hex
    exact .of_same hcommitted (by rw [hkv]) (by rw [hkv]; exact fun _ h => h)

theorem advances_env {ch : LeaderChoice (engine p)}
    (hseq : Sequenced m.start (K := engine p) s ∧ Sequenced m.start (K := engine p) s')
    (he : Leader.env s ch = some s') : Advances s s' := by
  have hjournal : s'.journal = s.journal := congrArg EventView.journal (Leader.env_events he)
  have hcommitted := hseq.1.committed_le hseq.2 (hjournal ▸ List.prefix_refl _)
  rcases Leader.env_core he with ⟨c, e, -, hkv, rfl⟩ | ⟨-, hcore⟩
  · obtain ⟨n, b, hb, ⟨-, hl⟩ | ⟨-, rfl⟩⟩ := Engine.env_cases hkv
    · obtain ⟨-, -, hlanded, hpending, -⟩ := Engine.land_fields hl
      have hund : ∀ x ∈ undecided e, x ∈ undecided s.kv := by
        intro x hx
        have hx : x ∈ versions (Engine.State.pending e) := hx
        rw [hpending] at hx
        exact ((List.eraseIdx_sublist _ _).filterMap _).subset hx
      refine ⟨hcommitted, fun x hx => .inl (hund x hx), fun b' hb' x hx => .inl ?_⟩
      have heq := List.append_cancel_left (hlanded.symm.trans hb')
      obtain ⟨rfl, -⟩ := Prod.mk.inj (List.singleton_inj.mp heq)
      exact mem_undecided.mpr ⟨b, List.mem_of_getElem? hb, hx⟩
    · refine .of_same hcommitted rfl fun x hx => ?_
      exact ((List.eraseIdx_sublist _ _).filterMap _).subset hx
  · have hkv : s'.kv = s.kv := congrArg CoreView.kv hcore
    exact .of_same hcommitted (by rw [hkv]) (by rw [hkv]; exact fun _ h => h)

end Steps

variable (cfg p m) in
/-- What has been written: the versions of the first contents, and those of the batches that
took effect since. -/
def setting : Sweep.Setting p where
  cfg := cfg
  hist := fun e k r v => objects m.base k r v ∨ ∃ x ∈ written e, x.key = k ∧ x.rev = r ∧ x.val = v
  quiet := fun s C => Below (view s) C
  hist_congr := fun e e' h => by simp only [written, h]

section Lands

variable {s s' : LeaderState (engine p)} {gs gs' : ℕ → Ghost}

/-- A version that takes effect is newer than everything that was written of its key. -/
theorem newest_of_landed (ho : m.restricted) (hinv : Inv m (view s') gs') {b : Batch} {x : Version}
    (hb : Engine.State.landed s'.kv = Engine.State.landed s.kv ++ [(b, Engine.State.now s.kv)])
    (hx : b.version = some x) (hstart : m.start < x.rev) {r : ℕ} {v : Bytes}
    (h : (setting cfg p m).hist s.kv x.key r v) : r < x.rev := by
  rcases h with ⟨-, hr, hget⟩ | ⟨y, hy, hkey, rfl, -⟩
  · refine lt_of_le_of_lt ?_ hstart
    by_contra hlt
    rw [m.objects ho x.key r (not_le.mp hlt) hr] at hget
    cases hget
  · have hchain : (Engine.State.landed s'.kv).Pairwise Succeeds := hinv.history.chain
    rw [hb] at hchain
    obtain ⟨a, ha, hay⟩ := mem_written.mp hy
    have hsucc := (List.pairwise_append.mp hchain).2.2 a ha _ List.mem_cons_self
    exact (hsucc y x hay hx hkey).1

theorem Advances.lands (h : Advances s s') (ho : m.restricted) (hkey : ∀ k, m.key k → UserKey k)
    (hval : ∀ v, m.value v → v ≠ tombStoneBytes) (hinv : Inv m (view s) gs)
    (hinv' : Inv m (view s') gs') (hord : Ordered m.start (view s')) {x : Option (ℕ × Op)}
    (hpush : ∀ i C time, x = some (i, .historyPush C time) → Below (view s) C) :
    Sweep.Lands (setting cfg p m) s x s' := by
  have hbelow (C : ℕ) (hC : Below (view s) C) : Below (view s') C :=
    ⟨hC.1.trans h.committed, fun x hx => (h.waiting x hx).above hC⟩
  refine ⟨hbelow, fun i C time hx => hbelow C (hpush i C time hx), fun b hb => ?_⟩
  have hwritten : written s'.kv = written s.kv ++ versions [b] := by
    show versions ((Engine.State.landed s'.kv).map Prod.fst) = _
    rw [hb, List.map_append, versions_append]
    rfl
  have hmem : b ∈ (Engine.State.landed s'.kv).map Prod.fst ++ Engine.State.pending s'.kv := by
    simp [hb]
  rcases hinv'.history.formed b hmem with ⟨hnone, -⟩ | ⟨v, hw, hstart, hdeal, hallow⟩
  · refine .inl ⟨hnone, ?_⟩
    have hsame : written s'.kv = written s.kv := by
      simp [hwritten, versions, Batch.version_of_target hnone]
    simp only [setting, hsame]
  · have hversion := hw.version
    have hlate := h.landed b hb v hversion
    have hlt := hord.deal_lt m.start_lt
    obtain ⟨hk, hvalue⟩ := hallow ho
    refine .inr ⟨v, hw, ⟨hkey _ hk, by omega, ?_, fun C hC => hlate.above hC, ?_, ?_, ?_⟩, ?_⟩
    · have hdeal : v.rev ≤ (view s').deal := hdeal
      omega
    · cases hd : v.deleted with
      | true => simpa [hd] using hvalue
      | false =>
        have := hval v.val (by simpa [hd] using hvalue)
        simp [this]
    · exact fun r val hr => newest_of_landed ho hinv' hb hversion hstart hr
    · exact hlate.above hinv.limits.gcRev
    · intro k r val
      have hone : versions [b] = [v] := by simp [versions, hversion]
      simp only [setting, hwritten, hone, List.mem_append, List.mem_singleton, or_and_right,
        exists_or, exists_eq_left, or_assoc]
      simp only [eq_comm]

/-- Runs from such contents with restricted requests write as the compactions rely on. -/
theorem lands {G : Guard (leader cfg (engine p))} (hsettle : ∀ s mv, G s mv → Settles cfg p s mv)
    (haccept : ∀ s mv, G s mv → Accepts cfg p m s mv) (ho : m.restricted)
    (hkey : ∀ k, m.key k → UserKey k) (hval : ∀ v, m.value v → v ≠ tombStoneBytes) :
    Outline.Holds G (Sweep.Lands (setting cfg p m))
      (Leader.init cfg (engine p) m.start (Engine.init m.base)) := by
  intro d d' l x hr hl hG hx
  have hr' := hr.tail ⟨l, hl, hG⟩
  obtain ⟨gs, hgood⟩ := good_of_reach hsettle (fun _ => haccept) hr
  obtain ⟨gs', hgood'⟩ := good_of_reach hsettle (fun _ => haccept) hr'
  have hseq : Sequenced m.start (K := engine p) d.state ∧
      Sequenced m.start (K := engine p) d'.state :=
    ⟨sequenced_of_reach hr, sequenced_of_reach hr'⟩
  have hord := ordered_of_sequenced hseq.2
  rcases Config.step_cases hl with ⟨i, ch, o, k, again, s, r, sp, rfl, ht, hex, rfl⟩ |
    ⟨i, a, f, rfl, ht, rfl⟩ | ⟨ch, s, rfl, he, rfl⟩
  · obtain rfl := Option.some.inj ((Config.actor_thread ht).symm.trans hx)
    have hpre : Pre m (gs i) o := hgood.pre ht
    refine (advances_op hseq hgood.inv hpre hex).lands ho hkey hval hgood.inv hgood'.inv hord ?_
    intro j C time heq
    obtain ⟨rfl, rfl⟩ := Prod.mk.inj (Option.some.inj heq)
    exact (hgood.inv.limits.limit i).le hpre
  · cases hx
  · obtain rfl := Option.some.inj hx
    exact (advances_env hseq he).lands ho hkey hval hgood.inv hgood'.inv hord nofun

end Lands

end Writes

namespace Sweep

open Scanner

theorem whole_of_aligned {b : Bytes} (hb : Aligned b) : Whole b := by
  obtain ⟨a, ha, rfl⟩ := hb
  intro k hk r r' hr hr' hlt
  unfold encodeRevisionKey at hlt ⊢
  rw [encodeObjectKey_lt_iff hk.1 ha hr (by decide)] at hlt
  rw [encodeObjectKey_lt_iff hk.1 ha hr' (by decide)]
  exact hlt.imp_right fun h => absurd h.2 (Nat.not_lt_zero r)

end Sweep

section Agreement

variable {cfg : Config} {p : Engine.Policy} {start : ℕ} {base st : Store} {k : Bytes}

theorem Agrees.indexed (h : Agrees st k) (C : ℕ) :
    Mvcc.Indexed (· = tombStoneBytes) (objects st k) (objects st k) (index st k) C where
  toCompacted := .refl _ _ _
  functional := fun _ _ _ hv hv' => Option.some.inj (hv.2.2.symm.trans hv'.2.2)
  named := h.named
  unnamed := fun hnone => (h.unnamed hnone).imp_right fun ⟨r, hr, hmax⟩ => ⟨r, _, hr, rfl, hmax⟩

theorem agrees_of_indexed {H : Mvcc.Versions Bytes} {C : ℕ} (hs : Shaped st k)
    (h : Mvcc.Indexed (· = tombStoneBytes) H (objects st k) (index st k) C) : Agrees st k where
  shaped := hs
  named := fun q d hq => by
    obtain ⟨hv, hmax⟩ := h.named q d hq
    exact ⟨hv, fun r v hr => hmax r v (h.sub r v hr)⟩
  unnamed := fun hnone => by
    by_cases hempty : ∀ r v, ¬ objects st k r v
    · exact .inl hempty
    · push Not at hempty
      obtain ⟨r, v, hv⟩ := hempty
      obtain ⟨n, x, hx, -, hmax⟩ := Mvcc.exists_newest hv hv.2.1.le
      have htop (r' : ℕ) (v' : Bytes) (hv' : objects st k r' v') : r' ≤ n :=
        hmax r' v' hv' hv'.2.1.le
      rw [hnone] at h
      obtain rfl := h.dead_of_unnamed hx htop
      exact .inr ⟨n, hx, htop⟩

/-- The mode of the writes in runs from such contents. -/
def Startable.mode (h : Startable cfg start base) : WriteMode where
  start := start
  base := base
  restricted := True
  key := UserKey
  value := (· ≠ tombStoneBytes)
  start_lt := h.start_lt
  index := h.index_le
  objects := fun _ => h.objects_le

theorem Startable.inv_init (h : Startable cfg start base) :
    Sweep.Inv (Writes.setting cfg p h.mode) (Engine.init base) where
  internal := h.internal
  shaped := fun k hk => (h.agrees k hk).shaped
  pending := nofun
  indexed := fun k hk => by
    have hhist : (Writes.setting cfg p h.mode).hist (Engine.init base) k = objects base k := by
      funext r v
      simp [Writes.setting, Writes.written, versions, Engine.init, Startable.mode]
    rw [hhist]
    exact (h.agrees k hk).indexed _

theorem Startable.accepts (h : Startable cfg start base) {s : LeaderState (engine p)}
    {mv : Move (leader cfg (engine p))} (hg : ProperPartitioned cfg p s mv) :
    Writes.Accepts cfg p h.mode s mv := by
  intro r hmv
  have hproper := hg.1.2 r hmv
  cases r <;> exact hproper

theorem Startable.inv_of_reach (h : Startable cfg start base)
    {c : Interleaving.Config (leader cfg (engine p))} (hr : Config.Reach (ProperPartitioned cfg p)
      (Leader.init cfg (engine p) start (Engine.init base)) c) :
    Sweep.Inv (Writes.setting cfg p h.mode) c.state.kv := by
  have hlands : Outline.Holds (ProperPartitioned cfg p) (Sweep.Lands (Writes.setting cfg p h.mode))
      (Leader.init cfg (engine p) start (Engine.init base)) :=
    Writes.lands (m := h.mode) (fun _ _ hg => hg.1.1) (fun _ _ hg => h.accepts hg) trivial
      (fun _ hk => hk) fun _ hv => hv
  exact (Sweep.of_reach (S := Writes.setting cfg p h.mode) (fun _ _ hg => hg.2) hlands h.inv_init
    (fun _ _ hg _ _ ht => Sweep.threadSafe_start hg ht) hr).1

/-- In every run with proper requests, settled retries and ranges cut between user keys: the
index of a user key and its versions agree, whatever the storage answers and however often
scan workers fail and start again. -/
theorem index_agrees_with_versions (h : Startable cfg start base)
    {c : Interleaving.Config (leader cfg (engine p))} (hr : Config.Reach (ProperPartitioned cfg p)
      (Leader.init cfg (engine p) start (Engine.init base)) c)
    (hk : Lasting cfg.supportTTL k) : Agrees (Engine.State.now c.state.kv) k := by
  have hinv := h.inv_of_reach hr
  exact agrees_of_indexed (hinv.shaped k hk) (hinv.indexed k hk)

end Agreement

theorem startable_empty (cfg : Config) : Startable cfg 0 SortedMap.empty where
  start_lt := by decide
  index_le := by simp
  objects_le := by simp
  internal := by simp
  agrees := fun k _ => ⟨by simp [Shaped], by simp [index], by simp [objects]⟩

section Sample

/-- A user key under the prefix, and the range that a compaction scans. -/
def sampleKey : Bytes := [47, 114, 47, 97]

def sampleRange : Partition :=
  ⟨encodeObjectKey [47, 114, 47] 0, encodeObjectKey [47, 114, 48] 0⟩

/-- The key is created and deleted, both events are committed, and a compaction at the
deletion gets partitions of its range. -/
def compactDeleted (ps : List Partition) :
    List (Label (leader sampleConfig (engine .atTimestamp))) :=
  [.restart 3, .thread 3 (.request (.create ⟨sampleKey, [98], 0⟩)), .thread 4 .none,
    .thread 4 (.kv .ok), .thread 4 .none, .thread 4 .none,
    .restart 3, .thread 3 (.request (.delete ⟨sampleKey, 0⟩)), .thread 5 (.kv .ok),
    .thread 5 .none, .thread 5 (.kv .ok), .thread 5 .none, .thread 5 .none] ++
  List.flatten (List.replicate 2 [.restart 0, .thread 0 .none, .thread 0 .none, .thread 0 .none,
    .thread 0 .none, .thread 0 .none, .thread 0 .none]) ++
  [.restart 3, .thread 3 (.request (.compact 2)), .thread 6 .none, .thread 6 .none,
    .thread 6 (.kv .ok), .thread 6 (.kv .ok), .thread 6 .none, .thread 6 .none,
    .thread 6 (.kv .ok), .thread 6 (.kv .ok), .thread 6 (.kv (.partitions ps)), .thread 6 .none]

/-- The worker of the whole range removes the index. -/
def removeIndex : List (Label (leader sampleConfig (engine .atTimestamp))) :=
  compactDeleted [sampleRange] ++ [.thread 7 (.flag false), .thread 7 (.kv .ok),
    .thread 7 (.flag false), .thread 7 (.kv .ok)]

/-- The checks of the conditions on a schedule. -/
def properCheck (s : LeaderState (engine .atTimestamp))
    (mv : Move (leader sampleConfig (engine .atTimestamp))) : Bool :=
  settleCheck s mv && match mv with
    | .op .accept (.request r) => decide (Proper r)
    | _ => true

theorem properSettled_of_check (s : LeaderState (engine .atTimestamp))
    (mv : Move (leader sampleConfig (engine .atTimestamp))) (h : properCheck s mv = true) :
    ProperSettled sampleConfig .atTimestamp s mv := by
  obtain ⟨hsettle, hproper⟩ := Bool.and_eq_true_iff.mp h
  refine ⟨settles_of_check s mv hsettle, fun r hmv => ?_⟩
  subst hmv
  exact of_decide_eq_true hproper

def partitionedCheck (s : LeaderState (engine .atTimestamp))
    (mv : Move (leader sampleConfig (engine .atTimestamp))) : Bool :=
  properCheck s mv && match mv with
    | .op (.kv (.getPartitions ..)) (.kv (.partitions ps)) => decide (ps = [sampleRange])
    | _ => true

theorem cutBetweenKeys_sampleRange : Sweep.CutBetweenKeys sampleRange :=
  ⟨Sweep.whole_of_aligned ⟨[47, 114, 47], by decide +kernel, rfl⟩, by decide +kernel⟩

theorem properPartitioned_of_check (s : LeaderState (engine .atTimestamp))
    (mv : Move (leader sampleConfig (engine .atTimestamp))) (h : partitionedCheck s mv = true) :
    ProperPartitioned sampleConfig .atTimestamp s mv := by
  obtain ⟨hproper, hcut⟩ := Bool.and_eq_true_iff.mp h
  refine ⟨properSettled_of_check s mv hproper, ?_⟩
  unfold Sweep.Partitioned
  split
  · obtain rfl := of_decide_eq_true hcut
    intro qs hqs q hq
    obtain rfl : [sampleRange] = qs := Option.some.inj hqs
    rw [List.mem_singleton.mp hq]
    exact cutBetweenKeys_sampleRange
  · trivial

theorem index_agrees_with_versions_removed :
    ∃ c, Config.Reach (ProperPartitioned sampleConfig .atTimestamp) sampleInit c ∧
      index (Engine.State.now c.state.kv) sampleKey = none ∧
      (Engine.State.now c.state.kv).get (encodeObjectKey sampleKey 1) = some [98] ∧
      Agrees (Engine.State.now c.state.kv) sampleKey := by
  obtain ⟨c, hreach, hidx, hobj⟩ : ∃ c,
      Config.Reach (ProperPartitioned sampleConfig .atTimestamp) sampleInit c ∧
      index (Engine.State.now c.state.kv) sampleKey = none ∧
      (Engine.State.now c.state.kv).get (encodeObjectKey sampleKey 1) = some [98] :=
    Config.exists_of_run properPartitioned_of_check removeIndex (by decide +kernel)
  exact ⟨c, hreach, hidx, hobj,
    index_agrees_with_versions (startable_empty _) hreach ⟨by decide +kernel, .inl rfl⟩⟩

/-- A border between the two versions that is no internal key itself. -/
def sampleCut : Bytes := encodeObjectKey sampleKey 1 ++ [0]

/-- The second worker removes the tombstone before the first one has started. -/
def removeTombstone : List (Label (leader sampleConfig (engine .atTimestamp))) :=
  compactDeleted [⟨sampleRange.start, sampleCut⟩, ⟨sampleCut, sampleRange.stop⟩] ++
    [.thread 6 .none, .thread 8 (.flag false), .thread 8 (.kv .ok), .thread 8 (.flag false),
      .thread 8 (.kv .ok)]

set_option synthInstance.maxSize 512 in
/-- A border that does not decode stays where it is: the index then names a version that is
gone, and the version before the deletion is read again. -/
theorem undecodable_border_breaks_agreement :
    ∃ c, Config.Reach (ProperSettled sampleConfig .atTimestamp) sampleInit c ∧
      index (Engine.State.now c.state.kv) sampleKey = some (2, true) ∧
      (Engine.State.now c.state.kv).get (encodeObjectKey sampleKey 2) = none ∧
      Solo.pointRead (Engine.State.now c.state.kv) sampleKey 0 = some (.ok ([98], 1)) :=
  Config.exists_of_run properSettled_of_check removeTombstone (by decide +kernel)

end Sample
end KubeBrain

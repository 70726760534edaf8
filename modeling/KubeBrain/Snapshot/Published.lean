import KubeBrain.Lib.Replay
import KubeBrain.Writes.Announced
import KubeBrain.Writes.Values

/-! The published events and the storage tell the same story. A reader who starts from the first
contents and replays the valid events up to a revision has what a read at this revision finds. -/
namespace KubeBrain

open Interleaving Coder

/-- What an event tells of its key. -/
def Event.change (e : Event) : Replay.Change Bytes Bytes :=
  ⟨e.kv.key, e.revision, if e.type = .delete then none else some e.kv.value⟩

/-- What a read at a revision finds of each key, when it runs alone; zero names the latest. -/
def contents (st : Store) (R : ℕ) : Replay.Contents Bytes Bytes := fun k =>
  match Solo.pointRead st k R with
  | some (.ok (v, r)) => some (v, r)
  | _ => none

/-- The changes that the valid events tell, in the order of their revisions. -/
def published {K : KvStorage} (s : LeaderState K) : List (Replay.Change Bytes Bytes) :=
  ((s.journal.notified.filter WatchEvent.valid).map fun ev => ev.toEvent.change).insertionSort
    fun a b => a.rev ≤ b.rev

theorem contents_eq_some {st : Store} {R : ℕ} (hst : Spaced st) (hR : R < 2 ^ 64) {k v : Bytes}
    {r : ℕ} : contents st R k = some (v, r) ↔
      Mvcc.Live (· = tombStoneBytes) (objects st k) (readRevision R) r v := by
  obtain ⟨res, hread, hres⟩ := Solo.pointRead_answers (k := k) hst hR
  rw [← hres.1 v r, contents, hread]
  cases res with
  | ok a => simp
  | error e => simp

section Published

variable {K : KvStorage} {s : LeaderState K} {start : ℕ} {c : Replay.Change Bytes Bytes}

theorem mem_published : c ∈ published s ↔
    ∃ ev ∈ s.journal.notified, ev.valid = true ∧ ev.toEvent.change = c := by
  simp [published, and_assoc]

theorem published_sorted (h : Sequenced start s) :
    (published s).Pairwise fun a b => a.rev < b.rev := by
  obtain ⟨_, _, _, hl⟩ := h
  have hnodup : (s.journal.notified.map WatchEvent.revision).Nodup := hl.nodup
  have hne : (published s).Pairwise fun a b => a.rev ≠ b.rev := by
    apply (List.perm_insertionSort _ _).symm.pairwise ?_ fun hab => hab.symm
    rw [List.pairwise_map]
    exact (List.pairwise_map.mp hnodup).filter _
  have hle : (published s).Pairwise fun a b => a.rev ≤ b.rev := List.pairwise_insertionSort _ _
  exact hle.imp₂ (fun _ _ hle hne => lt_of_le_of_ne hle hne) hne

/-- Two sorted logs with the same changes are the same. -/
theorem changes_ext {l l' : List (Replay.Change Bytes Bytes)}
    (hl : l.Pairwise fun a b => a.rev < b.rev) (hl' : l'.Pairwise fun a b => a.rev < b.rev)
    (hmem : ∀ c, c ∈ l ↔ c ∈ l') : l = l' := by
  have hnodup {l : List (Replay.Change Bytes Bytes)} (h : l.Pairwise fun a b => a.rev < b.rev) :
      l.Nodup := h.imp fun hlt heq => absurd (congrArg Replay.Change.rev heq) hlt.ne
  have hperm : l.Perm l' := (List.perm_ext_iff_of_nodup (hnodup hl) (hnodup hl')).mpr hmem
  exact hperm.eq_of_pairwise (fun a b _ _ hab hba => absurd hab hba.not_gt) hl hl'

/-- Up to the committed revision nothing more is published. -/
theorem upTo_published {s' : LeaderState K} (h : Sequenced start s) (h' : Sequenced start s')
    (hstem : s.journal.notified <+: s'.journal.notified) {R : ℕ} (hR : R ≤ s.committedRevision) :
    Replay.upTo R (published s') = Replay.upTo R (published s) := by
  apply changes_ext ((published_sorted h').filter _) ((published_sorted h).filter _)
  intro e
  change e ∈ Replay.upTo R (published s') ↔ e ∈ Replay.upTo R (published s)
  rw [Replay.mem_upTo, Replay.mem_upTo, mem_published, mem_published]
  apply and_congr_left
  intro hle
  constructor
  · rintro ⟨ev, hev, hvalid, rfl⟩
    obtain ⟨_, _, _, hl⟩ := h
    obtain ⟨_, _, _, hl'⟩ := h'
    obtain ⟨old, hold, hrev⟩ := hl.filled ev.revision (hl'.above ev hev) (le_trans hle hR)
    obtain rfl := hl'.eq_of_revision hev (hstem.subset hold) hrev.symm
    exact ⟨ev, hold, hvalid, rfl⟩
  · rintro ⟨ev, hev, hrest⟩
    exact ⟨ev, hstem.subset hev, hrest⟩

end Published

section Storage

variable {cfg : Config} {p : Engine.Policy} {start : ℕ} {base : Store}
  {c : Interleaving.Config (leader cfg (engine p))} {k : Bytes} {R : ℕ}

theorem user_of_objects {S : Sweep.Setting p} {st : Store} (h : Sweep.WellKept S st)
    (hrecord : ¬ magicBytes <+: getCompactKey S.cfg.keyPrefix) {r : ℕ} {v : Bytes}
    (hv : objects st k r v) : UserKey k := by
  rcases h.internal _ v hv.2.2 (List.prefix_append _ _) with heq | ⟨k', r', hk', hr', heq⟩
  · exact absurd (heq ▸ List.prefix_append _ _) hrecord
  · exact (encodeObjectKey_injective hv.2.1 hr' heq).1 ▸ hk'

/-- Every version of the key up to `R` has a valid event, or a valid event has superseded it. -/
def Resolved {p : Engine.Policy} (s : LeaderState (engine p)) (k : Bytes) (R : ℕ) : Prop :=
  ∀ x ∈ Writes.written s.kv, x.key = k → x.rev ≤ R →
    ∃ ev ∈ s.journal.notified, ev.valid = true ∧ ev.key = k ∧ x.rev ≤ ev.revision ∧ ev.revision ≤ R

section

variable (h : Startable cfg start base)

include h

/-- The version that a valid event announces. -/
theorem Startable.announced_version (hr : Config.Reach (ProperPartitioned cfg p)
      (Leader.init cfg (engine p) start (Engine.init base)) c)
    {ev : WatchEvent} (hev : ev ∈ (LeaderState.journal c.state).notified)
    (hvalid : ev.valid = true) :
    ∃ x ∈ Writes.written c.state.kv, x.rev = ev.revision ∧ x.key = ev.key ∧
      x.val = ev.toEvent.change.val.getD tombStoneBytes := by
  obtain ⟨gs, hinv⟩ := h.writes_of_reach hr
  obtain ⟨x, hx, hrev, hkey, hval⟩ := hinv.debts.valid ev hev hvalid
  refine ⟨x, hx, hrev, hkey.symm, (hval trivial).trans ?_⟩
  by_cases hverb : ev.verb = .delete <;> simp [Event.change, WatchEvent.toEvent, hverb]

theorem Startable.tells (hr : Config.Reach (ProperPartitioned cfg p)
      (Leader.init cfg (engine p) start (Engine.init base)) c)
    (hk : Lasting cfg.supportTTL k) (hstart : start ≤ R)
    (hresolved : Resolved (p := p) c.state k R) :
    Replay.Tells tombStoneBytes (objects base k)
      ((Writes.setting cfg p h.mode).hist c.state.kv k) start R k
      (published (K := engine p) c.state) := by
  have hseq := sequenced_of_reach hr
  constructor
  · exact hstart
  · exact published_sorted hseq
  · intro e he
    obtain ⟨ev, hev, -, rfl⟩ := mem_published.mp he
    exact (Writes.ordered_of_sequenced hseq).above ev hev
  · intro r v hv
    by_contra hlt
    have hget := hv.2.2
    rw [h.objects_le k r (not_le.mp hlt) hv.2.1] at hget
    cases hget
  · intro e he
    obtain ⟨ev, hev, -, rfl⟩ := mem_published.mp he
    have hbears := h.bears_of_reach hr hev
    by_cases hverb : ev.verb = .delete
    · simp [Event.change, WatchEvent.toEvent, hverb]
    · simpa [Event.change, WatchEvent.toEvent, hverb] using hbears hverb
  · exact ((h.inv_of_reach hr).indexed k hk).functional
  · exact fun r v hv => .inl hv
  · intro e he hkey _
    obtain ⟨ev, hev, hvalid, rfl⟩ := mem_published.mp he
    obtain ⟨x, hx, hrev, hxkey, hval⟩ := h.announced_version hr hev hvalid
    exact .inr ⟨x, hx, hxkey.trans hkey, hrev, hval⟩
  · intro r v hv hle
    rcases hv with hv | ⟨x, hx, hkey, rfl, rfl⟩
    · exact .inl hv
    · obtain ⟨ev, hev, hvalid, hevkey, hlow, hhigh⟩ := hresolved x hx hkey hle
      exact .inr ⟨_, mem_published.mpr ⟨ev, hev, hvalid, rfl⟩, hevkey, hlow, hhigh⟩

/-- Where commits are certain, every version up to the committed revision has its event. -/
theorem Startable.resolved
    (hr : Config.Reach (Decided cfg p) (Leader.init cfg (engine p) start (Engine.init base)) c)
    (hle : R ≤ LeaderState.committedRevision c.state) : Resolved (p := p) c.state k R := by
  have hproper := hr.mono fun _ _ hg => hg.1
  intro x hx hkey hrev
  obtain ⟨ev, hev, heq, hvalid⟩ := h.event_of_written hr hx (hrev.trans hle)
  obtain ⟨y, hy, hyrev, hykey, -⟩ := h.announced_version hproper hev hvalid
  obtain ⟨gs, hinv⟩ := h.writes_of_reach hproper
  have hnodup := hinv.history.nodup
  rw [List.map_append, List.nodup_append] at hnodup
  obtain rfl : y = x := List.inj_on_of_nodup_map hnodup.1 hy hx (hyrev.trans heq)
  exact ⟨ev, hev, hvalid, hykey.symm.trans hkey, heq.ge, heq.le.trans hrev⟩

variable (hrecord : ¬ magicBytes <+: getCompactKey cfg.keyPrefix)

include hrecord

/-- What a read at `R` finds in the first contents. -/
theorem Startable.contents_base (r : ℕ) (v : Bytes) : contents base 0 k = some (v, r) ↔
      Mvcc.Live (· = tombStoneBytes) (objects base k) start r v := by
  have hst : Spaced base := (h.inv_init (p := .atTimestamp)).toWellKept.spaced hrecord
  rw [contents_eq_some hst (by decide)]
  have hle {r : ℕ} {v : Bytes} (hv : objects base k r v) : r ≤ start := by
    by_contra hlt
    have hget := hv.2.2
    rw [h.objects_le k r (not_le.mp hlt) hv.2.1] at hget
    cases hget
  have hmax {r : ℕ} {v : Bytes} (hv : objects base k r v) : r ≤ readRevision 0 :=
    Nat.le_of_lt_succ hv.2.1
  constructor
  · intro hlive
    exact ⟨⟨hlive.1.1, hle hlive.1.1, fun r' v' hv' _ => hlive.1.2.2 r' v' hv' (hmax hv')⟩, hlive.2⟩
  · intro hlive
    exact ⟨⟨hlive.1.1, hmax hlive.1.1, fun r' v' hv' _ => hlive.1.2.2 r' v' hv' (hle hv')⟩, hlive.2⟩

/-- Keys that are no user keys are neither stored nor announced. -/
theorem Startable.user_of_replay (hr : Config.Reach (ProperPartitioned cfg p)
      (Leader.init cfg (engine p) start (Engine.init base)) c)
    {x : Bytes × ℕ} (hx : Replay.replay (contents base 0)
      (Replay.upTo R (published (K := engine p) c.state)) k = some x) : UserKey k := by
  obtain ⟨gs, hinv⟩ := h.writes_of_reach hr
  by_cases hevent : ∃ e ∈ Replay.upTo R (published (K := engine p) c.state), e.key = k
  · obtain ⟨e, he, rfl⟩ := hevent
    obtain ⟨ev, hev, -, rfl⟩ := mem_published.mp (Replay.mem_upTo.mp he).1
    exact hinv.debts.keys trivial ev hev
  · rw [Replay.replay_of_absent fun e he heq => hevent ⟨e, he, heq⟩] at hx
    have hlive := (h.contents_base hrecord x.2 x.1).mp hx
    exact user_of_objects ((h.inv_init (p := p)).toWellKept) hrecord hlive.1.1

/-- In every run with certain commits: from the revision of the last compaction to the committed
one, the live version of a key is what the published events make of the first contents. -/
theorem Startable.live_iff_replay
    (hr : Config.Reach (Decided cfg p) (Leader.init cfg (engine p) start (Engine.init base)) c)
    (hk : UserKey k → Lasting cfg.supportTTL k) (hstart : start ≤ R)
    (hle : R ≤ LeaderState.committedRevision c.state)
    (hgc : Engine.State.gcRev c.state.kv ≤ R) {r : ℕ} {v : Bytes} :
    Mvcc.Live (· = tombStoneBytes) (objects (Engine.State.now c.state.kv) k) R r v ↔
      Replay.replay (contents base 0) (Replay.upTo R (published (K := engine p) c.state)) k =
        some (v, r) := by
  have hproper := hr.mono fun _ _ hg => hg.1
  have hinv := h.inv_of_reach hproper
  by_cases huser : UserKey k
  · have htells := h.tells hproper (hk huser) hstart (h.resolved hr hle)
    rw [← htells.live_iff_replay (h.contents_base hrecord)]
    exact (hinv.indexed k (hk huser)).toCompacted.live_iff hgc
  · constructor
    · intro hlive
      exact absurd (user_of_objects hinv.toWellKept hrecord hlive.1.1) huser
    · intro hreplay
      exact absurd (h.user_of_replay hrecord hproper hreplay) huser

end

/-- In every run with certain commits: from the revision of the last compaction to the committed
one, a read of a key finds what the published events make of the first contents. -/
theorem reads_replay_published (h : Startable cfg start base)
    (hrecord : ¬ magicBytes <+: getCompactKey cfg.keyPrefix)
    (hr : Config.Reach (Decided cfg p) (Leader.init cfg (engine p) start (Engine.init base)) c)
    (hk : Lasting cfg.supportTTL k) (hpos : 0 < R) (hstart : start ≤ R)
    (hle : R ≤ LeaderState.committedRevision c.state) (hgc : Engine.State.gcRev c.state.kv ≤ R) :
    contents (Engine.State.now c.state.kv) R k =
      Replay.replay (contents base 0) (Replay.upTo R (published (K := engine p) c.state)) k := by
  have hproper := hr.mono fun _ _ hg => hg.1
  have hst := (h.inv_of_reach hproper).toWellKept.spaced hrecord
  have hord := Writes.ordered_of_sequenced (sequenced_of_reach hproper)
  have hlt : R < 2 ^ 64 := by
    have hdeal := hord.deal_lt h.start_lt
    have hcommitted := hord.le_deal
    have hle : R ≤ (Writes.view (p := p) c.state).committed := hle
    omega
  have hread : readRevision R = R := if_neg (Nat.ne_of_gt hpos)
  apply Option.ext
  intro a
  obtain ⟨v, r⟩ := a
  rw [contents_eq_some hst hlt, hread]
  exact h.live_iff_replay hrecord hr (fun _ => hk) hstart hle hgc

def decidedCheck (s : LeaderState (engine .atTimestamp))
    (mv : Move (leader sampleConfig (engine .atTimestamp))) : Bool :=
  partitionedCheck s mv && match mv with
    | .op (.kv (.commit ..)) (.kv .ok) | .op (.kv (.commit ..)) (.kv (.fail _)) => true
    | .op (.kv (.commit ..)) _ => false
    | _ => true

theorem decided_of_check (s : LeaderState (engine .atTimestamp))
    (mv : Move (leader sampleConfig (engine .atTimestamp))) (h : decidedCheck s mv = true) :
    Decided sampleConfig .atTimestamp s mv := by
  obtain ⟨hproper, hcertain⟩ := Bool.and_eq_true_iff.mp h
  refine ⟨properPartitioned_of_check s mv hproper, ?_⟩
  rintro w ops ch rfl
  cases ch with
  | ok => exact .inl rfl
  | fail e => exact .inr ⟨e, rfl⟩
  | _ => cases hcertain

/-- The first version is compacted away, and a read at two finds the second one. -/
theorem reads_replay_published_compacted :
    ∃ c, Config.Reach (Decided sampleConfig .atTimestamp) sampleInit c ∧
      Engine.State.gcRev c.state.kv = 2 ∧
      contents (Engine.State.now c.state.kv) 2 sampleKey = some ([99], 2) ∧
      contents (Engine.State.now c.state.kv) 2 sampleKey =
        Replay.replay (contents SortedMap.empty 0)
          (Replay.upTo 2 (published (K := engine .atTimestamp) c.state)) sampleKey := by
  obtain ⟨c, hreach, hgc, hread, hcommitted⟩ : ∃ c,
      Config.Reach (Decided sampleConfig .atTimestamp) sampleInit c ∧
      Engine.State.gcRev c.state.kv = 2 ∧
      contents (Engine.State.now c.state.kv) 2 sampleKey = some ([99], 2) ∧
      c.state.committedRevision = 2 :=
    Config.exists_of_run decided_of_check (createThenUpdate ++ updateThenCompact)
      (by decide +kernel)
  exact ⟨c, hreach, hgc, hread, reads_replay_published (startable_empty _) (by decide +kernel)
    hreach ⟨by decide +kernel, .inl rfl⟩ (by decide) (by decide) hcommitted.ge hgc.le⟩

end Storage
end KubeBrain

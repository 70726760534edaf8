import KubeBrain.Server.Flow

/-! Progress notifications on a watch stream. -/
namespace KubeBrain

open Interleaving Watch

namespace WatchStream

variable {cfg : Config} {K : KvStorage} {s s' : WatchStream cfg K} {start : ℕ} {kv : K.State}

/-- Every watch of the stream is served, and nothing is on its way to one of them. -/
def AllDrained (s : WatchStream cfg K) : Prop :=
  ∀ w ∈ s.watches, w.shim = none ∧ w.sender = none ∧
    ∃ n out, w.call = some n ∧ channelOf s.node n = some out ∧ Drained out s.node

/-- The hub drops no subscriber, watches name the revision they start from, and the revision of
a progress response is read while the stream is quiet. -/
def ProgressWhenDrained (cfg : Config) (K : KvStorage) : Condition cfg K := fun s a => match a with
  | .node l => ∀ m, s.node.move l = some m → NoDropNoHangup cfg K s.node.state m
  | .create _ startRevision => 0 < startRevision
  | .readProgress => s.AllDrained
  | _ => True

/-- An event that was put into the event ring buffer. -/
def Published (s : WatchStream cfg K) (ev : WatchEvent) : Prop :=
  ev ∈ (LeaderState.journal s.node.state.1).notified ∧ ev.valid = true

/-- The events up to a revision were sent to the watches that they match. -/
def Told (s : WatchStream cfg K) (revision : ℕ) : Prop :=
  ∀ ev, s.Published ev → ev.revision ≤ revision → ∀ (i : ℕ) (w : StreamWatch),
    s.watches[i]? = some w → w.startRevision ≤ ev.revision → w.key.isPrefixOf ev.key = true →
    toEtcdEvent ev.toEvent ∈ s.sentEvents i

structure Inv (start : ℕ) (kv : K.State) (s : WatchStream cfg K) : Prop
    extends Linked (NoDropNoHangup cfg K) start kv s where
  positive : ∀ w ∈ s.watches, 0 < w.startRevision
  progress : ∀ revision, s.progress = some revision →
    revision ≤ LeaderState.committedRevision s.node.state.1 ∧ s.Told revision

section Node

variable {node node' : Interleaving.Config (watchedLeader cfg K)}

/-- The revision and the published events only move forward, and no revision up to the committed
one is published later. -/
theorem published_of_step {l : Label (watchedLeader cfg K)}
    (hr : Config.Reach (NoDropNoHangup cfg K) (Watch.init cfg K start kv) node)
    (hr' : Config.Reach (NoDropNoHangup cfg K) (Watch.init cfg K start kv) node')
    (hstep : node.step l = some node') :
    LeaderState.committedRevision node.state.1 ≤ LeaderState.committedRevision node'.state.1 ∧
      ∀ ev ∈ (LeaderState.journal node'.state.1).notified,
        ev.revision ≤ LeaderState.committedRevision node.state.1 →
        ev ∈ (LeaderState.journal node.state.1).notified := by
  obtain ⟨hnotified, hcommits⟩ := journal_of_reach (G := fun _ _ => True)
    (.single ⟨_, Config.forget_step hstep, fun _ _ => trivial⟩)
  have hseq := sequenced_of_reach (leader_of_reach hr)
  have hseq' := sequenced_of_reach (leader_of_reach hr')
  constructor
  · exact hseq.committed_le hseq' hcommits
  · intro ev hev hle
    obtain ⟨_, _, _, hold⟩ := hseq
    obtain ⟨_, _, _, hnew⟩ := hseq'
    obtain ⟨ev₀, hev₀, hrev⟩ := hold.filled ev.revision (hnew.above ev hev) hle
    have heq := hnew.eq_of_revision (hnotified.subset hev₀) hev hrev
    exact heq ▸ hev₀

end Node

/-- What was told stays told. -/
theorem Told.step (he : Extends s s') (hi : Linked (NoDropNoHangup cfg K) start kv s)
    (hi' : Linked (NoDropNoHangup cfg K) start kv s') {revision : ℕ}
    (hle : revision ≤ LeaderState.committedRevision s.node.state.1) (htold : s.Told revision) :
    revision ≤ LeaderState.committedRevision s'.node.state.1 ∧ s'.Told revision := by
  obtain ⟨hcommitted, hpublished⟩ : LeaderState.committedRevision s.node.state.1 ≤
        LeaderState.committedRevision s'.node.state.1 ∧
      ∀ ev ∈ (LeaderState.journal s'.node.state.1).notified,
        ev.revision ≤ LeaderState.committedRevision s.node.state.1 →
        ev ∈ (LeaderState.journal s.node.state.1).notified := by
    rcases he.node with hsame | ⟨l, hstep⟩
    · rw [hsame]
      exact ⟨le_refl _, fun _ hev _ => hev⟩
    · exact published_of_step hi.node hi'.node hstep
  refine ⟨hle.trans hcommitted, fun ev hev hevrev i w' hw' hstart hkey => he.sent i ?_⟩
  obtain ⟨w, hw, hkey', hrev'⟩ := he.watches i w' hw'
  exact htold ev ⟨hpublished ev hev.1 (hevrev.trans hle), hev.2⟩ hevrev i w hw (hrev' ▸ hstart)
    (hkey' ▸ hkey)

/-- A revision that is read while the stream is quiet is one up to which all was sent. -/
theorem told_of_allDrained (hi : Inv start kv s) (hquiet : s.AllDrained) :
    s.Told (LeaderState.committedRevision s.node.state.1) := by
  intro ev hev hrev i w hw hstart hkey
  have hmem := List.mem_of_getElem? hw
  obtain ⟨hshim, hsender, n, out, hn, hout, hdrained⟩ := hquiet w hmem
  obtain ⟨c₀, h₀, ht, hreach⟩ := hi.calls i w n hw hn
  obtain ⟨r, hr, -, hall⟩ := Watch.delivered_of_returned h₀ (hi.positive w hmem) ht hreach
    (Config.returned_of_outcome (channelOf_eq_some hout))
  obtain ⟨owed, hledger⟩ := ledger_of_returned (leader_of_reach hi.node) hdrained.consumer
  have hadded : ev.toEvent ∈ (LeaderState.journal s.node.state.1).added :=
    (hledger.mem_added _).mpr ⟨ev, hev.1, hev.2, hrev, rfl⟩
  have hmatch : ev.toEvent ∈ matching w.key w.startRevision
      (LeaderState.journal s.node.state.1).added := by
    apply List.mem_filter.mpr
    refine ⟨hadded, ?_⟩
    rw [Bool.and_eq_true, decide_eq_true_eq]
    exact ⟨hstart, hkey⟩
  have hpipe := (hi.flow i w hw).served n out r hn hout hr
  rw [hall hdrained, pipeline, hshim, hsender] at hpipe
  simp only [Option.getD_none, List.append_nil] at hpipe
  rw [← hpipe]
  exact List.mem_map_of_mem hmatch

theorem ProgressWhenDrained.under {a : StreamAction cfg K} (ha : ProgressWhenDrained cfg K s a) :
    Under (NoDropNoHangup cfg K) s a := by
  cases a with
  | node l => exact ha
  | _ => trivial

theorem inv_step {a : StreamAction cfg K} (hi : Inv start kv s) (hs : s.step a = some s')
    (ha : ProgressWhenDrained cfg K s a) : Inv start kv s' := by
  have hi' : Linked (NoDropNoHangup cfg K) start kv s' :=
    hi.toLinked.step admits_noDropNoHangup hs ha.under
  have hrest (hcreate : ∀ key startRevision, a ≠ .create key startRevision)
      (hread : a ≠ .readProgress) : Inv start kv s' := by
    have he := extends_of_step hs hcreate hread
    refine ⟨hi', fun w' hw' => ?_, fun revision hrev => ?_⟩
    · obtain ⟨i, hw'⟩ := List.mem_iff_getElem?.mp hw'
      obtain ⟨w, hw, -, hrev⟩ := he.watches i w' hw'
      rw [hrev]
      exact hi.positive w (List.mem_of_getElem? hw)
    · obtain ⟨hle, htold⟩ := hi.progress revision (he.progress revision hrev)
      exact htold.step he hi.toLinked hi' hle
  cases a with
  | create key startRevision =>
    simp only [step] at hs
    split at hs
    · cases hs
    · next hnone =>
      obtain rfl := Option.some.inj hs
      refine ⟨hi', List.forall_mem_snoc.mpr ⟨hi.positive, ha⟩, fun revision hrev => ?_⟩
      have hrev : s.progress = some revision := hrev
      rw [hrev] at hnone
      exact absurd rfl hnone
  | readProgress =>
    simp only [step] at hs
    split at hs
    · cases hs
    · obtain rfl := Option.some.inj hs
      refine ⟨hi', hi.positive, fun revision hrev => ?_⟩
      obtain rfl := Option.some.inj hrev
      have htold := told_of_allDrained hi ha
      exact ⟨le_refl _, htold⟩
  | _ => exact hrest (by simp) (by simp)

theorem inv_of_reach (hr : Reach (ProgressWhenDrained cfg K) (init cfg K start kv) s) :
    Inv start kv s := by
  induction hr with
  | refl =>
    exact ⟨.reach admits_noDropNoHangup .refl, nofun, nofun⟩
  | tail _ hs ih =>
    obtain ⟨a, hstep, ha⟩ := hs
    exact inv_step ih hstep ha

/-- Runs in which the revision of a progress response is read while nothing is on its way to the
watches of the stream: when the response is sent, every published event up to its revision was
sent to the watches that it matches. -/
theorem progress_is_truthful (hr : Reach (ProgressWhenDrained cfg K) (init cfg K start kv) s)
    (hs : s.step .sendProgress = some s') :
    ∃ revision, s'.sent = s.sent ++ [.progressOf revision] ∧ s.Told revision := by
  obtain ⟨revision, hrev, rfl⟩ := Option.map_eq_some_iff.mp hs
  exact ⟨revision, rfl, ((inv_of_reach hr).progress revision hrev).2⟩

section Runs

abbrev Sample := WatchStream sampleConfig (engine .atTimestamp)

abbrev sampleStream : Sample :=
  init sampleConfig (engine .atTimestamp) 0 (Engine.init SortedMap.empty)

abbrev SampleAction := StreamAction sampleConfig (engine .atTimestamp)

/-- A watch of the prefix `/` is created, and served from the live events. -/
def openWatch : List SampleAction :=
  [.create [47] 1, .node (.restart 3), .start 0] ++ List.replicate 7 (.node (.thread 4 .none))

/-- A key is created and its event is published and sent to the hub. -/
def publishOne : List SampleAction :=
  [.node (.restart 3), .node (.thread 3 (.request (.create ⟨[47, 97], [98], 0⟩))),
    .node (.thread 7 .none), .node (.thread 7 (.kv .ok)), .node (.thread 7 .none),
    .node (.thread 7 .none), .node (.restart 0)] ++
  List.replicate 6 (.node (.thread 0 .none)) ++
  [.node (.restart 0)] ++ List.replicate 3 (.node (.thread 0 .none))

/-- The hub streams the batch, and the stream sends it. -/
def deliverOne : List SampleAction :=
  [.node (.restart 2), .node (.thread 2 .none), .node (.thread 2 (.order [0])),
    .node (.thread 2 .none), .node (.thread 2 .none), .node (.restart 6), .node (.thread 6 .none),
    .node (.thread 6 .none), .receive 0, .hand 0, .send 0]

def settledCheck (s : Sample) : SampleAction → Bool
  | .node l => (s.node.move l).all (noDropCheck s.node.state)
  | .create _ startRevision => 0 < startRevision
  | .readProgress => false
  | _ => true

theorem noDrop_of_move {s : Sample} {l : Label (watchedLeader sampleConfig (engine .atTimestamp))}
    (h : (s.node.move l).all (noDropCheck s.node.state) = true) :
    ∀ m, s.node.move l = some m →
      NoDropNoHangup sampleConfig (engine .atTimestamp) s.node.state m := by
  intro m hm
  rw [hm] at h
  exact noDrop_of_check _ _ h

theorem settled_of_check (s : Sample) (a : SampleAction) (h : settledCheck s a = true) :
    ProgressWhenDrained sampleConfig (engine .atTimestamp) s a := by
  cases a with
  | node l => exact noDrop_of_move h
  | create key startRevision =>
    show 0 < startRevision
    exact of_decide_eq_true h
  | readProgress => cases h
  | _ => trivial

/-- Nothing is on its way to the watches of the stream. -/
def restCheck (s : Sample) : Bool :=
  drainedCheck s.node && s.watches.all fun w => w.shim.isNone && w.sender.isNone &&
    (w.call.bind (channelOf s.node)).isSome

theorem allDrained_of_check {s : Sample} (h : restCheck s = true) : s.AllDrained := by
  obtain ⟨hdrained, hwatches⟩ := Bool.and_eq_true_iff.mp h
  intro w hw
  have hall := List.all_eq_true.mp hwatches w hw
  simp only [Bool.and_eq_true, Option.isNone_iff_eq_none] at hall
  obtain ⟨⟨hshim, hsender⟩, hcall⟩ := hall
  obtain ⟨out, hout⟩ := Option.isSome_iff_exists.mp hcall
  obtain ⟨n, hn, hchannel⟩ := Option.bind_eq_some_iff.mp hout
  exact ⟨hshim, hsender, n, out, hn, hchannel, drained_of_check hdrained out⟩

/-- The progress response that is due is sent. -/
theorem step_sendProgress {s : Sample} {revision : ℕ} (h : s.progress = some revision) :
    s.step .sendProgress =
      some { s with progress := none, sent := s.sent ++ [.progressOf revision] } := by
  simp only [step, h, Option.map_some]

def published : WatchEvent := ⟨1, 0, .create, true, [47, 97], [98], none⟩

theorem progress_is_truthful_one : ∃ s s' : Sample,
    Reach (ProgressWhenDrained sampleConfig (engine .atTimestamp)) sampleStream s ∧
      s.step .sendProgress = some s' ∧ s'.sent = s.sent ++ [.progressOf 1] ∧ s.Published published ∧
      toEtcdEvent published.toEvent ∈ s.sentEvents 0 := by
  obtain ⟨s, hreach, hwatch, hrest, hnotified, hprogress, hcommitted⟩ : ∃ s : Sample,
      Reach (ProgressWhenDrained sampleConfig (engine .atTimestamp)) sampleStream s ∧
      s.watches.map (fun w => (w.key, w.startRevision)) = [([47], 1)] ∧ restCheck s = true ∧
      (LeaderState.journal s.node.state.1).notified = [published] ∧ s.progress = none ∧
      LeaderState.committedRevision s.node.state.1 = 1 :=
    exists_of_run settled_of_check (openWatch ++ publishOne ++ deliverOne) (by rfl)
  have hread : s.step .readProgress = some { s with progress := some 1 } := by
    simp only [step, hprogress, hcommitted]
    rfl
  have hreach' := hreach.tail ⟨.readProgress, hread, allDrained_of_check hrest⟩
  have hsend : ({ s with progress := some 1 } : Sample).step .sendProgress = _ :=
    step_sendProgress rfl
  obtain ⟨revision, hrev, htold⟩ := progress_is_truthful hreach' hsend
  have hone : revision = 1 := by
    have := List.append_cancel_left hrev
    simp only [WatchResponse.progressOf, List.cons.injEq, WatchResponse.mk.injEq] at this
    exact this.1.1.symm
  have hpub : Published ({ s with progress := some 1 } : Sample) published := by
    refine ⟨?_, rfl⟩
    show published ∈ (LeaderState.journal s.node.state.1).notified
    rw [hnotified]
    exact List.mem_singleton_self _
  rw [List.map_eq_singleton_iff] at hwatch
  obtain ⟨w, hw, hwval⟩ := hwatch
  obtain ⟨hkey, hstart⟩ := Prod.mk.inj hwval
  refine ⟨_, _, hreach', hsend, rfl, hpub, htold published hpub (by rw [hone]; decide) 0 w ?_ ?_ ?_⟩
  · show s.watches[0]? = some w
    rw [hw]
    rfl
  · rw [hstart]
    decide
  · rw [hkey]
    rfl

/-- The committed revision is read before the event has passed the hub: a client is told that it
has seen revision 1, and its watch has not got the event with this revision, which was published
to the hub already. -/
theorem progress_overtakes_event : ∃ s s' : Sample, Reach (fun _ _ => True) sampleStream s ∧
    s.step .sendProgress = some s' ∧ s'.sent = s.sent ++ [.progressOf 1] ∧ s.Published published ∧
    published.revision = 1 ∧
    published.toEvent ∈ (LeaderState.journal s.node.state.1).sent.flatten ∧
    s.watches.map (fun w => (w.key, w.startRevision)) = [([47], 1)] ∧
    s.watches.map (fun w => w.call.bind (channelOf s.node)) = [some 0] ∧ s.sentEvents 0 = [] := by
  obtain ⟨s, hreach, hprogress, hnotified, hsent, hrest⟩ : ∃ s : Sample,
      Reach (fun _ _ => True) sampleStream s ∧ s.progress = some 1 ∧
      (LeaderState.journal s.node.state.1).notified = [published] ∧
      published.toEvent ∈ (LeaderState.journal s.node.state.1).sent.flatten ∧
      s.watches.map (fun w => (w.key, w.startRevision)) = [([47], 1)] ∧
      s.watches.map (fun w => w.call.bind (channelOf s.node)) = [some 0] ∧ s.sentEvents 0 = [] :=
    exists_of_run (fun _ _ _ => trivial) (openWatch ++ publishOne ++ [.readProgress])
      (show (sampleStream.run (fun _ _ => true) _).any _ = true by rfl)
  refine ⟨s, _, hreach, step_sendProgress hprogress, rfl, ⟨?_, rfl⟩, rfl, hsent, hrest⟩
  rw [hnotified]
  exact List.mem_singleton_self _

end Runs

end WatchStream
end KubeBrain

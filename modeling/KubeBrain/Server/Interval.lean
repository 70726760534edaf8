import KubeBrain.Server.Progress
import KubeBrain.Server.Watcher

/-! The range of a watch. A request names the interval from its key to its range end; the stream
hands the key to the backend, which takes it for a prefix. -/
namespace KubeBrain

open Interleaving Watch

/-- The keys of a request of etcd: the key itself without a range end, all keys from it on when
the range end is a zero byte, and the keys between the two otherwise. -/
def InRange (key rangeEnd k : Bytes) : Prop :=
  if rangeEnd = [] then k = key
  else if rangeEnd = [0] then key ≤ k
  else key ≤ k ∧ k < rangeEnd

instance (key rangeEnd k : Bytes) : Decidable (InRange key rangeEnd k) := by
  unfold InRange
  infer_instance

theorem prefixEnd_ne (p : Bytes) (hp : ∃ b ∈ p, b < 255) :
    prefixEnd p ≠ [] ∧ prefixEnd p ≠ [0] := by
  obtain ⟨q, b, t, rfl, hb, ht⟩ := Bytes.exists_last_lt hp
  rw [prefixEnd_append q hb ht]
  have hsucc : (b + 1).val = b.val + 1 := Fin.val_add_one_of_lt (n := 255) hb
  refine ⟨by simp, fun h => ?_⟩
  have hlast := congrArg List.getLast? h
  rw [List.getLast?_concat] at hlast
  have hzero := congrArg Fin.val (Option.some.inj (hlast.trans (List.getLast?_singleton (a := 0))))
  rw [hsucc] at hzero
  exact absurd hzero (Nat.succ_ne_zero _)

/-- The range of a prefix is the prefix. -/
theorem inRange_prefixEnd_iff {p k : Bytes} (hp : ∃ b ∈ p, b < 255) :
    InRange p (prefixEnd p) k ↔ p <+: k := by
  obtain ⟨hnil, hzero⟩ := prefixEnd_ne p hp
  rw [InRange, if_neg hnil, if_neg hzero, between_prefixEnd_iff hp]

namespace WatchStream

variable {cfg : Config} {K : KvStorage} {s s' : WatchStream cfg K} {start : ℕ} {kv : K.State}

/-- What a request makes a stream of the leader do; its range end is not used. -/
def ofRequest (r : Watcher.CreateRequest) : StreamAction cfg K :=
  .create r.key r.startRevision.toNat

/-- The events that a request asks for. -/
def requested (r : Watcher.CreateRequest) (evs : List Event) : List Event :=
  evs.filter fun e => decide (r.startRevision ≤ (e.revision : ℤ)) &&
    decide (InRange r.key r.rangeEnd e.kv.key)

/-- A watch is served, and nothing is on its way to it. -/
def Rests (s : WatchStream cfg K) (i : ℕ) : Prop :=
  ∃ w n out, s.watches[i]? = some w ∧ w.shim = none ∧ w.sender = none ∧ w.call = some n ∧
    channelOf s.node n = some out ∧ Drained out s.node

@[simp] theorem key_toEtcdEvent (e : Event) : (toEtcdEvent e).kv.key = e.kv.key := by
  unfold toEtcdEvent
  split <;> rfl

theorem reach_under (hr : Reach (fun _ _ => True) s s') : Reach (Under fun _ _ => True) s s' := by
  refine Relation.ReflTransGen.mono ?_ _ _ hr
  rintro s₀ s₁ ⟨a, ha, -⟩
  exact ⟨a, ha, by cases a <;> simp [Under]⟩

/-- What a watch was sent comes from the channel it was given, or nothing was sent. -/
theorem Linked.sent_cases {G : Guard (watchedLeader cfg K)} (hi : Linked G start kv s) {i : ℕ}
    {w : StreamWatch} (hw : s.watches[i]? = some w) :
    (∃ n out, w.call = some n ∧ channelOf s.node n = some out) ∨ s.pipeline i w = [] := by
  by_cases h : ∃ n out, w.call = some n ∧ channelOf s.node n = some out
  · exact .inl h
  · refine .inr ((hi.flow i w hw).waiting fun n hn => ?_)
    cases hout : channelOf s.node n with
    | none => rfl
    | some out => exact absurd ⟨n, out, hn, hout⟩ h

/-- Every event that a watch was sent has the prefix that the watch asks for. -/
theorem Linked.prefix_of_sent {G : Guard (watchedLeader cfg K)} (hi : Linked G start kv s) {i : ℕ}
    {w : StreamWatch} (hw : s.watches[i]? = some w) {e : EtcdEvent} (he : e ∈ s.sentEvents i) :
    w.key <+: e.kv.key := by
  have hpipe : e ∈ s.pipeline i w := List.mem_append_left _ (List.mem_append_left _ he)
  rcases hi.sent_cases hw with ⟨n, out, hn, hout⟩ | hnil
  · obtain ⟨x, hx, hmatch⟩ := (hi.calls i w n hw hn).matches hout
    rw [← (hi.flow i w hw).served n out x hn hout hx, List.mem_map] at hpipe
    obtain ⟨e', he', rfl⟩ := hpipe
    rw [key_toEtcdEvent, ← List.isPrefixOf_iff_prefix]
    refine hmatch e' ?_
    rw [List.flatten_append]
    exact List.mem_append_left _ he'
  · rw [hnil] at hpipe
    cases hpipe

/-- A watch is sent the events of its prefix in order, and all of them when it rests. -/
theorem Linked.sent_initial (hi : Linked (NoDropNoHangup cfg K) start kv s) {i : ℕ}
    {w : StreamWatch} (hw : s.watches[i]? = some w) (hpos : 0 < w.startRevision) :
    s.sentEvents i <+: (matching w.key w.startRevision
        (LeaderState.journal s.node.state.1).added).map toEtcdEvent ∧
      (s.Rests i → s.sentEvents i = (matching w.key w.startRevision
        (LeaderState.journal s.node.state.1).added).map toEtcdEvent) := by
  have hpart : s.sentEvents i <+: s.pipeline i w := by
    rw [pipeline, List.append_assoc]
    exact List.prefix_append _ _
  have hcall (n out : ℕ) (hn : w.call = some n) (hout : channelOf s.node n = some out) :
      s.pipeline i w <+: (matching w.key w.startRevision
        (LeaderState.journal s.node.state.1).added).map toEtcdEvent ∧
      (Drained out s.node → s.pipeline i w = (matching w.key w.startRevision
        (LeaderState.journal s.node.state.1).added).map toEtcdEvent) := by
    obtain ⟨c₀, h₀, ht, hreach⟩ := hi.calls i w n hw hn
    obtain ⟨x, hx, hinitial, hall⟩ := Watch.delivered_of_returned h₀ hpos ht hreach
      (Config.returned_of_outcome (channelOf_eq_some hout))
    rw [← (hi.flow i w hw).served n out x hn hout hx]
    exact ⟨hinitial.map _, fun hd => by rw [hall hd]⟩
  constructor
  · rcases hi.sent_cases hw with ⟨n, out, hn, hout⟩ | hnil
    · exact hpart.trans (hcall n out hn hout).1
    · rw [hnil] at hpart
      rw [List.prefix_nil.mp hpart]
      exact List.nil_prefix
  · rintro ⟨w', n, out, hw', hshim, hsender, hn, hout, hdrained⟩
    obtain rfl := Option.some.inj (hw.symm.trans hw')
    rw [← (hcall n out hn hout).2 hdrained, pipeline, hshim, hsender]
    simp

theorem matching_eq_requested {r : Watcher.CreateRequest} (hkey : ∃ b ∈ r.key, b < 255)
    (hstart : 0 ≤ r.startRevision) (hend : r.rangeEnd = prefixEnd r.key) (evs : List Event) :
    matching r.key r.startRevision.toNat evs = requested r evs := by
  apply List.filter_congr
  intro e _
  have hstarts : r.key.isPrefixOf e.kv.key = decide (InRange r.key r.rangeEnd e.kv.key) := by
    rw [Bool.eq_iff_iff, List.isPrefixOf_iff_prefix, decide_eq_true_iff, hend,
      inRange_prefixEnd_iff hkey]
  have hrev : r.startRevision.toNat ≤ e.revision ↔ r.startRevision ≤ (e.revision : ℤ) := by omega
  rw [hstarts, decide_eq_decide.mpr hrev]

/-- A request whose range is a prefix, on the leader. It is sent events of its range only, in
every run; when it names a revision and the hub drops no subscriber, it is sent the published
events of its range from that revision on, in order and up to those that are on their way. -/
theorem watch_forwards_range {r : Watcher.CreateRequest} (hkey : isPureWatchRequest r.key = true)
    (hstart : 0 ≤ r.startRevision) (hend : r.rangeEnd = prefixEnd r.key) :
    (∀ s₀ s₁ s : WatchStream cfg K, Reach (fun _ _ => True) (init cfg K start kv) s₀ →
      s₀.step (ofRequest r) = some s₁ → Reach (fun _ _ => True) s₁ s →
      ∀ e ∈ s.sentEvents s₀.watches.length, InRange r.key r.rangeEnd e.kv.key) ∧
    ∀ s₀ s₁ s : WatchStream cfg K, Reach (Under (NoDropNoHangup cfg K)) (init cfg K start kv) s₀ →
      s₀.step (ofRequest r) = some s₁ → Reach (Under (NoDropNoHangup cfg K)) s₁ s →
        0 < r.startRevision →
      s.sentEvents s₀.watches.length <+:
        (requested r (LeaderState.journal s.node.state.1).added).map toEtcdEvent ∧
      (s.Rests s₀.watches.length → s.sentEvents s₀.watches.length =
        (requested r (LeaderState.journal s.node.state.1).added).map toEtcdEvent) := by
  have hbyte : ∃ b ∈ r.key, b < 255 := by
    refine ⟨47, List.mem_of_head? (by simpa [isPureWatchRequest] using hkey), by decide⟩
  -- the watch keeps what the request has asked for
  have hasked {G : Condition cfg K} {s₀ s₁ s : WatchStream cfg K}
      (hcreate : s₀.step (ofRequest r) = some s₁) (hr : Reach G s₁ s) :
      ∃ w, s.watches[s₀.watches.length]? = some w ∧ w.key = r.key ∧
        w.startRevision = r.startRevision.toNat := by
    simp only [ofRequest, step] at hcreate
    split at hcreate
    · cases hcreate
    · obtain rfl := Option.some.inj hcreate
      exact asked_of_reach hr List.getElem?_concat_length
  constructor
  · intro s₀ s₁ s h₀ hcreate hr e he
    obtain ⟨w, hw, hwkey, -⟩ := hasked hcreate hr
    have hreach := (h₀.tail ⟨_, hcreate, trivial⟩).trans hr
    rw [hend, inRange_prefixEnd_iff hbyte, ← hwkey]
    exact (Linked.reach admits_true (reach_under hreach)).prefix_of_sent hw he
  · intro s₀ s₁ s h₀ hcreate hr hpos
    obtain ⟨w, hw, hwkey, hwrev⟩ := hasked hcreate hr
    have hlinked : Linked (NoDropNoHangup cfg K) start kv s :=
      .reach admits_noDropNoHangup ((h₀.tail ⟨_, hcreate, trivial⟩).trans hr)
    have hsent := hlinked.sent_initial hw (by omega)
    rwa [hwkey, hwrev, matching_eq_requested hbyte hstart hend] at hsent

section Runs

def underCheck (s : Sample) : SampleAction → Bool
  | .node l => (s.node.move l).all (noDropCheck s.node.state)
  | _ => true

theorem under_of_check (s : Sample) (a : SampleAction) (h : underCheck s a = true) :
    Under (NoDropNoHangup sampleConfig (engine .atTimestamp)) s a := by
  cases a with
  | node l => exact noDrop_of_move h
  | _ => trivial

/-- A watch of all keys below `/`. -/
def slashRequest : Watcher.CreateRequest := ⟨[47], [48], 1⟩

theorem rests_of_check {s : Sample} (h : restCheck s = true) (hlen : s.watches.length = 1) :
    s.Rests 0 := by
  obtain ⟨w, hw⟩ := List.length_eq_one_iff.mp hlen
  obtain ⟨hshim, hsender, n, out, hserved⟩ := allDrained_of_check h w (by rw [hw]; simp)
  exact ⟨w, n, out, by rw [hw]; rfl, hshim, hsender, hserved⟩

theorem watch_forwards_range_slash : ∃ s₁ s : Sample,
    sampleStream.step (ofRequest slashRequest) = some s₁ ∧
    Reach (Under (NoDropNoHangup sampleConfig (engine .atTimestamp))) s₁ s ∧
    (LeaderState.journal s.node.state.1).added = [published.toEvent] ∧
    s.sentEvents 0 =
      (requested slashRequest (LeaderState.journal s.node.state.1).added).map toEtcdEvent ∧
    ∀ e ∈ s.sentEvents 0, InRange [47] [48] e.kv.key := by
  have hrun : (sampleStream.step (ofRequest slashRequest)).any (fun s₁ =>
      (s₁.run underCheck (openWatch.tail ++ publishOne ++ deliverOne)).any fun s => decide
        (restCheck s = true ∧ s.watches.length = 1 ∧
          (LeaderState.journal s.node.state.1).added = [published.toEvent])) = true := by
    rfl
  obtain ⟨s₁, hcreate, hrun⟩ := (Option.any_eq_true _ _).mp hrun
  obtain ⟨s, hreach, hrest, hlen, hadded⟩ := exists_of_run under_of_check _ hrun
  obtain ⟨hrange, hall⟩ := @watch_forwards_range sampleConfig (engine .atTimestamp) 0
    (Engine.init SortedMap.empty) slashRequest rfl (by decide) (by decide)
  refine ⟨s₁, s, hcreate, hreach, hadded, ?_, ?_⟩
  · exact (hall sampleStream s₁ s .refl hcreate hreach (by decide)).2 (rests_of_check hrest hlen)
  · refine hrange sampleStream s₁ s .refl hcreate ?_
    exact Relation.ReflTransGen.mono (fun _ _ ⟨a, ha, _⟩ => ⟨a, ha, trivial⟩) _ _ hreach

/-- A key is created. -/
def putKey (n : ℕ) (key : Bytes) : List SampleAction :=
  [.node (.restart 3), .node (.thread 3 (.request (.create ⟨key, [98], 0⟩))),
    .node (.thread n .none), .node (.thread n (.kv .ok)), .node (.thread n .none),
    .node (.thread n .none), .node (.restart 0)] ++ List.replicate 6 (.node (.thread 0 .none))

/-- Two keys are created, and their events are sent to the hub and from there to a watch. -/
def putTwo : List SampleAction :=
  [.node (.restart 3), .start 0] ++ List.replicate 7 (.node (.thread 4 .none)) ++
  putKey 7 [47, 97, 98] ++ putKey 8 [47, 98] ++ [.node (.restart 0)] ++
  List.replicate 3 (.node (.thread 0 .none)) ++ deliverOne

/-- A watch of `/a`, of which it does not matter where its range ends. The event of `/ab` is sent,
also when the range is the one key `/a`; the event of `/b` is not, also when the range is the
interval from `/a` to `/c`. -/
theorem watch_ignores_rangeEnd : ∃ s₁ s : Sample,
    sampleStream.step (ofRequest ⟨[47, 97], [], 1⟩) = some s₁ ∧
    sampleStream.step (ofRequest ⟨[47, 97], [47, 99], 1⟩) = some s₁ ∧
    Reach (Under (NoDropNoHangup sampleConfig (engine .atTimestamp))) s₁ s ∧ s.Rests 0 ∧
    (∃ e ∈ s.sentEvents 0, ¬ InRange [47, 97] [] e.kv.key) ∧
    ∃ e ∈ (LeaderState.journal s.node.state.1).added, 1 ≤ e.revision ∧
      InRange [47, 97] [47, 99] e.kv.key ∧ toEtcdEvent e ∉ s.sentEvents 0 := by
  have hrun : (sampleStream.step (ofRequest ⟨[47, 97], [], 1⟩)).any (fun s₁ =>
      (s₁.run underCheck putTwo).any fun s => decide
        (restCheck s = true ∧ s.watches.length = 1 ∧
          (∃ e ∈ s.sentEvents 0, ¬ InRange [47, 97] [] e.kv.key) ∧
          ∃ e ∈ (LeaderState.journal s.node.state.1).added, 1 ≤ e.revision ∧
            InRange [47, 97] [47, 99] e.kv.key ∧ toEtcdEvent e ∉ s.sentEvents 0)) = true := by
    rfl
  obtain ⟨s₁, hcreate, hrun⟩ := (Option.any_eq_true _ _).mp hrun
  obtain ⟨s, hreach, hrest, hlen, hsent⟩ := exists_of_run under_of_check _ hrun
  exact ⟨s₁, s, hcreate, hcreate, hreach, rests_of_check hrest hlen, hsent⟩

end Runs

end WatchStream
end KubeBrain

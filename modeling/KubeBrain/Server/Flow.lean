import KubeBrain.Server.WatchStream
import KubeBrain.Watch.Channels

/-! What a watch stream sends comes from the channels of its watches: whatever the shim has
received on the channel of a watch is sent or on its way, in order. This holds of every run;
guards only say more about the leader. -/
namespace KubeBrain

open Interleaving

namespace WatchStream

variable {cfg : Config} {K : KvStorage} {s s' : WatchStream cfg K} {start : ℕ} {kv : K.State}
  {G : Guard (watchedLeader cfg K)}

variable {i : ℕ} {w : StreamWatch}

/-- A guard on the leader does not keep a stream from asking and receiving. -/
structure Admits (G : Guard (watchedLeader cfg K)) : Prop where
  accept : ∀ s ch, G s (.op .accept ch)
  receive : ∀ s out, G s (.env (.receive out))

theorem admits_true : Admits (fun _ _ => True : Guard (watchedLeader cfg K)) :=
  ⟨fun _ _ => trivial, fun _ _ => trivial⟩

theorem admits_noDropNoHangup : Admits (Watch.NoDropNoHangup cfg K) :=
  ⟨fun _ _ => trivial, fun _ _ => trivial⟩

/-- The leader keeps to a guard. -/
def Under (G : Guard (watchedLeader cfg K)) : Condition cfg K := fun s a => match a with
  | .node l => ∀ m, s.node.move l = some m → G s.node.state m
  | _ => True

/-- The events on their way from the channel of a watch to the client. -/
def pipeline (s : WatchStream cfg K) (i : ℕ) (w : StreamWatch) : List EtcdEvent :=
  s.sentEvents i ++ w.sender.getD [] ++ w.shim.getD []

/-- What the shim has received is sent or on its way. -/
structure Flow (s : WatchStream cfg K) (i : ℕ) (w : StreamWatch) : Prop where
  served : ∀ n out (r : ResultChan), w.call = some n → channelOf s.node n = some out →
    (LeaderState.results s.node.state.1)[out]? = some r →
    r.delivered.flatten.map toEtcdEvent = s.pipeline i w
  waiting : (∀ n, w.call = some n → channelOf s.node n = none) → s.pipeline i w = []

/-- The goroutine runs the request of the watch. -/
def Calls (G : Guard (watchedLeader cfg K)) (start : ℕ) (kv : K.State)
    (node : Interleaving.Config (watchedLeader cfg K)) (n : ℕ) (key : Bytes) (startRevision : ℕ) :
    Prop :=
  ∃ c₀ : Interleaving.Config (watchedLeader cfg K),
    Config.Reach G (Watch.init cfg K start kv) c₀ ∧
    c₀.threads[n]? = some (Leader.goroutine cfg (.request (.watch key startRevision))) ∧
    Config.Reach G c₀ node

structure Linked (G : Guard (watchedLeader cfg K)) (start : ℕ) (kv : K.State)
    (s : WatchStream cfg K) : Prop where
  node : Config.Reach G (Watch.init cfg K start kv) s.node
  calls : ∀ (i : ℕ) (w : StreamWatch) (n : ℕ), s.watches[i]? = some w → w.call = some n →
    Calls G start kv s.node n w.key w.startRevision
  single : ∀ (i j : ℕ) (w w' : StreamWatch) (n : ℕ), s.watches[i]? = some w →
    s.watches[j]? = some w' → w.call = some n → w'.call = some n → i = j
  received : ∀ (out : ℕ) (r : ResultChan), (LeaderState.results s.node.state.1)[out]? = some r →
    r.delivered ≠ [] → ∃ n, channelOf s.node n = some out
  flow : ∀ (i : ℕ) (w : StreamWatch), s.watches[i]? = some w → Flow s i w
  unsent : ∀ i, s.watches.length ≤ i → s.sentEvents i = []

section Node

variable {node node' : Interleaving.Config (watchedLeader cfg K)} {n out : ℕ}

theorem channelOf_eq_some (h : channelOf node n = some out) :
    node.outcomes[n]? = some (some (.watching (.ok out))) := by
  unfold channelOf at h
  split at h
  · next h' =>
    obtain rfl := Option.some.inj h
    exact h'
  · cases h

theorem channelOf_of_step {l : Label (watchedLeader cfg K)} (hstep : node.step l = some node')
    (h : channelOf node n = some out) : channelOf node' n = some out := by
  simp only [channelOf, Config.outcome_of_step hstep (channelOf_eq_some h)]

/-- Requests do not share a channel. -/
theorem eq_of_channelOf (hr : Config.Reach G (Watch.init cfg K start kv) node) {m : ℕ}
    (hn : channelOf node n = some out) (hm : channelOf node m = some out) : n = m := by
  have hreach : Config.Reach (fun _ _ => True) (Leader.init cfg K start kv) node.forget :=
    hr.forget fun _ _ _ => trivial
  have hn' : node.forget.Returned n (.watching (.ok out)) :=
    Config.returned_of_outcome (channelOf_eq_some hn)
  exact Channels.eq_of_returned hreach hn' (Config.returned_of_outcome (channelOf_eq_some hm))

/-- The channel of a watch carries events of its prefix. -/
theorem Calls.matches {key : Bytes} {startRevision : ℕ}
    (h : Calls G start kv node n key startRevision) (hout : channelOf node n = some out) :
    ∃ r : ResultChan, (LeaderState.results node.state.1)[out]? = some r ∧
      Channels.Matches key (r.delivered ++ r.buf).flatten := by
  obtain ⟨c₀, h₀, ht, hr⟩ := h
  have hreach : Config.Reach (fun _ _ => True) (Leader.init cfg K start kv) c₀.forget :=
    h₀.forget fun _ _ _ => trivial
  have hreach' : Config.Reach (fun _ _ => True) c₀.forget node.forget :=
    hr.forget fun _ _ _ => trivial
  exact Channels.matches_of_returned hreach ht hreach'
    (Config.returned_of_outcome (channelOf_eq_some hout))

/-- Goroutines and other clients leave alone what was received on a channel. -/
theorem delivered_of_step {l : Label (watchedLeader cfg K)} (hstep : node.step l = some node')
    (hl : l ≠ .env (.receive out)) :
    ((LeaderState.results node'.state.1)[out]?).map ResultChan.delivered =
        ((LeaderState.results node.state.1)[out]?).map ResultChan.delivered ∨
      (LeaderState.results node.state.1)[out]? = none ∧
        ((LeaderState.results node'.state.1)[out]?).map ResultChan.delivered = some [] := by
  rcases Config.step_cases hstep with ⟨i, ch, o, k, again, s, r, sp, rfl, ht, hex, rfl⟩ |
    ⟨i, a, f, rfl, ht, rfl⟩ | ⟨ch, s, rfl, he, rfl⟩
  · have hexec : Leader.exec cfg node.state.1 node.outcomes i o ch = some (s.1, r, sp) :=
      (exec_observed.mp hex).1
    exact Leader.exec_delivered hexec out
  · exact .inl rfl
  · have henv : Leader.env node.state.1 ch = some s.1 := (env_observed.mp he).1
    refine .inl ?_
    cases ch with
    | receive out' =>
      have hne : out' ≠ out := by
        rintro rfl
        exact hl rfl
      simp only [Leader.env] at henv
      split at henv
      · rw [← Option.some.inj henv]
        simp only [List.getElem?_set_ne hne]
      · cases henv
    | cancel ctx =>
      rw [← Option.some.inj henv]
    | _ =>
      have hv : LeaderState.watch s.1 = LeaderState.watch node.state.1 := by
        refine Leader.env_watch ?_ ?_ henv <;> simp
      have hres : LeaderState.results s.1 = LeaderState.results node.state.1 :=
        congrArg WatchView.results hv
      rw [hres]

/-- Only the requests themselves return channels. -/
theorem channelOf_of_receive {out' : ℕ} (hstep : node.step (.env (.receive out')) = some node') :
    channelOf node' n = channelOf node n := by
  rcases Config.step_cases hstep with ⟨i, ch, o, k, again, s, r, sp, hl, -⟩ | ⟨i, a, f, hl, -⟩ |
    ⟨ch, s, -, -, rfl⟩
  · cases hl
  · cases hl
  · rfl

end Node

/-- The watches of a stream after one of them has changed. -/
theorem getElem?_set_cases {ws : List StreamWatch} {j : ℕ} {w' w₁ : StreamWatch}
    (hi : i < ws.length) (h : (ws.set i w')[j]? = some w₁) :
    j = i ∧ w₁ = w' ∨ j ≠ i ∧ ws[j]? = some w₁ := by
  by_cases hj : j = i
  · subst hj
    rw [List.getElem?_set_self hi] at h
    exact .inl ⟨rfl, (Option.some.inj h).symm⟩
  · rw [List.getElem?_set_ne (Ne.symm hj)] at h
    exact .inr ⟨hj, h⟩

/-- What was sent after a batch. -/
theorem eventsFor_sent (sent : List WatchResponse) (i j : ℕ) (evs : List EtcdEvent) :
    eventsFor (if evs = [] then sent else sent ++ [.eventsOf (idOf i) evs]) j =
      eventsFor sent j ++ if i = j then evs else [] := by
  have hid : (WatchResponse.eventsOf (idOf i) evs).watchId = idOf j ↔ i = j := by
    show idOf i = idOf j ↔ i = j
    unfold idOf
    omega
  split
  · next hnil => simp [hnil]
  · rw [eventsFor_append, if_congr hid rfl rfl]
    rfl

/-- What most steps leave of the stream: the watches that there are, what they were sent, and the
progress request at hand. -/
structure Extends (s s' : WatchStream cfg K) : Prop where
  watches : ∀ (i : ℕ) (w' : StreamWatch), s'.watches[i]? = some w' → ∃ w, s.watches[i]? = some w ∧
    w'.key = w.key ∧ w'.startRevision = w.startRevision
  sent : ∀ i, s.sentEvents i ⊆ s'.sentEvents i
  length : s'.watches.length = s.watches.length
  node : s'.node = s.node ∨ ∃ l, s.node.step l = some s'.node
  progress : ∀ revision, s'.progress = some revision → s.progress = some revision

theorem Extends.of_set {w' : StreamWatch} (hw : s.watches[i]? = some w)
    (hwatches : s'.watches = s.watches.set i w') (hkey : w'.key = w.key)
    (hrev : w'.startRevision = w.startRevision) (hprogress : s'.progress = s.progress)
    (hsent : ∀ j, s.sentEvents j ⊆ s'.sentEvents j)
    (hnode : s'.node = s.node ∨ ∃ l, s.node.step l = some s'.node) : Extends s s' := by
  refine ⟨fun j w₁ hj => ?_, hsent, by simp [hwatches], hnode, fun revision h => hprogress ▸ h⟩
  rw [hwatches] at hj
  rcases getElem?_set_cases (List.getElem?_eq_some_iff.mp hw).1 hj with ⟨rfl, rfl⟩ | ⟨-, hold⟩
  · exact ⟨w, hw, hkey, hrev⟩
  · exact ⟨w₁, hold, rfl, rfl⟩

theorem Extends.cancel (hw : s.watches[i]? = some w) (compact : Bool) :
    Extends s (s.cancel i w compact) := by
  refine .of_set hw rfl rfl rfl rfl (fun j => ?_) (.inl rfl)
  have hsame : (s.cancel i w compact).sentEvents j = s.sentEvents j := eventsFor_append_nil _ rfl j
  rw [hsame]
  exact List.Subset.refl _

theorem extends_of_step {a : StreamAction cfg K} (hs : s.step a = some s')
    (ha : ∀ key startRevision, a ≠ .create key startRevision) (hread : a ≠ .readProgress) :
    Extends s s' := by
  cases a with
  | node l =>
    simp only [step] at hs
    split at hs
    · obtain ⟨node', hstep, rfl⟩ := Option.map_eq_some_iff.mp hs
      exact ⟨fun i w hw => ⟨w, hw, rfl, rfl⟩, fun _ => List.Subset.refl _, rfl, .inr ⟨l, hstep⟩,
        fun _ h => h⟩
    · cases hs
  | create key startRevision => exact absurd rfl (ha key startRevision)
  | start i =>
    obtain ⟨w, hw, hs⟩ := Option.bind_eq_some_iff.mp hs
    unfold startWatch at hs
    split at hs
    · cases hs
    · split at hs
      · split at hs
        · obtain ⟨node', hstep, rfl⟩ := Option.map_eq_some_iff.mp hs
          exact .of_set hw rfl rfl rfl rfl (fun _ => List.Subset.refl _) (.inr ⟨_, hstep⟩)
        · cases hs
      · obtain rfl := Option.some.inj hs
        exact .cancel hw true
  | reject i =>
    obtain ⟨w, hw, hs⟩ := Option.bind_eq_some_iff.mp hs
    unfold rejectWatch at hs
    split at hs
    · split at hs
      · cases hs
      · obtain rfl := Option.some.inj hs
        exact .cancel hw true
    · cases hs
  | receive i =>
    obtain ⟨w, hw, hs⟩ := Option.bind_eq_some_iff.mp hs
    unfold receiveBatch at hs
    split at hs
    · split at hs
      · obtain ⟨node', hstep, rfl⟩ := Option.map_eq_some_iff.mp hs
        exact .of_set hw rfl rfl rfl rfl (fun _ => List.Subset.refl _) (.inr ⟨_, hstep⟩)
      · cases hs
    · cases hs
  | hand i =>
    obtain ⟨w, hw, hs⟩ := Option.bind_eq_some_iff.mp hs
    unfold handBatch at hs
    split at hs
    · obtain rfl := Option.some.inj hs
      exact .of_set hw rfl rfl rfl rfl (fun _ => List.Subset.refl _) (.inl rfl)
    · cases hs
  | send i =>
    obtain ⟨w, hw, hs⟩ := Option.bind_eq_some_iff.mp hs
    unfold sendBatch at hs
    split at hs
    · cases hs
    · next evs _ =>
      obtain rfl := Option.some.inj hs
      refine .of_set hw rfl rfl rfl rfl (fun j => ?_) (.inl rfl)
      show eventsFor _ j ⊆ eventsFor _ j
      rw [eventsFor_sent]
      exact List.subset_append_left _ _
  | readProgress => exact absurd rfl hread
  | sendProgress =>
    obtain ⟨revision, -, rfl⟩ := Option.map_eq_some_iff.mp hs
    refine ⟨fun i w hw => ⟨w, hw, rfl, rfl⟩, fun i => ?_, rfl, .inl rfl, nofun⟩
    show eventsFor _ i ⊆ eventsFor _ i
    rw [eventsFor_append_nil _ rfl]
    exact List.Subset.refl _

/-- A watch asks for the same as long as there is a stream. -/
theorem asked_of_step {a : StreamAction cfg K} (hs : s.step a = some s')
    (hw : s.watches[i]? = some w) :
    ∃ w', s'.watches[i]? = some w' ∧ w'.key = w.key ∧ w'.startRevision = w.startRevision := by
  have hlt := (List.getElem?_eq_some_iff.mp hw).1
  have hrest (hcreate : ∀ key startRevision, a ≠ .create key startRevision)
      (hread : a ≠ .readProgress) :
      ∃ w', s'.watches[i]? = some w' ∧ w'.key = w.key ∧ w'.startRevision = w.startRevision := by
    have he := extends_of_step hs hcreate hread
    have hw' := List.getElem?_eq_getElem (he.length.symm ▸ hlt)
    obtain ⟨w₀, hw₀, hkey, hrev⟩ := he.watches i _ hw'
    obtain rfl := Option.some.inj (hw.symm.trans hw₀)
    exact ⟨_, hw', hkey, hrev⟩
  cases a with
  | create key startRevision =>
    simp only [step] at hs
    split at hs
    · cases hs
    · obtain rfl := Option.some.inj hs
      exact ⟨w, by rw [List.getElem?_append_left hlt, hw], rfl, rfl⟩
  | readProgress =>
    simp only [step] at hs
    split at hs
    · cases hs
    · obtain rfl := Option.some.inj hs
      exact ⟨w, hw, rfl, rfl⟩
  | _ => exact hrest nofun nofun

theorem asked_of_reach {G : Condition cfg K} (hr : Reach G s s') (hw : s.watches[i]? = some w) :
    ∃ w', s'.watches[i]? = some w' ∧ w'.key = w.key ∧ w'.startRevision = w.startRevision := by
  induction hr with
  | refl => exact ⟨w, hw, rfl, rfl⟩
  | tail _ hs ih =>
    obtain ⟨w₁, hw₁, hkey₁, hrev₁⟩ := ih
    obtain ⟨a, hstep, -⟩ := hs
    obtain ⟨w₂, hw₂, hkey₂, hrev₂⟩ := asked_of_step hstep hw₁
    exact ⟨w₂, hw₂, hkey₂.trans hkey₁, hrev₂.trans hrev₁⟩

/-- A watch of `s'` is one of `s` that asks for the same. -/
def Keeps (s s' : WatchStream cfg K) : Prop :=
  ∀ (i : ℕ) (w' : StreamWatch), s'.watches[i]? = some w' → ∃ w, s.watches[i]? = some w ∧
    w'.key = w.key ∧ w'.startRevision = w.startRevision ∧ w'.call = w.call

namespace Linked

variable {i : ℕ} {w : StreamWatch} {l : Label (watchedLeader cfg K)}
  {node' : Interleaving.Config (watchedLeader cfg K)}

section

variable (hi : Linked G start kv s)

include hi

theorem calls_lt {n : ℕ} (hw : s.watches[i]? = some w)
    (hn : w.call = some n) : n < s.node.threads.length := by
  obtain ⟨c₀, -, ht, hr⟩ := hi.calls i w n hw hn
  exact (List.getElem?_eq_some_iff.mp ht).1.trans_le hr.length_le

/-- What was received after a step that is no reception came from the channel of a request. -/
theorem received_of_step {out : ℕ} {r : ResultChan} (hstep : s.node.step l = some node')
    (hl : l ≠ .env (.receive out)) (hr : (LeaderState.results node'.state.1)[out]? = some r)
    (hdel : r.delivered ≠ []) : ∃ n, channelOf s.node n = some out := by
  rcases delivered_of_step hstep hl with hsame | ⟨-, hnil⟩
  · rw [hr, Option.map_some, eq_comm, Option.map_eq_some_iff] at hsame
    obtain ⟨r₀, hr₀, hdel₀⟩ := hsame
    exact hi.received out r₀ hr₀ (hdel₀ ▸ hdel)
  · rw [hr, Option.map_some] at hnil
    exact absurd (Option.some.inj hnil) hdel

/-- A watch does not notice what the leader does, as long as nobody else receives from its
channel. -/
theorem flow_step (hstep : s.node.step l = some node')
    (hguard : ∀ m, s.node.move l = some m → G s.node.state m) (hw : s.watches[i]? = some w)
    (hl : ∀ n out, w.call = some n → channelOf s.node n = some out → l ≠ .env (.receive out)) :
    (∀ n out (r : ResultChan), w.call = some n → channelOf node' n = some out →
      (LeaderState.results node'.state.1)[out]? = some r →
      r.delivered.flatten.map toEtcdEvent = s.pipeline i w) ∧
    ((∀ n, w.call = some n → channelOf node' n = none) → s.pipeline i w = []) := by
  have hflow := hi.flow i w hw
  constructor
  · intro n out r hn hout hr
    cases hbefore : channelOf s.node n with
    | some out₀ =>
      obtain rfl : out₀ = out :=
        Option.some.inj ((channelOf_of_step hstep hbefore).symm.trans hout)
      obtain ⟨r₀, hr₀, -⟩ := (hi.calls i w n hw hn).matches hbefore
      rcases delivered_of_step hstep (hl n out₀ hn hbefore) with hsame | ⟨hnone, -⟩
      · rw [hr, hr₀, Option.map_some, Option.map_some, Option.some.injEq] at hsame
        rw [hsame]
        exact hflow.served n out₀ r₀ hn hbefore hr₀
      · rw [hr₀] at hnone
        cases hnone
    | none =>
      -- the request has just returned, and nothing was received on its channel
      have hwaiting : s.pipeline i w = [] := by
        apply hflow.waiting
        intro m hm
        rwa [← Option.some.inj (hn.symm.trans hm)]
      have hne : l ≠ .env (.receive out) := by
        rintro rfl
        rw [channelOf_of_receive hstep, hbefore] at hout
        cases hout
      have hempty : r.delivered = [] := by
        by_contra hdel
        obtain ⟨m, hm⟩ := hi.received_of_step hstep hne hr hdel
        obtain rfl : m = n := eq_of_channelOf (hi.node.tail ⟨l, hstep, hguard⟩)
          (channelOf_of_step hstep hm) hout
        rw [hbefore] at hm
        cases hm
      rw [hempty, hwaiting]
      rfl
  · intro hnone
    apply hflow.waiting
    intro n hn
    cases hbefore : channelOf s.node n with
    | none => rfl
    | some out =>
      have := hnone n hn
      rw [channelOf_of_step hstep hbefore] at this
      cases this

/-- A step of the leader, after which the watches still ask for the same. -/
theorem advance (hstep : s.node.step l = some s'.node)
    (hguard : ∀ m, s.node.move l = some m → G s.node.state m)
    (hfrom : ∀ out, l = .env (.receive out) → ∃ n, channelOf s.node n = some out)
    (hkeeps : Keeps s s') (hlen : s'.watches.length = s.watches.length) (hsent : s'.sent = s.sent)
    (hflow : ∀ (i : ℕ) (w' : StreamWatch), s'.watches[i]? = some w' → Flow s' i w') :
    Linked G start kv s' := by
  refine ⟨hi.node.tail ⟨l, hstep, hguard⟩, fun i w' n hw' hn => ?_,
    fun i j w w' n hw hw' hn hn' => ?_, fun out r hr hdel => ?_, hflow, fun i hlt => ?_⟩
  · obtain ⟨w, hw, hkey, hrev, hcall⟩ := hkeeps i w' hw'
    obtain ⟨c₀, h₀, ht, hr⟩ := hi.calls i w n hw (hcall ▸ hn)
    exact ⟨c₀, h₀, hkey ▸ hrev ▸ ht, hr.tail ⟨l, hstep, hguard⟩⟩
  · obtain ⟨w₀, hw₀, -, -, hcall⟩ := hkeeps i w hw
    obtain ⟨w₁, hw₁, -, -, hcall'⟩ := hkeeps j w' hw'
    exact hi.single i j w₀ w₁ n hw₀ hw₁ (hcall ▸ hn) (hcall' ▸ hn')
  · by_cases hl : l = .env (.receive out)
    · obtain ⟨n, hn⟩ := hfrom out hl
      exact ⟨n, channelOf_of_step hstep hn⟩
    · obtain ⟨n, hn⟩ := hi.received_of_step hstep hl hr hdel
      exact ⟨n, channelOf_of_step hstep hn⟩
  · rw [sentEvents, hsent]
    exact hi.unsent i (hlen ▸ hlt)

section

variable (hw : s.watches[i]? = some w)

include hw

/-- What the goroutines of one watch do among themselves. -/
theorem update {w' : StreamWatch} {sent' : List WatchResponse} (hkey : w'.key = w.key)
    (hrev : w'.startRevision = w.startRevision) (hcall : w'.call = w.call)
    (hothers : ∀ j, j ≠ i → eventsFor sent' j = eventsFor s.sent j)
    (hpipe : eventsFor sent' i ++ w'.sender.getD [] ++ w'.shim.getD [] = s.pipeline i w) :
    Linked G start kv { s with watches := s.watches.set i w', sent := sent' } := by
  have hlt := (List.getElem?_eq_some_iff.mp hw).1
  have hasked {j : ℕ} {w₁ : StreamWatch} (h : (s.watches.set i w')[j]? = some w₁) :
      ∃ w₀, s.watches[j]? = some w₀ ∧ w₁.key = w₀.key ∧ w₁.startRevision = w₀.startRevision ∧
        w₁.call = w₀.call := by
    rcases getElem?_set_cases hlt h with ⟨rfl, rfl⟩ | ⟨-, h⟩
    · exact ⟨w, hw, hkey, hrev, hcall⟩
    · exact ⟨w₁, h, rfl, rfl, rfl⟩
  refine ⟨hi.node, fun j w₁ n hw₁ hn => ?_, fun j k w₁ w₂ n hw₁ hw₂ hn₁ hn₂ => ?_,
    hi.received, fun j w₁ hw₁ => ?_, fun j hj => ?_⟩
  · obtain ⟨w₀, hw₀, hkey₀, hrev₀, hcall₀⟩ := hasked hw₁
    rw [hkey₀, hrev₀]
    exact hi.calls j w₀ n hw₀ (hcall₀ ▸ hn)
  · obtain ⟨w₃, hw₃, -, -, hcall₃⟩ := hasked hw₁
    obtain ⟨w₄, hw₄, -, -, hcall₄⟩ := hasked hw₂
    exact hi.single j k w₃ w₄ n hw₃ hw₄ (hcall₃ ▸ hn₁) (hcall₄ ▸ hn₂)
  · rcases getElem?_set_cases hlt hw₁ with ⟨rfl, rfl⟩ | ⟨hj, hold⟩
    · have hflow := hi.flow j w hw
      constructor
      · intro n out r hn hout hr
        exact (hflow.served n out r (hcall ▸ hn) hout hr).trans hpipe.symm
      · intro hnone
        exact hpipe.trans (hflow.waiting fun n hn => hnone n (hcall.trans hn))
    · have hflow := hi.flow j w₁ hold
      have hsame : s.pipeline j w₁ = eventsFor sent' j ++ w₁.sender.getD [] ++ w₁.shim.getD [] := by
        rw [hothers j hj]
        rfl
      constructor
      · intro n out r hn hout hr
        exact (hflow.served n out r hn hout hr).trans hsame
      · intro hnone
        exact hsame.symm.trans (hflow.waiting hnone)
  · have hj : s.watches.length ≤ j := by simpa using hj
    have hne : j ≠ i := by omega
    show eventsFor sent' j = []
    rw [hothers j hne]
    exact hi.unsent j hj

theorem cancel (compact : Bool) : Linked G start kv (s.cancel i w compact) := by
  have hsame (j : ℕ) :
    eventsFor (s.sent ++ [.canceledOf (idOf i) compact]) j = eventsFor s.sent j :=
    eventsFor_append_nil _ rfl j
  refine hi.update hw rfl rfl rfl (fun j _ => hsame j) ?_
  rw [hsame]
  rfl

theorem hand (hs : s.handBatch i w = some s') : Linked G start kv s' := by
  unfold handBatch at hs
  split at hs
  · next evs hshim hsender =>
    obtain rfl := Option.some.inj hs
    refine hi.update hw rfl rfl rfl (fun _ _ => rfl) ?_
    simp [pipeline, sentEvents, hshim, hsender]
  · cases hs

theorem send (hs : s.sendBatch i w = some s') : Linked G start kv s' := by
  unfold sendBatch at hs
  split at hs
  · cases hs
  · next evs hsender =>
    obtain rfl := Option.some.inj hs
    refine hi.update hw rfl rfl rfl (fun j hj => ?_) ?_
    · rw [eventsFor_sent, if_neg (Ne.symm hj), List.append_nil]
    · rw [eventsFor_sent, if_pos rfl]
      simp [pipeline, sentEvents, hsender]

end

/-- The leader acts, and channels of the stream are left alone. -/
theorem act (hstep : s.node.step l = some node')
    (hguard : ∀ m, s.node.move l = some m → G s.node.state m)
    (hallowed : s.allowed l = true) : Linked G start kv { s with node := node' } := by
  have hforeign (out : ℕ) (hl : l = .env (.receive out)) :
      ∃ n, channelOf s.node n = some out ∧ ∀ w ∈ s.watches, w.call ≠ some n := by
    subst hl
    have hany : s.foreign out = true := hallowed
    simp only [foreign, List.any_eq_true, Bool.and_eq_true, beq_iff_eq, Bool.not_eq_true',
      List.any_eq_false] at hany
    obtain ⟨n, -, hn, hnot⟩ := hany
    exact ⟨n, hn, fun w hw => by simpa using hnot w hw⟩
  refine hi.advance hstep hguard ?_ (fun i w hw => ⟨w, hw, rfl, rfl, rfl⟩) rfl rfl ?_
  · intro out hl
    obtain ⟨n, hn, -⟩ := hforeign out hl
    exact ⟨n, hn⟩
  · intro i w hw
    have hl (n out : ℕ) (hn : w.call = some n) (hout : channelOf s.node n = some out) :
        l ≠ .env (.receive out) := by
      intro hl
      obtain ⟨m, hm, hnot⟩ := hforeign out hl
      obtain rfl := eq_of_channelOf hi.node hm hout
      exact hnot w (List.mem_of_getElem? hw) hn
    obtain ⟨hserved, hwaiting⟩ := hi.flow_step hstep hguard hw hl
    exact ⟨hserved, hwaiting⟩

end

/-- The shim receives from its channel. -/
theorem receive (hG : Admits G) (hi : Linked G start kv s) (hw : s.watches[i]? = some w)
    (hs : s.receiveBatch i w = some s') : Linked G start kv s' := by
  unfold receiveBatch at hs
  split at hs
  · next out hcall hshim =>
    obtain ⟨n, hn, hout⟩ := Option.bind_eq_some_iff.mp hcall
    split at hs
    · next evs rest closed delivered hr =>
      obtain ⟨node', hstep, rfl⟩ := Option.map_eq_some_iff.mp hs
      have hguard (m : Move (watchedLeader cfg K))
          (hm : s.node.move (.env (.receive out)) = some m) : G s.node.state m := by
        obtain rfl := Option.some.inj hm
        exact hG.receive _ _
      have hnode : (LeaderState.results node'.state.1)[out]? =
          some ⟨rest, closed, delivered ++ [evs]⟩ := by
        obtain ⟨st, he, rfl⟩ :
          ∃ st, (watchedLeader cfg K).env s.node.state (.receive out) = some st ∧
            node' = { s.node with state := st } := by
          rcases Config.step_cases hstep with ⟨_, _, _, _, _, _, _, _, hl, -⟩ | ⟨_, _, _, hl, -⟩ |
            ⟨ch, st, hl, he, rfl⟩
          · cases hl
          · cases hl
          · obtain rfl := Label.env.inj hl
            exact ⟨st, he, rfl⟩
        have henv : Leader.env s.node.state.1 (.receive out) = some st.1 := (env_observed.mp he).1
        simp only [Leader.env, hr] at henv
        show (LeaderState.results st.1)[out]? = _
        rw [← Option.some.inj henv]
        exact List.getElem?_set_self (List.getElem?_eq_some_iff.mp hr).1
      have hlt := (List.getElem?_eq_some_iff.mp hw).1
      refine hi.advance hstep hguard ?_ ?_ (by simp) rfl ?_
      · intro out' hl
        obtain rfl := LeaderChoice.receive.inj (Label.env.inj hl)
        exact ⟨n, hout⟩
      · intro j w₁ hj
        rcases getElem?_set_cases hlt hj with ⟨rfl, rfl⟩ | ⟨-, hold⟩
        · exact ⟨w, hw, rfl, rfl, rfl⟩
        · exact ⟨w₁, hold, rfl, rfl, rfl⟩
      · intro j w₁ hj
        rcases getElem?_set_cases hlt hj with ⟨rfl, rfl⟩ | ⟨hji, hold⟩
        · constructor
          · intro m out' r hm hout' hr'
            obtain rfl := Option.some.inj (hn.symm.trans hm)
            have hout' : channelOf node' n = some out' := hout'
            rw [channelOf_of_receive hstep, hout] at hout'
            obtain rfl := Option.some.inj hout'
            obtain rfl := Option.some.inj (hnode.symm.trans hr')
            have hserved := (hi.flow j w hw).served n out _ hn hout hr
            rw [pipeline, hshim] at hserved
            show ((delivered ++ [evs]).flatten).map toEtcdEvent =
              s.sentEvents j ++ _ ++ evs.map toEtcdEvent
            rw [List.flatten_append, List.map_append, hserved]
            simp
          · intro hnone
            have := hnone n hn
            rw [show channelOf _ n = channelOf s.node n from channelOf_of_receive hstep,
              hout] at this
            cases this
        · have hl (m out' : ℕ) (hm : w₁.call = some m) (hout' : channelOf s.node m = some out') :
              (.env (.receive out) : Label (watchedLeader cfg K)) ≠ .env (.receive out') := by
            intro hl
            obtain rfl := LeaderChoice.receive.inj (Label.env.inj hl)
            obtain rfl := eq_of_channelOf hi.node hout hout'
            exact hji (hi.single j i w₁ w n hold hw hm hn)
          obtain ⟨hserved, hwaiting⟩ := hi.flow_step hstep hguard hold hl
          exact ⟨hserved, hwaiting⟩
    · cases hs
  · cases hs

/-- A goroutine calls `Watch` of the backend. -/
theorem call (hi : Linked G start kv s) {n : ℕ} (hw : s.watches[i]? = some w)
    (hnone : w.call = none) (hcall : Calls G start kv s.node n w.key w.startRevision)
    (hfresh : ∀ w₁ ∈ s.watches, w₁.call ≠ some n) (hchannel : channelOf s.node n = none) :
    Linked G start kv { s with watches := s.watches.set i { w with call := some n } } := by
  have hlt := (List.getElem?_eq_some_iff.mp hw).1
  refine ⟨hi.node, fun j w₁ m hw₁ hm => ?_, fun j k w₁ w₂ m hw₁ hw₂ hm₁ hm₂ => ?_,
    hi.received, fun j w₁ hw₁ => ?_, fun j hj => ?_⟩
  · rcases getElem?_set_cases hlt hw₁ with ⟨rfl, rfl⟩ | ⟨-, hold⟩
    · obtain rfl := Option.some.inj hm
      exact hcall
    · exact hi.calls j w₁ m hold hm
  · rcases getElem?_set_cases hlt hw₁ with ⟨hj, rfl⟩ | ⟨hj, hold₁⟩ <;>
      rcases getElem?_set_cases hlt hw₂ with ⟨hk, rfl⟩ | ⟨hk, hold₂⟩
    · rw [hj, hk]
    · obtain rfl := Option.some.inj hm₁
      exact absurd hm₂ (hfresh w₂ (List.mem_of_getElem? hold₂))
    · obtain rfl := Option.some.inj hm₂
      exact absurd hm₁ (hfresh w₁ (List.mem_of_getElem? hold₁))
    · exact hi.single j k w₁ w₂ m hold₁ hold₂ hm₁ hm₂
  · rcases getElem?_set_cases hlt hw₁ with ⟨rfl, rfl⟩ | ⟨-, hold⟩
    · constructor
      · intro m out r hm hout
        obtain rfl := Option.some.inj hm
        rw [show channelOf _ n = none from hchannel] at hout
        cases hout
      · intro _
        refine (hi.flow j w hw).waiting fun m hm => ?_
        rw [hnone] at hm
        cases hm
    · exact ⟨(hi.flow j w₁ hold).served, (hi.flow j w₁ hold).waiting⟩
  · exact hi.unsent j (by simpa using hj)

theorem begin (hG : Admits G) (hi : Linked G start kv s) (hw : s.watches[i]? = some w)
    (hs : s.startWatch i w = some s') : Linked G start kv s' := by
  unfold startWatch at hs
  split at hs
  · cases hs
  next hfresh =>
  have hnone : w.call = none := by
    by_contra hne
    exact hfresh (.inl (Option.isSome_iff_ne_none.mpr hne))
  split at hs
  · split at hs
    · next hready =>
      obtain ⟨node', hstep, rfl⟩ := Option.map_eq_some_iff.mp hs
      obtain ⟨k, again, ht⟩ : ∃ k again, s.node.threads[3]? = some ⟨.op .accept k, again⟩ := by
        unfold accepting at hready
        split at hready
        · next k again ht => exact ⟨k, again, ht⟩
        · cases hready
      have hguard (m : Move (watchedLeader cfg K))
          (hm : s.node.move (.thread 3 (.request (.watch w.key w.startRevision))) = some m) :
          G s.node.state m := by
        obtain rfl := Option.some.inj ((Config.move_thread ht).symm.trans hm)
        exact hG.accept _ _
      obtain ⟨st, r, sp, hex, rfl⟩ := Config.exec_of_step ht hstep
      have hexec : Leader.exec cfg s.node.state.1 s.node.outcomes 3 .accept
          (.request (.watch w.key w.startRevision)) = some (st.1, r, sp) := (exec_observed.mp hex).1
      obtain ⟨req, hreq, -, rfl⟩ := Leader.exec_accept hexec
      obtain rfl := LeaderChoice.request.inj hreq
      have hact := hi.act hstep hguard rfl
      -- the new goroutine is the last one
      have hnew : (s.node.threads.set 3 ⟨k r, again⟩ ++
          [Leader.goroutine cfg
            (.request (.watch w.key w.startRevision))])[s.node.threads.length]? =
          some (Leader.goroutine cfg (.request (.watch w.key w.startRevision))) := by
        rw [List.getElem?_append_right (by simp)]
        simp
      refine hact.call hw hnone ⟨_, hact.node, hnew, .refl⟩ ?_ ?_
      · intro w₁ hw₁ hcall
        obtain ⟨j, hj⟩ := List.mem_iff_getElem?.mp hw₁
        exact absurd (hi.calls_lt hj hcall) (lt_irrefl _)
      · simp only [channelOf, Config.outcomes, List.getElem?_map, Option.toList_some, hnew,
          Option.map_some]
        rfl
    · cases hs
  · obtain rfl := Option.some.inj hs
    exact hi.cancel hw true

theorem reject (hi : Linked G start kv s) (hw : s.watches[i]? = some w)
    (hs : s.rejectWatch i w = some s') : Linked G start kv s' := by
  unfold rejectWatch at hs
  split at hs
  · split at hs
    · cases hs
    · obtain rfl := Option.some.inj hs
      exact hi.cancel hw true
  · cases hs

theorem create (hi : Linked G start kv s) (key : Bytes) (startRevision : ℕ) :
    Linked G start kv { s with
      watches := s.watches ++ [⟨key, startRevision, none, none, none, false⟩]
      sent := s.sent ++ [.createdOf (idOf s.watches.length)] } := by
  have hsame (j : ℕ) : eventsFor (s.sent ++ [.createdOf (idOf s.watches.length)]) j =
      eventsFor s.sent j := eventsFor_append_nil _ rfl j
  have hcases {j : ℕ} {w₁ : StreamWatch}
      (h : (s.watches ++ [⟨key, startRevision, none, none, none, false⟩])[j]? = some w₁) :
      s.watches[j]? = some w₁ ∨
        j = s.watches.length ∧ w₁ = ⟨key, startRevision, none, none, none, false⟩ := by
    rw [List.getElem?_append] at h
    split at h
    · exact .inl h
    · next hge =>
      have hlt := (List.getElem?_eq_some_iff.mp h).1
      rw [List.length_singleton] at hlt
      rw [show j - s.watches.length = 0 by omega] at h
      exact .inr ⟨by omega, (Option.some.inj h).symm⟩
  refine ⟨hi.node, fun j w₁ m hw₁ hm => ?_, fun j k w₁ w₂ m hw₁ hw₂ hm₁ hm₂ => ?_,
    hi.received, fun j w₁ hw₁ => ?_, fun j hj => ?_⟩
  · rcases hcases hw₁ with hold | ⟨-, rfl⟩
    · exact hi.calls j w₁ m hold hm
    · cases hm
  · rcases hcases hw₁ with hold₁ | ⟨-, rfl⟩
    · rcases hcases hw₂ with hold₂ | ⟨-, rfl⟩
      · exact hi.single j k w₁ w₂ m hold₁ hold₂ hm₁ hm₂
      · cases hm₂
    · cases hm₁
  · have hpipe : eventsFor (s.sent ++ [.createdOf (idOf s.watches.length)]) j ++
        w₁.sender.getD [] ++ w₁.shim.getD [] = s.pipeline j w₁ := by
      rw [hsame]
      rfl
    rcases hcases hw₁ with hold | ⟨rfl, rfl⟩
    · constructor
      · intro n out r hn hout hr
        exact ((hi.flow j w₁ hold).served n out r hn hout hr).trans hpipe.symm
      · intro hnone
        exact hpipe.trans ((hi.flow j w₁ hold).waiting hnone)
    · constructor
      · intro n out r hn
        cases hn
      · intro _
        refine hpipe.trans ?_
        rw [pipeline, hi.unsent _ (le_refl _)]
        rfl
  · show eventsFor _ j = []
    rw [hsame]
    apply hi.unsent
    rw [List.length_append] at hj
    omega

/-- The receive loop answers a progress request. -/
theorem answer (hi : Linked G start kv s) {progress' : Option ℕ} {sent' : List WatchResponse}
    (hsame : ∀ j, eventsFor sent' j = eventsFor s.sent j) :
    Linked G start kv { s with progress := progress', sent := sent' } := by
  have hpipe (j : ℕ) (w : StreamWatch) :
      eventsFor sent' j ++ w.sender.getD [] ++ w.shim.getD [] = s.pipeline j w := by
    rw [hsame]
    rfl
  refine ⟨hi.node, hi.calls, hi.single, hi.received, fun j w hw => ?_, fun j hj => ?_⟩
  · constructor
    · intro n out r hn hout hr
      exact ((hi.flow j w hw).served n out r hn hout hr).trans (hpipe j w).symm
    · intro hnone
      exact (hpipe j w).trans ((hi.flow j w hw).waiting hnone)
  · exact (hsame j).trans (hi.unsent j hj)

theorem step {a : StreamAction cfg K} (hG : Admits G) (hi : Linked G start kv s)
    (hs : s.step a = some s') (ha : Under G s a) : Linked G start kv s' := by
  cases a with
  | node l =>
    simp only [WatchStream.step] at hs
    split at hs
    · next hallowed =>
      obtain ⟨node', hstep, rfl⟩ := Option.map_eq_some_iff.mp hs
      exact hi.act hstep ha hallowed
    · cases hs
  | create key startRevision =>
    simp only [WatchStream.step] at hs
    split at hs
    · cases hs
    · obtain rfl := Option.some.inj hs
      exact hi.create key startRevision
  | start i =>
    obtain ⟨w, hw, hs⟩ := Option.bind_eq_some_iff.mp hs
    exact hi.begin hG hw hs
  | reject i =>
    obtain ⟨w, hw, hs⟩ := Option.bind_eq_some_iff.mp hs
    exact hi.reject hw hs
  | receive i =>
    obtain ⟨w, hw, hs⟩ := Option.bind_eq_some_iff.mp hs
    exact hi.receive hG hw hs
  | hand i =>
    obtain ⟨w, hw, hs⟩ := Option.bind_eq_some_iff.mp hs
    exact hi.hand hw hs
  | send i =>
    obtain ⟨w, hw, hs⟩ := Option.bind_eq_some_iff.mp hs
    exact hi.send hw hs
  | readProgress =>
    simp only [WatchStream.step] at hs
    split at hs
    · cases hs
    · obtain rfl := Option.some.inj hs
      exact hi.answer fun _ => rfl
  | sendProgress =>
    obtain ⟨revision, -, rfl⟩ := Option.map_eq_some_iff.mp hs
    exact hi.answer (eventsFor_append_nil _ rfl)

theorem reach (hG : Admits G) (hr : Reach (Under G) (init cfg K start kv) s) :
    Linked G start kv s := by
  induction hr with
  | refl =>
    refine ⟨.refl, nofun, nofun, ?_, nofun, fun _ _ => rfl⟩
    intro out r hr
    cases hr
  | tail _ hs ih =>
    obtain ⟨a, hstep, ha⟩ := hs
    exact ih.step hG hstep ha

end Linked

end WatchStream
end KubeBrain

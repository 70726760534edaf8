import KubeBrain.Snapshot.Lists
import KubeBrain.Watch.Delivery

/-! Clients that list and then watch from the revision of the list on. What they have been told is
always what was stored at some revision, and nothing is missing once everything has arrived. -/
namespace KubeBrain

open Interleaving Coder

/-- Runs in which the hub drops no subscriber, clients do not hang up, and lists are snapshots. -/
def Informed (cfg : Config) : Guard (watchedLeader cfg (engine .atTimestamp)) := fun s mv =>
  Watch.NoDropNoHangup cfg (engine .atTimestamp) s mv ∧ DecidedRegional cfg s.1 mv.forget

namespace Snapshot

/-- What a client makes of the pairs of a list. -/
def listed (kvs : List KeyValue) : Replay.Contents Bytes Bytes := fun k =>
  (kvs.find? fun kv => decide (kv.key = k)).map fun kv => (kv.value, kv.revision)

theorem Ranges.listed_eq {m : Replay.Contents Bytes Bytes} {a b : Bytes} {all : List KeyValue}
    (h : Ranges m a b all) {k : Bytes} (hlo : a ≤ k) (hhi : k < b) : listed all k = m k := by
  unfold listed
  cases hfind : all.find? fun kv => decide (kv.key = k) with
  | none =>
    rw [List.find?_eq_none] at hfind
    cases hm : m k with
    | none => rfl
    | some x =>
      have hmem : (⟨k, x.1, x.2⟩ : KeyValue) ∈ all := (h.mem ⟨k, x.1, x.2⟩).mpr ⟨hlo, hhi, hm⟩
      exact absurd (decide_eq_true rfl) (hfind _ hmem)
  | some kv =>
    have hkey : kv.key = k := by simpa using List.find?_some hfind
    have hval := ((h.mem kv).mp (List.mem_of_find?_eq_some hfind)).2.2
    rw [hkey] at hval
    exact hval.symm

section Added

variable {start : ℕ} {s : LeaderState (engine .atTimestamp)} {owed : ℕ → Option ℕ}
  {batch : List Event} {phase : Phase}

/-- The watch cache has been given the published events up to a revision. -/
theorem changes_added (h : Ledger ⟨start, True, False⟩ s.events owed batch phase) :
    s.journal.added.map Event.change =
      Replay.upTo (phase.addFloor s.committedRevision) (published s) := by
  have hseq : Sequenced start s := ⟨owed, batch, phase, h⟩
  apply changes_ext
  · rw [List.pairwise_map]
    exact h.added_sorted
  · exact (published_sorted hseq).filter _
  · intro e
    rw [Replay.mem_upTo, mem_published, List.mem_map]
    constructor
    · rintro ⟨a, ha, rfl⟩
      obtain ⟨ev, hev, hvalid, hle, rfl⟩ := (h.mem_added a).mp ha
      exact ⟨⟨ev, hev, hvalid, rfl⟩, hle⟩
    · rintro ⟨⟨ev, hev, hvalid, rfl⟩, hle⟩
      exact ⟨ev.toEvent, (h.mem_added _).mpr ⟨ev, hev, hvalid, hle, rfl⟩, rfl⟩

theorem addFloor_le (h : Ledger ⟨start, True, False⟩ s.events owed batch phase) :
    phase.addFloor s.committedRevision ≤ s.committedRevision := by
  have hheld := h.held
  cases phase with
  | stored ev =>
    have hrev : ev.revision = s.committedRevision := hheld.1.2
    simp only [Phase.addFloor]
    omega
  | _ => exact le_rfl

/-- The events of a watch, as changes. -/
theorem changes_matching (p : Bytes) (H : ℕ) (evs : List Event) :
    (Watch.matching p (H + 1) evs).map Event.change =
      (evs.map Event.change).filter fun c => decide (H < c.rev) && p.isPrefixOf c.key := by
  rw [List.filter_map]
  rfl

/-- The published events from `H` on that the cache has been given, also when it lags behind. -/
theorem upTo_max (p : Bytes) (H F : ℕ) (cs : List (Replay.Change Bytes Bytes)) :
    ((Replay.upTo F cs).filter fun c => decide (H < c.rev) && p.isPrefixOf c.key) =
      (Replay.upTo (max H F) cs).filter fun c => decide (H < c.rev) && p.isPrefixOf c.key := by
  simp only [Replay.upTo, List.filter_filter]
  apply List.filter_congr
  intro c _
  rw [Bool.eq_iff_iff]
  simp only [Bool.and_eq_true, decide_eq_true_eq, le_max_iff]
  constructor
  · exact fun h => ⟨h.1, .inr h.2⟩
  · exact fun h => ⟨h.1, h.2.resolve_left (not_le.mpr h.1.1)⟩

/-- A client that knows the keys of a prefix as of `H` follows the published events. -/
theorem follows_added {base : Store} {p : Bytes} {H : ℕ}
    (h : Ledger ⟨start, True, False⟩ s.events owed batch phase) (hH : H ≤ s.committedRevision)
    {m : Replay.Contents Bytes Bytes} (hm : ∀ k, p <+: k → m k = told base s H k)
    {evs : List Event} (hevs : evs <+: Watch.matching p (H + 1) s.journal.added) :
    ∃ N, H ≤ N ∧ N ≤ s.committedRevision ∧
      (evs = Watch.matching p (H + 1) s.journal.added →
        N = max H (phase.addFloor s.committedRevision)) ∧
      ∀ k, p <+: k → Replay.replay m (evs.map Event.change) k = told base s N k := by
  have hchanges := (changes_matching p H s.journal.added).trans
    (congrArg (List.filter _) (changes_added h))
  rw [upTo_max] at hchanges
  have hds := hevs.map Event.change
  rw [hchanges] at hds
  obtain ⟨N, hHN, hN, hwhole, hreplay⟩ := Replay.replay_follows
    (published_sorted ⟨owed, batch, phase, h⟩) (le_max_left _ _)
    (fun k hk => hm k (List.isPrefixOf_iff_prefix.mp hk)) hds
  refine ⟨N, hHN, hN.trans (max_le hH (addFloor_le h)), fun heq => ?_, fun k hk => ?_⟩
  · apply hwhole
    rw [heq, hchanges]
  · exact hreplay k (List.isPrefixOf_iff_prefix.mpr hk)

end Added

theorem kvs_page {header : ℕ} {all : List KeyValue} {limit : ℤ}
    (h : (page header all limit).more = false) : (page header all limit).kvs = all := by
  unfold page at h ⊢
  split
  · next hlimit =>
    rw [if_pos hlimit] at h
    have hle := of_decide_eq_false h
    exact List.take_of_length_le (by omega)
  · rfl

end Snapshot

open Snapshot

/-- In every run in which no subscriber is dropped: a client that lists a range and then watches a
prefix in it from the revision after the list has, at every moment, what was stored under the
prefix at one revision, and it has everything when nothing is on its way. -/
theorem informer_follows {cfg : Config} {start : ℕ} {base : Store}
    (h : Startable cfg start base) (hrecord : ¬ magicBytes <+: getCompactKey cfg.keyPrefix)
    {c₀ c₁ c₂ c : Interleaving.Config (watchedLeader cfg (engine .atTimestamp))}
    (h₀ : Config.Reach (Informed cfg)
      (Watch.init cfg (engine .atTimestamp) start (Engine.init base)) c₀)
    {i : ℕ} {r : RangeRequest}
    (hi : c₀.threads[i]? = some (Leader.goroutine cfg (.request (.list r))))
    (ha : Plain r.key) (hb : Plain r.stop) (hlimit : r.limit < 2 ^ 63 - 1) (hrev : r.revision = 0)
    (hk : ∀ k, r.key ≤ k → k < r.stop → UserKey k → Lasting cfg.supportTTL k)
    (h₁ : Config.Reach (Informed cfg) c₀ c₁) {resp : RangeResponse}
    (hresp : c₁.Returned i (.listed (.ok resp))) (hmore : resp.more = false)
    (h₂ : Config.Reach (Informed cfg) c₁ c₂) {j : ℕ} {p : Bytes}
    (hp : ∀ k, p <+: k → r.key ≤ k ∧ k < r.stop)
    (hj : c₂.threads[j]? = some (Leader.goroutine cfg (.request (.watch p (resp.header + 1)))))
    (h₃ : Config.Reach (Informed cfg) c₂ c) {out : ℕ} (hout : c.Returned j (.watching (.ok out))) :
    ∃ ch : ResultChan, (LeaderState.results c.state.1)[out]? = some ch ∧
      ∃ N, resp.header ≤ N ∧ N ≤ LeaderState.committedRevision c.state.1 ∧
        (Watch.Drained out c → N = LeaderState.committedRevision c.state.1) ∧
        ∀ k, p <+: k → Replay.replay (listed resp.kvs) (ch.delivered.flatten.map Event.change) k =
          told base c.state.1 N k := by
  have hforget {d d' : Interleaving.Config (watchedLeader cfg (engine .atTimestamp))}
      (hd : Config.Reach (Informed cfg) d d') :
        Config.Reach (DecidedRegional cfg) d.forget d'.forget :=
    hd.forget fun _ _ hg => hg.2
  have hkept {d d' : Interleaving.Config (watchedLeader cfg (engine .atTimestamp))}
      (hd : Config.Reach (Informed cfg) d d') :
      Config.Reach (Watch.NoDropNoHangup cfg (engine .atTimestamp)) d d' :=
        hd.mono fun _ _ hg => hg.1
  have hinit := hforget (h₀.trans h₁)
  have hlater : HistoryGrows c₁.state.1 c.state.1 := later_of_reach hinit (hforget (h₂.trans h₃))
  have hreach := hforget (h₀.trans (h₁.trans (h₂.trans h₃)))
  -- what the list says of the keys
  obtain ⟨-, hheader, all, hranges, hpage⟩ := ranges_of_returned h hrecord (hforget h₀) hi ha hb
    hlimit (hforget h₁) hresp hk (.inl hrev) ⟨c.forget, hreach, rfl⟩ hlater
  have hall : resp.kvs = all := by
    have hmore : (page resp.header all r.limit).more = false :=
      (congrArg RangeResponse.more hpage).symm.trans hmore
    exact (congrArg RangeResponse.kvs hpage).trans (kvs_page hmore)
  have hknown (k : Bytes) (hk : p <+: k) :
    listed resp.kvs k = told base c.state.1 resp.header k := by
    obtain ⟨hlo, hhi⟩ := hp k hk
    rw [readAt, if_pos hrev] at hranges
    rw [hall]
    exact hranges.listed_eq hlo hhi
  -- what the watch has delivered
  obtain ⟨ch, hch, hstem, hwhole⟩ := Watch.delivered_of_returned
    (hkept (h₀.trans (h₁.trans h₂))) (Nat.succ_pos _) hj (hkept h₃) hout
  have hcommitted := hheader.trans hlater.committed
  refine ⟨ch, hch, ?_⟩
  by_cases hdrained : Watch.Drained out c
  · obtain ⟨owed, hledger⟩ := ledger_of_returned hreach hdrained.consumer
    obtain ⟨N, hle, hN, hfull, hreplay⟩ := follows_added hledger hcommitted hknown hstem
    refine ⟨N, hle, hN, fun _ => ?_, hreplay⟩
    rw [hfull (hwhole hdrained)]
    exact max_eq_right hcommitted
  · obtain ⟨owed, batch, phase, hledger⟩ := sequenced_of_reach hreach
    obtain ⟨N, hle, hN, -, hreplay⟩ := follows_added hledger hcommitted hknown hstem
    exact ⟨N, hle, hN, fun h => absurd h hdrained, hreplay⟩

section Sample

open Hub (sampleLeader sampleHub)

def informedCheck (s : LeaderState (engine .atTimestamp) × HubLog) (mv : Move sampleLeader) :
    Bool :=
  Watch.noDropCheck s mv && regionalCheck s.1 mv.forget

theorem informed_of_check (s : LeaderState (engine .atTimestamp) × HubLog) (mv : Move sampleLeader)
    (h : informedCheck s mv = true) : Informed sampleConfig s mv := by
  obtain ⟨hkept, hdecided⟩ := Bool.and_eq_true_iff.mp h
  exact ⟨Watch.noDrop_of_check s mv hkept, decidedRegional_of_check s.1 mv.forget hdecided⟩

/-- The consumer publishes one event, and the hub streams it. -/
def streamOne : List (Label sampleLeader) :=
  [.restart 0, .thread 0 .none, .thread 0 .none, .thread 0 .none, .thread 0 .none, .thread 0 .none,
    .thread 0 .none, .restart 0, .thread 0 .none, .thread 0 .none, .thread 0 .none,
    .restart 2, .thread 2 .none, .thread 2 (.order []), .thread 2 .none]

/-- A key is created, and a list arrives. -/
def createAndStream : List (Label sampleLeader) :=
  [.restart 3, .thread 3 (.request (.create ⟨sampleKey, [98], 0⟩)), .thread 4 .none,
    .thread 4 (.kv .ok), .thread 4 .none, .thread 4 .none] ++ streamOne ++
  [.restart 3, .thread 3 (.request (.list ⟨[47, 114, 47], [47, 114, 48], 0, 0⟩))]

/-- The list returns, the key is updated, and a watch from the second revision on arrives. -/
def listAlone : List (Label sampleLeader) :=
  [.thread 5 .none, .thread 5 (.kv .ok), .thread 5 (.kv .ok),
    .thread 5 (.kv (.partitions [sampleRange])), .thread 5 .none, .thread 6 (.flag false),
    .thread 6 (.kv .ok), .thread 6 (.flag false), .thread 6 (.flag false), .thread 6 (.flag false),
    .thread 5 .none]

def updateAndWatch : List (Label sampleLeader) :=
  [.restart 3, .thread 3 (.request (.update ⟨⟨sampleKey, [99], 1⟩, 0⟩)), .thread 7 .none,
    .thread 7 (.kv .ok), .thread 7 .none, .thread 7 .none] ++ streamOne ++
  [.restart 3, .thread 3 (.request (.watch [47, 114, 47] 2))]

/-- The watch is served, and its client receives. -/
def serveSecond : List (Label sampleLeader) :=
  [.thread 8 .none, .thread 8 .none, .thread 8 .none, .thread 8 .none, .thread 8 .none,
    .thread 8 .none, .thread 8 .none, .env (.receive 0)]

theorem prefix_sample {k : Bytes} (h : [47, 114, 47] <+: k) :
    [47, 114, 47] ≤ k ∧ k < [47, 114, 48] := by
  have hend : prefixEnd [47, 114, 47] = [47, 114, 48] := by decide
  rw [← hend]
  exact (between_prefixEnd_iff ⟨47, by decide, by decide⟩).mpr h

/-- The list has the first version, the watch brings the second one. -/
theorem informer_follows_updated : ∃ (c : Interleaving.Config sampleLeader) (ch : ResultChan),
      Config.Reach (Informed sampleConfig) (sampleHub []) c ∧
      (LeaderState.results c.state.1)[0]? = some ch ∧
      LeaderState.committedRevision c.state.1 = 2 ∧
      ∀ k, [47, 114, 47] <+: k → Replay.replay (listed [⟨sampleKey, [98], 1⟩])
        (ch.delivered.flatten.map Event.change) k = told SortedMap.empty c.state.1 2 k := by
  have hrun : ((sampleHub []).run informedCheck createAndStream).any (fun c₀ =>
      (c₀.run informedCheck listAlone).any fun c₁ => (c₁.run informedCheck updateAndWatch).any
        fun c₂ => (c₂.run informedCheck serveSecond).any fun c => decide
          (c₁.Returned 5 (.listed (.ok ⟨1, [⟨sampleKey, [98], 1⟩], false⟩)) ∧
            c.Returned 8 (.watching (.ok 0)) ∧ LeaderState.committedRevision c.state.1 = 2 ∧
            Watch.drainedCheck c = true)) = true := by
    decide +kernel
  obtain ⟨c₀, hc₀, hrun⟩ := (Option.any_eq_true _ _).mp hrun
  obtain ⟨c₁, hc₁, hrun⟩ := (Option.any_eq_true _ _).mp hrun
  obtain ⟨c₂, hc₂, hrun⟩ := (Option.any_eq_true _ _).mp hrun
  obtain ⟨c, hc, hval⟩ := (Option.any_eq_true _ _).mp hrun
  obtain ⟨hlist, hwatch, hcommitted, hdrained⟩ := of_decide_eq_true hval
  have hi : c₀.threads[5]? = some (Leader.goroutine sampleConfig
      (.request (.list ⟨[47, 114, 47], [47, 114, 48], 0, 0⟩))) := Config.thread_of_run hc₀ (by rfl)
  have hj : c₂.threads[8]? = some (Leader.goroutine sampleConfig
      (.request (.watch [47, 114, 47] 2))) :=
    Config.thread_of_run (Config.run_trans hc₀ (Config.run_trans hc₁ hc₂)) (by rfl)
  have h₀ := Config.reach_of_run informed_of_check createAndStream hc₀
  have h₁ := Config.reach_of_run informed_of_check listAlone hc₁
  have h₂ := Config.reach_of_run informed_of_check updateAndWatch hc₂
  have h₃ := Config.reach_of_run informed_of_check serveSecond hc
  obtain ⟨ch, hch, N, -, -, hN, hfollow⟩ := informer_follows (startable_empty _)
    (by decide +kernel) h₀ hi (by decide +kernel) (by decide +kernel) (by decide) rfl
    (fun k _ _ huser => ⟨huser, .inl rfl⟩) h₁ hlist rfl h₂ (fun k hk => prefix_sample hk) hj h₃
    hwatch
  refine ⟨c, ch, h₀.trans (h₁.trans (h₂.trans h₃)), hch, hcommitted, fun k hk => ?_⟩
  rw [hfollow k hk, hN (Watch.drained_of_check hdrained 0), hcommitted]

end Sample
end KubeBrain

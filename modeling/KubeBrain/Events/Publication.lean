import KubeBrain.Events.Accounts

/-! What the ledger says of whole runs: no dealt revision is lost as long as no request is
ahead of the sequencer, and the event ring buffer delivers in revision order. -/
namespace KubeBrain

open Interleaving

namespace Accounts

variable {cfg : Config} {K : KvStorage}

variable (m : LedgerMode)

theorem ledger_init (kv : K.State) (owed : ℕ → Option ℕ)
    (hfresh : ∀ i r, owed i = some r → m.start < r)
    (hinj : ∀ i j r, owed i = some r → owed j = some r → i = j)
    (hdeal : m.dealing → ∀ i, owed i = none) :
    Ledger m (Leader.initState cfg K m.start kv).events owed [] .idle where
  start_le := le_refl _
  nodup := List.nodup_nil
  above := by simp [LeaderState.events, Leader.initState]
  filled := by
    intro r h₁ h₂
    exact absurd h₁ (not_lt.mpr h₂)
  held := trivial
  slots := by simp [LeaderState.events, Leader.initState]
  window := by simp [LeaderState.events, Leader.initState]
  owed_fresh := fun i r h => ⟨hfresh i r h, by simp [LeaderState.events, Leader.initState]⟩
  owed_inj := hinj
  added_sorted := List.Pairwise.nil
  mem_added := by simp [LeaderState.events, Leader.initState]
  sent := rfl
  appended_sorted := List.Pairwise.nil
  mem_appended := by simp [LeaderState.events, Leader.initState]
  commits := by simp [LeaderState.events, Leader.initState]
  clobbered := rfl
  queue := ⟨0, rfl⟩
  dealt := by
    intro hd
    refine ⟨le_refl _, by simp [LeaderState.events, Leader.initState],
      by simp [LeaderState.events, Leader.initState], fun i r h => ?_⟩
    rw [hdeal hd i] at h
    cases h
  deal_lt := fun _ h => h
  paid := by simp [LeaderState.events, Leader.initState]

theorem threadSafe_consumer (seen : ℕ) :
    (spec m).ThreadSafe (reading none seen [] .idle) Leader.consumer := by
  refine ⟨fun g a => ∃ seen batch, g = reading none seen batch .idle ∧ a = .batch batch,
    ?_, ⟨seen, [], rfl, rfl⟩, ?_⟩
  · rintro g a ⟨seen, batch, rfl, rfl⟩
    exact ⟨rfl, rfl⟩
  · rintro g a ⟨seen, batch, rfl, rfl⟩
    refine (safe_collect none seen batch).bind ?_
    rintro g' evs ⟨seen', rfl⟩
    exact ⟨seen', evs, rfl, rfl⟩

/-- Ghosts of a fresh leader: only the consumer has something to remember. -/
def start (m : LedgerMode) (i : ℕ) : Ghost :=
  if i = 0 then reading none m.start [] .idle else ⟨none, 0, none⟩

theorem good_init (hd : m.dealing) (kv : K.State) :
    (outline cfg K m).Good (Leader.init cfg K m.start kv) (start m) where
  inv := by
    refine ⟨[], .idle, rfl, rfl, rfl, fun i hi => ?_, ?_⟩
    · simp [start, hi]
    · have howed : (fun i => (start m i).owed) = fun _ => none := by
        funext i
        unfold start reading
        split <;> rfl
      rw [howed]
      exact ledger_init m kv _ nofun nofun fun _ _ => rfl
  safe := by
    have hloop {p : M Outcome} (hp : ∀ g : Ghost, g.consumer = none → g.owed = none →
        (spec m).Safe (fun g' _ => g'.consumer = none ∧ g'.owed = none) g p) :
        (spec m).ThreadSafe ⟨none, 0, none⟩ ⟨.ret .none, some fun _ => p⟩ := by
      refine ⟨fun g _ => g.consumer = none ∧ g.owed = none, ?_, ⟨rfl, rfl⟩, fun g _ h =>
        hp g h.1 h.2⟩
      rintro ⟨owed, seen, consumer⟩ a ⟨hc, ho⟩
      obtain rfl : consumer = none := hc
      exact fun _ => ho
    have hquiet {p : M Outcome} (hp : Within quietKinds p) (g : Ghost) (hc : g.consumer = none)
        (ho : g.owed = none) :
        (spec m).Safe (fun g' _ => g'.consumer = none ∧ g'.owed = none) g p := by
      refine (safe_quiet hd hp hc).mono ?_
      rintro g' - ⟨hc', ho'⟩
      exact ⟨hc', ho'.trans ho⟩
    intro i t ht
    exact Leader.forall_start (P := fun i t => (spec m).ThreadSafe (start m i) t)
      (threadSafe_consumer m m.start)
      (hloop fun g hc ho => (safe_retry hd hc ho).bind fun g' _ h => h)
      (hloop (hquiet (.bind (within_stream.mono (by decide)) fun _ => .pure _)))
      (hloop (hquiet (.bind (.call (by simp [quietKinds]) trivial) fun _ => .pure _))) ht
  idle := by
    intro i hi
    have : i ≠ 0 := by
      rintro rfl
      simp [Leader.init] at hi
    simp [start, this]

end Accounts

open Accounts

variable {cfg : Config} {K : KvStorage}

variable {G : Guard (leader cfg K)} {c : Interleaving.Config (leader cfg K)}

/-- What the ledger says of the shared state, whatever the requests are. -/
def Sequenced (start : ℕ) (s : LeaderState K) : Prop :=
  ∃ owed batch phase, Ledger ⟨start, True, False⟩ s.events owed batch phase

theorem sequenced_of_reach {start : ℕ} {kv : K.State}
    (h : Config.Reach G (Leader.init cfg K start kv) c) : Sequenced start c.state := by
  obtain ⟨gs, hgood⟩ :=
    (good_init ⟨start, True, False⟩ trivial kv).reach (sound (G := G) False.elim)
      (fun _ _ _ _ _ _ _ _ => trivial) h
  obtain ⟨batch, phase, hinv⟩ := hgood.inv
  exact ⟨_, batch, phase, hinv.ledger⟩

/-- The committed revision is as far as the journal of commits. -/
theorem Sequenced.committed_le {start : ℕ} {s s' : LeaderState K} (h : Sequenced start s)
    (h' : Sequenced start s') (hcommits : s.journal.commits <+: s'.journal.commits) :
    s.committedRevision ≤ s'.committedRevision := by
  obtain ⟨_, _, _, hold⟩ := h
  obtain ⟨_, _, _, hnew⟩ := h'
  have hlen := hcommits.length_le
  have hc : s.journal.commits = _ := hold.commits
  have hc' : s'.journal.commits = _ := hnew.commits
  rw [hc, hc', List.length_range', List.length_range'] at hlen
  have h₁ : start ≤ s.committedRevision := hold.start_le
  have h₂ : start ≤ s'.committedRevision := hnew.start_le
  have hlen : s.committedRevision - start ≤ s'.committedRevision - start := hlen
  omega

theorem journal_of_reach {c' : Interleaving.Config (leader cfg K)} (h : Config.Reach G c c') :
    (LeaderState.journal c.state).notified <+: (LeaderState.journal c'.state).notified ∧
      (LeaderState.journal c.state).commits <+: (LeaderState.journal c'.state).commits := by
  refine h.state (R := fun s s' : LeaderState K => s.journal.notified <+: s'.journal.notified ∧
    s.journal.commits <+: s'.journal.commits) ?_ ?_ Leader.exec_journal ?_
  · exact fun _ => ⟨List.prefix_refl _, List.prefix_refl _⟩
  · exact fun h₁ h₂ => ⟨h₁.1.trans h₂.1, h₁.2.trans h₂.2⟩
  · intro s ch s' he
    have hsame : s'.journal = s.journal := congrArg EventView.journal (Leader.env_events he)
    rw [hsame]
    exact ⟨List.prefix_refl _, List.prefix_refl _⟩

theorem committed_le_of_reach {start : ℕ} {kv : K.State} {c' : Interleaving.Config (leader cfg K)}
    (h : Config.Reach G (Leader.init cfg K start kv) c) (h' : Config.Reach G c c') :
    LeaderState.committedRevision c.state ≤ LeaderState.committedRevision c'.state :=
  Sequenced.committed_le (sequenced_of_reach h) (sequenced_of_reach (h.trans h'))
    (journal_of_reach h').2

/-- The ledger between two passes of the consumer. -/
theorem ledger_of_returned {start : ℕ} {kv : K.State}
    (h : Config.Reach G (Leader.init cfg K start kv) c) {batch : List Event}
    (hr : c.Returned 0 (.batch batch)) :
    ∃ owed, Ledger ⟨start, True, False⟩ (LeaderState.events c.state) owed batch .idle := by
  obtain ⟨gs, hgood⟩ :=
    (good_init ⟨start, True, False⟩ trivial kv).reach (sound (G := G) False.elim)
      (fun _ _ _ _ _ _ _ _ => trivial) h
  obtain ⟨batch', phase, hinv⟩ := hgood.inv
  have hfin : Accounts.Fin _ (gs 0) (.batch batch) := hgood.returned hr
  simp only [Accounts.Fin, hinv.consumer, Outcome.batch.injEq] at hfin
  obtain ⟨rfl, rfl⟩ := hfin
  exact ⟨_, hinv.ledger⟩

/-- How often a revision has been published. -/
def timesNotified (s : LeaderState K) (r : ℕ) : ℕ :=
  (s.journal.notified.map WatchEvent.revision).count r

private theorem timesNotified_eq_one {m : LedgerMode} {s : LeaderState K} {owed : ℕ → Option ℕ}
    {batch : List Event} {phase : Phase} (h : Ledger m s.events owed batch phase) {r : ℕ}
    (hr : ∃ ev ∈ s.journal.notified, ev.revision = r) : timesNotified s r = 1 := by
  obtain ⟨ev, hev, rfl⟩ := hr
  exact List.count_eq_one_of_mem h.nodup (List.mem_map_of_mem hev)

/-- A configuration and a fresh leader over an empty store, for concrete schedules. -/
def sampleConfig : Config where
  enableEtcdCompatibility := false
  keyPrefix := [47, 114]
  skippedPrefixes := []
  watchCacheSize := 0
  supportTTL := true

abbrev sampleInit : Interleaving.Config (leader sampleConfig (engine .atTimestamp)) :=
  Leader.init sampleConfig (engine .atTimestamp) 0 (Engine.init SortedMap.empty)

/-- In runs where no request is ahead of the sequencer when `update` or `delete` deals for
it, whatever the storage answers: a goroutine that has returned has published each revision
it dealt exactly once; when every goroutine that dealt a revision has returned, all dealt
revisions are published; and a revision that the consumer waits for is owed by a goroutine
that is still running. -/
theorem dealt_revisions_are_published (start : ℕ) (kv : K.State)
    {c : Interleaving.Config (leader cfg K)}
    (h : Config.Reach (NoDrift cfg K) (Leader.init cfg K start kv) c) :
    (∀ i r a, (i, r) ∈ c.state.journal.dealt → c.Returned i a → timesNotified c.state r = 1) ∧
    ((∀ i r, (i, r) ∈ c.state.journal.dealt → ∃ a, c.Returned i a) →
      ∀ r, start < r → r ≤ c.state.dealRevision → timesNotified c.state r = 1) ∧
    (∀ batch, c.Returned 0 (.batch batch) →
      c.state.ring ((c.state.committedRevision + 1) % watchersChanCapacity) = none →
      c.state.committedRevision < c.state.dealRevision →
      ∃ i, (i, c.state.committedRevision + 1) ∈ c.state.journal.dealt ∧ ¬ ∃ a, c.Returned i a) := by
  let m : LedgerMode := ⟨start, True, True⟩
  obtain ⟨gs, hgood⟩ := (good_init m trivial kv).reach (sound fun _ _ _ hn => hn)
    (fun _ _ _ _ _ _ _ _ => trivial) h
  obtain ⟨batch, phase, hinv⟩ := hgood.inv
  have hl := hinv.ledger
  obtain ⟨-, hdealt, -, -⟩ := hl.dealt trivial
  have hpays (i : ℕ) (a : Outcome) (ha : c.Returned i a) : (gs i).owed = none := by
    have hfin := hgood.returned ha
    by_cases hi : i = 0
    · rw [hi]
      exact hinv.owes_not
    · have hc := (hinv.others i hi).1
      generalize gs i = g at hfin hc ⊢
      obtain ⟨owed, seen, consumer⟩ := g
      obtain rfl : consumer = none := hc
      exact hfin trivial
  have hmem (r : ℕ) (h₁ : start < r) (h₂ : r ≤ c.state.dealRevision) :
      ∃ i, (i, r) ∈ c.state.journal.dealt := by
    have : r ∈ c.state.journal.dealt.map Prod.snd := by
      refine hdealt ▸ List.mem_range'_1.mpr ?_
      show start + 1 ≤ r ∧ r < start + 1 + (c.state.dealRevision - start)
      omega
    obtain ⟨⟨i, r⟩, hin, rfl⟩ := List.mem_map.mp this
    exact ⟨i, hin⟩
  have hpublished (i r : ℕ) (a : Outcome) (hin : (i, r) ∈ c.state.journal.dealt)
      (ha : c.Returned i a) : timesNotified c.state r = 1 := by
    rcases hl.paid trivial trivial i r hin with hp | hp
    · exact timesNotified_eq_one hl hp
    · rw [hpays i a ha] at hp
      cases hp
  refine ⟨hpublished, fun hret r h₁ h₂ => ?_, fun evs hidle hslot hlt => ?_⟩
  · obtain ⟨i, hin⟩ := hmem r h₁ h₂
    obtain ⟨a, ha⟩ := hret i r hin
    exact hpublished i r a hin ha
  · have hstart := hl.start_le
    obtain ⟨i, hin⟩ := hmem (c.state.committedRevision + 1) (Nat.lt_succ_of_le hstart) hlt
    refine ⟨i, hin, ?_⟩
    rintro ⟨a, ha⟩
    rcases hl.paid trivial trivial i _ hin with ⟨ev, hev, hrev⟩ | hp
    · have hphase := (hgood.returned hidle)
      rw [hinv.consumer_eq] at hphase
      obtain ⟨rfl, -⟩ := hphase
      have := (hl.slots ((c.state.committedRevision + 1) % watchersChanCapacity) ev).mpr
        ⟨hev, by rw [hrev]; exact Nat.lt_succ_self _, by rw [hrev]⟩
      rw [show c.state.events.ring _ = none from hslot] at this
      cases this
    · rw [hpays i a ha] at hp
      cases hp

/-- The check of the condition on a schedule. -/
private def noDriftCheck (s : LeaderState (engine .atTimestamp)) :
    Move (leader sampleConfig (engine .atTimestamp)) → Bool
  | .op (.deal (.update p)) _ | .op (.deal (.delete p)) _ => p ≤ s.dealRevision + 1
  | _ => true

private theorem noDrift_of_check (s : LeaderState (engine .atTimestamp))
    (mv : Move (leader sampleConfig (engine .atTimestamp))) (h : noDriftCheck s mv = true) :
    NoDrift sampleConfig (engine .atTimestamp) s mv := by
  rintro site ch rfl p (rfl | rfl) <;> simpa [noDriftCheck] using h

/-- A creation and an update of what it writes; their batches commit in order, and the
update publishes first. -/
def createUpdate : List (Label (leader sampleConfig (engine .atTimestamp))) :=
  [.restart 3, .thread 3 (.request (.create ⟨[97], [98], 0⟩)),
    .restart 3, .thread 3 (.request (.update ⟨⟨[97], [99], 1⟩, 0⟩)),
    .thread 4 .none, .thread 5 .none, .thread 4 (.kv .ok), .thread 5 (.kv .ok),
    .thread 5 .none, .thread 5 .none, .thread 4 .none, .thread 4 .none]

theorem dealt_revisions_are_published_update :
    ∃ c, Config.Reach (NoDrift sampleConfig (engine .atTimestamp)) sampleInit c ∧
      c.state.journal.dealt = [(4, 1), (5, 2)] ∧ c.state.dealRevision = 2 ∧
      timesNotified c.state 1 = 1 ∧ timesNotified c.state 2 = 1 := by
  obtain ⟨c, hreach, hdealt, hdeal, h4, h5⟩ : ∃ c,
      Config.Reach (NoDrift sampleConfig (engine .atTimestamp)) sampleInit c ∧
      c.state.journal.dealt = [(4, 1), (5, 2)] ∧ c.state.dealRevision = 2 ∧
      c.Returned 4 (.created (.ok ⟨1, true⟩)) ∧ c.Returned 5 (.updated (.ok ⟨2, true, none⟩)) :=
    Config.exists_of_run noDrift_of_check createUpdate (by rfl)
  have hret (i r : ℕ) (hin : (i, r) ∈ c.state.journal.dealt) : ∃ a, c.Returned i a := by
    rw [hdealt] at hin
    rcases List.mem_cons.mp hin with h | h
    · obtain ⟨rfl, rfl⟩ := Prod.mk.inj h
      exact ⟨_, h4⟩
    · obtain ⟨rfl, rfl⟩ := Prod.mk.inj (List.mem_singleton.mp h)
      exact ⟨_, h5⟩
  have hall := (dealt_revisions_are_published 0 (Engine.init SortedMap.empty) hreach).2.1 hret
  exact ⟨c, hreach, hdealt, hdeal, hall 1 (by decide) (by rw [hdeal]; decide),
    hall 2 (by decide) (by rw [hdeal])⟩

/-- An update with revision 5 arrives while the sequencer is at 0. -/
def updateAhead : List (Label (leader sampleConfig (engine .atTimestamp))) :=
  [.restart 3, .thread 3 (.request (.update ⟨⟨[97], [98], 5⟩, 0⟩)), .thread 4 .none]

/-- An update whose revision is ahead of the sequencer gets a revision and drops it: the
request has returned, the revision is not published, and with every other goroutine at rest
the consumer waits for it. -/
theorem update_ahead_of_sequencer_loses_revision :
    ∃ c, Config.Reach (fun _ _ => True) sampleInit c ∧
      (4, 1) ∈ c.state.journal.dealt ∧ timesNotified c.state 1 = 0 ∧
      c.outcomes[4]? = some (some (.updated (.error .revisionDriftBack))) ∧
      c.state.committedRevision = 0 ∧ c.state.dealRevision = 1 ∧
      ∀ i, i < c.threads.length → ∃ a, c.Returned i a :=
  Config.exists_of_unchecked updateAhead (by rfl)

/-- A goroutine that calls `notify` once. -/
def notifier (ev : WatchEvent) : Leader.Goroutine where
  prog := do
    notify ev.key ev.value ev.revision ev.prevRevision ev.valid ev.verb ev.err
    pure .none

/-- The consumer together with any number of calls of `notify`. -/
def ringPool (cfg : Config) (K : KvStorage) (start : ℕ) (kv : K.State) (evs : List WatchEvent) :
    Interleaving.Config (leader cfg K) :=
  ⟨Leader.initState cfg K start kv, Leader.consumer :: evs.map notifier⟩

namespace Accounts

/-- Ghosts of the ring pool: each caller owes the revision it will publish. -/
def owing (start : ℕ) (evs : List WatchEvent) : ℕ → Ghost
  | 0 => reading none start [] .idle
  | i + 1 => ⟨(evs[i]?).map WatchEvent.revision, 0, none⟩

theorem good_ringPool {start : ℕ} (kv : K.State) {evs : List WatchEvent}
    (hnodup : (evs.map WatchEvent.revision).Nodup) (habove : ∀ ev ∈ evs, start < ev.revision) :
    (outline cfg K ⟨start, False, False⟩).Good (ringPool cfg K start kv evs) (owing start evs) where
  inv := by
    refine ⟨[], .idle, rfl, rfl, rfl, fun i hi => ?_, ?_⟩
    · cases i with
      | zero => exact absurd rfl hi
      | succ i => exact ⟨rfl, Nat.zero_le _⟩
    · have howed {i r : ℕ} (h : (owing start evs i).owed = some r) :
          ∃ j, i = j + 1 ∧ (evs.map WatchEvent.revision)[j]? = some r := by
        cases i with
        | zero => cases h
        | succ j => exact ⟨j, rfl, by rw [List.getElem?_map]; exact h⟩
      refine ledger_init ⟨start, False, False⟩ kv _ (fun i r h => ?_)
        (fun i j r hi hj => ?_) False.elim
      · obtain ⟨k, -, hk⟩ := howed h
        obtain ⟨ev, hev, rfl⟩ := List.mem_map.mp (List.mem_of_getElem? hk)
        exact habove ev hev
      · obtain ⟨a, rfl, ha⟩ := howed hi
        obtain ⟨b, rfl, hb⟩ := howed hj
        obtain ⟨ha', -⟩ := List.getElem?_eq_some_iff.mp ha
        rw [(List.getElem?_inj ha' hnodup).mp (ha.trans hb.symm)]
  safe := by
    intro i t ht
    cases i with
    | zero =>
      obtain rfl := Option.some.inj ht
      exact threadSafe_consumer _ start
    | succ i =>
      have ht : (evs.map notifier)[i]? = some t := ht
      rw [List.getElem?_map, Option.map_eq_some_iff] at ht
      obtain ⟨ev, hev, rfl⟩ := ht
      refine Spec.Safe.bind (safe_notify rfl fun _ => ?_) fun g' _ h => ?_
      · show (evs[i]?).map WatchEvent.revision = some ev.revision
        rw [hev]
        rfl
      · obtain ⟨owed, seen, consumer⟩ := g'
        obtain ⟨rfl, -⟩ : consumer = none ∧ _ := h
        exact False.elim
  idle := by
    intro i hi
    cases i with
    | zero => simp [ringPool] at hi
    | succ i =>
      have : evs.length ≤ i := by simpa [ringPool] using hi
      simp [owing, this]

end Accounts

/-- Event sequencing through the ring buffer, for any calls of `notify` with distinct
revisions and any interleaving with the consumer. A call outside the window panics and
publishes nothing. -/
theorem ring_delivers_in_order {start : ℕ} (kv : K.State) {evs : List WatchEvent}
    (hnodup : (evs.map WatchEvent.revision).Nodup) (habove : ∀ ev ∈ evs, start < ev.revision)
    {c : Interleaving.Config (leader cfg K)}
    (h : Config.Reach (fun _ _ => True) (ringPool cfg K start kv evs) c) :
    (c.Returned 0 (.batch []) →
      c.state.journal.sent.flatten = c.state.journal.added ∧
      c.state.journal.added.Pairwise (fun a b => a.revision < b.revision) ∧
      (∀ e, e ∈ c.state.journal.added ↔ ∃ ev ∈ c.state.journal.notified,
        ev.valid = true ∧ ev.revision ≤ c.state.committedRevision ∧ ev.toEvent = e) ∧
      c.state.journal.appended.Pairwise (fun a b => a.revision < b.revision) ∧
      ∀ ev, ev ∈ c.state.journal.appended ↔ ev ∈ c.state.journal.notified ∧
        ev.valid = false ∧ ev.isUncertain = true ∧ ev.revision ≤ c.state.committedRevision) ∧
    c.state.journal.clobbered = [] ∧
    (∀ r, (∀ q, start < q → q ≤ r →
        (∃ ev ∈ c.state.journal.notified, ev.revision = q) ∧ q ∈ c.state.journal.commits) ↔
      r ≤ c.state.committedRevision) ∧
    c.state.journal.commits = List.range' (start + 1) (c.state.committedRevision - start) := by
  obtain ⟨gs, hgood⟩ :=
    (good_ringPool kv hnodup habove).reach (sound (G := fun _ _ => True) False.elim)
      (fun _ _ _ _ _ _ _ _ => trivial) h
  obtain ⟨batch, phase, hinv⟩ := hgood.inv
  have hl := hinv.ledger
  have hstart : start ≤ c.state.committedRevision := hl.start_le
  have hcommits : c.state.journal.commits =
      List.range' (start + 1) (c.state.committedRevision - start) := hl.commits
  refine ⟨fun hret => ?_, hl.clobbered, fun r => ⟨fun hr => ?_, fun hr q h₁ h₂ => ?_⟩, hcommits⟩
  · have hfin := hgood.returned hret
    rw [hinv.consumer_eq] at hfin
    obtain ⟨rfl, hbatch⟩ := hfin
    obtain rfl : [] = batch := by injection hbatch
    refine ⟨?_, hl.added_sorted, hl.mem_added, hl.appended_sorted, hl.mem_appended⟩
    have := hl.sent
    rwa [List.append_nil] at this
  · by_contra hlt
    have := (hr (c.state.committedRevision + 1) (by omega) (by omega)).2
    rw [hcommits, List.mem_range'_1] at this
    omega
  · refine ⟨hl.filled q h₁ (h₂.trans hr), ?_⟩
    rw [hcommits, List.mem_range'_1]
    omega

/-- Two results, published in the opposite order, and the consumer's passes over them. -/
def outOfOrder : List (Label (leader sampleConfig (engine .atTimestamp))) :=
  [.thread 2 .none, .thread 2 .none, .restart 0, .thread 0 .none, .thread 0 .none,
    .thread 1 .none, .thread 1 .none] ++
  List.flatten (List.replicate 2 [.restart 0, .thread 0 .none, .thread 0 .none, .thread 0 .none,
    .thread 0 .none, .thread 0 .none, .thread 0 .none, .thread 0 .none]) ++
  [.restart 0, .thread 0 .none, .thread 0 .none, .thread 0 .none]

def outOfOrderPool : Interleaving.Config (leader sampleConfig (engine .atTimestamp)) :=
  ringPool sampleConfig (engine .atTimestamp) 7 (Engine.init SortedMap.empty)
    [⟨8, 0, .create, true, [97], [98], none⟩, ⟨9, 8, .put, true, [97], [99], none⟩]

theorem ring_delivers_in_order_two : ∃ c, Config.Reach (fun _ _ => True) outOfOrderPool c ∧
      c.state.journal.notified.map WatchEvent.revision = [9, 8] ∧
      c.state.journal.sent.flatten = c.state.journal.added ∧
      c.state.journal.added.Pairwise (fun a b => a.revision < b.revision) ∧
      c.state.journal.added.map Event.revision = [8, 9] := by
  obtain ⟨c, hreach, hnotified, hadded, hidle⟩ : ∃ c,
      Config.Reach (fun _ _ => True) outOfOrderPool c ∧
      c.state.journal.notified.map WatchEvent.revision = [9, 8] ∧
      c.state.journal.added.map Event.revision = [8, 9] ∧ c.Returned 0 (.batch []) :=
    Config.exists_of_unchecked outOfOrder (by rfl)
  have hring := (ring_delivers_in_order (Engine.init SortedMap.empty) (by decide) (by decide)
    hreach).1 hidle
  exact ⟨c, hreach, hnotified, hring.1, hring.2.1, hadded⟩

end KubeBrain

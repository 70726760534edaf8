import KubeBrain.Writes.Soundness

/-! One process after another on a badger store: the election record
(`pkg/backend/election`), the terms of leadership and the restarts between them. -/
namespace KubeBrain

open Interleaving Coder

namespace Restart

abbrev Term (cfg : Config) := Interleaving.Config (leader cfg (engine .atCreation))

/-- The `resourceLock` of a process, and whether its elector holds the lease. -/
structure Lock where
  lastVal : Bytes
  tso : ℕ
  held : Bool

/-- The record of the election stands under a key of its own; it is kept apart from the other
contents. -/
structure Node (cfg : Config) where
  /-- Contents of the store while no term runs. -/
  store : Store
  record : Option Bytes
  /-- Write transactions that have committed, those of the running term apart. -/
  writes : ℕ
  lock : Lock
  term : Option (Term cfg)
  /-- Revisions that were dealt in earlier terms. -/
  dealt : List ℕ

variable {cfg : Config} {n n' : Node cfg}

/-- The transactions that the requests, retries and compactions of a term have committed. -/
def committedIn (c : Term cfg) : ℕ := (Engine.State.past c.state.kv).length

def dealtIn (c : Term cfg) : List ℕ := c.state.journal.dealt.map Prod.snd

namespace Node

/-- `ReadTs` of a new transaction. -/
def readTs (n : Node cfg) : ℕ := n.writes + (n.term.map committedIn).getD 0

def allDealt (n : Node cfg) : List ℕ := n.dealt ++ (n.term.map dealtIn).getD []

end Node

/-- Badger answers a commit without an error, or drops it. -/
def certain : Move (leader cfg (engine .atCreation)) → Bool
  | .op (.kv (.commit _ _)) (.kv .ok) => true
  | .op (.kv (.commit _ _)) (.kv (.fail _)) => true
  | .op (.kv (.commit _ _)) _ => false
  | _ => true

inductive Action (cfg : Config) where
  /-- `Get`, `Create` and `Update` of the resource lock. -/
  | get
  | create (record : Bytes)
  | update (record : Bytes)
  | startLeading
  /-- A step of the goroutines of the leader. -/
  | serve (l : Label (leader cfg (engine .atCreation)))
  /-- The process ends and a new one starts. -/
  | restart

def Node.step (n : Node cfg) : Action cfg → Option (Node cfg)
  | .get => match n.record with
    | none => some n
    | some val => some { n with lock := { n.lock with lastVal := val, tso := n.readTs } }
  | .create record => match n.record with
    | some _ => some n
    | none =>
      some { n with
        record := some record
        writes := n.writes + 1
        lock := ⟨record, n.readTs + 1, true⟩ }
  | .update record =>
    if n.lock.tso ≠ 0 ∧ n.record = some n.lock.lastVal then
      some { n with
        record := some record
        writes := n.writes + 1
        lock := { n.lock with tso := n.readTs + 1, held := true } }
    else some n
  | .startLeading =>
    if n.term.isNone ∧ n.lock.held ∧ n.lock.tso < 2 ^ 63 then
      some { n with term := some (Leader.init cfg _ n.lock.tso (Engine.init n.store)) }
    else none
  | .serve l => match n.term with
    | none => none
    | some c => if (c.move l).all certain then
        (c.step l).map fun c' => { n with term := some c' }
      else none
  | .restart => match n.term with
    | none => some { n with lock := ⟨[], 0, false⟩ }
    | some c =>
      some { n with
        store := Engine.State.now c.state.kv
        writes := n.readTs
        lock := ⟨[], 0, false⟩
        term := none
        dealt := n.allDealt }

/-- A new store, and a process that has not read it yet. -/
def fresh (cfg : Config) : Node cfg := ⟨SortedMap.empty, none, 0, ⟨[], 0, false⟩, none, []⟩

/-- At a restart the sequencer is not ahead of the number of committed transactions. -/
def Behind (n : Node cfg) : Action cfg → Prop
  | .restart => ∀ c, n.term = some c → c.state.dealRevision ≤ n.readTs
  | _ => True

def Step (G : Node cfg → Action cfg → Prop) (n n' : Node cfg) : Prop :=
  ∃ a, n.step a = some n' ∧ G n a

abbrev Reach (G : Node cfg → Action cfg → Prop) : Node cfg → Node cfg → Prop :=
  Relation.ReflTransGen (Step G)

/-- No index or object key of the store has a revision above the given one. -/
def Covers (version : ℕ) (st : Store) : Prop :=
  (∀ k val q d, st.get (encodeRevisionKey k) = some val → parseRevision val = .ok q d →
    q ≤ version) ∧
  ∀ k r val, r < 2 ^ 64 → st.get (encodeObjectKey k r) = some val → r ≤ version

/-- What a term finds in the store. -/
structure Based (version : ℕ) (st : Store) : Prop where
  index : ∀ k val, st.get (encodeRevisionKey k) = some val →
    ∃ q d, q ≤ version ∧ val = indexValue q d
  objects : ∀ k r, version < r → r < 2 ^ 64 → st.get (encodeObjectKey k r) = none

theorem Based.covers {version : ℕ} {st : Store} (h : Based version st) (hlt : version < 2 ^ 64) :
    Covers version st := by
  constructor
  · intro k val q d hval hparse
    obtain ⟨q', d', hle, rfl⟩ := h.index k val hval
    rw [parseRevision_indexValue (by omega)] at hparse
    injection hparse with hq
    omega
  · intro k r val hr hval
    by_contra hgt
    rw [h.objects k r (by omega) hr] at hval
    cases hval

/-- What one term leaves: everything it has stored or dealt is at most its last revision. -/
theorem based_of_reach {version : ℕ} {base : Store} (hlt : version < 2 ^ 63)
    (hbase : Based version base) {c : Term cfg} (h : Config.Reach (Writes.Certain cfg .atCreation)
      (Leader.init cfg (engine .atCreation) version (Engine.init base)) c) :
    Based c.state.dealRevision (Engine.State.now c.state.kv) := by
  let m : WriteMode := ⟨version, base, True, fun _ => True, fun _ => True, hlt, hbase.index,
    fun _ => hbase.objects⟩
  have haccept (s) (mv) : Writes.Accepts cfg .atCreation m s mv := by
    intro r _
    cases r <;> simp [WriteMode.Accepts, m]
  have hreach := (Writes.settles_of_certain (by rfl) h).1
  obtain ⟨gs, hgood⟩ := Writes.good_of_reach (m := m) (fun _ _ hg => hg)
    (fun _ s mv _ => haccept s mv) hreach
  have hist := hgood.inv.history
  have hord := Writes.ordered_of_sequenced (sequenced_of_reach h)
  have hstart : version ≤ c.state.dealRevision := hord.start_le.trans hord.le_deal
  constructor
  · intro k val hval
    obtain ⟨q, d, rfl, -, hq⟩ := hist.index k val hval
    refine ⟨q, d, ?_, rfl⟩
    rcases hq with ⟨x, hx, -, rfl, -⟩ | ⟨hq, -⟩
    · exact (hist.mem_facts (List.mem_append_left _ hx)).2.1
    · exact hq.trans hstart
  · intro k r hr hr'
    cases hval : (Engine.State.now c.state.kv).get (encodeObjectKey k r) with
    | none => rfl
    | some val =>
      obtain ⟨x, hx, -, rfl, -⟩ := hist.objects trivial k r val (lt_of_le_of_lt hstart hr) hr' hval
      exact absurd (hist.mem_facts (List.mem_append_left _ hx)).2.1 (Nat.not_le.mpr hr)

/-- The revisions of a term follow the version it started at. -/
theorem dealtIn_eq {version : ℕ} {kv : Engine.State} {G : Guard (leader cfg (engine .atCreation))}
    {c : Term cfg} (h : Config.Reach G (Leader.init cfg (engine .atCreation) version kv) c) :
    dealtIn c = List.range' (version + 1) (c.state.dealRevision - version) := by
  obtain ⟨owed, batch, phase, hl⟩ := sequenced_of_reach h
  exact (hl.dealt trivial).2.1

/-- Between two terms everything is covered by the number of transactions; a term that runs
has started at a version that covers what it found. -/
structure Inv (n : Node cfg) : Prop where
  nodup : n.dealt.Nodup
  down : n.term = none → Based n.writes n.store ∧ (∀ r ∈ n.dealt, r ≤ n.writes) ∧
    (n.lock.held = true → n.lock.tso = n.writes)
  up : ∀ c, n.term = some c → ∃ version base, version < 2 ^ 63 ∧ Based version base ∧
    (∀ r ∈ n.dealt, r ≤ version) ∧ Config.Reach (Writes.Certain cfg .atCreation)
      (Leader.init cfg (engine .atCreation) version (Engine.init base)) c

theorem Inv.nodup_allDealt {n : Node cfg} (h : Inv n) : n.allDealt.Nodup := by
  unfold Node.allDealt
  cases hterm : n.term with
  | none => simpa using h.nodup
  | some c =>
    obtain ⟨version, base, -, -, hle, hreach⟩ := h.up c hterm
    apply List.Nodup.append h.nodup
    · show (dealtIn c).Nodup
      rw [dealtIn_eq hreach]
      exact List.nodup_range'
    · intro r hr hr'
      have hr' : r ∈ dealtIn c := hr'
      rw [dealtIn_eq hreach, List.mem_range'_1] at hr'
      have := hle r hr
      omega

theorem Inv.restart (h : Inv n) (hG : Behind n .restart)
    (hs : n.step .restart = some n') : Inv n' := by
  unfold Node.step at hs
  cases hterm : n.term with
  | none =>
    simp only [hterm, Option.some.injEq] at hs
    subst hs
    obtain ⟨hbased, hle, -⟩ := h.down hterm
    exact ⟨h.nodup, fun _ => ⟨hbased, hle, nofun⟩, nofun⟩
  | some c =>
    simp only [hterm, Option.some.injEq] at hs
    subst hs
    obtain ⟨version, base, hlt, hbase, hle, hreach⟩ := h.up c hterm
    have hdeal : c.state.dealRevision ≤ n.readTs := hG c hterm
    have hbased := based_of_reach hlt hbase hreach
    have hord := Writes.ordered_of_sequenced (sequenced_of_reach hreach)
    have hstart : version ≤ c.state.dealRevision := hord.start_le.trans hord.le_deal
    refine ⟨h.nodup_allDealt, fun _ => ⟨⟨?_, ?_⟩, ?_, nofun⟩, nofun⟩
    · intro k val hval
      obtain ⟨q, d, hq, rfl⟩ := hbased.index k val hval
      exact ⟨q, d, hq.trans hdeal, rfl⟩
    · intro k r hr hr'
      exact hbased.objects k r (lt_of_le_of_lt hdeal hr) hr'
    · intro r hr
      simp only [Node.allDealt, hterm, Option.map_some, Option.getD_some, List.mem_append] at hr
      rcases hr with hr | hr
      · exact (hle r hr).trans (hstart.trans hdeal)
      · rw [dealtIn_eq hreach, List.mem_range'_1] at hr
        have hlast : r ≤ c.state.dealRevision := by omega
        exact hlast.trans hdeal

theorem certain_of_check {s : LeaderState (engine .atCreation)}
    {mv : Move (leader cfg (engine .atCreation))} (h : certain mv = true) :
    Writes.Certain cfg .atCreation s mv := by
  intro w ops ch hmv
  subst hmv
  cases ch with
  | ok => exact .inl rfl
  | fail e => exact .inr ⟨e, rfl⟩
  | pend n => cases h
  | failApplied e => cases h
  | stopAfter n e => cases h
  | partitions ps => cases h
  | landPending i => cases h
  | discardPending i => cases h

theorem Inv.serve (h : Inv n) {l : Label (leader cfg (engine .atCreation))}
    (hs : n.step (.serve l) = some n') : Inv n' := by
  unfold Node.step at hs
  cases hterm : n.term with
  | none => simp only [hterm, reduceCtorEq] at hs
  | some c =>
    simp only [hterm] at hs
    split at hs
    · next hcheck =>
      obtain ⟨c', hc', rfl⟩ := Option.map_eq_some_iff.mp hs
      refine ⟨h.nodup, nofun, fun d hd => ?_⟩
      obtain rfl := Option.some.inj hd
      obtain ⟨version, base, hlt, hbase, hle, hreach⟩ := h.up c hterm
      refine ⟨version, base, hlt, hbase, hle, hreach.tail ⟨l, hc', fun mv hmv => ?_⟩⟩
      rw [hmv] at hcheck
      exact certain_of_check hcheck
    · cases hs

theorem Inv.startLeading (h : Inv n) (hs : n.step .startLeading = some n') :
    Inv n' ∧ n.term = none ∧ Based n.lock.tso n.store ∧ n.lock.tso < 2 ^ 63 ∧
      n'.term = some (Leader.init cfg _ n.lock.tso (Engine.init n.store)) := by
  simp only [Node.step] at hs
  split at hs
  · next hready =>
    obtain ⟨hterm, hheld, hlt⟩ := hready
    obtain rfl := Option.some.inj hs
    have hterm := Option.isNone_iff_eq_none.mp hterm
    obtain ⟨hbased, hle, htso⟩ := h.down hterm
    rw [← htso hheld] at hbased hle
    refine ⟨⟨h.nodup, nofun, fun c hc => ?_⟩, hterm, hbased, hlt, rfl⟩
    obtain rfl := Option.some.inj hc
    exact ⟨n.lock.tso, n.store, hlt, hbased, hle, .refl⟩
  · cases hs

/-- The lock is read or written; the term goes on. -/
theorem Inv.election (h : Inv n) (hterm : n'.term = n.term)
    (hstore : n'.store = n.store) (hdealt : n'.dealt = n.dealt) (hwrites : n.writes ≤ n'.writes)
    (htso : n.term = none → n'.lock.held = true → n'.lock.tso = n'.writes) : Inv n' := by
  constructor
  · exact hdealt ▸ h.nodup
  · intro hnone
    rw [hterm] at hnone
    obtain ⟨hbased, hle, -⟩ := h.down hnone
    refine ⟨⟨?_, ?_⟩, fun r hr => ?_, htso hnone⟩
    · intro k val hval
      obtain ⟨q, d, hq, rfl⟩ := hbased.index k val (hstore ▸ hval)
      exact ⟨q, d, hq.trans hwrites, rfl⟩
    · intro k r hr hr'
      rw [hstore]
      exact hbased.objects k r (lt_of_le_of_lt hwrites hr) hr'
    · exact (hle r (hdealt ▸ hr)).trans hwrites
  · intro c hc
    rw [hterm] at hc
    rw [hdealt]
    exact h.up c hc

theorem Node.readTs_of_none {n : Node cfg} (h : n.term = none) : n.readTs = n.writes := by
  simp [Node.readTs, h]

theorem inv_step (h : Inv n) (hs : Step Behind n n') : Inv n' := by
  obtain ⟨a, ha, hG⟩ := hs
  cases a with
  | get =>
    simp only [Node.step] at ha
    split at ha
    · obtain rfl := Option.some.inj ha
      exact h
    · obtain rfl := Option.some.inj ha
      exact h.election rfl rfl rfl (le_refl _) fun hnone _ => Node.readTs_of_none hnone
  | create record =>
    simp only [Node.step] at ha
    split at ha
    · obtain rfl := Option.some.inj ha
      exact h
    · obtain rfl := Option.some.inj ha
      refine h.election rfl rfl rfl (Nat.le_succ _) fun hnone _ => ?_
      rw [Node.readTs_of_none hnone]
  | update record =>
    simp only [Node.step] at ha
    split at ha
    · obtain rfl := Option.some.inj ha
      refine h.election rfl rfl rfl (Nat.le_succ _) fun hnone _ => ?_
      rw [Node.readTs_of_none hnone]
    · obtain rfl := Option.some.inj ha
      exact h
  | startLeading => exact (h.startLeading ha).1
  | serve l => exact h.serve ha
  | restart => exact h.restart hG ha

theorem inv_fresh (cfg : Config) : Inv (fresh cfg) := by
  refine ⟨List.nodup_nil, fun _ => ⟨⟨?_, ?_⟩, by simp [fresh], nofun⟩, nofun⟩
  · intro k val hval
    simp [fresh] at hval
  · intro k r _ _
    simp [fresh]

theorem inv_of_reach {n : Node cfg} (h : Reach Behind (fresh cfg) n) : Inv n := by
  induction h with
  | refl => exact inv_fresh cfg
  | tail _ hs ih => exact inv_step ih hs

/-- A term starts at a version that covers the store, and no revision is dealt twice. -/
theorem version_covers_store {n : Node cfg} (h : Reach Behind (fresh cfg) n) :
    n.allDealt.Nodup ∧ ∀ n', n.step .startLeading = some n' →
      Covers n.lock.tso n.store ∧ ∃ c, n'.term = some c ∧
        c.state.committedRevision = n.lock.tso := by
  have hinv := inv_of_reach h
  refine ⟨hinv.nodup_allDealt, fun n' hs => ?_⟩
  obtain ⟨-, -, hbased, hlt, hterm⟩ := hinv.startLeading hs
  exact ⟨hbased.covers (by omega), _, hterm, rfl⟩

/-- Follow a schedule while the actions pass a check. -/
def Node.run (ok : Node cfg → Action cfg → Bool) (n : Node cfg) :
    List (Action cfg) → Option (Node cfg)
  | [] => some n
  | a :: as => if ok n a then (n.step a).bind fun n' => n'.run ok as else none

theorem reach_of_run {G : Node cfg → Action cfg → Prop} {ok : Node cfg → Action cfg → Bool}
    (hok : ∀ n a, ok n a = true → G n a) (as : List (Action cfg))
    (h : n.run ok as = some n') : Reach G n n' := by
  induction as generalizing n with
  | nil =>
    obtain rfl := Option.some.inj h
    exact .refl
  | cons a as ih =>
    simp only [Node.run] at h
    split at h
    · next hcheck =>
      obtain ⟨n₁, hstep, hrun⟩ := Option.bind_eq_some_iff.mp h
      exact .head ⟨a, hstep, hok n a hcheck⟩ (ih hrun)
    · cases h

def behindCheck (n : Node cfg) : Action cfg → Bool
  | .restart => n.term.all fun c => decide (c.state.dealRevision ≤ n.readTs)
  | _ => true

theorem behind_of_check (n : Node cfg) (a : Action cfg) (h : behindCheck n a = true) :
    Behind n a := by
  cases a with
  | restart =>
    intro c hc
    simpa [behindCheck, hc] using h
  | _ => trivial

/-- The process takes the lease and leads. -/
def firstTerm : List (Action sampleConfig) := [.create [1], .startLeading]

/-- The goroutine of a `Create` that succeeds, when it is the one with the given index. -/
def createBy (i : ℕ) (key : Bytes) : List (Action sampleConfig) :=
  [.serve (.restart 3), .serve (.thread 3 (.request (.create ⟨key, [99], 0⟩))),
    .serve (.thread i .none), .serve (.thread i (.kv .ok)), .serve (.thread i .none),
    .serve (.thread i .none)]

/-- A `Delete` of a key that is not there. -/
def deleteBy (i : ℕ) (key : Bytes) : List (Action sampleConfig) :=
  [.serve (.restart 3), .serve (.thread 3 (.request (.delete ⟨key, 0⟩))),
    .serve (.thread i (.kv .ok)), .serve (.thread i .none), .serve (.thread i .none),
    .serve (.thread i .none)]

/-- The next process takes the lease over. -/
def takeOver : List (Action sampleConfig) := [.restart, .get, .update [2]]

theorem version_covers_store_create : ∃ n n' : Node sampleConfig,
    Reach Behind (fresh sampleConfig) n ∧ n.step .startLeading = some n' ∧
      n.store.get (encodeObjectKey [97] 2) = some [99] ∧ Covers n.lock.tso n.store := by
  have hrun :
    (((fresh sampleConfig).run behindCheck (firstTerm ++ createBy 4 [97] ++ takeOver)).bind
      fun n => (n.step .startLeading).map fun _ => n.store.get (encodeObjectKey [97] 2)) =
      some (some [99]) := by
    rfl
  obtain ⟨n, hn, hrun⟩ := Option.bind_eq_some_iff.mp hrun
  obtain ⟨n', hn', hval⟩ := Option.map_eq_some_iff.mp hrun
  have hreach := reach_of_run behind_of_check _ hn
  exact ⟨n, n', hreach, hn', hval, ((version_covers_store hreach).2 n' hn').1⟩

/-- Two deletions use up revisions without a transaction, so the version of the next term is
below the revision of the key that was created after them, and is dealt again. -/
theorem version_below_store : ∃ n n' : Node sampleConfig,
    Reach (fun _ _ => True) (fresh sampleConfig) n ∧ n.step .startLeading = some n' ∧
      n.lock.tso = 3 ∧ n.store.get (encodeObjectKey [97] 4) = some [99] ∧
      ∃ n'', Reach (fun _ _ => True) n' n'' ∧ n''.allDealt = [2, 3, 4, 4] := by
  have hrun : (((fresh sampleConfig).run (fun _ _ => true)
      (firstTerm ++ deleteBy 4 [98] ++ deleteBy 5 [98] ++ createBy 6 [97] ++
        takeOver)).bind fun n =>
      (n.step .startLeading).bind fun n' =>
        (n'.run (fun _ _ => true) (createBy 4 [98])).map fun n'' =>
        (n.lock.tso, n.store.get (encodeObjectKey [97] 4), n''.allDealt)) =
      some (3, some [99], [2, 3, 4, 4]) := by
    rfl
  obtain ⟨n, hn, hrun⟩ := Option.bind_eq_some_iff.mp hrun
  obtain ⟨n', hn', hrun⟩ := Option.bind_eq_some_iff.mp hrun
  obtain ⟨n'', hn'', hval⟩ := Option.map_eq_some_iff.mp hrun
  simp only [Prod.mk.injEq] at hval
  obtain ⟨htso, hget, hdealt⟩ := hval
  exact ⟨n, n', reach_of_run (fun _ _ _ => trivial) _ hn, hn', htso, hget, n'',
    reach_of_run (fun _ _ _ => trivial) _ hn'', hdealt⟩

end Restart
end KubeBrain

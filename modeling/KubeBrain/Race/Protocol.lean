import KubeBrain.Backend.Footprint
import KubeBrain.Lib.Outline
import KubeBrain.Race.Optimistic
import KubeBrain.Scan.Point

/-! Creations and updates that race for one key. All of them expect the state the key is in
when the race begins; the first batch to commit decides it. -/
namespace KubeBrain

open Interleaving Coder

/-- The answer `Succeeded` of a creation or update that returns no error. -/
def Outcome.answered : Outcome → Option Bool
  | .created (.ok r) => some r.succeeded
  | .updated (.ok r) => some r.succeeded
  | _ => .none

namespace Race

/-- What the index says of a key. -/
inductive Expected where
  | absent
  | deleted (revision : ℕ)
  | live (revision : ℕ)
  deriving DecidableEq, Repr

namespace Expected

def index : Expected → Option Bytes
  | absent => none
  | deleted p => some (indexValue p true)
  | live p => some (indexValue p false)

def revision : Expected → ℕ
  | absent => 0
  | deleted p | live p => p

end Expected

/-- Requests that expect the key to be in a state. -/
def Joins (key : Bytes) (e : Expected) : Request → Prop
  | .create r => r.key = key ∧ ∀ p, e ≠ .live p
  | .update r => r.kv.key = key ∧ match e with
    | .live p => r.kv.revision = p ∧ p ≠ 0
    | _ => r.kv.revision = 0
  | _ => False

/-- Contents in which a race can begin. -/
structure Scene (key : Bytes) (e : Expected) (start : ℕ) (base : Store) : Prop where
  start_lt : start < 2 ^ 63
  index : base.get (encodeRevisionKey key) = e.index
  revision_le : e.revision ≤ start
  decodes : ∀ x v, base.get x = some v → decode x ≠ .panic

def createOps (key : Bytes) (rev : ℕ) (val : Bytes) (ttl : ℤ) : List BatchOp :=
  [.putIfNotExist (encodeRevisionKey key) (uint64ToBytes rev) ttl,
    .put (encodeObjectKey key rev) val ttl]

def casOps (key : Bytes) (rev : ℕ) (old val : Bytes) (ttl : ℤ) : List BatchOp :=
  [.cas (encodeRevisionKey key) (uint64ToBytes rev) old ttl, .put (encodeObjectKey key rev) val ttl]

/-- The first batch of a request. -/
def Expected.attempt (key : Bytes) (rev : ℕ) (val : Bytes) (ttl : ℤ) : Expected → List BatchOp
  | absent | deleted _ => createOps key rev val ttl
  | live p => casOps key rev (uint64ToBytes p) val ttl

section Storage

variable {a : TxnEngine} {key : Bytes} {e : Expected} {start : ℕ} {base : Store}
  {kv kv' : Optimistic.State} {ts rev : ℕ} {val : Bytes} {ttl : ℤ} {r : Option Err}

/-- The race is decided: one batch has committed, and the index names its revision. -/
structure Decided (key : Bytes) (start : ℕ) (base : Store) (n : ℕ) (kv : Optimistic.State) :
    Prop where
  newer : start < n
  lt : n < 2 ^ 63
  index : kv.now.get (encodeRevisionKey key) = some (uint64ToBytes n)
  commits : ∃ keys, kv.commits = [(base, keys)] ∧ encodeRevisionKey key ∈ keys
  decodes : ∀ x v, kv.now.get x = some v → decode x ≠ .panic

theorem Decided.ne_init {n : ℕ} (h : Decided key start base n kv) : kv ≠ Optimistic.init base := by
  rintro rfl
  obtain ⟨keys, hcommits, -⟩ := h.commits
  cases hcommits

private theorem revision_ne_object (hrev : start < rev) (hlt : rev < 2 ^ 63) :
    encodeRevisionKey key ≠ encodeObjectKey key rev := by
  intro h
  have := (encodeObjectKey_injective (by norm_num) (by omega) h).2
  omega

private theorem decode_object (hlt : rev < 2 ^ 63) : decode (encodeObjectKey key rev) ≠ .panic := by
  rw [decode_encodeObjectKey key (by omega)]
  exact nofun

/-- A batch that writes both keys decides the race. -/
private theorem decided_write (hs : Scene key e start base) (hrev : start < rev)
    (hlt : rev < 2 ^ 63) {first : BatchOp} (hkey : first.key = encodeRevisionKey key)
    (hwrite : first.write base = base.insert (encodeRevisionKey key) (uint64ToBytes rev)) :
    Decided key start base rev
      ((Optimistic.init base).write [first, .put (encodeObjectKey key rev) val ttl]) := by
  have hne : encodeRevisionKey key ≠ encodeObjectKey key rev := revision_ne_object hrev hlt
  have hnow : ((Optimistic.init base).write
      [first, .put (encodeObjectKey key rev) val ttl]).now =
      (base.insert (encodeRevisionKey key) (uint64ToBytes rev)).insert
        (encodeObjectKey key rev) val := by
    rw [← hwrite]
    rfl
  refine ⟨hrev, hlt, ?_, ⟨_, rfl, by simp [hkey]⟩, fun x v hx => ?_⟩
  · rw [hnow, SortedMap.get_insert_of_ne _ _ hne, SortedMap.get_insert_self]
  · rw [hnow, SortedMap.get_insert] at hx
    split at hx
    · next h => exact h ▸ decode_object hlt
    · rw [SortedMap.get_insert] at hx
      split at hx
      · next h =>
        have hdecode : decode (encodeRevisionKey key) ≠ .panic := decode_object (by norm_num)
        exact h ▸ hdecode
      · exact hs.decodes x v hx

/-- Before the race is decided, a batch whose compare passes commits. -/
private theorem commit_init (hts : ts ≤ (Optimistic.init base).commits.length) {ops : List BatchOp}
    (hpass : ∃ st, a.runList a.firstIdx base ops = .ok st) :
    a.commit (Optimistic.init base) ts ops = ((Optimistic.init base).write ops, none) := by
  obtain rfl : ts = (Optimistic.init base).commits.length := Nat.le_antisymm hts (Nat.zero_le _)
  rw [Optimistic.commit_passed hpass, Optimistic.not_conflicts_now, if_neg (by simp)]

/-- What a transaction may see once the race is decided: the contents before the decision,
or the ones after it. -/
private theorem Decided.snapshot {n : ℕ} (h : Decided key start base n kv)
    (hts : ts ≤ kv.commits.length) :
    ts = 0 ∧ kv.snapshot ts = base ∨ ts = kv.commits.length ∧ kv.snapshot ts = kv.now := by
  obtain ⟨keys, hcommits, -⟩ := h.commits
  have hlen : kv.commits.length = 1 := by rw [hcommits]; rfl
  rcases Nat.eq_zero_or_pos ts with rfl | hpos
  · exact .inl ⟨rfl, by simp [Optimistic.State.snapshot, hcommits]⟩
  · obtain rfl : ts = kv.commits.length := by omega
    exact .inr ⟨rfl, Optimistic.snapshot_now⟩

/-- A transaction that began before the decision is aborted. -/
private theorem Decided.conflicts {n : ℕ} (h : Decided key start base n kv) {ops : List BatchOp}
    (hops : encodeRevisionKey key ∈ a.watchedKeys ops) : a.conflicts kv 0 ops = true := by
  obtain ⟨keys, hcommits, hmem⟩ := h.commits
  refine List.any_eq_true.mpr ⟨_, hops, ?_⟩
  simp [Optimistic.State.changedSince, hcommits, hmem]

private theorem mem_watchedKeys_create :
    encodeRevisionKey key ∈ a.watchedKeys (createOps key rev val ttl) := by
  cases a <;> simp [TxnEngine.watchedKeys, createOps, BatchOp.readKey, BatchOp.key]

private theorem mem_watchedKeys_cas {old : Bytes} :
    encodeRevisionKey key ∈ a.watchedKeys (casOps key rev old val ttl) := by
  cases a <;> simp [TxnEngine.watchedKeys, casOps, BatchOp.readKey, BatchOp.key]

/-- A value of the index that a creation met: the tombstone it was to replace, or the
revision that decided the race. -/
def Found (key : Bytes) (e : Expected) (start : ℕ) (base : Store) (kv : Optimistic.State)
    (v : Bytes) : Prop :=
  (∃ p, e = .deleted p ∧ v = indexValue p true) ∨
    ∃ n, v = uint64ToBytes n ∧ Decided key start base n kv

/-- How a creation is refused: with the value it met, or with an error after which the index
can be read. -/
def Refused (key : Bytes) (e : Expected) (start : ℕ) (base : Store) (kv : Optimistic.State)
    (r : Option Err) : Prop :=
  (∃ x v, r = some (.conflict 0 x v) ∧ Found key e start base kv v) ∨
    ∃ err, r = some err ∧ err.isCASFailed = true ∧ (∀ x v, err ≠ .conflict 0 x v) ∧
      kv.now.get (encodeRevisionKey key) ≠ none

private theorem refused_of_found {old : Bytes} (hfound : Found key e start base kv old)
    (hpresent : kv.now.get (encodeRevisionKey key) ≠ none) :
    Refused key e start base kv
      (some (Solo.commitError (.conflict a.firstIdx (encodeRevisionKey key) (some old)))) := by
  cases a with
  | badger => exact .inl ⟨_, _, rfl, hfound⟩
  | tikv => exact .inr ⟨_, rfl, rfl, nofun, hpresent⟩

/-- The engine aborts a creation only where `Commit` reports a failed compare. -/
private theorem refused_of_aborted (hquiet : a = .badger → r ≠ some a.conflictError)
    (hr : r = some a.conflictError) (hpresent : kv.now.get (encodeRevisionKey key) ≠ none) :
    Refused key e start base kv r := by
  cases a with
  | badger => exact absurd hr (hquiet rfl)
  | tikv => exact .inr ⟨_, hr, rfl, nofun, hpresent⟩

/-- A creation wins, or it is refused. -/
theorem commit_create (hs : Scene key e start base) (he : ∀ p, e ≠ .live p)
    (hkv : kv = Optimistic.init base ∨ ∃ n, Decided key start base n kv) (hrev : start < rev)
    (hlt : rev < 2 ^ 63) (hts : ts ≤ kv.commits.length)
    (hquiet : a = .badger → r ≠ some a.conflictError)
    (hc : a.commit kv ts (createOps key rev val ttl) = (kv', r)) :
    r = none ∧ kv = Optimistic.init base ∧ Decided key start base rev kv' ∨
      kv' = kv ∧ Refused key e start base kv r := by
  have hindex := hs.index
  -- a creation that meets a value reports it
  have hmeets {old : Bytes} (hget : (kv.snapshot ts).get (encodeRevisionKey key) = some old)
      (hfound : Found key e start base kv old)
      (hpresent : kv.now.get (encodeRevisionKey key) ≠ none) :
      kv' = kv ∧ Refused key e start base kv r := by
    have hfail : a.runList a.firstIdx (kv.snapshot ts) (createOps key rev val ttl) = _ :=
      Optimistic.runList_create_present hget
    rw [Optimistic.commit_error hfail] at hc
    obtain ⟨rfl, rfl⟩ := Prod.mk.inj hc
    exact ⟨rfl, refused_of_found hfound hpresent⟩
  have hpasses {st : Store} (hget : st.get (encodeRevisionKey key) = none) :
      ∃ st', a.runList a.firstIdx st (createOps key rev val ttl) = .ok st' :=
    Optimistic.runList_create_absent hget
  rcases hkv with rfl | ⟨n, hn⟩
  · cases e with
    | live p => exact absurd rfl (he p)
    | absent =>
      rw [commit_init hts (hpasses hindex)] at hc
      obtain ⟨rfl, rfl⟩ := Prod.mk.inj hc
      exact .inl ⟨rfl, rfl, decided_write hs hrev hlt rfl rfl⟩
    | deleted p =>
      obtain rfl : ts = (Optimistic.init base).commits.length :=
        Nat.le_antisymm hts (Nat.zero_le _)
      have hpresent : base.get (encodeRevisionKey key) ≠ none := by
        rw [hindex]
        exact nofun
      exact .inr (hmeets hindex (.inl ⟨p, rfl, rfl⟩) hpresent)
  · right
    have hpresent : kv.now.get (encodeRevisionKey key) ≠ none := by
      rw [hn.index]
      exact nofun
    rcases hn.snapshot hts with ⟨rfl, hsnap⟩ | ⟨rfl, hsnap⟩
    · cases e with
      | live p => exact absurd rfl (he p)
      | absent =>
        rw [Optimistic.commit_passed (hpasses (by rw [hsnap]; exact hindex)),
          if_pos (hn.conflicts mem_watchedKeys_create)] at hc
        obtain ⟨rfl, rfl⟩ := Prod.mk.inj hc
        exact ⟨rfl, refused_of_aborted hquiet rfl hpresent⟩
      | deleted p =>
        exact hmeets (by rw [hsnap]; exact hindex) (.inl ⟨p, rfl, rfl⟩) hpresent
    · exact hmeets (by rw [hsnap]; exact hn.index) (.inr ⟨n, rfl, hn⟩) hpresent

/-- A compare-and-swap from the expected state wins, or it fails after the decision. -/
theorem commit_cas (hs : Scene key e start base) {p : ℕ} {d : Bool}
    (hindex : e.index = some (indexValue p d)) (hp : p ≤ start)
    (hkv : kv = Optimistic.init base ∨ ∃ n, Decided key start base n kv) (hrev : start < rev)
    (hlt : rev < 2 ^ 63) (hts : ts ≤ kv.commits.length)
    (hquiet : a = .badger → r ≠ some a.conflictError)
    (hc : a.commit kv ts (casOps key rev (indexValue p d) val ttl) = (kv', r)) :
    r = none ∧ kv = Optimistic.init base ∧ Decided key start base rev kv' ∨
      kv' = kv ∧ (∃ err, r = some err ∧ err.isCASFailed = true) ∧
        ∃ n, Decided key start base n kv := by
  have hbase : base.get (encodeRevisionKey key) = some (indexValue p d) := hs.index.trans hindex
  have hpasses : ∃ st', a.runList a.firstIdx base (casOps key rev (indexValue p d) val ttl) =
      .ok st' := Optimistic.runList_cas_same hbase
  rcases hkv with rfl | ⟨n, hn⟩
  · rw [commit_init hts hpasses] at hc
    obtain ⟨rfl, rfl⟩ := Prod.mk.inj hc
    exact .inl ⟨rfl, rfl, decided_write hs hrev hlt rfl rfl⟩
  · right
    rcases hn.snapshot hts with ⟨rfl, hsnap⟩ | ⟨rfl, hsnap⟩
    · rw [Optimistic.commit_passed (by rw [hsnap]; exact hpasses),
        if_pos (hn.conflicts mem_watchedKeys_cas)] at hc
      obtain ⟨rfl, rfl⟩ := Prod.mk.inj hc
      cases a with
      | badger => exact absurd rfl (hquiet rfl)
      | tikv => exact ⟨rfl, ⟨_, rfl, rfl⟩, n, hn⟩
    · have hne : indexValue p d ≠ uint64ToBytes n := by
        rw [Solo.indexValue_false]
        intro h
        have hlt := hs.start_lt
        have hnewer := hn.newer
        have hnlt := hn.lt
        have := (indexValue_injective (by omega) (by omega) h).1
        omega
      have hfail : a.runList a.firstIdx (kv.snapshot kv.commits.length)
          (casOps key rev (indexValue p d) val ttl) = _ :=
        Optimistic.runList_cas_other (by rw [hsnap]; exact hn.index) hne
      rw [Optimistic.commit_error hfail] at hc
      obtain ⟨rfl, rfl⟩ := Prod.mk.inj hc
      exact ⟨rfl, ⟨_, rfl, rfl⟩, n, hn⟩

end Storage
/-- Where a goroutine is in the race. One that has seen the index knows that it is there. -/
inductive Stage where
  | bystander
  | ready
  | trying
  | seen
  | won
  | lost
  deriving DecidableEq

/-- The stage of a goroutine, and the revision it has dealt and not yet published. -/
structure Ghost where
  stage : Stage
  owed : Option ℕ

/-- Operations of the consumer, the retry worker, the hub and the server. -/
def Bystands (o : Op) : Prop :=
  o.kind ∈ [.revision, .tso, .slot, .queuePush, .cacheAdd, .chanSend] ∨
    o ∈ [.queueHead, .chanRecv, .hubRLock, .hubRUnlock, .accept]

section Spec

variable (key : Bytes) (e : Expected) (start : ℕ)

def Pre (g : Ghost) (o : Op) : Prop :=
  match g.stage with
  | .bystander => Bystands o
  | .ready => ∃ site, o = .deal site ∧ site.prevRevision ≤ start
  | .trying => ∃ w rev val ttl, o = .kv (.commit w (e.attempt key rev val ttl)) ∧
      start < rev ∧ rev < 2 ^ 63
  | .seen => (o = .kv (.get (encodeRevisionKey key)) ∧ ∀ p, e ≠ .live p) ∨
      ∃ w p rev val ttl, o = .kv (.commit w (casOps key rev (indexValue p true) val ttl)) ∧
        e = .deleted p ∧ start < rev ∧ rev < 2 ^ 63
  | .won | .lost => o = .getRevision ∨
      (∃ idx ev, o = .ringStore idx (some ev) ∧ g.owed = some ev.revision ∧
        ev.isUncertain = false) ∨
      g.stage = .lost ∧ ∃ reader lo hi ts limit, o = .kv (.iter reader lo hi ts limit) ∧ hi < lo

/-- The goroutine has read a value of the index. -/
def Judged (v : Bytes) (g g' : Ghost) : Prop :=
  (∃ p, e = .deleted p ∧ v = indexValue p true ∧ g' = { g with stage := .seen }) ∨
    ∃ n, n < 2 ^ 63 ∧ v = uint64ToBytes n ∧ g' = { g with stage := .lost }

/-- A batch that decides the race for its writer. -/
def StageAfter (r : Option Err) (g g' : Ghost) : Prop :=
  match r with
  | none => g' = { g with stage := .won }
  | some err => err.isCASFailed = true ∧ g' = { g with stage := .lost }

/-- A creation that may have met a tombstone. -/
def Tried (r : Option Err) (g g' : Ghost) : Prop :=
  match r with
  | none => g' = { g with stage := .won }
  | some err => (∃ x v, err = .conflict 0 x v ∧ Judged e v g g') ∨
      err.isCASFailed = true ∧ (∀ x v, err ≠ .conflict 0 x v) ∧ g' = { g with stage := .seen }

def Post (g : Ghost) (o : Op) (r : o.Res) (g' : Ghost) : Prop :=
  match o, r with
  | .deal _, r => start < r ∧ r < 2 ^ 63 ∧ g' = ⟨.trying, some r⟩
  | .kv (.commit ..), r => match g.stage, e with
    | .trying, .absent | .trying, .deleted _ => Tried e r g g'
    | _, _ => StageAfter r g g'
  | .kv (.get _), r => ∃ v, r = .ok v ∧ Judged e v g g'
  | .kv (.iter ..), r => g' = g ∧ ∃ items, r = .ok ⟨items, none⟩ ∧ ∀ x ∈ items, decode x.1 ≠ .panic
  | .getRevision, r => g' = g ∧
      ∀ rev, g.owed = some rev → r < rev ∧ rev < r + watchersChanCapacity
  | .ringStore _ (some _), _ => g' = { g with owed := none }
  | .queueHead, r => g' = g ∧ r = none
  | .hubRLock, r => g' = g ∧ r = []
  | _, _ => g' = g

def Fin (g : Ghost) (a : Outcome) : Prop :=
  match g.stage with
  | .bystander => True
  | .won => a.answered = some true
  | .lost => a.answered = some false
  | _ => False

abbrev spec : Spec sig Outcome where
  Ghost := Ghost
  idle := ⟨.ready, none⟩
  Pre := Pre key e start
  Post := Post e start
  Fin := Fin

end Spec

section Programs

variable {key : Bytes} {e : Expected} {start : ℕ} {g : Ghost} {α : Type}

/-- The end of a write of revision `rev`: the race is won, or lost by a failed compare. -/
def Ended (rev : ℕ) (g : Ghost) (err : Option Err) : Prop :=
  g = ⟨.won, some rev⟩ ∧ err = none ∨
    g = ⟨.lost, some rev⟩ ∧ ∃ x, err = some x ∧ x.isCASFailed = true

theorem safe_deal {site : DealSite} (hsite : site.prevRevision ≤ start) :
    (spec key e start).Safe (fun g' a => a.2 = none ∧ start < a.1 ∧ a.1 < 2 ^ 63 ∧
      g' = ⟨.trying, some a.1⟩) ⟨.ready, none⟩ (deal site) := by
  unfold deal
  refine Spec.Safe.call_bind ⟨site, rfl, hsite⟩ fun rev g' hpost => ?_
  obtain ⟨hrev, hlt, rfl⟩ := hpost
  rw [if_neg fun h => absurd h.2 (not_lt.mpr (hsite.trans hrev.le))]
  exact ⟨rfl, hrev, hlt, rfl⟩

/-- A compare-and-swap from a tombstone settles the race for its writer. -/
private theorem safe_recreate {w : Writer} {p rev : ℕ} {val : Bytes} {ttl : ℤ} (he : e = .deleted p)
    (hrev : start < rev) (hlt : rev < 2 ^ 63) :
    (spec key e start).Safe (Ended rev) ⟨.seen, some rev⟩
      (kvCall (.commit w (casOps key rev (indexValue p true) val ttl))) := by
  refine ⟨.inr ⟨w, p, rev, val, ttl, rfl, he, hrev, hlt⟩, fun r g' hpost => ?_⟩
  have hsettled : StageAfter r ⟨.seen, some rev⟩ g' := hpost
  cases r with
  | none => exact .inl ⟨hsettled, rfl⟩
  | some x => exact .inr ⟨hsettled.2, x, rfl, hsettled.1⟩

/-- After a refused creation: a tombstone is replaced, a live key is left alone. -/
private theorem safe_judged {w : Writer} {rev : ℕ} {v val : Bytes} {ttl : ℤ} {g₀ : Ghost}
    (howed : g₀.owed = some rev) (hj : Judged e v g₀ g) (hs : e.revision ≤ start)
    (hrev : start < rev) (hlt : rev < 2 ^ 63) :
    (spec key e start).Safe (Ended rev) g (match parseRevision v with
      | .invalidFormat => pure (some .invalidRevFormat)
      | .ok prevRevision isTombstone =>
        if isTombstone ∧ prevRevision < rev then
          Creator.update w (encodeRevisionKey key) (encodeObjectKey key rev) val
            (uint64ToBytes rev) v ttl
        else pure (some .casFailed)) := by
  rcases hj with ⟨p, rfl, rfl, rfl⟩ | ⟨n, hn, rfl, rfl⟩
  · have hp : p < rev := lt_of_le_of_lt hs hrev
    rw [parseRevision_indexValue (by omega), howed]
    dsimp only
    rw [if_pos ⟨rfl, hp⟩]
    exact safe_recreate rfl hrev hlt
  · rw [Solo.indexValue_false, parseRevision_indexValue (by omega), howed]
    exact .inr ⟨rfl, .casFailed, rfl, rfl⟩

theorem safe_createWithTTL {val : Bytes} {rev : ℕ} {ttl : ℤ} (he : ∀ p, e ≠ .live p)
    (hs : e.revision ≤ start) (hrev : start < rev) (hlt : rev < 2 ^ 63) :
    (spec key e start).Safe (Ended rev) ⟨.trying, some rev⟩
      (Creator.createWithTTL key val rev ttl) := by
  unfold Creator.createWithTTL
  refine Spec.Safe.call_bind ⟨.create key rev, rev, val, ttl, ?_, hrev, hlt⟩ fun r g' hpost => ?_
  · cases e with
    | live p => exact absurd rfl (he p)
    | _ => rfl
  have htried : Tried e r ⟨.trying, some rev⟩ g' := by
    cases e with
    | live p => exact absurd rfl (he p)
    | _ => exact hpost
  cases r with
  | none => exact .inl ⟨htried, rfl⟩
  | some err =>
    rcases htried with ⟨x, v, rfl, hj⟩ | ⟨hcas, hne, rfl⟩
    · exact safe_judged rfl hj hs hrev hlt
    · have hread : Creator.oldRevision err key = kvCall (.get (encodeRevisionKey key)) := by
        unfold Creator.oldRevision
        split
        · exact absurd rfl (hne _ _)
        · rfl
      dsimp only
      rw [if_pos hcas, hread]
      refine Spec.Safe.call_bind (.inl ⟨rfl, he⟩) fun r g' hpost => ?_
      obtain ⟨v, rfl, hj⟩ := hpost
      exact safe_judged rfl hj hs hrev hlt

theorem safe_create {val : Bytes} {lease : ℤ} (he : ∀ p, e ≠ .live p) (hs : e.revision ≤ start) :
    (spec key e start).Safe (fun g' a => start < a.1 ∧ Ended a.1 g' a.2) ⟨.ready, none⟩
      (create key val lease) := by
  unfold create
  refine (safe_deal (Nat.zero_le _)).bind ?_
  rintro g' ⟨rev, err⟩ ⟨herr, hrev, hlt, rfl⟩
  obtain rfl : err = none := herr
  refine (safe_createWithTTL he hs hrev hlt).bind fun g'' err h => ?_
  exact ⟨hrev, h⟩

theorem safe_update {p : ℕ} {val : Bytes} (he : e = .live p) (hs : e.revision ≤ start) :
    (spec key e start).Safe (fun g' a => start < a.1 ∧ Ended a.1 g' a.2) ⟨.ready, none⟩
      (update p key val) := by
  subst he
  unfold update
  refine (safe_deal hs).bind ?_
  rintro g' ⟨rev, err⟩ ⟨herr, hrev, hlt, rfl⟩
  obtain rfl : err = none := herr
  refine Spec.Safe.call_bind ⟨_, rev, val, 0, rfl, hrev, hlt⟩ fun r g'' hpost => ?_
  have hsettled : StageAfter r ⟨.trying, some rev⟩ g'' := hpost
  cases r with
  | none => exact ⟨hrev, .inl ⟨hsettled, rfl⟩⟩
  | some x => exact ⟨hrev, .inr ⟨hsettled.2, x, rfl, hsettled.1⟩⟩

private theorem not_uncertain_of_casFailed {x : Err} (h : x.isCASFailed = true) :
    x.isUncertain = false := by
  cases x <;> first | rfl | cases h

/-- The end of a write whose revision is published. -/
def Published (g : Ghost) (err : Option Err) : Prop :=
  g.stage = .won ∧ err = none ∨ g.stage = .lost ∧ ∃ x, err = some x ∧ x.isCASFailed = true

theorem safe_notify {k v : Bytes} {rev prev : ℕ} {valid : Bool} {verb : Verb} {err : Option Err}
    (hrev : start < rev) (hend : Ended rev g err) :
    (spec key e start).Safe (fun g' _ => Published g' err) g
      (notify k v rev prev valid verb err) := by
  obtain ⟨howed, hpub, hcertain, hpre⟩ : g.owed = some rev ∧ Published { g with owed := none } err ∧
      err.any Err.isUncertain = false ∧ (g.stage = .won ∨ g.stage = .lost) := by
    rcases hend with ⟨rfl, rfl⟩ | ⟨rfl, x, rfl, hx⟩
    · exact ⟨rfl, .inl ⟨rfl, rfl⟩, rfl, .inl rfl⟩
    · exact ⟨rfl, .inr ⟨rfl, x, rfl, hx⟩, not_uncertain_of_casFailed hx, .inr rfl⟩
  have hallowed {o : Op} (ho : o = .getRevision ∨ ∃ idx ev, o = .ringStore idx (some ev) ∧
      g.owed = some ev.revision ∧ ev.isUncertain = false) : Pre key e start g o := by
    rcases hpre with h | h <;> simp only [Pre, h] <;> exact ho.imp_right .inl
  unfold notify
  rw [if_neg (by omega)]
  refine Spec.Safe.call_bind (hallowed (.inl rfl)) fun (cur : ℕ) g' hpost => ?_
  obtain ⟨hg, hroom⟩ := hpost
  have hin : cur < rev ∧ rev < cur + watchersChanCapacity := hroom rev howed
  rw [show g' = g from hg, if_neg (by omega)]
  refine ⟨hallowed (.inr ⟨_, _, rfl, howed, hcertain⟩), fun _ g'' hpost => ?_⟩
  rw [show g'' = { g with owed := none } from hpost]
  exact hpub

/-- A loser reads the key again, and the read does not fail. -/
theorem safe_get (hg : g.stage = .lost) :
    (spec key e start).Safe (fun g' r => g'.stage = .lost ∧ ∀ err, r = .error err →
      err = .keyNotFound)
      g (get key 0) := by
  have hlt : encodeObjectKey key 0 < encodeObjectKey key maxUint64 := by
    rw [← not_le, encodeObjectKey_le_iff key (by decide) (by decide)]
    decide
  have hpre : Pre key e start g (.kv (.iter .point (encodeObjectKey key maxUint64)
      (encodeObjectKey key 0) 0 1)) := by
    simp only [Pre, hg]
    exact .inr (.inr ⟨trivial, _, _, _, _, _, rfl, hlt⟩)
  have hinternal : (spec key e start).Safe (fun g' r => g' = g ∧
      ∀ err, r = .error err → err = .keyNotFound) g (getInternalVal .point key 0) := by
    unfold getInternalVal
    refine Spec.Safe.call_bind hpre fun r g' hpost => ?_
    obtain ⟨hg', items, rfl, hdecodes⟩ := hpost
    rw [show g' = g from hg']
    have hnotFound : ∀ err : Err, (Except.error .keyNotFound : Except Err (Bytes × ℕ)) =
        .error err → err = .keyNotFound := by
      intro err h
      exact (Except.error.inj h).symm
    cases items with
    | nil => exact ⟨rfl, hnotFound⟩
    | cons x rest =>
      have hx := hdecodes x List.mem_cons_self
      dsimp only
      split
      · next hpanic => exact absurd hpanic hx
      · split
        · exact ⟨rfl, hnotFound⟩
        · exact ⟨rfl, (by simp)⟩
      · exact ⟨rfl, hnotFound⟩
  unfold get
  refine hinternal.bind ?_
  rintro g' r ⟨rfl, herr⟩
  cases r with
  | error err => exact ⟨hg, fun err' h => herr err' h⟩
  | ok a =>
    dsimp only
    split
    · exact ⟨hg, fun err h => (Except.error.inj h).symm⟩
    · exact ⟨hg, (by simp)⟩

theorem safe_handleCreate {r : CreateRequest} (hr : Joins key e (.create r))
    (hs : e.revision ≤ start) :
    (spec key e start).Safe (fun g' a => Fin g' (.created a)) ⟨.ready, none⟩ (handleCreate r) := by
  obtain ⟨rfl, he⟩ := hr
  unfold handleCreate
  refine (safe_create he hs).bind ?_
  rintro g₁ ⟨rev, err⟩ ⟨hrev, hend⟩
  refine (safe_notify hrev hend).bind fun g₂ _ hpub => ?_
  rcases hpub with ⟨hstage, rfl⟩ | ⟨hstage, x, rfl, hx⟩
  · simp [Fin, hstage, Outcome.answered]
  · simp [Fin, hstage, Outcome.answered, hx]

theorem safe_writeUpdate {r : UpdateRequest} (hr : Joins key e (.update r))
    (hs : e.revision ≤ start) :
    (spec key e start).Safe (fun g' a => Published g' a.2) ⟨.ready, none⟩ (writeUpdate r) := by
  obtain ⟨rfl, hr⟩ := hr
  unfold writeUpdate
  split
  · next hzero =>
    have he (p : ℕ) : e ≠ .live p := by
      rintro rfl
      exact hr.2 (hr.1.symm.trans hzero)
    refine (safe_create he hs).bind ?_
    rintro g₁ ⟨rev, err⟩ ⟨hrev, hend⟩
    exact (safe_notify hrev hend).bind fun g₂ _ hpub => hpub
  · next hpos =>
    cases e with
    | absent => exact absurd hr hpos
    | deleted p => exact absurd hr hpos
    | live p =>
      obtain ⟨rfl, -⟩ := hr
      refine (safe_update rfl hs).bind ?_
      rintro g₁ ⟨rev, err⟩ ⟨hrev, hend⟩
      exact (safe_notify hrev hend).bind fun g₂ _ hpub => hpub

theorem safe_handleUpdate {r : UpdateRequest} (hr : Joins key e (.update r))
    (hs : e.revision ≤ start) :
    (spec key e start).Safe (fun g' a => Fin g' (.updated a)) ⟨.ready, none⟩ (handleUpdate r) := by
  unfold handleUpdate
  refine (safe_writeUpdate hr hs).bind ?_
  rintro g₁ ⟨rev, err⟩ hpub
  rcases hpub with ⟨hstage, herr⟩ | ⟨hstage, x, herr, hx⟩
  · obtain rfl : err = none := herr
    simp [Fin, hstage, Outcome.answered]
  · obtain rfl : err = some x := herr
    dsimp only
    rw [if_pos hx, hr.1]
    refine (safe_get hstage).bind ?_
    rintro g₂ r ⟨hlost, herr⟩
    split
    · simp [Fin, hlost, Outcome.answered]
    · next getErr hne => exact absurd (herr getErr rfl) fun h => hne (by rw [h])
    · simp [Fin, hlost, Outcome.answered]

/-- A request of the race runs from its start to a verdict. -/
theorem safe_handle {cfg : Config} {r : Request} (hr : Joins key e r) (hs : e.revision ≤ start) :
    (spec key e start).Safe Fin ⟨.ready, none⟩ (Leader.handle cfg r) := by
  cases r with
  | create r => exact (safe_handleCreate hr hs).bind fun _ _ h => h
  | update r => exact (safe_handleUpdate hr hs).bind fun _ _ h => h
  | _ => exact hr.elim

end Programs

end Race
end KubeBrain

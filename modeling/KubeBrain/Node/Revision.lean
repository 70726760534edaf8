import KubeBrain.Backend.Ops
import KubeBrain.Lib.Rely

/-! Read revisions of a node that asks the leader for its committed revision:
`pkg/server/service/revision`, and the start of leading on the node itself. -/
namespace KubeBrain

open Interleaving

namespace Node

inductive Schema where
  | http
  | https
  deriving DecidableEq

/-- Errors of a request to the leader; `mismatch` makes the next schema be tried. -/
inductive SyncErr where
  | mismatch
  | noSchema
  | other (n : ℕ)
  deriving DecidableEq

inductive Flown where
  /-- The caller makes the request of this flight. -/
  | lead (flight : ℕ)
  /-- The request of this flight is under way already. -/
  | wait (flight : ℕ)

inductive Op where
  | isLeader
  | setLeader
  /-- The version in the resource lock when the node has won the election. -/
  | elected
  | flightDo
  | flightDone (flight : ℕ) (r : Except SyncErr ℕ)
  | flightWait (flight : ℕ)
  | loadSchema
  | storeSchema (s : Schema)
  | getRevisionFromLeader (flight : ℕ)
  | getRevision
  /-- The revision of the event in a slot of the ring buffer, if there is one. -/
  | ringLoad (slot : ℕ)
  | storeCommitted (revision : ℕ)
  | loadDeal
  | casDeal (old new : ℕ)
  | accept

abbrev Op.Res : Op → Type
  | isLeader => Bool
  | elected => ℕ
  | flightDo => Flown
  | flightWait _ => Except SyncErr ℕ
  | loadSchema => Schema
  | getRevisionFromLeader _ => Except SyncErr ℕ
  | getRevision => ℕ
  | ringLoad _ => Option ℕ
  | loadDeal => ℕ
  | _ => Unit

abbrev sig : Sig := ⟨Op, Op.Res⟩

abbrev M (α : Type) := Prog sig α

abbrev call (o : Op) : M o.Res := Prog.call (S := sig) o

/-- `SetCurrentRevision` of the backend, that is `tso.Commit`. -/
def setCurrentRevision (revision : ℕ) : M Unit := do
  call (.storeCommitted revision)
  let preTSO ← call .loadDeal
  if preTSO < revision then call (.casDeal preTSO revision) else pure ()

def getRetrySchemas (enableTLS : Bool) : M (List Schema) :=
  if enableTLS then do
    match ← call .loadSchema with
    | .http => pure [.http, .https]
    | .https => pure [.https, .http]
  else pure [.http]

/-- Try the schemas one by one while they do not match the leader's. -/
def trySchemas (flight : ℕ) : List Schema → M (Except SyncErr ℕ)
  | [] => pure (.error .noSchema)
  | schema :: rest => do
    call (.storeSchema schema)
    match ← call (.getRevisionFromLeader flight) with
    | .ok rev => pure (.ok rev)
    | .error .mismatch => trySchemas flight rest
    | .error err => pure (.error err)

def singleFlightGetRevisionFromLeader (enableTLS : Bool) : M (Except SyncErr ℕ) := do
  match ← call .flightDo with
  | .wait flight => call (.flightWait flight)
  | .lead flight =>
    let schemas ← getRetrySchemas enableTLS
    let r ← trySchemas flight schemas
    call (.flightDone flight r)
    pure r

/-- `SyncReadRevision`. -/
def syncReadRevision (enableTLS : Bool) : M (Option SyncErr) := do
  if ← call .isLeader then pure none
  else
    match ← singleFlightGetRevisionFromLeader enableTLS with
    | .error err => pure (some err)
    | .ok currentRevision =>
      setCurrentRevision currentRevision
      pure none

/-- `OnStartedLeading`. -/
def onStartedLeading : M Unit := do
  let version ← call .elected
  setCurrentRevision version
  call .setLeader

/-- The part of `collectStorageWriteEvents` that touches the revisions. -/
def collectStorageWriteEvents : M Unit := do
  let cur ← call .getRevision
  match ← call (.ringLoad ((cur + 1) % watchersChanCapacity)) with
  | none => pure ()
  | some revision => setCurrentRevision revision

inductive Outcome where
  | none
  | synced (err : Option SyncErr)
  deriving DecidableEq

abbrev Goroutine := Thread sig Outcome

def syncer (enableTLS : Bool) : Goroutine where
  prog := do let err ← syncReadRevision enableTLS; pure (.synced err)

def elector : Goroutine where
  prog := do onStartedLeading; pure .none

def consumer : Goroutine where
  prog := .ret .none
  again := some fun _ => do collectStorageWriteEvents; pure .none

def server : Goroutine where
  prog := .ret .none
  again := some fun _ => do call .accept; pure .none

/-- The revisions that were read at the leader for a flight, and its result. -/
structure Flight where
  reads : List ℕ
  result : Option (Except SyncErr ℕ)

structure State where
  committedRevision : ℕ
  dealRevision : ℕ
  leader : Bool
  /-- Committed revision of the other node that leads. -/
  remote : ℕ
  schema : Schema
  flights : List Flight
  current : Option ℕ
  /-- The node has won the election. -/
  won : Bool
  /-- Revisions that were obtained, at the leader, by the election or from the ring buffer, since
  another revision was stored last. -/
  obtained : List ℕ

inductive Choice where
  | none
  | fail (e : SyncErr)
  | version (v : ℕ)
  | advance (revision : ℕ)

def exec (enableTLS : Bool) (s : State) (_outs : List (Option Outcome)) (_i : ℕ) :
    (o : Op) → Choice → Option (State × o.Res × Option Goroutine)
  | .isLeader, _ => some (s, s.leader, none)
  | .setLeader, _ => some ({ s with leader := true }, (), none)
  | .elected, .version v =>
    -- the elector runs once
    if s.won then none else some ({ s with won := true, obtained := v :: s.obtained }, v, none)
  | .flightDo, _ => match s.current with
    | some flight => some (s, .wait flight, none)
    | none =>
      some ({ s with flights := s.flights ++ [⟨[], none⟩], current := some s.flights.length },
        .lead s.flights.length, none)
  | .flightDone flight r, _ =>
    some ({ s with
      flights := s.flights.modify flight fun f => { f with result := some r }
      current := if s.current = some flight then none else s.current }, (), none)
  | .flightWait flight, _ => match (s.flights[flight]?).bind Flight.result with
    | none => none
    | some r => some (s, r, none)
  | .loadSchema, _ => some (s, s.schema, none)
  | .storeSchema schema, _ => some ({ s with schema }, (), none)
  | .getRevisionFromLeader _, .fail e => some (s, .error e, none)
  | .getRevisionFromLeader flight, .none =>
    some ({ s with
      flights := s.flights.modify flight fun f => { f with reads := f.reads ++ [s.remote] }
      obtained := s.remote :: s.obtained }, .ok s.remote, none)
  | .getRevision, _ => some (s, s.committedRevision, none)
  | .ringLoad _, .none => some (s, none, none)
  | .ringLoad slot, .version v =>
    -- events are put into the ring by writes, which only the leader serves
    if s.leader ∧ v % watchersChanCapacity = slot then
      some ({ s with obtained := v :: s.obtained }, some v, none)
    else none
  | .storeCommitted revision, _ =>
    some ({ s with
      committedRevision := revision
      obtained := s.obtained.filter (· = revision) }, (), none)
  | .loadDeal, _ => some (s, s.dealRevision, none)
  | .casDeal old new, _ =>
    some ({ s with dealRevision := if s.dealRevision = old then new else s.dealRevision }, (), none)
  | .accept, _ => some (s, (), some (syncer enableTLS))
  | _, _ => none

/-- The leader commits. -/
def env (s : State) : Choice → Option State
  | .advance revision => if s.remote ≤ revision then some { s with remote := revision } else none
  | _ => none

/-- A node that serves reads while another node leads, and may win the election. -/
def machine (enableTLS : Bool) : Machine sig Outcome where
  State := State
  Choice := Choice
  exec := exec enableTLS
  env := env

def initState (enableTLS : Bool) (revision remote : ℕ) : State where
  committedRevision := revision
  dealRevision := revision
  leader := false
  remote := remote
  schema := if enableTLS then .https else .http
  flights := []
  current := none
  won := false
  obtained := []

def init (enableTLS : Bool) (revision remote : ℕ) : Interleaving.Config (machine enableTLS) :=
  ⟨initState enableTLS revision remote, [server, elector, consumer]⟩

/-- Committed revision of whichever node leads. -/
def State.leaderRevision (s : State) : ℕ := if s.leader then s.committedRevision else s.remote

variable {s s' : State}

/-- Nothing is overtaken. Between the moment a revision is obtained and the moment it is stored,
no other revision is stored; no call joins a flight that has read the leader's revision already;
and the former leader commits nothing and answers nobody once this node has won the election.
The version of the election is not below the former leader's committed revision, and the ring
buffer has no event below the node's own. -/
def NotOvertaken (enableTLS : Bool) : Guard (machine enableTLS) := fun s mv =>
  let s : State := s
  match mv with
  | .op (.storeCommitted revision) _ => revision ∈ s.obtained
  | .op .flightDo _ => ∀ flight f, s.current = some flight →
      s.flights[flight]? = some f → f.reads = []
  | .op (.getRevisionFromLeader _) .none => s.won = false
  | .op .elected (.version v) => s.remote ≤ v
  | .op (.ringLoad _) (.version v) => s.committedRevision ≤ v
  | .env (.advance _) => s.won = false
  | _ => True

/-- What holds between a state and a later one: nothing moves backwards, and what is read for
a flight from now on is not below what the leader has committed now. -/
structure Advanced (s s' : State) : Prop where
  committed : s.committedRevision ≤ s'.committedRevision
  remote : s.remote ≤ s'.remote
  leader : s.leader = true → s'.leader = true
  takeover : s.leader = false → s'.leader = true → s.remote ≤ s'.committedRevision
  won : s.won = true → s'.won = true ∧ s'.remote = s.remote
  flights : ∀ (i : ℕ) (f : Flight), s.flights[i]? = some f → ∃ f' : Flight,
    s'.flights[i]? = some f' ∧ ∃ more, f'.reads = f.reads ++ more ∧ ∀ r ∈ more, s.remote ≤ r

/-- Flights may change as long as nothing that was read is lost. -/
theorem Advanced.of_flights (hc : s.committedRevision ≤ s'.committedRevision)
    (hr : s.remote = s'.remote) (hl : s'.leader = s.leader) (hw : s.won = true → s'.won = true)
    (hf : ∀ (i : ℕ) (f : Flight), s.flights[i]? = some f → ∃ f' : Flight,
      s'.flights[i]? = some f' ∧ ∃ more, f'.reads = f.reads ++ more ∧ ∀ r ∈ more, s.remote ≤ r) :
    Advanced s s' := by
  refine ⟨hc, hr.le, fun h => hl.trans h, fun h h' => ?_, fun h => ⟨hw h, hr.symm⟩, hf⟩
  rw [hl, h] at h'
  cases h'

theorem Advanced.of_same (hc : s.committedRevision ≤ s'.committedRevision)
    (hr : s.remote = s'.remote) (hl : s'.leader = s.leader) (hw : s.won = true → s'.won = true)
    (hf : s'.flights = s.flights) : Advanced s s' :=
  .of_flights hc hr hl hw fun i f h => ⟨f, hf ▸ h, [], by simp, by simp⟩

theorem Advanced.refl (s : State) : Advanced s s := .of_same (le_refl _) rfl rfl id rfl

theorem Advanced.trans {s₁ s₂ s₃ : State} (h₁ : Advanced s₁ s₂) (h₂ : Advanced s₂ s₃) :
    Advanced s₁ s₃ := by
  constructor
  · exact h₁.committed.trans h₂.committed
  · exact h₁.remote.trans h₂.remote
  · exact fun h => h₂.leader (h₁.leader h)
  · intro h h'
    cases hl : s₂.leader with
    | true => exact (h₁.takeover h hl).trans h₂.committed
    | false => exact h₁.remote.trans (h₂.takeover hl h')
  · intro h
    obtain ⟨hw, hr⟩ := h₁.won h
    obtain ⟨hw', hr'⟩ := h₂.won hw
    exact ⟨hw', hr'.trans hr⟩
  · intro i f hf
    obtain ⟨f₂, hf₂, more₁, hr₁, hm₁⟩ := h₁.flights i f hf
    obtain ⟨f₃, hf₃, more₂, hr₂, hm₂⟩ := h₂.flights i f₂ hf₂
    refine ⟨f₃, hf₃, more₁ ++ more₂, by rw [hr₂, hr₁, List.append_assoc], ?_⟩
    intro r hr
    rcases List.mem_append.mp hr with hr | hr
    · exact hm₁ r hr
    · exact h₁.remote.trans (hm₂ r hr)

/-- Whoever leads, the revision that was committed when a call found this node leading. -/
theorem Advanced.leaderRevision_le (h : Advanced s s') (hl : s'.leader = true) :
    s.leaderRevision ≤ s'.committedRevision := by
  unfold State.leaderRevision
  split
  · exact h.committed
  · next hs => exact h.takeover (by simpa using hs) hl

theorem Advanced.leaderRevision_eq (h : Advanced s s') (hl : s'.leader = false) :
    s.leaderRevision = s.remote := by
  unfold State.leaderRevision
  split
  · next hs => rw [h.leader hs] at hl; cases hl
  · rfl

structure Inv (s : State) : Prop where
  current : ∀ flight, s.current = some flight → flight < s.flights.length
  /-- The result of a flight is a revision that was read for it. -/
  results : ∀ (i : ℕ) (f : Flight) (v : ℕ), s.flights[i]? = some f → f.result = some (.ok v) →
    v ∈ f.reads
  /-- What was obtained is not below the node's revision, as long as nothing else is stored. -/
  obtained : ∀ v ∈ s.obtained, s.committedRevision ≤ v
  /-- Before the election everything came from the leader. -/
  follows : s.won = false → s.committedRevision ≤ s.remote ∧ ∀ v ∈ s.obtained, v ≤ s.remote
  leader : s.leader = true → s.won = true

/-- A revision that is obtained and is not below the node's. -/
theorem Inv.obtain (h : Inv s) {v : ℕ} (hv : s.committedRevision ≤ v)
    (hr : s.won = false → v ≤ s.remote) : Inv { s with obtained := v :: s.obtained } where
  current := h.current
  results := h.results
  obtained := by
    intro w hw
    rcases List.mem_cons.mp hw with rfl | hw
    · exact hv
    · exact h.obtained w hw
  follows := by
    intro hwon
    refine ⟨(h.follows hwon).1, fun w hw => ?_⟩
    rcases List.mem_cons.mp hw with rfl | hw
    · exact hr hwon
    · exact (h.follows hwon).2 w hw
  leader := h.leader

/-- A store of what was obtained. -/
theorem Inv.store (h : Inv s) {v : ℕ} (hv : v ∈ s.obtained) :
    Inv { s with committedRevision := v, obtained := s.obtained.filter (· = v) } where
  current := h.current
  results := h.results
  obtained := by
    intro w hw
    exact (of_decide_eq_true (List.mem_filter.mp hw).2 : w = v).ge
  follows := by
    intro hwon
    obtain ⟨-, hle⟩ := h.follows hwon
    exact ⟨hle v hv, fun w hw => hle w (List.mem_filter.mp hw).1⟩
  leader := h.leader

/-- What an answer says to the caller, of the states before and after the operation. -/
def Fact (s : State) : (o : Op) → o.Res → State → Prop
  | .isLeader, b, _ => s.leader = b
  | .flightDo, .lead flight, s' => ∃ f : Flight, s'.flights[flight]? = some f
  | .flightDo, .wait flight, s' => ∃ f : Flight, s'.flights[flight]? = some f ∧ f.reads = []
  | .getRevisionFromLeader flight, .ok v, s' =>
    s.remote ≤ v ∧ ∀ f : Flight, s'.flights[flight]? = some f → v ∈ f.reads
  | .flightWait flight, r, s' => ∃ f : Flight, s'.flights[flight]? = some f ∧ f.result = some r
  | .storeCommitted v, _, s' => s'.committedRevision = v
  | .elected, v, s' => s'.won = true ∧ s'.remote ≤ v
  | _, _, _ => True

/-- Flights end with a revision that was read for them, and a node leads from the revision of its
predecessor on. -/
def Ok (s : State) : Op → Prop
  | .flightDone flight (.ok v) => ∀ f : Flight, s.flights[flight]? = some f → v ∈ f.reads
  | .setLeader => s.won = true ∧ s.remote ≤ s.committedRevision
  | _ => True

/-- A node starts at or below the leader's revision. -/
theorem inv_initState (tls : Bool) {revision remote : ℕ} (h : revision ≤ remote) :
    Inv (initState tls revision remote) := by
  constructor <;> simp [initState, h]

def protocol (tls : Bool) {revision remote : ℕ} (h : revision ≤ remote) :
    Protocol (machine tls) where
  Inv := Inv
  Rely := Advanced
  Ok := Ok
  Fact := Fact
  Promise := fun _ _ _ => True
  started := fun _ _ => none
  joined := fun _ _ => none
  origin := initState tls revision remote
  refl := Advanced.refl
  trans := fun _ _ _ => Advanced.trans
  origin_inv := inv_initState tls h

variable {tls : Bool} {revision remote : ℕ} {hstart : revision ≤ remote}

section Operations

variable {s s' : State} {outs : List (Option Outcome)} {i : ℕ} {ch : Choice}
  {sp : Option Goroutine}

variable {flight : ℕ} {r : Except SyncErr ℕ}

/-- A change to one flight that loses no read keeps the rely relation. -/
theorem advanced_modify {g : Flight → Flight}
    (hg : ∀ f, ∃ more, (g f).reads = f.reads ++ more ∧ ∀ r ∈ more, s.remote ≤ r)
    (current : Option ℕ) :
    Advanced s { s with flights := s.flights.modify flight g, current := current } := by
  refine .of_flights (le_refl _) rfl rfl id fun j f hj => ?_
  by_cases h : flight = j
  · exact ⟨g f, by simp [hj, h], hg f⟩
  · exact ⟨f, by simp [h, hj], [], by simp, by simp⟩

theorem inv_modify {g : Flight → Flight} {current : Option ℕ} (hinv : Inv s)
    (hcur : ∀ j, current = some j → s.current = some j)
    (hg : ∀ f v, s.flights[flight]? = some f → (g f).result = some (.ok v) → v ∈ (g f).reads) :
    Inv { s with flights := s.flights.modify flight g, current := current } := by
  refine ⟨?_, ?_, hinv.obtained, hinv.follows, hinv.leader⟩
  · intro j hj
    rw [List.length_modify]
    exact hinv.current j (hcur j hj)
  · intro j f v hj hv
    by_cases h : flight = j
    · subst h
      simp only [List.getElem?_modify_eq, Option.map_eq_map, Option.map_eq_some_iff] at hj
      obtain ⟨f₀, hf₀, rfl⟩ := hj
      exact hg f₀ v hf₀ hv
    · exact hinv.results j f v (by simpa [h] using hj) hv

theorem flightDo_step {r : Flown} (hG : NotOvertaken tls s (.op .flightDo ch)) (hinv : Inv s)
    (hex : exec tls s outs i .flightDo ch = some (s', r, sp)) :
    Inv s' ∧ Advanced s s' ∧ Fact s .flightDo r s' := by
  cases hcur : s.current with
  | some flight =>
    unfold exec at hex
    simp only [hcur, Option.some.injEq, Prod.mk.injEq] at hex
    obtain ⟨rfl, rfl, -⟩ := hex
    have hlt := hinv.current flight hcur
    exact ⟨hinv, .refl s, s.flights[flight], List.getElem?_eq_getElem hlt,
      hG flight _ hcur (List.getElem?_eq_getElem hlt)⟩
  | none =>
    unfold exec at hex
    simp only [hcur, Option.some.injEq, Prod.mk.injEq] at hex
    obtain ⟨rfl, rfl, -⟩ := hex
    refine ⟨⟨?_, ?_, hinv.obtained, hinv.follows, hinv.leader⟩,
      .of_flights (le_refl _) rfl rfl id ?_, ⟨[], none⟩, by simp⟩
    · intro flight h
      obtain rfl := Option.some.inj h
      simp
    · intro j f v hj hv
      rw [List.getElem?_append] at hj
      split at hj
      · exact hinv.results j f v hj hv
      · obtain rfl := List.mem_singleton.mp (List.mem_of_getElem? hj)
        cases hv
    · intro j f hj
      have hlt := (List.getElem?_eq_some_iff.mp hj).1
      exact ⟨f, by rw [List.getElem?_append_left hlt, hj], [], by simp, by simp⟩

theorem flightDone_step (hinv : Inv s) (hok : Ok s (.flightDone flight r))
    (hex : exec tls s outs i (.flightDone flight r) ch = some (s', (), sp)) :
    Inv s' ∧ Advanced s s' := by
  obtain ⟨rfl, -⟩ := answer_inj hex
  constructor
  · apply inv_modify hinv
    · intro j hj
      split at hj
      · cases hj
      · exact hj
    · intro f v hf hv
      obtain rfl := Option.some.inj hv
      exact hok f hf
  · exact advanced_modify (fun f => ⟨[], by simp, by simp⟩) _

theorem getRevisionFromLeader_step
    (hG : NotOvertaken tls s (.op (.getRevisionFromLeader flight) ch)) (hinv : Inv s)
    (hex : exec tls s outs i (.getRevisionFromLeader flight) ch = some (s', r, sp)) :
    Inv s' ∧ Advanced s s' ∧ Fact s (.getRevisionFromLeader flight) r s' := by
  cases ch with
  | none =>
    obtain ⟨rfl, rfl, -⟩ := answer_inj hex
    have hread : Advanced s { s with
        flights := s.flights.modify flight fun f => { f with reads := f.reads ++ [s.remote] } } :=
      advanced_modify (fun f => ⟨[s.remote], rfl, by simp⟩) _
    refine ⟨?_, ⟨hread.committed, hread.remote, hread.leader, hread.takeover, hread.won,
      hread.flights⟩, le_refl _, ?_⟩
    · have hinv' : Inv { s with
          flights := s.flights.modify flight fun f =>
            { f with reads := f.reads ++ [s.remote] } } := by
        apply inv_modify hinv (fun _ h => h)
        intro f v hf hv
        exact List.mem_append_left _ (hinv.results flight f v hf hv)
      exact hinv'.obtain (hinv.follows hG).1 fun _ => le_refl _
    · intro f hf
      simp only [List.getElem?_modify_eq, Option.map_eq_map, Option.map_eq_some_iff] at hf
      obtain ⟨f₀, -, rfl⟩ := hf
      simp
  | fail e =>
    obtain ⟨rfl, rfl, -⟩ := answer_inj hex
    exact ⟨hinv, .refl s, trivial⟩
  | version v => cases hex
  | advance v => cases hex

theorem flightWait_step (hinv : Inv s)
    (hex : exec tls s outs i (.flightWait flight) ch = some (s', r, sp)) :
    Inv s' ∧ Advanced s s' ∧ Fact s (.flightWait flight) r s' := by
  unfold exec at hex
  dsimp only at hex
  split at hex
  · cases hex
  · next r' hr =>
    obtain ⟨rfl, rfl, -⟩ := answer_inj hex
    obtain ⟨f, hf, hres⟩ := Option.bind_eq_some_iff.mp hr
    exact ⟨hinv, .refl s, f, hf, hres⟩

theorem ringLoad_step {slot : ℕ} {r : Option ℕ}
    (hG : NotOvertaken tls s (.op (.ringLoad slot) ch)) (hinv : Inv s)
    (hex : exec tls s outs i (.ringLoad slot) ch = some (s', r, sp)) : Inv s' ∧ Advanced s s' := by
  cases ch with
  | none =>
    obtain ⟨rfl, -, -⟩ := answer_inj hex
    exact ⟨hinv, .refl _⟩
  | version v =>
    unfold exec at hex
    dsimp only at hex
    split at hex
    · next hslot =>
      obtain ⟨rfl, -, -⟩ := answer_inj hex
      -- only a node that leads has events, and it has won
      have hwon := hinv.leader hslot.1
      refine ⟨hinv.obtain hG fun h => ?_, .of_same (le_refl _) rfl rfl id rfl⟩
      rw [hwon] at h
      cases h
    · cases hex
  | fail e => cases hex
  | advance v => cases hex

/-- Each operation, in the state it meets. -/
theorem exec_step {o : Op} {r : o.Res} (hG : NotOvertaken tls s (.op o ch)) (hinv : Inv s)
    (hok : Ok s o) (hex : exec tls s outs i o ch = some (s', r, sp)) :
    Inv s' ∧ Advanced s s' ∧ Fact s o r s' := by
  cases o with
  | flightDo => exact flightDo_step hG hinv hex
  | flightDone flight res =>
    obtain ⟨hinv', hlater⟩ := flightDone_step hinv hok hex
    exact ⟨hinv', hlater, trivial⟩
  | flightWait flight => exact flightWait_step hinv hex
  | getRevisionFromLeader flight => exact getRevisionFromLeader_step hG hinv hex
  | ringLoad slot =>
    obtain ⟨hinv', hadv⟩ := ringLoad_step hG hinv hex
    exact ⟨hinv', hadv, trivial⟩
  | setLeader =>
    obtain ⟨rfl, -⟩ := answer_inj hex
    refine ⟨⟨hinv.current, hinv.results, hinv.obtained, hinv.follows, fun _ => hok.1⟩,
      ⟨le_refl _, le_refl _, fun _ => rfl, fun _ _ => hok.2, fun h => ⟨h, rfl⟩, ?_⟩, trivial⟩
    exact fun j f hj => ⟨f, hj, [], by simp, by simp⟩
  | storeCommitted v =>
    obtain ⟨rfl, -⟩ := answer_inj hex
    exact ⟨hinv.store hG, .of_same (hinv.obtained v hG) rfl rfl id rfl, rfl⟩
  | elected =>
    cases ch with
    | version v =>
      unfold exec at hex
      dsimp only at hex
      split at hex
      · cases hex
      · next hwon =>
        obtain ⟨rfl, rfl, -⟩ := answer_inj hex
        have hle : s.remote ≤ v := hG
        have hnew := (hinv.follows (Bool.eq_false_iff.mpr hwon)).1.trans hle
        refine ⟨⟨hinv.current, hinv.results, ?_, nofun, fun _ => rfl⟩,
          .of_same (le_refl _) rfl rfl (fun _ => rfl) rfl, rfl, hle⟩
        intro w hw
        rcases List.mem_cons.mp hw with rfl | hw
        · exact hnew
        · exact hinv.obtained w hw
    | none => cases hex
    | fail e => cases hex
    | advance v => cases hex
  | isLeader =>
    obtain ⟨rfl, rfl, -⟩ := answer_inj hex
    exact ⟨hinv, .refl _, rfl⟩
  | loadSchema | getRevision | loadDeal | accept | storeSchema schema | casDeal old new =>
    obtain ⟨rfl, -, -⟩ := answer_inj hex
    exact ⟨⟨hinv.current, hinv.results, hinv.obtained, hinv.follows, hinv.leader⟩,
      .of_same (le_refl _) rfl rfl id rfl, trivial⟩

theorem spawned_syncer {o : Op} {r : o.Res} {t : Goroutine}
    (hex : exec tls s outs i o ch = some (s', r, some t)) : t = syncer tls := by
  unfold exec at hex
  repeat' split at hex
  all_goals cases hex
  rfl

end Operations

/-- The revision was read at the leader for the flight. -/
def ReadFor (flight v : ℕ) (s : State) : Prop :=
  ∃ f : Flight, s.flights[flight]? = some f ∧ v ∈ f.reads

theorem Advanced.readFor {flight v : ℕ} (h : Advanced s s') (hr : ReadFor flight v s) :
    ReadFor flight v s' := by
  obtain ⟨f, hf, hv⟩ := hr
  obtain ⟨f', hf', more, hreads, -⟩ := h.flights flight f hf
  exact ⟨f', hf', hreads ▸ List.mem_append_left more hv⟩

theorem Advanced.exists_flight {flight : ℕ} (h : Advanced s s')
    (hr : ∃ f : Flight, s.flights[flight]? = some f) :
    ∃ f : Flight, s'.flights[flight]? = some f := by
  obtain ⟨f, hf⟩ := hr
  obtain ⟨f', hf', -⟩ := h.flights flight f hf
  exact ⟨f', hf'⟩

theorem ok_flightDone {flight : ℕ} {r : Except SyncErr ℕ}
    (h : ∀ v, r = .ok v → ReadFor flight v s) :
    Ok s (.flightDone flight r) := by
  cases r with
  | error e => trivial
  | ok v =>
    intro f hf
    obtain ⟨f', hf', hv⟩ := h v rfl
    rwa [Option.some.inj (hf.symm.trans hf')]

section Programs

variable (g : (protocol tls hstart).Ghost)

abbrev rules (tls : Bool) {revision remote : ℕ} (hstart : revision ≤ remote) : Spec sig Outcome :=
  (protocol tls hstart).spec

/-- Operations that are allowed in every state. -/
abbrev Free (o : Op) : Prop := ∀ s, Ok s o

theorem free_setCurrentRevision (v : ℕ) : (setCurrentRevision v).Only Free := by
  refine ⟨fun _ => trivial, fun _ => ⟨fun _ => trivial, fun preTSO => ?_⟩⟩
  show Prog.Only Free (if preTSO < v then call (.casDeal preTSO v) else pure ())
  split
  · exact ⟨fun _ => trivial, fun _ => trivial⟩
  · trivial

theorem free_getRetrySchemas (tls : Bool) : (getRetrySchemas tls).Only Free := by
  unfold getRetrySchemas
  split
  · refine ⟨fun _ => trivial, fun schema => ?_⟩
    cases schema <;> trivial
  · trivial

theorem free_collect : collectStorageWriteEvents.Only Free := by
  refine ⟨fun _ => trivial, fun cur => ⟨fun _ => trivial, fun found => ?_⟩⟩
  cases found with
  | none => trivial
  | some v => exact free_setCurrentRevision v

theorem trySchemas_safe {flight : ℕ} (schemas : List Schema) (g : (protocol tls hstart).Ghost)
    (hf : ∃ f : Flight, g.last.flights[flight]? = some f) :
    (rules tls hstart).Safe (fun g' r => g.Later g' ∧
      ∀ v, r = .ok v → g.last.remote ≤ v ∧ ReadFor flight v g'.last) g
      (trySchemas flight schemas) := by
  induction schemas generalizing g with
  | nil => exact ⟨.refl g, fun v h => by cases h⟩
  | cons schema rest ih =>
    refine ⟨fun _ _ _ => trivial, fun _ g₁ hpost₁ => ⟨fun _ _ _ => trivial, fun r g₂ hpost₂ => ?_⟩⟩
    have h₁ := Protocol.later_of_post hpost₁
    have h₂ := Protocol.later_of_post hpost₂
    have hf₂ := (h₁.trans h₂).1.exists_flight hf
    cases r with
    | ok v =>
      obtain ⟨s, -, hs, -, hle, hread⟩ := Protocol.fact_of_post hpost₂
      obtain ⟨f, hf⟩ := hf₂
      refine ⟨h₁.trans h₂, fun v' h => ?_⟩
      obtain rfl : v = v' := Except.ok.inj h
      exact ⟨(h₁.1.trans hs).remote.trans hle, f, hf, hread f hf⟩
    | error e =>
      cases e with
      | mismatch =>
        apply (ih g₂ hf₂).mono
        intro g₃ r ⟨h₃, hr⟩
        refine ⟨(h₁.trans h₂).trans h₃, fun v h => ?_⟩
        exact ⟨(h₁.trans h₂).1.remote.trans (hr v h).1, (hr v h).2⟩
      | noSchema => exact ⟨h₁.trans h₂, fun v h => by cases h⟩
      | other n => exact ⟨h₁.trans h₂, fun v h => by cases h⟩

/-- A revision that a call gets from the leader was committed there no earlier than the call
started. -/
theorem singleFlight_safe : (rules tls hstart).Safe (fun g' r => g.Later g' ∧
      ∀ v, r = .ok v → g.last.remote ≤ v) g (singleFlightGetRevisionFromLeader tls) := by
  refine ⟨fun _ _ _ => trivial, fun flown g₁ hpost₁ => ?_⟩
  have h₁ := Protocol.later_of_post hpost₁
  obtain ⟨s₁, -, hs₁, -, hfact₁⟩ := Protocol.fact_of_post hpost₁
  cases flown with
  | wait flight =>
    refine ⟨fun _ _ _ => trivial, fun r g₂ hpost₂ => ?_⟩
    refine ⟨h₁.trans (Protocol.later_of_post hpost₂), fun v h => ?_⟩
    obtain ⟨f₁, hf₁, hnone⟩ := hfact₁
    obtain ⟨s₂, -, -, -, f₂, hf₂, hres⟩ := Protocol.fact_of_post hpost₂
    obtain ⟨f, hf, more, hreads, hmore⟩ := (Protocol.later_of_post hpost₂).1.flights flight f₁ hf₁
    obtain rfl := Option.some.inj (hf.symm.trans hf₂)
    have hv : v ∈ f.reads := g₂.inv.results flight f v hf (hres.trans (congrArg some h))
    rw [hreads, hnone, List.nil_append] at hv
    exact h₁.1.remote.trans (hmore v hv)
  | lead flight =>
    apply Spec.Safe.bind (Protocol.safe_of_ok (fun s o h => h s) (free_getRetrySchemas tls) g₁)
    intro g₂ schemas h₂
    apply (trySchemas_safe schemas g₂ (h₂.1.exists_flight hfact₁)).bind
    intro g₃ r ⟨h₃, hr⟩
    refine ⟨fun s _ hs => ok_flightDone fun v h => hs.readFor (hr v h).2, fun _ g₄ hpost₄ => ?_⟩
    have h₁₂ := h₁.trans h₂
    refine ⟨(h₁₂.trans h₃).trans (Protocol.later_of_post hpost₄), fun v h => ?_⟩
    exact h₁₂.1.remote.trans (hr v h).1

theorem setCurrentRevision_safe (v : ℕ) (g : (protocol tls hstart).Ghost) :
    (rules tls hstart).Safe (fun g' _ => g.Later g' ∧
      v ≤ State.committedRevision g'.last) g (setCurrentRevision v) := by
  refine ⟨fun _ _ _ => trivial, fun _ g₁ hpost₁ => ?_⟩
  obtain ⟨s₁, -, -, -, hv⟩ := Protocol.fact_of_post hpost₁
  have hrest := Protocol.safe_of_ok (fun s o h => h s) ((free_setCurrentRevision v).2 ()) g₁
  apply hrest.mono
  intro g₂ _ h₂
  exact ⟨(Protocol.later_of_post hpost₁).trans h₂, hv ▸ h₂.1.committed⟩

/-- The node leads at or above the revision of its predecessor, which has stopped. -/
theorem onStartedLeading_safe :
    (rules tls hstart).Safe (fun g' _ => g.Later g') g onStartedLeading := by
  refine ⟨fun _ _ _ => trivial, fun v g₁ hpost₁ => ?_⟩
  obtain ⟨s₁, -, -, -, hwon, hle⟩ := Protocol.fact_of_post hpost₁
  have h₁ := Protocol.later_of_post hpost₁
  apply (setCurrentRevision_safe v g₁).bind
  intro g₂ _ ⟨h₂, hv⟩
  refine ⟨fun s _ hs => ?_, fun _ g₃ hpost₃ => (h₁.trans h₂).trans (Protocol.later_of_post hpost₃)⟩
  obtain ⟨hwon₂, hremote₂⟩ := h₂.1.won hwon
  obtain ⟨hwon₃, hremote₃⟩ := hs.won hwon₂
  refine ⟨hwon₃, ?_⟩
  calc State.remote s = State.remote g₁.last := hremote₃.trans hremote₂
    _ ≤ v := hle
    _ ≤ State.committedRevision g₂.last := hv
    _ ≤ State.committedRevision s := hs.committed

theorem syncReadRevision_safe : (rules tls hstart).Safe (fun g' err => g.Later g' ∧
      (err = none → State.leaderRevision g.last ≤ State.committedRevision g'.last)) g
      (syncReadRevision tls) := by
  refine ⟨fun _ _ _ => trivial, fun leading g₁ hpost₁ => ?_⟩
  have h₁ := Protocol.later_of_post hpost₁
  obtain ⟨s₁, -, hs₁, hs₁', hleading⟩ := Protocol.fact_of_post hpost₁
  cases leading with
  | true => exact ⟨h₁, fun _ => (hs₁.leaderRevision_le hleading).trans hs₁'.committed⟩
  | false =>
    have hrev := hs₁.leaderRevision_eq hleading
    apply (singleFlight_safe g₁).bind
    intro g₂ r ⟨h₂, hr⟩
    cases r with
    | error e => exact ⟨h₁.trans h₂, fun h => by cases h⟩
    | ok v =>
      apply (setCurrentRevision_safe v g₂).bind
      intro g₃ _ ⟨h₃, hv⟩
      refine ⟨(h₁.trans h₂).trans h₃, fun _ => ?_⟩
      rw [hrev]
      exact (h₁.1.remote.trans (hr v rfl)).trans hv

theorem syncer_safe : (rules tls hstart).Safe (fun g' a => g.Later g' ∧
      (a = .synced none → State.leaderRevision g.last ≤ State.committedRevision g'.last)) g
      (syncer tls).prog := by
  apply (syncReadRevision_safe g).bind
  intro g' err ⟨hlater, herr⟩
  exact ⟨hlater, fun h => herr (Outcome.synced.inj h)⟩

end Programs

theorem sound (tls : Bool) (hstart : revision ≤ remote) :
    (protocol tls hstart).Sound (NotOvertaken tls) fun _ _ _ => True where
  op := by
    intro s outs i o ch s' r sp _ hG hinv hok hex
    have hexec : exec tls s outs i o ch = some (s', r, sp) := hex
    exact exec_step hG hinv hok hexec
  start := by
    intro s outs i o ch s' r t _ _ _ hex h
    have hexec : exec tls s outs i o ch = some (s', r, some t) := hex
    obtain rfl := spawned_syncer hexec
    apply (syncer_safe (.fresh h fun _ => True)).mono
    intro g' a ⟨hlater, _⟩
    show g'.post a
    rw [hlater.2]
    trivial
  started := by
    intro s outs i o ch s' r sp id _ hst
    cases hst
  joined := by
    intro s outs i o ch s' r sp id a _ hj
    cases hj
  env := by
    intro s ch s' _ hG hinv henv
    cases ch with
    | advance v =>
      simp only [machine, env] at henv
      split at henv
      · next hle =>
        obtain rfl := Option.some.inj henv
        have hwon : s.won = false := hG
        obtain ⟨hc, hobtained⟩ := hinv.follows hwon
        refine ⟨⟨hinv.current, hinv.results, hinv.obtained, fun _ => ⟨hc.trans hle, fun w hw =>
          (hobtained w hw).trans hle⟩, hinv.leader⟩, ⟨le_refl _, hle, id, ?_, ?_, ?_⟩⟩
        · intro h h'
          exact absurd (h.symm.trans h') (by decide)
        · intro h
          exact absurd (hwon.symm.trans h) (by decide)
        · exact fun j f hj => ⟨f, hj, [], by simp, by simp⟩
      · cases henv
    | none => cases henv
    | fail e => cases henv
    | version v => cases henv

theorem good_init (tls : Bool) (hstart : revision ≤ remote) :
    (protocol tls hstart).outline.Good (init tls revision remote)
      (fun _ => (protocol tls hstart).spec.idle) := by
  refine Protocol.good_origin rfl fun i t ht => ?_
  have hidle (t : Goroutine) (hp : t.prog.Only Free)
      (hf : ∀ f, t.again = some f → ∀ a, (f a).Only Free) :
      (protocol tls hstart).spec.ThreadSafe (protocol tls hstart).spec.idle t :=
    Protocol.threadSafe_of_ok (fun s o h => h s) hp hf fun _ => trivial
  have hmem : t ∈ [server, elector, consumer] := List.mem_of_getElem? ht
  simp only [List.mem_cons, List.not_mem_nil, or_false] at hmem
  rcases hmem with rfl | rfl | rfl
  · apply hidle server trivial
    intro f hf a
    obtain rfl := Option.some.inj hf
    exact ⟨fun _ => trivial, fun _ => trivial⟩
  · apply (onStartedLeading_safe (protocol tls hstart).spec.idle).bind
    intro g' _ hlater
    show g'.post _
    rw [hlater.2]
    trivial
  · apply hidle consumer trivial
    intro f hf a
    obtain rfl := Option.some.inj hf
    exact free_collect.bind fun _ => trivial

/-- The revision at which this node reads never falls, and a read that synchronised it sees
what the leader had committed when the call started. -/
theorem readRevision_rises (tls : Bool) {revision remote : ℕ} (hstart : revision ≤ remote)
    {c c' : Interleaving.Config (machine tls)}
    (hc : Config.Reach (NotOvertaken tls) (init tls revision remote) c)
    (hr : Config.Reach (NotOvertaken tls) c c') :
    State.committedRevision c.state ≤ State.committedRevision c'.state ∧
      ∀ i, c.threads[i]? = some (syncer tls) → c'.Returned i (.synced none) →
        State.leaderRevision c.state ≤ State.committedRevision c'.state := by
  have hS := sound tls hstart
  have hA {d} : Outline.Holds (NotOvertaken tls) (fun _ _ _ => True) d :=
    fun _ _ _ _ _ _ _ _ => trivial
  obtain ⟨gs, hgood⟩ := (good_init tls hstart).reach hS.outline hA hc
  refine ⟨(Protocol.rely_of_reach hS hA hgood hr).committed, fun i hi hret => ?_⟩
  have hsafe (g : (protocol tls hstart).Ghost) (hg : g.last = c.state) :
      (rules tls hstart).Safe (fun g' a => a = .synced none →
        State.leaderRevision c.state ≤ State.committedRevision g'.last) g (syncer tls).prog :=
    (syncer_safe g).mono fun _ _ h => hg ▸ h.2
  obtain ⟨g, hg, hQ, -⟩ := Protocol.returned_of_safe hS hA hgood hi hsafe hr hret
  exact (hQ rfl).trans hg.committed

def overtakenCheck (enableTLS : Bool) (s : State) : Move (machine enableTLS) → Bool
  | .op (.storeCommitted revision) _ => decide (revision ∈ s.obtained)
  | .op .flightDo _ => (s.current.bind (s.flights[·]?)).all fun f => f.reads.isEmpty
  | .op (.getRevisionFromLeader _) .none => !s.won
  | .op .elected (.version v) => decide (s.remote ≤ v)
  | .op (.ringLoad _) (.version v) => decide (s.committedRevision ≤ v)
  | .env (.advance _) => !s.won
  | _ => true

theorem notOvertaken_of_check (enableTLS : Bool) (s : (machine enableTLS).State)
    (mv : Move (machine enableTLS)) (h : overtakenCheck enableTLS s mv = true) :
    NotOvertaken enableTLS s mv := by
  cases mv with
  | env ch =>
    cases ch with
    | advance v => simpa [overtakenCheck, NotOvertaken] using h
    | _ => trivial
  | op o ch =>
    cases o with
    | storeCommitted v => exact (of_decide_eq_true h : v ∈ State.obtained s)
    | flightDo =>
      intro flight f hcur hf
      simpa [overtakenCheck, hcur, hf] using h
    | getRevisionFromLeader flight =>
      cases ch with
      | none => simpa [overtakenCheck, NotOvertaken] using h
      | _ => trivial
    | elected =>
      cases ch with
      | version v => exact (of_decide_eq_true h : State.remote s ≤ v)
      | _ => trivial
    | ringLoad slot =>
      cases ch with
      | version v => exact (of_decide_eq_true h : State.committedRevision s ≤ v)
      | _ => trivial
    | _ => trivial

/-- Two calls arrive. -/
def arrivals : List (Label (machine false)) :=
  [.restart 0, .thread 0 .none, .restart 0, .thread 0 .none]

/-- The second call joins the flight of the first; both store what it has read. -/
def sharedFlight : List (Label (machine false)) :=
  [.thread 3 .none, .thread 3 .none, .thread 4 .none, .thread 4 .none, .thread 3 .none,
    .thread 3 .none, .thread 3 .none, .env (.advance 7), .thread 3 .none, .thread 3 .none,
    .thread 3 .none, .thread 4 .none, .thread 4 .none, .thread 4 .none]

theorem readRevision_rises_shared : ∃ c c' : Interleaving.Config (machine false),
    c.threads[4]? = some (syncer false) ∧ State.leaderRevision c.state = 5 ∧
      c'.Returned 4 (.synced none) ∧ 5 ≤ State.committedRevision c'.state := by
  obtain ⟨c, c', hc, hreach, hreach', hrev, hret⟩ := Config.exists_of_runs
    (notOvertaken_of_check false) arrivals sharedFlight (c := init false 0 5)
    (P := fun c c' => State.leaderRevision c.state = 5 ∧ c'.Returned 4 (.synced none)) (by rfl)
  have hthread : c.threads[4]? = some (syncer false) := Config.thread_of_run hc (by rfl)
  refine ⟨c, c', hthread, hrev, hret, ?_⟩
  rw [← hrev]
  exact (readRevision_rises false (Nat.zero_le 5) hreach hreach').2 4 hthread hret

/-- The first call has its answer and has not stored it yet when the leader goes on to
revision 7 and the second call fetches and stores that. -/
def lateStore : List (Label (machine false)) :=
  [.thread 3 .none, .thread 3 .none, .thread 3 .none, .thread 3 .none, .thread 3 .none,
    .env (.advance 7), .thread 4 .none, .thread 4 .none, .thread 4 .none, .thread 4 .none,
    .thread 4 .none, .thread 4 .none]

/-- A late store takes the read revision back from 7 to 5. -/
theorem readRevision_rewinds : ∃ c c' : Interleaving.Config (machine false),
    Config.Reach (fun _ _ => True) (init false 0 5) c ∧ Config.Reach (fun _ _ => True) c c' ∧
      State.committedRevision c.state = 7 ∧ State.committedRevision c'.state = 5 := by
  obtain ⟨c, c', -, h⟩ := Config.exists_of_runs (G := fun _ _ => True) (fun _ _ _ => trivial)
    (arrivals ++ lateStore) [.thread 3 .none] (c := init false 0 5)
    (P := fun c c' => State.committedRevision c.state = 7 ∧ State.committedRevision c'.state = 5)
    (show ((init false 0 5).run (fun _ _ => true) _).any _ = true by rfl)
  exact ⟨c, c', h⟩

end Node
end KubeBrain

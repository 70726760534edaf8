import KubeBrain.Lib.Outline
import KubeBrain.Storage.Engine

/-! The election lock of `pkg/backend/election/election.go`: any number of clients, whose calls
are interleaved on one store with atomic batches. -/
namespace KubeBrain

open Interleaving

namespace Election

/-- `json.Marshal` and `json.Unmarshal` of records; either may fail. -/
structure Codec (Record : Type) where
  marshal : Record → Option Bytes
  unmarshal : Bytes → Option Record

/-- `notInitialized` reads "endpoint not initialized, call get or create first". -/
inductive LockErr where
  | notFound (key : Bytes)
  | storage (err : Err)
  | marshal
  | unmarshal
  | notInitialized
  deriving DecidableEq

inductive Call (Record : Type) where
  | get
  | create (ler : Record)
  | update (ler : Record)
  deriving DecidableEq

/-- Operations of client `client`. A batch of the lock has one operation. `accept` is the next
call of the elector; `returned` is a history operation at the end of a call, with the value
that was read or written. -/
inductive LockOp (Record : Type) where
  | accept (client : ℕ)
  | get (client : ℕ) (key : Bytes)
  | commit (client : ℕ) (op : BatchOp)
  | getTimestampOracle (client : ℕ)
  | returned (client : ℕ) (c : Call Record) (err : Option LockErr) (val : Bytes)

abbrev LockOp.Res {Record : Type} : LockOp Record → Type
  | accept _ => Call Record
  | get .. => Except Err Bytes
  | commit .. => Option Err
  | getTimestampOracle _ => Except Err ℕ
  | returned .. => Unit

abbrev lockSig (Record : Type) : Sig := ⟨LockOp Record, LockOp.Res⟩

/-- `resourceLock`; without a record it has the zero value. -/
structure ResourceLock (Record : Type) where
  record : Option Record
  lastVal : Bytes
  tso : ℕ

def getElectionKey (pre : Bytes) : Bytes := pre ++ [47, 101, 108, 101, 99, 116, 105, 111, 110]

section Client

variable {Record : Type} (codec : Codec Record) (electionKey : Bytes) (client : ℕ)

abbrev LockM (Record : Type) := Prog (lockSig Record)

def getRecord (r : ResourceLock Record) : LockM Record (ResourceLock Record × Option LockErr) := do
  match ← Prog.call (S := lockSig Record) (.get client electionKey) with
  | .error .keyNotFound => pure (r, some (.notFound electionKey))
  | .error err => pure (r, some (.storage err))
  | .ok val =>
    match codec.unmarshal val with
    | none => pure ({ r with lastVal := val }, some .unmarshal)
    | some record => pure ({ r with lastVal := val, record := some record }, none)

/-- A failed request leaves the timestamp zero. -/
def getTso (r : ResourceLock Record) : LockM Record (ResourceLock Record × Option LockErr) := do
  match ← Prog.call (S := lockSig Record) (.getTimestampOracle client) with
  | .error err => pure ({ r with tso := 0 }, some (.storage err))
  | .ok ts => pure ({ r with tso := ts }, none)

def get (r : ResourceLock Record) : LockM Record (ResourceLock Record × Option LockErr) := do
  let (r, err) ← getRecord codec electionKey client r
  match err with
  | some err => pure (r, some err)
  | none => getTso client r

def create (r : ResourceLock Record) (ler : Record) :
    LockM Record (ResourceLock Record × Option LockErr) :=
  match codec.marshal ler with
  | none => pure (r, some .marshal)
  | some lerBytes => do
    match ← Prog.call (S := lockSig Record)
        (.commit client (.putIfNotExist electionKey lerBytes 0)) with
    | some err => pure (r, some (.storage err))
    | none => getTso client { r with lastVal := lerBytes }

/-- The value that was written is not kept. -/
def update (r : ResourceLock Record) (ler : Record) :
    LockM Record (ResourceLock Record × Option LockErr) :=
  if r.tso = 0 then pure (r, some .notInitialized)
  else match codec.marshal ler with
    | none => pure (r, some .marshal)
    | some recordBytes => do
      match ← Prog.call (S := lockSig Record)
          (.commit client (.cas electionKey recordBytes r.lastVal 0)) with
      | some err => pure (r, some (.storage err))
      | none => getTso client r

/-- One call of the elector. -/
def serve (r : ResourceLock Record) : LockM Record (ResourceLock Record) := do
  match ← Prog.call (S := lockSig Record) (.accept client) with
  | .get => do
    let (r, err) ← get codec electionKey client r
    Prog.call (S := lockSig Record) (.returned client .get err r.lastVal)
    pure r
  | .create ler => do
    let (r, err) ← create codec electionKey client r ler
    Prog.call (S := lockSig Record)
      (.returned client (.create ler) err ((codec.marshal ler).getD []))
    pure r
  | .update ler => do
    let (r, err) ← update codec electionKey client r ler
    Prog.call (S := lockSig Record)
      (.returned client (.update ler) err ((codec.marshal ler).getD []))
    pure r

end Client

/-- What has happened to the record, and the calls that have returned. -/
inductive Event (Record : Type) where
  | read (client : ℕ) (val : Bytes)
  | created (client : ℕ) (val : Bytes)
  | updated (client : ℕ) (val : Bytes)
  | returned (client : ℕ) (c : Call Record) (err : Option LockErr) (val : Bytes)
  deriving DecidableEq

namespace Event

variable {Record : Type}

/-- The client that has read or written the record, with the value. -/
def access : Event Record → Option (ℕ × Bytes)
  | read client val | created client val | updated client val => some (client, val)
  | returned .. => none

def isWrite : Event Record → Bool
  | created .. | updated .. => true
  | _ => false

def isUpdate : Event Record → Bool
  | updated .. => true
  | _ => false

/-- The value that a call without an error has told client `i`. -/
def told (i : ℕ) : Event Record → Option Bytes
  | returned client _ none val => if client = i then some val else none
  | _ => none

def accessedBy (i : ℕ) (e : Event Record) : Bool := (e.access.map Prod.fst) = some i

end Event

section Machine

variable {Record : Type}

/-- The last event in which client `i` has read or written the record. -/
def lastAccess (i : ℕ) (log : List (Event Record)) : Option (Event Record) :=
  (log.filter (Event.accessedBy i)).getLast?

/-- The value that client `i` has most recently read or written by a call without an error. -/
def known (i : ℕ) (log : List (Event Record)) : Option Bytes :=
  (log.filterMap (Event.told i)).getLast?

/-- The value `val` was read or written and no write came after it. -/
def Latest (log : List (Event Record)) (val : Bytes) : Prop :=
  ∃ pre e rest client, log = pre ++ e :: rest ∧ e.access = some (client, val) ∧
    ∀ e' ∈ rest, e'.isWrite = false

/-- Nobody has written since an access of client `i`. -/
def Undisturbed (i : ℕ) (log : List (Event Record)) : Prop :=
  ∃ pre e rest, log = pre ++ e :: rest ∧ e.accessedBy i = true ∧ ∀ e' ∈ rest, e'.isWrite = false

/-- `log` and `found` are history variables; `found` is the record when the client has last
compared it, or when its call began. -/
structure LockState (Record : Type) where
  store : Store
  log : List (Event Record)
  found : ℕ → Option Bytes

inductive Choice (Record : Type) where
  | call (c : Call Record)
  | fine
  | timestamp (ts : ℕ)
  /-- The operation fails and does nothing. -/
  | fault (err : Err)
  /-- A batch takes effect, but its result is lost. -/
  | lost (err : Err)

def written (client : ℕ) : BatchOp → List (Event Record)
  | .putIfNotExist _ val _ => [.created client val]
  | .cas _ val _ _ => [.updated client val]
  | _ => []

def commit (key : Bytes) (s : LockState Record) (client : ℕ) (op : BatchOp) :
    LockState Record × Option Err :=
  let found := Function.update s.found client (s.store.get key)
  match op.apply s.store with
  | none => ({ s with found }, some .casFailed)
  | some store => (⟨store, s.log ++ written client op, found⟩, none)

/-- Clients of the lock whose record stands under `key`. -/
abbrev lockMachine (Record : Type) (key : Bytes) :
    Machine (lockSig Record) (ResourceLock Record) where
  State := LockState Record
  Choice := Choice Record
  exec := fun s _ _ o ch => match o, ch with
    | .accept client, .call c =>
      some ({ s with found := Function.update s.found client (s.store.get key) }, c, none)
    | .get client k, .fine => match s.store.get k with
      | none => some (s, .error .keyNotFound, none)
      | some val => some ({ s with log := s.log ++ [.read client val] }, .ok val, none)
    | .get .., .fault err => some (s, .error err, none)
    | .commit client op, .fine =>
        some ((commit key s client op).1, (commit key s client op).2, none)
    | .commit .., .fault err => some (s, some err, none)
    | .commit client op, .lost err => some ((commit key s client op).1, some err, none)
    | .getTimestampOracle _, .timestamp ts => some (s, .ok ts, none)
    | .getTimestampOracle _, .fault err => some (s, .error err, none)
    | .returned client c err val, _ =>
      some ({ s with log := s.log ++ [.returned client c err val] }, (), none)
    | _, _ => none
  env := fun _ _ => none

/-- `n` clients that have not called anything yet. -/
def clients (codec : Codec Record) (key : Bytes) (n : ℕ) (store : Store) :
    Interleaving.Config (lockMachine Record key) :=
  ⟨⟨store, [], fun _ => none⟩,
    (List.range n).map fun client => ⟨.ret ⟨none, [], 0⟩, some (serve codec key client)⟩⟩

/-- The storage does not fail and its timestamps are positive; records can be encoded and what
is stored can be decoded; and a client that has updated the record reads it before it updates
it again. -/
def Careful (codec : Codec Record) (key : Bytes) : Guard (lockMachine Record key) := fun s mv =>
  match mv with
  | .op (.accept client) (.call (.update ler)) => codec.marshal ler ≠ none ∧
    ∀ e, lastAccess client (LockState.log s) = some e → e.isUpdate = false
  | .op (.get _ k) .fine => ∀ val, (LockState.store s).get k = some val → codec.unmarshal val ≠ none
  | .op (.getTimestampOracle _) (.timestamp ts) => ts ≠ 0
  | .op _ (.fault _) | .op _ (.lost _) => False
  | _ => True

end Machine

section Log

variable {Record : Type} {i : ℕ} {log : List (Event Record)} {e : Event Record}

theorem lastAccess_concat : lastAccess i (log ++ [e]) =
    if e.accessedBy i then some e else lastAccess i log := by
  unfold lastAccess
  rw [List.filter_append]
  split
  · next hby => rw [List.filter_cons_of_pos hby, List.filter_nil, List.getLast?_concat]
  · next hby => rw [List.filter_cons_of_neg hby, List.filter_nil, List.append_nil]

theorem known_concat : known i (log ++ [e]) = (e.told i).or (known i log) := by
  unfold known
  rw [List.filterMap_append]
  cases h : e.told i with
  | none => simp [h]
  | some val => simp [h]

theorem Latest.of_concat {val : Bytes} (h : Latest (log ++ [e]) val) :
    (∃ client, e.access = some (client, val)) ∨ e.isWrite = false ∧ Latest log val := by
  obtain ⟨pre, e₁, rest, client, hlog, haccess, hrest⟩ := h
  rcases List.eq_nil_or_concat rest with rfl | ⟨rest', e₂, rfl⟩
  · obtain ⟨-, rfl⟩ : log = pre ∧ e = e₁ := by
      simpa using List.append_inj' hlog rfl
    exact .inl ⟨client, haccess⟩
  · rw [List.concat_eq_append, ← List.cons_append, ← List.append_assoc] at hlog
    obtain ⟨hinit, he⟩ := List.append_inj' hlog rfl
    obtain rfl := List.singleton_inj.mp he
    refine .inr ⟨hrest e (by simp), pre, e₁, rest', client, hinit, haccess, fun e' he' => ?_⟩
    exact hrest e' (by simp [he'])

/-- The last access of a client is among the accesses that nobody has written after. -/
theorem Undisturbed.latest (h : Undisturbed i log) :
    ∃ e client val, lastAccess i log = some e ∧ e.access = some (client, val) ∧ Latest log val := by
  obtain ⟨pre, e₁, rest, rfl, hby, hrest⟩ := h
  have hne : (e₁ :: rest).filter (Event.accessedBy i) ≠ [] := by
    rw [List.filter_cons_of_pos hby]
    exact List.cons_ne_nil _ _
  obtain ⟨e, he⟩ := Option.ne_none_iff_exists'.mp (mt List.getLast?_eq_none_iff.mp hne)
  have hmem := List.mem_filter.mp (List.mem_of_getLast? he)
  obtain ⟨mid, rest', hsplit⟩ := List.append_of_mem hmem.1
  obtain ⟨client, val, haccess⟩ : ∃ client val, e.access = some (client, val) := by
    cases e with
    | returned _ _ _ _ => simp [Event.accessedBy, Event.access] at hmem
    | _ => exact ⟨_, _, rfl⟩
  refine ⟨e, client, val, ?_, haccess, pre ++ mid, e, rest', client, ?_, haccess, fun e' he' => ?_⟩
  · unfold lastAccess
    rw [List.filter_append, List.getLast?_append_of_ne_nil _ hne, he]
  · rw [hsplit, List.append_assoc]
  · -- what comes after the last access comes after the first one
    cases mid with
    | nil =>
      obtain ⟨-, rfl⟩ := List.cons.inj hsplit
      exact hrest e' he'
    | cons e₂ mid =>
      obtain ⟨-, rfl⟩ := List.cons.inj hsplit
      exact hrest e' (by simp [he'])

end Log

/-- What a client has done: its last access, the value it knows, and the record it has found. -/
structure View (Record : Type) where
  client : Option ℕ
  last : Option (Event Record)
  known : Option Bytes
  found : Option Bytes

section Spec

variable {Record : Type} (codec : Codec Record) (key : Bytes)

/-- The record for which a batch of the lock takes effect. -/
def expected : BatchOp → Option Bytes
  | .cas _ _ old _ => some old
  | _ => none

/-- The value of the last access. -/
def lastVal (g : View Record) : Option Bytes := g.last.bind fun e => e.access.map Prod.snd

def Pre (g : View Record) : LockOp Record → Prop
  | .accept client | .getTimestampOracle client => g.client = some client
  | .get client k => g.client = some client ∧ k = key
  | .commit client op => g.client = some client ∧ ((∃ val, op = .putIfNotExist key val 0) ∨
      ∃ val old, op = .cas key val old 0 ∧ g.known = some old ∧ g.known = lastVal g)
  | .returned client c err _ => g.client = some client ∧ ∀ ler, c = .update ler →
      (err = none ↔ ∃ val, g.known = some val ∧ g.found = some val)

def Post (g : View Record) (o : LockOp Record) (r : o.Res) (g' : View Record) : Prop :=
  match o, r with
  | .accept _, c => (∃ found, g' = { g with found }) ∧ ∀ ler, c = .update ler →
      codec.marshal ler ≠ none ∧ ∀ e, g.last = some e → e.isUpdate = false
  | .get client _, .ok val => g' = { g with last := some (.read client val) } ∧
      codec.unmarshal val ≠ none
  | .get .., .error _ => g' = g
  | .commit client op, none =>
      g' = { g with last := (written client op).head?, found := expected op }
  | .commit _ op, some _ => ∃ found, g' = { g with found } ∧ found ≠ expected op
  | .getTimestampOracle _, r => g' = g ∧ ∃ ts, r = .ok ts ∧ ts ≠ 0
  | .returned _ _ err val, _ => g' = { g with known := if err = none then some val else g.known }

abbrev spec : Spec (lockSig Record) (ResourceLock Record) where
  Ghost := View Record
  idle := ⟨none, none, none, none⟩
  Pre := Pre key
  Post := Post codec
  Fin := fun _ _ => True

/-- Between its calls, a client knows the value of its last access; it has it as `lastVal` if
that was not an update. -/
structure Fits (client : ℕ) (g : View Record) (r : ResourceLock Record) : Prop where
  client_eq : g.client = some client
  known_eq : g.known = lastVal g
  tso_eq : r.tso = 0 ↔ g.last = none
  lastVal_eq : ∀ e, g.last = some e → e.isUpdate = false → g.known = some r.lastVal

variable {codec key} {client : ℕ} {g : View Record} {r : ResourceLock Record}

section Calls

variable {Q : View Record → ResourceLock Record × Option LockErr → Prop}

variable (hclient : g.client = some client)

include hclient

theorem safe_getTso (hok : ∀ ts, ts ≠ 0 → Q g ({ r with tso := ts }, none)) :
    (spec codec key).Safe Q g (getTso client r) := by
  refine ⟨hclient, fun res g' hpost => ?_⟩
  obtain ⟨rfl, ts, rfl, hts⟩ := hpost
  exact hok ts hts

theorem safe_getRecord (herr : ∀ err, Q g (r, some err))
    (hok : ∀ val record, Q { g with last := some (.read client val) }
      ({ r with lastVal := val, record := some record }, none)) :
    (spec codec key).Safe Q g (getRecord codec key client r) := by
  refine ⟨⟨hclient, rfl⟩, fun res g' hpost => ?_⟩
  cases res with
  | error err =>
    obtain rfl : g' = g := hpost
    cases err <;> exact herr _
  | ok val =>
    obtain ⟨rfl, hval⟩ := hpost
    obtain ⟨record, hrecord⟩ := Option.ne_none_iff_exists'.mp hval
    show (spec codec key).Safe Q _ (match codec.unmarshal val with
      | none => _
      | some record => _)
    rw [hrecord]
    exact hok val record

theorem safe_get (herr : ∀ err, Q g (r, some err))
    (hok : ∀ val record ts, ts ≠ 0 → Q { g with last := some (.read client val) }
      (⟨some record, val, ts⟩, none)) :
    (spec codec key).Safe Q g (get codec key client r) :=
  Spec.safe_bind.mpr (safe_getRecord hclient herr fun val record =>
    safe_getTso hclient (hok val record))

theorem safe_create {ler : Record} (herr : ∀ err found, Q { g with found } (r, some err))
    (hok : ∀ val ts, codec.marshal ler = some val → ts ≠ 0 →
      Q { g with last := some (.created client val), found := none }
        ({ r with lastVal := val, tso := ts }, none)) :
    (spec codec key).Safe Q g (create codec key client r ler) := by
  unfold create
  split
  · exact herr _ g.found
  · next val hval =>
    refine ⟨⟨hclient, .inl ⟨val, rfl⟩⟩, fun err g' hpost => ?_⟩
    cases err with
    | some err =>
      obtain ⟨found, rfl, -⟩ := hpost
      exact herr _ found
    | none =>
      obtain rfl := hpost
      exact safe_getTso hclient (hok val · hval)

/-- An update that fails has found another record than the one that it expects. -/
theorem safe_update {ler : Record}
    (hmarshal : codec.marshal ler ≠ none) (hknown : r.tso ≠ 0 → g.known = some r.lastVal)
    (hlast : g.known = lastVal g) (huninit : r.tso = 0 → Q g (r, some .notInitialized))
    (herr : r.tso ≠ 0 → ∀ err found, found ≠ some r.lastVal → Q { g with found } (r, some err))
    (hok : r.tso ≠ 0 → ∀ val ts, codec.marshal ler = some val → ts ≠ 0 →
      Q { g with last := some (.updated client val), found := some r.lastVal }
        ({ r with tso := ts }, none)) :
    (spec codec key).Safe Q g (update codec key client r ler) := by
  unfold update
  split
  · next htso => exact huninit htso
  · next htso =>
    split
    · next hnone => exact absurd hnone hmarshal
    · next val hval =>
      refine ⟨⟨hclient, .inr ⟨val, r.lastVal, rfl, hknown htso, hlast⟩⟩, fun err g' hpost => ?_⟩
      cases err with
      | some err =>
        obtain ⟨found, rfl, hfound⟩ := hpost
        exact herr htso _ found hfound
      | none =>
        obtain rfl := hpost
        exact safe_getTso hclient (hok htso val · hval)

end Calls

/-- The end of a call that has read or written `val`. -/
theorem safe_returned_access {c : Call Record} {val : Bytes} {e : Event Record} {ts : ℕ}
    (hclient : g.client = some client) (hlast : g.last = some e)
    (haccess : e.access = some (client, val)) (hts : ts ≠ 0)
    (hval : e.isUpdate = false → r.lastVal = val)
    (hfound : ∀ ler, c = .update ler → ∃ val, g.known = some val ∧ g.found = some val) :
    (spec codec key).Safe (Fits client) g
      (do Prog.call (S := lockSig Record) (.returned client c none val)
          pure { r with tso := ts }) := by
  refine ⟨⟨hclient, fun ler hc => ⟨fun _ => hfound ler hc, fun _ => rfl⟩⟩, fun _ g' hpost => ?_⟩
  obtain rfl : g' = { g with known := some val } := hpost
  refine ⟨hclient, ?_, ?_, fun e' he' hupdate => ?_⟩
  · simp [lastVal, hlast, haccess]
  · simp [hlast, hts]
  · obtain rfl := Option.some.inj (hlast.symm.trans he')
    simp [hval hupdate]

/-- The end of a call that has failed. -/
theorem safe_returned_error {c : Call Record} {err : LockErr} {val : Bytes}
    (hfits : Fits client g r)
    (hfound : ∀ ler, c = .update ler → ¬ ∃ val, g.known = some val ∧ g.found = some val) :
    (spec codec key).Safe (Fits client) g
      (do Prog.call (S := lockSig Record) (.returned client c (some err) val); pure r) := by
  refine ⟨⟨hfits.client_eq, fun ler hc => ⟨nofun, fun h => absurd h (hfound ler hc)⟩⟩,
    fun _ g' hpost => ?_⟩
  obtain rfl : g' = g := hpost
  exact hfits

theorem Fits.found (h : Fits client g r) (found : Option Bytes) : Fits client { g with found } r :=
  ⟨h.client_eq, h.known_eq, h.tso_eq, h.lastVal_eq⟩

theorem safe_serve (h : Fits client g r) :
    (spec codec key).Safe (Fits client) g (serve codec key client r) := by
  unfold serve
  refine Spec.Safe.call_bind h.client_eq fun c g₁ hpost => ?_
  obtain ⟨⟨found, rfl⟩, hupdate⟩ := hpost
  have h₁ := h.found found
  cases c with
  | get =>
    refine Spec.safe_bind.mpr (safe_get h₁.client_eq (fun err => ?_) fun val record ts hts => ?_)
    · exact safe_returned_error h₁ nofun
    · exact safe_returned_access (r := ⟨some record, val, ts⟩) h₁.client_eq rfl rfl hts
        (fun _ => rfl) nofun
  | create ler =>
    refine Spec.safe_bind.mpr (safe_create h₁.client_eq (fun err found => ?_)
      fun val ts hval hts => ?_)
    · exact safe_returned_error (h.found found) nofun
    · dsimp only
      rw [hval]
      exact safe_returned_access (r := { r with lastVal := val }) h₁.client_eq rfl rfl hts
        (fun _ => rfl) nofun
  | update ler =>
    obtain ⟨hmarshal, hfresh⟩ := hupdate ler rfl
    have hknown (htso : r.tso ≠ 0) : g.known = some r.lastVal := by
      obtain ⟨e, he⟩ := Option.ne_none_iff_exists'.mp (mt h.tso_eq.mpr htso)
      exact h.lastVal_eq e he (hfresh e he)
    refine Spec.safe_bind.mpr (safe_update h₁.client_eq hmarshal hknown h₁.known_eq
      (fun htso => ?_) (fun htso err found hfound => ?_) fun htso val ts hval hts => ?_)
    · refine safe_returned_error h₁ fun _ _ => ?_
      rintro ⟨val, hval, -⟩
      rw [h₁.known_eq, lastVal, h₁.tso_eq.mp htso] at hval
      cases hval
    · refine safe_returned_error (h.found found) fun _ _ => ?_
      rintro ⟨val, hval, hcur⟩
      exact hfound (hcur.trans (hval.symm.trans (hknown htso)))
    · dsimp only
      rw [hval]
      exact safe_returned_access (r := r) h₁.client_eq rfl rfl hts nofun fun _ _ =>
        ⟨r.lastVal, hknown htso, rfl⟩

end Spec

section Soundness

variable {Record : Type} {codec : Codec Record} {key : Bytes}

/-- The ghost of a client is what the history says; and the record is the value of the last
access without a later write. -/
structure Inv (key : Bytes) (s : LockState Record) (gs : ℕ → View Record) : Prop where
  view : ∀ i client, (gs i).client = some client → client = i ∧ (gs i).last = lastAccess i s.log ∧
    (gs i).known = known i s.log ∧ (gs i).found = s.found i
  latest : ∀ val, Latest s.log val → s.store.get key = some val

variable (codec key) in
abbrev outline : Outline (lockMachine Record key) where
  toSpec := spec codec key
  Inv := Inv key

variable {s : LockState Record} {gs : ℕ → View Record} {i : ℕ}

/-- Client `i` adds an event of its own, and only its own ghost changes. -/
theorem Inv.step (h : Inv key s gs) {s' : LockState Record} {g' : View Record}
    {e : Event Record} (hclient : (gs i).client = some i) (hclient' : g'.client = some i)
    (hlog : s'.log = s.log ++ [e]) (hfound : ∀ j, j ≠ i → s'.found j = s.found j)
    (hother : ∀ j, j ≠ i → e.accessedBy j = false ∧ e.told j = none)
    (hlast : g'.last = if e.accessedBy i then some e else (gs i).last)
    (hknown : g'.known = (e.told i).or (gs i).known) (hfound' : g'.found = s'.found i)
    (hstore : ∀ client val, e.access = some (client, val) → s'.store.get key = some val)
    (hkeep : e.isWrite = false → s'.store.get key = s.store.get key) :
    Inv key s' (Function.update gs i g') := by
  obtain ⟨-, hlast₀, hknown₀, -⟩ := h.view i i hclient
  constructor
  · intro j client
    rw [Function.update_apply]
    split_ifs with hji <;> intro hj
    · rw [hji, hlog, lastAccess_concat, known_concat, ← hlast₀, ← hknown₀]
      exact ⟨Option.some.inj (hj.symm.trans hclient'), hlast, hknown, hfound'⟩
    · obtain ⟨hid, hl, hk, hf⟩ := h.view j client hj
      rw [hlog, lastAccess_concat, known_concat, (hother j hji).1, (hother j hji).2, hfound j hji]
      exact ⟨hid, hl, hk, hf⟩
  · intro val hval
    rw [hlog] at hval
    rcases hval.of_concat with ⟨client, haccess⟩ | ⟨hread, hval⟩
    · exact hstore client val haccess
    · rw [hkeep hread]
      exact h.latest val hval

/-- Client `i` only looks at the record. -/
theorem Inv.look (h : Inv key s gs) (found : Option Bytes) :
    Inv key { s with found := Function.update s.found i found }
      (Function.update gs i { gs i with found }) := by
  constructor
  · intro j client
    simp only [Function.update_apply]
    split_ifs with hji <;> intro hj
    · obtain ⟨hid, hl, hk, -⟩ := h.view i client hj
      exact ⟨hid.trans hji.symm, hji ▸ hl, hji ▸ hk, rfl⟩
    · exact h.view j client hj
  · exact h.latest

theorem apply_eq_some_iff {st st' : Store} {op : BatchOp} {val : Bytes}
    (hop : op = .putIfNotExist key val 0 ∨ ∃ old, op = .cas key val old 0) :
    op.apply st = some st' ↔ st.get key = expected op ∧ st' = st.insert key val := by
  rcases hop with rfl | ⟨old, rfl⟩ <;> simp [BatchOp.apply, expected, eq_comm]

/-- The event of a batch of the lock. -/
theorem exists_written {op : BatchOp} {val : Bytes} (client : ℕ)
    (hop : op = .putIfNotExist key val 0 ∨ ∃ old, op = .cas key val old 0) :
    ∃ e : Event Record, written client op = [e] ∧ e.access = some (client, val) ∧
      e.isWrite = true ∧ ∀ j, e.told j = none := by
  rcases hop with rfl | ⟨old, rfl⟩
  · exact ⟨_, rfl, rfl, rfl, fun _ => rfl⟩
  · exact ⟨_, rfl, rfl, rfl, fun _ => rfl⟩

/-- A batch takes effect exactly if the record is the one that it expects. -/
theorem Inv.commit (h : Inv key s gs) (hclient : (gs i).client = some i) {op : BatchOp}
    {val : Bytes} (hop : op = .putIfNotExist key val 0 ∨ ∃ old, op = .cas key val old 0) :
    ∃ g', Post codec (gs i) (.commit i op) (commit key s i op).2 g' ∧
      Inv key (commit key s i op).1 (Function.update gs i g') := by
  have happly (st' : Store) : op.apply s.store = some st' ↔ s.store.get key = expected op ∧
      st' = s.store.insert key val := apply_eq_some_iff hop
  unfold Election.commit
  dsimp only
  split
  · next hnone =>
    refine ⟨_, ⟨s.store.get key, rfl, fun hfound => ?_⟩, h.look _⟩
    rw [(happly _).mpr ⟨hfound, rfl⟩] at hnone
    cases hnone
  · next store hsome =>
    obtain ⟨hfound, rfl⟩ := (happly _).mp hsome
    obtain ⟨e, hwritten, haccess, hwrite, htold⟩ := @exists_written Record key op val i hop
    refine ⟨_, rfl, h.step (e := e) hclient hclient (by rw [hwritten]) (fun j hj => ?_)
      (fun j hj => ⟨?_, htold j⟩) ?_ ?_ ?_ ?_ fun hread => ?_⟩
    · exact Function.update_of_ne hj _ _
    · simp [Event.accessedBy, haccess, Ne.symm hj]
    · simp [Event.accessedBy, haccess, hwritten]
    · simp [htold]
    · exact hfound.symm.trans (Function.update_self i (s.store.get key) s.found).symm
    · intro client val' he
      obtain ⟨-, rfl⟩ := Prod.mk.inj (Option.some.inj (haccess.symm.trans he))
      exact SortedMap.get_insert_self _ _ _
    · rw [hwrite] at hread
      cases hread

theorem sound : (outline codec key).Sound (Careful codec key) fun _ _ _ => True where
  op := by
    intro s gs outs i o ch s' r sp _ hinv hpre hguard _ _ _ hex
    have hinv : Inv key s gs := hinv
    have hself {client : ℕ} (hclient : (gs i).client = some client) : client = i :=
      (hinv.view i client hclient).1
    cases o with
    | accept client =>
      cases ch with
      | call c =>
        obtain ⟨rfl, rfl, rfl⟩ : _ = s' ∧ c = r ∧ none = sp := by
          simpa only [Option.some.injEq, Prod.mk.injEq] using hex
        obtain rfl := hself hpre
        refine ⟨_, ⟨⟨_, rfl⟩, ?_⟩, hinv.look _⟩
        rintro ler rfl
        rw [(hinv.view client client hpre).2.1]
        exact hguard
      | _ => cases hex
    | get client k =>
      obtain ⟨hclient, rfl⟩ := hpre
      obtain rfl := hself hclient
      cases ch with
      | fine =>
        dsimp only at hex
        split at hex
        · obtain ⟨rfl, rfl, rfl⟩ : s = s' ∧ _ = r ∧ none = sp := by
            simpa only [Option.some.injEq, Prod.mk.injEq] using hex
          refine ⟨gs client, rfl, ?_⟩
          rw [Function.update_eq_self]
          exact hinv
        · next val hval =>
          obtain ⟨rfl, rfl, rfl⟩ : _ = s' ∧ _ = r ∧ none = sp := by
            simpa only [Option.some.injEq, Prod.mk.injEq] using hex
          refine ⟨_, ⟨rfl, hguard val hval⟩, hinv.step hclient hclient rfl (fun _ _ => rfl)
            (fun j hj => ?_) ?_ rfl (hinv.view _ _ hclient).2.2.2 ?_ fun _ => rfl⟩
          · simp [Event.accessedBy, Event.access, Event.told, Ne.symm hj]
          · simp [Event.accessedBy, Event.access]
          · rintro _ _ ⟨⟩
            exact hval
      | fault err => exact hguard.elim
      | _ => cases hex
    | commit client op =>
      obtain ⟨hclient, hop⟩ := hpre
      obtain rfl := hself hclient
      cases ch with
      | fine =>
        obtain ⟨rfl, rfl, rfl⟩ : _ = s' ∧ _ = r ∧ none = sp := by
          simpa only [Option.some.injEq, Prod.mk.injEq] using hex
        rcases hop with ⟨val, hop⟩ | ⟨val, old, hop, -⟩
        · exact hinv.commit hclient (.inl hop)
        · exact hinv.commit hclient (.inr ⟨old, hop⟩)
      | fault err => exact hguard.elim
      | lost err => exact hguard.elim
      | _ => cases hex
    | getTimestampOracle client =>
      obtain rfl := hself hpre
      cases ch with
      | timestamp ts =>
        obtain ⟨rfl, rfl, rfl⟩ : s = s' ∧ _ = r ∧ none = sp := by
          simpa only [Option.some.injEq, Prod.mk.injEq] using hex
        refine ⟨gs client, ⟨rfl, ts, rfl, hguard⟩, ?_⟩
        rw [Function.update_eq_self]
        exact hinv
      | fault err => exact hguard.elim
      | _ => cases hex
    | returned client c err val =>
      obtain ⟨hclient, -⟩ := hpre
      obtain rfl := hself hclient
      obtain ⟨rfl, rfl⟩ : _ = s' ∧ none = sp := by
        simpa only [Option.some.injEq, Prod.mk.injEq, true_and] using hex
      refine ⟨_, rfl, hinv.step hclient hclient rfl (fun _ _ => rfl) (fun j hj => ?_) ?_ ?_
        (hinv.view _ _ hclient).2.2.2 nofun fun _ => rfl⟩
      · cases err <;> simp [Event.accessedBy, Event.access, Event.told, Ne.symm hj]
      · simp [Event.accessedBy, Event.access]
      · cases err <;> simp [Event.told]
  env := by
    intro s gs ch s' _ _ _ he
    cases he

theorem good_clients (n : ℕ) (store : Store) : (outline codec key).Good
    (clients codec key n store) fun i => if i < n then ⟨some i, none, none, none⟩
      else ⟨none, none, none, none⟩ where
  inv := by
    constructor
    · intro i client hi
      dsimp only at hi ⊢
      split at hi
      · next hlt =>
        rw [if_pos hlt]
        exact ⟨(Option.some.inj hi).symm, rfl, rfl, rfl⟩
      · cases hi
    · rintro val ⟨pre, e, rest, client, hlog, -⟩
      exact absurd hlog (by simp [clients])
  safe := by
    intro i t ht
    obtain ⟨client, hi, rfl⟩ : ∃ client, (List.range n)[i]? = some client ∧ _ = t := by
      simpa only [clients, List.getElem?_map, Option.map_eq_some_iff] using ht
    obtain ⟨hlt, rfl⟩ := List.getElem?_eq_some_iff.mp hi
    rw [List.length_range] at hlt
    rw [List.getElem_range, if_pos hlt]
    refine ⟨Fits i, fun _ _ _ => trivial, ⟨rfl, rfl, by simp, nofun⟩, fun g r h => safe_serve h⟩
  idle := by
    intro i hi
    rw [if_neg (by simpa [clients] using hi)]

variable {c : Interleaving.Config (lockMachine Record key)} {n : ℕ} {store : Store}

theorem good_of_reach (hr : Config.Reach (Careful codec key) (clients codec key n store) c) :
    ∃ gs, (outline codec key).Good c gs :=
  (good_clients n store).reach sound (fun _ _ _ _ _ _ _ _ => trivial) hr

end Soundness

/-- In every run of any number of clients in which nothing fails and no client updates the
record twice without a read between: an update compares the record with the value that the
client knows. It takes effect if nobody has written since the last access of the client,
and not if another value has been written; and it returns without an error exactly if the
record was the known one. -/
theorem lock_update_compares_known {Record : Type} {codec : Codec Record} {key : Bytes} {n : ℕ}
    {store : Store} {c : Interleaving.Config (lockMachine Record key)}
    (hr : Config.Reach (Careful codec key) (clients codec key n store) c) (i : ℕ) :
    (∀ val old k again,
      c.threads[i]? = some ⟨.op (.commit i (.cas key val old 0)) k, again⟩ →
        known i (LockState.log c.state) = some old ∧
        (((BatchOp.cas key val old 0).apply (LockState.store c.state)).isSome ↔
          (LockState.store c.state).get key = known i (LockState.log c.state)) ∧
        (Undisturbed i (LockState.log c.state) →
          ((BatchOp.cas key val old 0).apply (LockState.store c.state)).isSome) ∧
        ∀ other, Latest (LockState.log c.state) other → other ≠ old →
          (BatchOp.cas key val old 0).apply (LockState.store c.state) = none) ∧
    ∀ ler err val k again,
      c.threads[i]? = some ⟨.op (.returned i (.update ler) err val) k, again⟩ →
        (err = none ↔ ∃ v, known i (LockState.log c.state) = some v ∧
          LockState.found c.state i = some v) := by
  obtain ⟨gs, hgood⟩ := good_of_reach hr
  have hinv : Inv key c.state gs := hgood.inv
  constructor
  · intro val old k again ht
    obtain ⟨hclient, hop⟩ := hgood.pre ht
    obtain ⟨-, hlast, hknown, -⟩ := hinv.view i i hclient
    obtain ⟨_, hput⟩ | ⟨_, _, hcas, hold, hval⟩ := hop
    · cases hput
    cases hcas
    have hiff : ((BatchOp.cas key val old 0).apply (LockState.store c.state)).isSome ↔
        (LockState.store c.state).get key = some old := by
      rw [BatchOp.apply]
      split
      · next heq => simp [heq]
      · next hne => simp [hne]
    rw [hknown] at hold
    refine ⟨hold, hold ▸ hiff, fun hundisturbed => hiff.mpr ?_, fun other hother hne => ?_⟩
    · obtain ⟨e, client, v, he, haccess, hlatest⟩ := hundisturbed.latest
      rw [hknown, hold, lastVal, hlast, he, Option.bind_some, haccess] at hval
      rw [hinv.latest v hlatest, hval]
      rfl
    · refine Option.not_isSome_iff_eq_none.mp fun hsome => hne ?_
      exact Option.some.inj ((hinv.latest other hother).symm.trans (hiff.mp hsome))
  · intro ler err val k again ht
    obtain ⟨hclient, hreport⟩ := hgood.pre ht
    obtain ⟨-, -, hknown, hfound⟩ := hinv.view i i hclient
    rw [← hknown, ← hfound]
    exact hreport ler rfl

section Sample

/-- Records of one byte. -/
def byteCodec : Codec Byte := ⟨fun b => some [b], fun val => val.head?⟩

def carefulCheck (s : LockState Byte) (mv : Move (lockMachine Byte (getElectionKey []))) : Bool :=
  match mv with
  | .op (.accept client) (.call (.update ler)) => (byteCodec.marshal ler).isSome &&
    (lastAccess client s.log).all fun e => !e.isUpdate
  | .op (.get _ k) .fine => (s.store.get k).all fun val => (byteCodec.unmarshal val).isSome
  | .op (.getTimestampOracle _) (.timestamp ts) => ts != 0
  | .op _ (.fault _) | .op _ (.lost _) => false
  | _ => true

theorem careful_of_check (s : LockState Byte) (mv : Move (lockMachine Byte (getElectionKey [])))
    (h : carefulCheck s mv = true) : Careful byteCodec (getElectionKey []) s mv := by
  cases mv with
  | env ch => trivial
  | op o ch =>
    cases ch with
    | fault err => cases o <;> cases h
    | lost err => cases o <;> cases h
    | call c =>
      cases o with
      | accept client =>
        cases c with
        | update ler =>
          have hboth : ((byteCodec.marshal ler).isSome &&
            (lastAccess client s.log).all fun e => !e.isUpdate) = true := h
          obtain ⟨hmarshal, hfresh⟩ := Bool.and_eq_true_iff.mp hboth
          refine ⟨Option.isSome_iff_ne_none.mp hmarshal, fun e he => ?_⟩
          simpa [show lastAccess client s.log = some e from he] using hfresh
        | _ => trivial
      | _ => trivial
    | fine =>
      cases o with
      | get client k =>
        intro val hval
        have hstored : (s.store.get k).all fun val => (byteCodec.unmarshal val).isSome := h
        exact Option.isSome_iff_ne_none.mp
          (by simpa [show s.store.get k = some val from hval] using hstored)
      | _ => trivial
    | timestamp ts =>
      cases o with
      | getTimestampOracle client => exact bne_iff_ne.mp h
      | _ => trivial

/-- Two clients and no record. -/
abbrev twoClients : Interleaving.Config (lockMachine Byte (getElectionKey [])) :=
  clients byteCodec (getElectionKey []) 2 SortedMap.empty

/-- Client 0 creates the record, client 1 reads it, and client 0 is about to update it. -/
def createReadUpdate : List (Label (lockMachine Byte (getElectionKey []))) :=
  [.restart 0, .thread 0 (.call (.create 1)), .thread 0 .fine, .thread 0 (.timestamp 1),
    .restart 1, .thread 1 (.call .get), .thread 1 .fine, .thread 0 .fine,
    .restart 0, .thread 0 (.call (.update 2))]

theorem lock_update_compares_known_created :
    ∃ c : Interleaving.Config (lockMachine Byte (getElectionKey [])),
      known 0 (LockState.log c.state) = some [1] ∧
        (LockState.store c.state).get (getElectionKey []) = some [1] ∧
        ((BatchOp.cas (getElectionKey []) [2] [1] 0).apply (LockState.store c.state)).isSome := by
  have hrun : (twoClients.run carefulCheck createReadUpdate).map (fun c =>
      (known 0 (LockState.log c.state), (LockState.store c.state).get (getElectionKey []))) =
      some (some [1], some [1]) := by
    rfl
  obtain ⟨c, hc, hval⟩ := Option.map_eq_some_iff.mp hrun
  obtain ⟨hknown, hrecord⟩ := Prod.mk.inj hval
  obtain ⟨k, again, hthread⟩ : ∃ k again, c.threads[0]? =
      some ⟨.op (.commit 0 (.cas (getElectionKey []) [2] [1] 0)) k, again⟩ :=
    ⟨_, _, Config.thread_of_run hc rfl⟩
  have hreach := Config.reach_of_run careful_of_check createReadUpdate hc
  obtain ⟨-, hiff, -⟩ := (lock_update_compares_known hreach 0).1 _ _ _ _ hthread
  exact ⟨c, hknown, hrecord, hiff.mpr (hrecord.trans hknown.symm)⟩

/-- Client 0 creates the record and updates it twice. -/
def createUpdateTwice : List (Label (lockMachine Byte (getElectionKey []))) :=
  [.restart 0, .thread 0 (.call (.create 1)), .thread 0 .fine, .thread 0 (.timestamp 1),
    .thread 0 .fine, .restart 0, .thread 0 (.call (.update 2)), .thread 0 .fine,
    .thread 0 (.timestamp 2), .thread 0 .fine, .restart 0, .thread 0 (.call (.update 3)),
    .thread 0 .fine, .thread 0 .fine]

/-- The second update compares the record with the value from before the first one: it fails
though the record is the one that the same client has just written. -/
theorem lock_second_update_fails : ∃ c, Config.Reach (fun _ _ => True) twoClients c ∧
      known 0 (LockState.log c.state) = some [2] ∧
      (LockState.store c.state).get (getElectionKey []) = some [2] ∧
      LockState.found c.state 0 = some [2] ∧
      (LockState.log c.state).getLast? =
        some (.returned 0 (.update 3) (some (.storage .casFailed)) [3]) :=
  Config.exists_of_unchecked createUpdateTwice (by rfl)

end Sample

end Election
end KubeBrain

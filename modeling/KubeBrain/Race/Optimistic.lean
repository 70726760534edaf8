import KubeBrain.Backend.Solo

/-! The `badger` and `tikv` adapters under concurrent batches: a batch reads the contents at
the time its transaction began, and the engine aborts it if a transaction that overlaps it has
committed a key it depends on. -/
namespace KubeBrain

/-- Engines with optimistic transactions. -/
inductive TxnEngine where
  | badger
  | tikv
  deriving DecidableEq, Repr

namespace BatchOp

/-- The buffered write of an operation whose compare has passed. -/
def write (st : Store) : BatchOp → Store
  | putIfNotExist key val _ => st.insert key val
  | cas key newVal _ _ => st.insert key newVal
  | put key val _ => st.insert key val
  | del key => st.erase key

/-- The key that the closure of an operation gets. -/
def readKey : BatchOp → Option Bytes
  | putIfNotExist key .. | cas key .. => some key
  | put .. | del _ => none

end BatchOp

namespace Optimistic

structure State where
  now : Store
  /-- Committed transactions, oldest first: the contents each one met and the keys it wrote. -/
  commits : List (Store × List Bytes)

def init (st : Store) : State := ⟨st, []⟩

/-- Contents after the first `ts` commits. -/
def State.snapshot (s : State) (ts : ℕ) : Store :=
  match s.commits[ts]? with
  | some (st, _) => st
  | none => s.now

/-- A transaction that committed after the first `ts` ones wrote the key. -/
def State.changedSince (s : State) (ts : ℕ) (key : Bytes) : Bool :=
  (s.commits.drop ts).any fun c => decide (key ∈ c.2)

def State.write (s : State) (ops : List BatchOp) : State where
  now := ops.foldl BatchOp.write s.now
  commits := s.commits ++ [(s.now, ops.map BatchOp.key)]

end Optimistic

namespace TxnEngine

open Optimistic

def adapter : TxnEngine → Adapter
  | badger => .badger
  | tikv => .tikv

/-- Position of the first operation in the list of closures. -/
def firstIdx : TxnEngine → ℕ
  | badger => 0
  | tikv => 1

def runList : TxnEngine → ℕ → Store → List BatchOp → Except CommitErr Store
  | badger => Badger.runList
  | tikv => Tikv.runList

/-- Keys whose change aborts a transaction: the ones it read in `badger`, the ones it writes
in `tikv`. -/
def watchedKeys : TxnEngine → List BatchOp → List Bytes
  | badger, ops => ops.filterMap BatchOp.readKey
  | tikv, ops => ops.map BatchOp.key

def conflicts (a : TxnEngine) (s : State) (ts : ℕ) (ops : List BatchOp) : Bool :=
  (a.watchedKeys ops).any (s.changedSince ts)

/-- What `Commit` makes of the engine's conflict error: `badger` hands it on, `tikv` returns
`ErrCASFailed`. -/
def conflictError : TxnEngine → Err
  | badger => .other 0
  | tikv => .casFailed

/-- `Commit` of a batch whose transaction began after the first `ts` commits. -/
def commit (a : TxnEngine) (s : State) (ts : ℕ) (ops : List BatchOp) : State × Option Err :=
  match a.runList a.firstIdx (s.snapshot ts) ops with
  | .error e => (s, some (Solo.commitError e))
  | .ok _ => if a.conflicts s ts ops then (s, some a.conflictError) else (s.write ops, none)

end TxnEngine

namespace Optimistic

inductive Choice where
  | ok
  /-- The transaction began after this many commits. -/
  | beganAt (ts : ℕ)

/-- The calls that `Create` and `Update` make. Every reading transaction sees the current
contents. -/
def exec (a : TxnEngine) (s : State) : (o : KvOp) → Choice → Option (State × o.Res)
  | .get key, .ok => some (s, match s.now.get key with
      | none => .error .keyNotFound
      | some v => .ok v)
  | .iter _ start stop _ limit, .ok => some (s, .ok (a.adapter.iter s.now start stop limit))
  | .commit _ ops, .beganAt ts =>
    if ts ≤ s.commits.length then some (a.commit s ts ops) else none
  | _, _ => none

end Optimistic

def optimistic (a : TxnEngine) : KvStorage where
  State := Optimistic.State
  Choice := Optimistic.Choice
  exec := Optimistic.exec a
  env := fun _ _ => none

namespace Optimistic

variable {a : TxnEngine} {s s' : State}

theorem exec_get {key : Bytes} {ch : Choice} {r : Except Err Bytes}
    (h : exec a s (.get key) ch = some (s', r)) :
    s' = s ∧ ∀ v, s.now.get key = some v → r = .ok v := by
  cases ch with
  | beganAt ts => cases h
  | ok =>
    obtain ⟨rfl, rfl⟩ := Prod.mk.inj (Option.some.inj h)
    refine ⟨rfl, fun v hv => ?_⟩
    rw [hv]

theorem exec_iter {reader : Reader} {start stop : Bytes} {ts limit : ℕ} {ch : Choice}
    {r : Except Err Iter} (h : exec a s (.iter reader start stop ts limit) ch = some (s', r)) :
    s' = s ∧ r = .ok (a.adapter.iter s.now start stop limit) := by
  cases ch with
  | beganAt ts => cases h
  | ok =>
    unfold exec at h
    simp only [Option.some.injEq, Prod.mk.injEq] at h
    exact ⟨h.1.symm, h.2.symm⟩

theorem exec_commit {w : Writer} {ops : List BatchOp} {ch : Choice} {r : Option Err}
    (h : exec a s (.commit w ops) ch = some (s', r)) :
    ∃ ts, ch = .beganAt ts ∧ ts ≤ s.commits.length ∧ a.commit s ts ops = (s', r) := by
  cases ch with
  | ok => cases h
  | beganAt ts =>
    unfold exec at h
    dsimp only at h
    split at h
    · next hts => exact ⟨ts, rfl, hts, Option.some.inj h⟩
    · cases h

section Pair

variable {st : Store} {idx obj new old val : Bytes} {ttl : ℤ} {i : ℕ}

/-- A creation passes where the index is absent. -/
theorem runList_create_absent (hget : st.get idx = none) :
    ∃ st', a.runList i st [.putIfNotExist idx new ttl, .put obj val ttl] = .ok st' := by
  cases a <;>
    simp [TxnEngine.runList, Badger.runList, Tikv.runList, runClosures, Badger.closure,
      Tikv.closure, hget]

theorem runList_create_present (hget : st.get idx = some old) :
    a.runList i st [.putIfNotExist idx new ttl, .put obj val ttl] =
      .error (.conflict i idx (some old)) := by
  cases a <;>
    simp [TxnEngine.runList, Badger.runList, Tikv.runList, runClosures, Badger.closure,
      Tikv.closure, hget]

/-- A compare-and-swap of a present index passes exactly where the index is as expected. -/
theorem runList_cas_same (hget : st.get idx = some old) :
    ∃ st', a.runList i st [.cas idx new old ttl, .put obj val ttl] = .ok st' := by
  cases a <;>
    simp [TxnEngine.runList, Badger.runList, Tikv.runList, runClosures, Badger.closure,
      Tikv.closure, hget]

theorem runList_cas_other {v : Bytes} (hget : st.get idx = some v) (hv : old ≠ v) :
    a.runList i st [.cas idx new old ttl, .put obj val ttl] =
      .error (.conflict i idx (some v)) := by
  cases a <;>
    simp [TxnEngine.runList, Badger.runList, Tikv.runList, runClosures, Badger.closure,
      Tikv.closure, hget, hv]

end Pair

theorem commit_error {ts : ℕ} {ops : List BatchOp} {e : CommitErr}
    (h : a.runList a.firstIdx (s.snapshot ts) ops = .error e) :
    a.commit s ts ops = (s, some (Solo.commitError e)) := by
  simp only [TxnEngine.commit, h]

/-- The closures of a batch have passed: the engine decides. -/
theorem commit_passed {ts : ℕ} {ops : List BatchOp}
    (h : ∃ st', a.runList a.firstIdx (s.snapshot ts) ops = .ok st') :
    a.commit s ts ops =
      if a.conflicts s ts ops then (s, some a.conflictError) else (s.write ops, none) := by
  obtain ⟨st', h⟩ := h
  simp only [TxnEngine.commit, h]

/-- Nothing overlaps a transaction that began after the last commit. -/
theorem not_conflicts_now (ops : List BatchOp) : a.conflicts s s.commits.length ops = false := by
  simp [TxnEngine.conflicts, State.changedSince]

@[simp] theorem snapshot_now : s.snapshot s.commits.length = s.now := by
  simp [State.snapshot]

end Optimistic
end KubeBrain

import KubeBrain.Storage.Iterators

/-! Batches of the `memkv`, `badger` and `tikv` adapters, committed while nothing else
happens, against the semantics of the interface: operations in order, all or none. -/
namespace KubeBrain

/-- Errors of a commit. The value of a conflict is `nil` for an absent key. -/
inductive CommitErr where
  | conflict (idx : ℕ) (key : Bytes) (val : Option Bytes)
  | keyNotFound
  deriving DecidableEq, Repr

/-- `errors.Is(err, ErrCASFailed)`. -/
def CommitErr.isCASFailed : CommitErr → Bool
  | conflict .. => true
  | keyNotFound => false

namespace BatchOp

/-- The operations in order from position `i`, up to the first failed compare. -/
def applyFrom : ℕ → Store → List BatchOp → Except CommitErr Store
  | _, st, [] => .ok st
  | i, st, o :: os =>
    match o.apply st with
    | some st' => applyFrom (i + 1) st' os
    | none => .error (.conflict i o.key (st.get o.key))

end BatchOp

namespace Memkv

/-- `batch`: operations are checked as they are added; a cached deletion has no value. -/
structure BatchState where
  err : Option CommitErr
  cache : SortedMap Bytes (Option Bytes)
  opCount : ℕ

def beginBatchWrite : BatchState := ⟨none, .empty, 0⟩

def BatchState.get (st : Store) (b : BatchState) (key : Bytes) : Option Bytes :=
  match b.cache.get key with
  | some v => v
  | none => st.get key

/-- Remember a write of the key. -/
def BatchState.put (b : BatchState) (key : Bytes) (v : Option Bytes) : BatchState :=
  { b with cache := b.cache.insert key v, opCount := b.opCount + 1 }

/-- One operation. A failed compare of `CAS` with a present value reports the expected value,
and goes on to the cache. -/
def BatchState.add (st : Store) (b : BatchState) (o : BatchOp) : BatchState :=
  if b.err.isSome then b
  else match o with
    | .putIfNotExist key val _ =>
      match b.get st key with
      | some old => { b with err := some (.conflict b.opCount key (some old)) }
      | none => b.put key (some val)
    | .cas key newVal oldVal _ =>
      match b.get st key with
      | none => { b with err := some (.conflict b.opCount key none) }
      | some val =>
        let b' := if val ≠ oldVal then
          { b with err := some (.conflict b.opCount key (some oldVal)) } else b
        b'.put key (some newVal)
    | .put key val _ => b.put key (some val)
    | .del key => b.put key none

def flushOne (st : Store) (key : Bytes) : Option Bytes → Store
  | some v => st.insert key v
  | none => st.erase key

/-- Write the cache to the store. The keys of the cache differ, so their order is free. -/
def flush (st : Store) (cache : List (Bytes × Option Bytes)) : Store :=
  cache.foldl (fun st e => flushOne st e.1 e.2) st

def commit (st : Store) (ops : List BatchOp) : Option CommitErr × Store :=
  let b := ops.foldl (BatchState.add st) beginBatchWrite
  match b.err with
  | some e => (some e, st)
  | none => (none, flush st b.cache.entries)

end Memkv

/-- The loop of `Commit` over the list of closures, up to the first that fails. -/
def runClosures (closure : ℕ → Store → BatchOp → Except CommitErr Store) :
    ℕ → Store → List BatchOp → Except CommitErr Store
  | _, txn, [] => .ok txn
  | idx, txn, o :: os =>
    match closure idx txn o with
    | .error e => .error e
    | .ok txn => runClosures closure (idx + 1) txn os

namespace Badger

/-- The closure that an operation at position `idx` appends to the list, on the contents
that the transaction sees. -/
def closure (idx : ℕ) (txn : Store) : BatchOp → Except CommitErr Store
  | .putIfNotExist key val _ =>
    match txn.get key with
    | some oldVal => .error (.conflict idx key (some oldVal))
    | none => .ok (txn.insert key val)
  | .cas key newVal oldVal _ =>
    match txn.get key with
    | none => .error (.conflict idx key none)
    | some val => if oldVal ≠ val then .error (.conflict idx key (some val))
      else .ok (txn.insert key newVal)
  | .put key val _ => .ok (txn.insert key val)
  | .del key => .ok (txn.erase key)

def runList : ℕ → Store → List BatchOp → Except CommitErr Store :=
  runClosures closure

def commit (st : Store) (ops : List BatchOp) : Option CommitErr × Store :=
  match runList 0 st ops with
  | .error e => (some e, st)
  | .ok txn => (none, txn)

end Badger

namespace Tikv

/-- The closure that an operation appends when the list has `idx` entries. An absent key makes
`CAS` return `ErrKeyNotFound`. -/
def closure (idx : ℕ) (txn : Store) : BatchOp → Except CommitErr Store
  | .putIfNotExist key val _ =>
    match txn.get key with
    | none => .ok (txn.insert key val)
    | some oldVal => .error (.conflict idx key (some oldVal))
  | .cas key newVal oldVal _ =>
    match txn.get key with
    | none => .error .keyNotFound
    | some val => if oldVal ≠ val then .error (.conflict idx key (some val))
      else .ok (txn.insert key newVal)
  | .put key val _ => .ok (txn.insert key val)
  | .del key => .ok (txn.erase key)

def runList : ℕ → Store → List BatchOp → Except CommitErr Store :=
  runClosures closure

/-- The list starts with a closure that reports whether the transaction could begin. -/
def commit (st : Store) (ops : List BatchOp) : Option CommitErr × Store :=
  match runList 1 st ops with
  | .error e => (some e, st)
  | .ok txn => (none, txn)

end Tikv

def Adapter.commit : Adapter → Store → List BatchOp → Option CommitErr × Store
  | memkv => Memkv.commit
  | badger => Badger.commit
  | tikv => Tikv.commit

section Proofs

variable {st : Store}

variable {view : Store} {done rest : List BatchOp} {o : BatchOp} (i : ℕ)

namespace Memkv

variable {view' : Store}

/-- The cache over the store stands for the contents that the operations have made. -/
structure Stands (st : Store) (b : BatchState) (i : ℕ) (view : Store) : Prop where
  err : b.err = none
  opCount : b.opCount = i
  get : ∀ key, b.get st key = view.get key

variable {b : BatchState} {i : ℕ} {view : Store}

theorem Stands.put (h : Stands st b i view) (key : Bytes) (v : Option Bytes)
    (hself : view'.get key = v) (hother : ∀ key', key' ≠ key → view'.get key' = view.get key') :
    Stands st (b.put key v) (i + 1) view' where
  err := h.err
  opCount := congrArg (· + 1) h.opCount
  get := fun key' => by
    unfold BatchState.get BatchState.put
    by_cases hk : key' = key
    · subst hk
      rw [SortedMap.get_insert_self, hself]
    · rw [SortedMap.get_insert_of_ne _ _ hk, hother key' hk]
      exact h.get key'

theorem Stands.insert (h : Stands st b i view) (key val : Bytes) :
    Stands st (b.put key (some val)) (i + 1) (view.insert key val) :=
  h.put key _ (SortedMap.get_insert_self ..) fun _ hk => SortedMap.get_insert_of_ne _ _ hk

/-- An operation whose compare holds. -/
theorem Stands.add {o : BatchOp} (h : Stands st b i view) (ho : o.apply view = some view') :
    Stands st (b.add st o) (i + 1) view' := by
  unfold BatchState.add
  rw [h.err, if_neg (by decide)]
  cases o with
  | putIfNotExist key val ttl =>
    simp only [BatchOp.apply] at ho
    split at ho
    · next hget =>
      obtain rfl := Option.some.inj ho
      simp only [h.get, hget]
      exact h.insert key val
    · cases ho
  | cas key newVal oldVal ttl =>
    simp only [BatchOp.apply] at ho
    split at ho
    · next hget =>
      obtain rfl := Option.some.inj ho
      simp only [h.get, hget, ne_eq, not_true_eq_false, if_false]
      exact h.insert key newVal
    · cases ho
  | put key val ttl =>
    obtain rfl := Option.some.inj ho
    exact h.insert key val
  | del key =>
    obtain rfl := Option.some.inj ho
    exact h.put key none (SortedMap.get_erase_self ..) fun _ hk => SortedMap.get_erase_of_ne _ hk

/-- The value that a failed compare reports. -/
def reported (view : Store) : BatchOp → Option Bytes
  | .cas key _ oldVal _ => if view.get key = none then none else some oldVal
  | o => view.get o.key

/-- The first failed compare. -/
theorem Stands.fail {o : BatchOp} (h : Stands st b i view) (ho : o.apply view = none) :
    (b.add st o).err = some (.conflict i o.key (reported view o)) := by
  unfold BatchState.add
  rw [h.err, if_neg (by decide)]
  cases o with
  | putIfNotExist key val ttl =>
    cases hget : view.get key with
    | none => simp [BatchOp.apply, hget] at ho
    | some old => simp only [h.get, hget, BatchOp.key, h.opCount, reported]
  | cas key newVal oldVal ttl =>
    cases hget : view.get key with
    | none => simp [h.get, hget, BatchOp.key, h.opCount, reported]
    | some val =>
      have hne : val ≠ oldVal := by
        rintro rfl
        simp [BatchOp.apply, hget] at ho
      simp [h.get, hget, BatchOp.key, h.opCount, reported, hne, BatchState.put]
  | put key val ttl => cases ho
  | del key => cases ho

/-- The batch stands for what its operations make, while their compares hold. -/
theorem Stands.run (h : Stands st b i view) {done : List BatchOp}
    (hdone : BatchOp.applyAll view done = some view') :
    Stands st (done.foldl (BatchState.add st) b) (i + done.length) view' := by
  induction done generalizing b i view with
  | nil =>
    obtain rfl := Option.some.inj hdone
    exact h
  | cons o done ih =>
    simp only [BatchOp.applyAll] at hdone
    split at hdone
    · cases hdone
    · next view₁ ho =>
      rw [List.length_cons, Nat.add_comm done.length, ← Nat.add_assoc]
      exact ih (h.add ho) hdone

end Memkv

end Proofs

end KubeBrain

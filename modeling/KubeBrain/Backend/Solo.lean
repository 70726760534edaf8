import KubeBrain.Backend.Range
import KubeBrain.Storage.Batches

/-! Requests for one key that run while no other goroutine does: what each of them answers and
writes, as a function of the contents it meets. -/
namespace KubeBrain

open Interleaving Coder

namespace Solo

/-- What requests for one key read and write. -/
structure State where
  store : Store
  dealRevision : ℕ
  committedRevision : ℕ

/-- The error that the backend sees. -/
def commitError : CommitErr → Err
  | .conflict idx key val => .conflict idx key (val.getD [])
  | .keyNotFound => .keyNotFound

def execCommit (s : State) (ops : List BatchOp) : Option Err × State :=
  match BatchOp.applyFrom 0 s.store ops with
  | .ok store => (none, { s with store })
  | .error e => (some (commitError e), s)

/-- Operations of requests for one key. The event consumer runs between the requests, so a
published event is only put down. -/
def exec : (o : Op) → State → Option (o.Res × State)
  | .deal _, s =>
    if s.dealRevision + 1 < 2 ^ 63 then
      some (s.dealRevision + 1, { s with dealRevision := s.dealRevision + 1 })
    else none
  | .getRevision, s => some (s.committedRevision, s)
  | .kv (.get key), s => some (match s.store.get key with
      | none => .error .keyNotFound
      | some v => .ok v, s)
  | .kv (.iter _ start stop _ limit), s =>
    some (.ok ⟨Engine.items s.store start stop limit, none⟩, s)
  | .kv (.commit _ ops), s => some (execCommit s ops)
  | .ringStore _ (some _), s => some ((), s)
  | _, _ => none

/-- The event ring buffer takes the next `n` revisions, and the sequencer has them. -/
def Room (n : ℕ) (s : State) : Prop :=
  s.committedRevision ≤ s.dealRevision ∧
    s.dealRevision + n < s.committedRevision + watchersChanCapacity ∧ s.dealRevision + n < 2 ^ 63

instance (n : ℕ) (s : State) : Decidable (Room n s) := inferInstanceAs (Decidable (_ ∧ _ ∧ _))

/-- A state in which the version `v` of `k` was written with the next revision. -/
def State.wrote (s : State) (k v : Bytes) (deleted : Bool) : State where
  store := (s.store.insert (encodeRevisionKey k) (indexValue (s.dealRevision + 1) deleted)).insert
    (encodeObjectKey k (s.dealRevision + 1)) v
  dealRevision := s.dealRevision + 1
  committedRevision := s.committedRevision

/-- A state in which the next revision was dealt for nothing. -/
def State.skipped (s : State) : State := { s with dealRevision := s.dealRevision + 1 }

/-- A state after a write that ended with `err`. -/
def State.after (s : State) (err : Option Err) (k v : Bytes) (deleted : Bool) : State :=
  match err with
  | none => s.wrote k v deleted
  | some _ => s.skipped

variable {s : State}

/-- A client names a revision that is not dealt yet. -/
def Drifts (s : State) (prevRevision : ℕ) : Prop :=
  0 < prevRevision ∧ s.dealRevision + 1 < prevRevision

instance (s : State) (p : ℕ) : Decidable (Drifts s p) := inferInstanceAs (Decidable (_ ∧ _))

theorem exec_deal (hroom : Room 1 s) (site : DealSite) :
    exec (.deal site) s = some (s.dealRevision + 1, s.skipped) := by
  unfold exec
  simp only [if_pos hroom.2.2]
  rfl

theorem eval_deal (hroom : Room 1 s) {site : DealSite} (h : ¬ Drifts s site.prevRevision) :
    (deal site).eval exec s = some ((s.dealRevision + 1, none), s.skipped) := by
  unfold deal
  unfold Drifts at h
  rw [Prog.eval_call_bind (exec_deal hroom site), if_neg h]
  rfl

theorem eval_deal_drifts (hroom : Room 1 s) {site : DealSite} (h : Drifts s site.prevRevision) :
    (deal site).eval exec s = some ((s.dealRevision + 1, some .revisionDriftBack), s.skipped) := by
  unfold deal
  unfold Drifts at h
  rw [Prog.eval_call_bind (exec_deal hroom site), if_pos h]
  rfl

theorem eval_notify (hroom : Room 1 s) (key val : Bytes) (pre : ℕ) (valid : Bool) (verb : Verb)
    (err : Option Err) {t : State} (ht : t.committedRevision = s.committedRevision) :
    (notify key val (s.dealRevision + 1) pre valid verb err).eval exec t = some ((), t) := by
  have hcur : exec .getRevision t = some (s.committedRevision, t) := by
    rw [← ht]
    rfl
  unfold notify getCurrentRevision
  rw [if_neg (by omega), Prog.eval_call_bind hcur, if_neg]
  · rfl
  · obtain ⟨h₁, h₂, -⟩ := hroom
    omega

/-- The error of a creation. -/
def createError (st : Store) (k : Bytes) (revision : ℕ) : Option Err :=
  match st.get (encodeRevisionKey k) with
  | none => none
  | some old =>
    match parseRevision old with
    | .invalidFormat => some .invalidRevFormat
    | .ok prevRevision isTombstone =>
      if isTombstone ∧ prevRevision < revision then none else some .casFailed

/-- The error of a compare with the revision key. -/
def casError (st : Store) (k old : Bytes) : Option Err :=
  if st.get (encodeRevisionKey k) = some old then none
  else some (.conflict 0 (encodeRevisionKey k) ((st.get (encodeRevisionKey k)).getD []))

theorem commit_cas {k new v : Bytes} {deleted : Bool}
    (hnew : new = indexValue (s.dealRevision + 1) deleted) (old : Bytes) (ttl ttl' : ℤ)
    (w : Writer) :
    exec (.kv (.commit w [.cas (encodeRevisionKey k) new old ttl,
      .put (encodeObjectKey k (s.dealRevision + 1)) v ttl'])) s.skipped =
        some (casError s.store k old, s.after (casError s.store k old) k v deleted) := by
  subst hnew
  change some (execCommit s.skipped _) = _
  unfold execCommit casError
  simp only [BatchOp.applyFrom, BatchOp.apply]
  by_cases hget : s.store.get (encodeRevisionKey k) = some old
  · rw [if_pos hget, if_pos (show s.skipped.store.get (encodeRevisionKey k) = some old from hget)]
    rfl
  · rw [if_neg hget, if_neg (show ¬ s.skipped.store.get (encodeRevisionKey k) = some old from hget)]
    rfl

theorem indexValue_false (r : ℕ) : uint64ToBytes r = indexValue r false := by simp [indexValue]

theorem eval_createWithTTL (k v : Bytes) (ttl : ℤ) :
    (Creator.createWithTTL k v (s.dealRevision + 1) ttl).eval exec s.skipped =
      some (createError s.store k (s.dealRevision + 1),
        s.after (createError s.store k (s.dealRevision + 1)) k v false) := by
  unfold Creator.createWithTTL Creator.create createError
  cases hget : s.store.get (encodeRevisionKey k) with
  | none =>
    have hexec : exec (.kv (.commit (.create k (s.dealRevision + 1))
        [.putIfNotExist (encodeRevisionKey k) (uint64ToBytes (s.dealRevision + 1)) ttl,
          .put (encodeObjectKey k (s.dealRevision + 1)) v ttl])) s.skipped =
        some (none, s.wrote k v false) := by
      simp only [exec, execCommit, BatchOp.applyFrom, BatchOp.apply, State.skipped, hget,
        if_pos, State.wrote, indexValue_false]
    rw [Prog.eval_call_bind hexec]
    rfl
  | some old =>
    have hexec : exec (.kv (.commit (.create k (s.dealRevision + 1))
        [.putIfNotExist (encodeRevisionKey k) (uint64ToBytes (s.dealRevision + 1)) ttl,
          .put (encodeObjectKey k (s.dealRevision + 1)) v ttl])) s.skipped =
        some (some (.conflict 0 (encodeRevisionKey k) old), s.skipped) := by
      simp only [exec, execCommit, BatchOp.applyFrom, BatchOp.apply, State.skipped, hget,
        BatchOp.key, commitError]
      rfl
    rw [Prog.eval_call_bind hexec]
    dsimp only
    rw [if_pos (show (Err.conflict 0 (encodeRevisionKey k) old).isCASFailed = true from rfl)]
    have hold : Creator.oldRevision (.conflict 0 (encodeRevisionKey k) old) k = .ret (.ok old) :=
      rfl
    rw [hold, Prog.ret_bind]
    dsimp only
    cases parseRevision old with
    | invalidFormat => rfl
    | ok p d =>
      dsimp only
      by_cases hd : d = true ∧ p < s.dealRevision + 1
      · rw [if_pos hd, if_pos hd]
        unfold Creator.update
        have hcas : casError s.store k old = none := if_pos hget
        refine (Prog.eval_op (commit_cas (indexValue_false _) _ _ _ _)).trans ?_
        rw [hcas]
        rfl
      · rw [if_neg hd, if_neg hd]
        rfl

theorem eval_create (hroom : Room 1 s) (k v : Bytes) (lease : ℤ) : (create k v lease).eval exec s =
      some ((s.dealRevision + 1, createError s.store k (s.dealRevision + 1)),
        s.after (createError s.store k (s.dealRevision + 1)) k v false) := by
  unfold create
  rw [Prog.eval_bind_some (eval_deal hroom fun h => absurd h.1 (lt_irrefl 0))]
  dsimp only
  rw [Prog.eval_bind_some (eval_createWithTTL k v _)]
  rfl

theorem eval_update (hroom : Room 1 s) (p : ℕ) (k v : Bytes) : (update p k v).eval exec s =
      if Drifts s p then some ((0, some .revisionDriftBack), s.skipped)
      else some ((s.dealRevision + 1, casError s.store k (uint64ToBytes p)),
        s.after (casError s.store k (uint64ToBytes p)) k v false) := by
  unfold update
  by_cases hp : Drifts s p
  · have hdeal : (deal (.update p)).eval exec s = _ := eval_deal_drifts hroom hp
    rw [Prog.eval_bind_some hdeal, if_pos hp]
    rfl
  · have hdeal : (deal (.update p)).eval exec s = _ := eval_deal hroom hp
    rw [Prog.eval_bind_some hdeal, if_neg hp]
    exact Prog.eval_call_bind (commit_cas (indexValue_false _) _ _ _ _) _

/-- A read of one key depends on what the iteration finds. -/
theorem eval_getInternalVal_congr {k : Bytes} {revision : ℕ} {s t : State}
    (hitems : ∀ r, Engine.items s.store (encodeObjectKey k r) (encodeObjectKey k 0) 1 =
      Engine.items t.store (encodeObjectKey k r) (encodeObjectKey k 0) 1) :
    (getInternalVal .point k revision).eval exec s =
      ((getInternalVal .point k revision).eval exec t).map fun r => (r.1, s) := by
  have hiter (t : State) (start stop : Bytes) : exec (.kv (.iter .point start stop 0 1)) t =
      some (.ok ⟨Engine.items t.store start stop 1, none⟩, t) := rfl
  unfold getInternalVal
  rw [Prog.eval_call_bind (hiter _ _ _), Prog.eval_call_bind (hiter _ _ _), hitems]
  cases Engine.items t.store _ _ 1 with
  | nil => rfl
  | cons e rest =>
    dsimp only
    cases decode e.1 with
    | ok k' r =>
      dsimp only
      split <;> rfl
    | _ => rfl

theorem eval_get_congr {k : Bytes} {revision : ℕ} {s t : State}
    (hitems : ∀ r, Engine.items s.store (encodeObjectKey k r) (encodeObjectKey k 0) 1 =
      Engine.items t.store (encodeObjectKey k r) (encodeObjectKey k 0) 1) :
    (get k revision).eval exec s = ((get k revision).eval exec t).map fun r => (r.1, s) := by
  unfold get
  rw [Prog.eval_bind, Prog.eval_bind, eval_getInternalVal_congr hitems]
  cases (getInternalVal .point k revision).eval exec t with
  | none => rfl
  | some x =>
    obtain ⟨res, u⟩ := x
    cases res with
    | error e => rfl
    | ok y =>
      simp only [Option.map_some, Option.bind_some]
      split <;> rfl

/-- The result of a point read, `none` when it panics. -/
def pointRead (st : Store) (k : Bytes) (revision : ℕ) : Option (Except Err (Bytes × ℕ)) :=
  ((get k revision).eval exec ⟨st, 0, 0⟩).map Prod.fst

theorem eval_get_eq (k : Bytes) (revision : ℕ) (s : State) :
    (get k revision).eval exec s = (pointRead s.store k revision).map fun r => (r, s) := by
  have heval : (get k revision).eval exec s = _ :=
    eval_get_congr (t := ⟨s.store, 0, 0⟩) fun _ => rfl
  rw [heval, pointRead, Option.map_map]
  rfl

theorem eval_get_ok {k v : Bytes} {revision r : ℕ}
    (h : pointRead s.store k revision = some (.ok (v, r))) :
    (get k revision).eval exec s = some (.ok (v, r), s) := by
  rw [eval_get_eq, h]
  rfl

theorem eval_get_error {k : Bytes} {revision : ℕ} {e : Err}
    (h : pointRead s.store k revision = some (.error e)) :
    (get k revision).eval exec s = some (.error e, s) := by
  rw [eval_get_eq, h]
  rfl

/-- The error of a deletion that read the version `r`. -/
def deleteError (s : State) (k : Bytes) (oldRevision r : ℕ) : Option Err :=
  if 0 < oldRevision ∧ oldRevision ≠ r then some .casFailed
  else if s.dealRevision + 1 ≤ r then some (.newRevisionTooOld (s.dealRevision + 1) r)
  else casError s.store k (uint64ToBytes r)

theorem eval_delete (hroom : Room 1 s) (p : ℕ) (k : Bytes) :
    (delete p k).eval exec s = match pointRead s.store k 0 with
      | none => none
      | some (.error e) => some ((s.dealRevision + 1, ⟨[], [], 0⟩, some e), s.skipped)
      | some (.ok (v, r)) =>
        if Drifts s p then some ((0, ⟨[], [], 0⟩, some .revisionDriftBack), s.skipped)
        else some ((s.dealRevision + 1, ⟨k, v, r⟩, deleteError s k p r),
          s.after (deleteError s k p r) k tombStoneBytes true) := by
  unfold delete
  cases hread : pointRead s.store k 0 with
  | none => exact Prog.eval_bind_none (by rw [eval_get_eq, hread]; rfl) _
  | some res =>
    cases res with
    | error e =>
      rw [Prog.eval_bind_some (eval_get_error hread)]
      dsimp only
      unfold mustDeal
      by_cases hp : Drifts s p
      · have hdeal : (deal (.mustDeal p)).eval exec s = _ := eval_deal_drifts hroom hp
        rw [bind_assoc, Prog.eval_bind_some hdeal]
        rfl
      · have hdeal : (deal (.mustDeal p)).eval exec s = _ := eval_deal hroom hp
        rw [bind_assoc, Prog.eval_bind_some hdeal]
        rfl
    | ok x =>
      obtain ⟨v, r⟩ := x
      rw [Prog.eval_bind_some (eval_get_ok hread)]
      dsimp only
      by_cases hp : Drifts s p
      · have hdeal : (deal (.delete p)).eval exec s = _ := eval_deal_drifts hroom hp
        rw [Prog.eval_bind_some hdeal, if_pos hp]
        rfl
      · have hdeal : (deal (.delete p)).eval exec s = _ := eval_deal hroom hp
        rw [Prog.eval_bind_some hdeal, if_neg hp]
        dsimp only
        unfold deleteError
        by_cases hne : 0 < p ∧ p ≠ r
        · rw [if_pos hne, if_pos hne]
          rfl
        · rw [if_neg hne, if_neg hne]
          by_cases hold : s.dealRevision + 1 ≤ r
          · rw [if_pos hold, if_pos hold]
            rfl
          · have hexp : (if 0 < p then p else r) = r := by
              split <;> omega
            have hnew : uint64ToBytes (s.dealRevision + 1) ++ [0] =
                indexValue (s.dealRevision + 1) true := rfl
            rw [if_neg hold, if_neg hold, hexp]
            exact Prog.eval_call_bind (commit_cas hnew _ _ _ _) _

@[simp] theorem State.after_committed (err : Option Err) (k v : Bytes) (deleted : Bool) :
    (s.after err k v deleted).committedRevision = s.committedRevision := by
  cases err <;> rfl

/-- The answer of a creation. -/
def created (revision : ℕ) : Option Err → Except Err CreateResponse
  | none => .ok ⟨revision, true⟩
  | some e => if e.isCASFailed then .ok ⟨revision, false⟩ else .error e

theorem eval_handleCreate (hroom : Room 1 s) (put : CreateRequest) :
    (handleCreate put).eval exec s =
      some (created (s.dealRevision + 1) (createError s.store put.key (s.dealRevision + 1)),
        s.after (createError s.store put.key (s.dealRevision + 1)) put.key put.value false) := by
  unfold handleCreate
  rw [Prog.eval_bind_some (eval_create hroom _ _ _)]
  dsimp only
  rw [Prog.eval_bind_some (eval_notify hroom _ _ _ _ _ _ (State.after_committed _ _ _ _))]
  cases createError s.store put.key (s.dealRevision + 1) with
  | none => rfl
  | some e =>
    unfold created
    dsimp only
    split <;> rfl

/-- The error of `Update`. -/
def updateError (s : State) (kv : KeyValue) : Option Err :=
  if kv.revision = 0 then createError s.store kv.key (s.dealRevision + 1)
  else if Drifts s kv.revision then some .revisionDriftBack
  else casError s.store kv.key (uint64ToBytes kv.revision)

/-- The revision that a request for the version `prevRevision` gets; zero if it drifts. -/
def revisionFor (s : State) (prevRevision : ℕ) : ℕ :=
  if Drifts s prevRevision then 0 else s.dealRevision + 1

theorem eval_writeUpdate (hroom : Room 1 s) (r : UpdateRequest) :
    (writeUpdate r).eval exec s = some ((revisionFor s r.kv.revision, updateError s r.kv),
      s.after (updateError s r.kv) r.kv.key r.kv.value false) := by
  unfold writeUpdate updateError revisionFor
  by_cases h0 : r.kv.revision = 0
  · rw [if_pos h0, if_pos h0, if_neg (fun h => absurd h.1 (by omega)),
      Prog.eval_bind_some (eval_create hroom _ _ _)]
    dsimp only
    rw [Prog.eval_bind_some (eval_notify hroom _ _ _ _ _ _ (State.after_committed _ _ _ _))]
    rfl
  · rw [if_neg h0, if_neg h0]
    have hupdate := eval_update hroom r.kv.revision r.kv.key r.kv.value
    by_cases hp : Drifts s r.kv.revision
    · rw [if_pos hp] at hupdate
      rw [if_pos hp, if_pos hp, Prog.eval_bind_some hupdate]
      rfl
    · rw [if_neg hp] at hupdate
      rw [if_neg hp, if_neg hp, Prog.eval_bind_some hupdate]
      dsimp only
      rw [Prog.eval_bind_some (eval_notify hroom _ _ _ _ _ _ (State.after_committed _ _ _ _))]
      rfl

/-- The answer of an update; after a failed compare the key is read again. -/
def updated (revision : ℕ) (key : Bytes) (read : Option (Except Err (Bytes × ℕ))) :
    Option Err → Option (Except Err UpdateResponse)
  | none => some (.ok ⟨revision, true, none⟩)
  | some e =>
    if e.isCASFailed then read.map fun
      | .error .keyNotFound => .ok ⟨revision, false, none⟩
      | .error getErr => .error getErr
      | .ok (val, modRevision) =>
        .ok ⟨max revision modRevision, false, some ⟨key, val, modRevision⟩⟩
    else some (.error e)

theorem eval_handleUpdate (hroom : Room 1 s) (r : UpdateRequest) : (handleUpdate r).eval exec s =
      (updated (revisionFor s r.kv.revision) r.kv.key (pointRead s.store r.kv.key 0)
        (updateError s r.kv)).map fun a =>
          (a, s.after (updateError s r.kv) r.kv.key r.kv.value false) := by
  unfold handleUpdate
  rw [Prog.eval_bind_some (eval_writeUpdate hroom r)]
  cases updateError s r.kv with
  | none => rfl
  | some e =>
    unfold updated
    dsimp only
    by_cases he : e.isCASFailed = true
    · rw [if_pos he, if_pos he, Prog.eval_bind, eval_get_eq]
      change ((pointRead s.store r.kv.key 0).map _).bind _ = _
      cases pointRead s.store r.kv.key 0 with
      | none => rfl
      | some res =>
        cases res with
        | ok x => rfl
        | error ge => cases ge <;> rfl
    · rw [if_neg he, if_neg he]
      rfl

/-- The answer of a deletion; after a failed compare the key is read again. -/
def deleted (revision : ℕ) (key : Bytes) (old : KeyVal) (read : Option (Except Err (Bytes × ℕ))) :
    Option Err → Option (Except Err DeleteResponse)
  | none => some (.ok ⟨revision, true, some ⟨old.key, old.val, old.revision⟩⟩)
  | some e =>
    if e = .keyNotFound then some (.ok ⟨revision, false, none⟩)
    else if e.isCASFailed then read.map fun
      | .error _ => .ok ⟨revision, false, some ⟨key, old.val, old.revision⟩⟩
      | .ok (val, modRevision) =>
        .ok ⟨max revision modRevision, false, some ⟨key, val, modRevision⟩⟩
    else some (.error e)

theorem eval_handleDelete (hroom : Room 1 s) (r : DeleteRequest) :
    (handleDelete r).eval exec s = match pointRead s.store r.key 0 with
      | none => none
      | some (.error e) => (deleted (s.dealRevision + 1) r.key ⟨[], [], 0⟩ (some (.error e))
          (some e)).map fun a => (a, s.skipped)
      | some (.ok (v, m)) =>
        if Drifts s r.revision then some (.error .revisionDriftBack, s.skipped)
        else (deleted (s.dealRevision + 1) r.key ⟨r.key, v, m⟩ (some (.ok (v, m)))
          (deleteError s r.key r.revision m)).map fun a =>
            (a, s.after (deleteError s r.key r.revision m) r.key tombStoneBytes true) := by
  have hanswer (rev : ℕ) (old : KeyVal) (err : Option Err) (t : State) :
      (err ≠ none → t.store = s.store) → (match err with
        | none => pure (.ok ⟨rev, true, some ⟨old.key, old.val, old.revision⟩⟩)
        | some e =>
          if e = .keyNotFound then pure (.ok ⟨rev, false, none⟩)
          else if e.isCASFailed then do
            match ← get r.key 0 with
            | .error _ => pure (.ok ⟨rev, false, some ⟨r.key, old.val, old.revision⟩⟩)
            | .ok (val, modRevision) =>
              pure (.ok ⟨max rev modRevision, false, some ⟨r.key, val, modRevision⟩⟩)
          else pure (.error e) : M (Except Err DeleteResponse)).eval exec t =
      (deleted rev r.key old (pointRead s.store r.key 0) err).map fun a => (a, t) := by
    intro hstore
    cases err with
    | none => rfl
    | some e =>
      unfold deleted
      dsimp only
      by_cases hnf : e = .keyNotFound
      · rw [if_pos hnf, if_pos hnf]
        rfl
      · rw [if_neg hnf, if_neg hnf]
        by_cases he : e.isCASFailed = true
        · rw [if_pos he, if_pos he, Prog.eval_bind, eval_get_eq, hstore nofun]
          cases pointRead s.store r.key 0 with
          | none => rfl
          | some res => cases res <;> rfl
        · rw [if_neg he, if_neg he]
          rfl
  have hdelete := eval_delete hroom r.revision r.key
  unfold handleDelete
  cases hread : pointRead s.store r.key 0 with
  | none =>
    rw [hread] at hdelete
    exact Prog.eval_bind_none hdelete _
  | some res =>
    rw [hread] at hdelete
    simp only [hread] at hanswer
    cases res with
    | error e =>
      rw [Prog.eval_bind_some hdelete]
      dsimp only
      have hcommitted : s.skipped.committedRevision = s.committedRevision := rfl
      rw [Prog.eval_bind_some (eval_notify hroom _ _ _ _ _ _ hcommitted)]
      exact hanswer (s.dealRevision + 1) ⟨[], [], 0⟩ (some e) s.skipped fun _ => rfl
    | ok x =>
      obtain ⟨v, m⟩ := x
      dsimp only at hdelete ⊢
      by_cases hp : Drifts s r.revision
      · rw [if_pos hp] at hdelete ⊢
        rw [Prog.eval_bind_some hdelete]
        rfl
      · rw [if_neg hp] at hdelete ⊢
        rw [Prog.eval_bind_some hdelete]
        dsimp only
        rw [Prog.eval_bind_some (eval_notify hroom _ _ _ _ _ _ (State.after_committed _ _ _ _))]
        refine hanswer (s.dealRevision + 1) ⟨r.key, v, m⟩ (deleteError s r.key r.revision m)
          (s.after (deleteError s r.key r.revision m) r.key tombStoneBytes true) fun hne => ?_
        cases herr : deleteError s r.key r.revision m with
        | none => exact absurd herr hne
        | some e => rfl

end Solo
end KubeBrain

import KubeBrain.Backend.Leader

/-! Which kinds of operations each program issues, and on which keys of the storage. -/
namespace KubeBrain

open Interleaving Coder

inductive OpKind where
  | deal | revision | tso
  | read | retryRead | commit | record | gc
  | slot | publish | queueHead | queuePush | queuePop | time
  | cacheAdd | cacheFind | chanSend
  | hub | sub | client | stream | history
  | fork | forkWriter | forkWatch | control
  deriving DecidableEq

@[simp] def Reader.kind : Reader → OpKind
  | retry _ => .retryRead
  | _ => .read

/-- Only writes of the compact record and of the versions of a key are batches. -/
@[simp] def KvOp.kind : KvOp → OpKind
  | iter reader .. => reader.kind
  | commit (.record _) _ => .record
  | commit .. => .commit
  | del .. | delCurrent .. => .gc
  | _ => .read

/-- Goroutines that may change the storage, and those that serve watches, are told apart. -/
def Task.kind : Task → OpKind
  | request _ => .forkWriter
  | worker w _ => if w.compact ∨ w.timeoutRevision ≠ 0 then .forkWriter else .fork
  | rangeStream .. => .fork
  | processEvents .. | deleteWatcher _ | deleteWatcherOnDone .. => .forkWatch

@[simp] def Op.kind : Op → OpKind
  | deal _ => .deal
  | getRevision => .revision
  | storeCommitted _ | loadDeal | casDeal .. => .tso
  | kv o => o.kind
  | ringLoad _ | ringStore _ none => .slot
  | ringStore _ (some _) => .publish
  | queuePush _ => .queuePush
  | queueHead => .queueHead
  | queuePop => .queuePop
  | now => .time
  | cacheAdd _ => .cacheAdd
  | cacheFind _ => .cacheFind
  | chanSend _ => .chanSend
  | chanRecv | hubRLock | hubRUnlock | subSend .. => .hub
  | addSub | deleteSub _ | subRecv _ => .sub
  | withCancel | cancel _ | waitDone _ | makeResult | resultSend .. | resultClose _ => .client
  | makeStream | streamSend .. | streamClose _ => .stream
  | historyPush .. | historyTimeout _ => .history
  | accept | join _ => .fork
  | spawn t => t.kind
  | isLeader | ctxDone | exit | panic => .control

theorem KvOp.kind_mem (o : KvOp) : o.kind ∈ [OpKind.read, .retryRead, .commit, .record, .gc] := by
  cases o with
  | commit w ops => cases w <;> simp
  | iter reader start stop ts limit => cases reader <;> simp
  | _ => simp

theorem Task.kind_mem (t : Task) : t.kind ∈ [OpKind.fork, .forkWriter, .forkWatch] := by
  cases t with
  | worker w receiver =>
    show (if w.compact ∨ w.timeoutRevision ≠ 0 then OpKind.forkWriter else .fork) ∈ _
    split <;> simp
  | _ => simp [kind]

/-- Internal keys are the ones the coder makes. -/
def Internal (key : Bytes) : Prop := ∃ k r, key = encodeObjectKey k r

/-- The ninth byte from the end of an internal key is the split byte. -/
theorem not_internal_getCompactKey (p : Bytes) : ¬ Internal (getCompactKey p) := by
  intro h
  obtain ⟨k, r, h⟩ := h
  have hlen : p.length + 12 = k.length + 13 := by
    have := congrArg List.length h
    simpa [getCompactKey] using this
  have hget := congrArg (fun l : Bytes => l[p.length + 3]?) h
  have hleft : (getCompactKey p)[p.length + 3]? = some 109 := by
    rw [getCompactKey, List.getElem?_append_right (by omega), Nat.add_sub_cancel_left]
    rfl
  have hright : (encodeObjectKey k r)[p.length + 3]? = some splitByte := by
    have hm : magicBytes.length = 4 := rfl
    rw [encodeObjectKey, List.getElem?_append_right (by omega), hm,
      show p.length + 3 - 4 = k.length by omega, List.getElem?_append_right (le_refl _),
      Nat.sub_self]
    rfl
  simp only [hleft, hright] at hget
  revert hget
  decide

/-- Writes of versions and deletions name internal keys only. -/
def Op.OnInternal : Op → Prop
  | kv (.commit (.record _) _) => True
  | kv (.commit _ ops) => ∀ o ∈ ops, Internal o.key
  | kv (.del _ key) | kv (.delCurrent _ key _) => Internal key
  | _ => True

/-- All operations of the program are of the given kinds. -/
def Within (ks : List OpKind) {α : Type} (p : M α) : Prop :=
  p.Only fun o => Op.kind o ∈ ks ∧ Op.OnInternal o

namespace Within

variable {ks ks' : List OpKind} {α β : Type}

theorem pure (a : α) : Within ks (Pure.pure a : M α) := trivial

theorem bind {p : M α} {f : α → M β} (hp : Within ks p) (hf : ∀ a, Within ks (f a)) :
    Within ks (p >>= f) := Prog.Only.bind hp hf

theorem mono {p : M α} (h : Within ks p) (hks : ks ⊆ ks') : Within ks' p :=
  Prog.Only.mono (fun _ ho => ⟨hks ho.1, ho.2⟩) h

theorem call {o : Op} (h : o.kind ∈ ks) (hi : o.OnInternal) :
    Within ks (KubeBrain.call o) := ⟨⟨h, hi⟩, fun _ => trivial⟩

theorem kvCall {o : KvOp} (h : o.kind ∈ ks) (hi : (Op.kv o).OnInternal) :
    Within ks (KubeBrain.kvCall o) := call (o := .kv o) h hi

theorem panics (h : .control ∈ ks) : Within ks (KubeBrain.panics : M α) :=
  bind (call h trivial) nofun

end Within

open Within

theorem within_deal (site : DealSite) : Within [.deal] (deal site) := by
  unfold deal
  refine .bind (.call (by simp) trivial) fun rev => ?_
  split <;> exact .pure _

theorem within_notify (key val : Bytes) (revision prev : ℕ) (valid : Bool) (verb : Verb)
    (err : Option Err) :
    Within [.revision, .publish, .control] (notify key val revision prev valid verb err) := by
  unfold notify
  split
  · exact .pure _
  · refine .bind (.call (by simp) trivial) fun cur => ?_
    split
    · exact .panics (by decide)
    · exact .call (by simp) trivial

theorem within_getInternalVal (reader : Reader) (key : Bytes) (revision : ℕ) :
    Within [reader.kind, .control] (getInternalVal reader key revision) := by
  unfold getInternalVal
  refine .bind (.kvCall List.mem_cons_self trivial) fun r => ?_
  split
  · exact .pure _
  · exact .pure _
  · exact .pure _
  · split
    · exact .panics (by simp)
    · split <;> exact .pure _
    · exact .pure _

theorem within_get (key : Bytes) (revision : ℕ) : Within [.read, .control] (get key revision) := by
  unfold get
  refine .bind (within_getInternalVal .point _ _) fun r => ?_
  split
  · split <;> exact .pure _
  · exact .pure _

/-- The two operations of a write name the revision key and an object key. -/
theorem internal_pair {o₁ o₂ : BatchOp} {k : Bytes} {r : ℕ} (h₁ : o₁.key = encodeRevisionKey k)
    (h₂ : o₂.key = encodeObjectKey k r) : ∀ o ∈ [o₁, o₂], Internal o.key := by
  simp only [List.mem_cons, List.not_mem_nil, or_false, forall_eq_or_imp, forall_eq]
  exact ⟨⟨k, 0, h₁⟩, k, r, h₂⟩

theorem within_createWithTTL (key val : Bytes) (revision : ℕ) (ttl : ℤ) :
    Within [.read, .commit] (Creator.createWithTTL key val revision ttl) := by
  have hcreate : Within [.read, .commit] (Creator.create (.create key revision)
      (encodeRevisionKey key) (encodeObjectKey key revision) val (uint64ToBytes revision) ttl) :=
    .kvCall (by simp) (internal_pair rfl rfl)
  unfold Creator.createWithTTL
  refine .bind hcreate fun e => ?_
  split
  · exact .pure _
  split
  · refine .bind ?_ fun old => ?_
    · unfold Creator.oldRevision
      split
      · exact .pure _
      · exact .kvCall (by simp) trivial
    split
    · exact hcreate
    · exact .pure _
    · split
      · exact .pure _
      · split
        · exact .kvCall (by simp) (internal_pair rfl rfl)
        · exact .pure _
  · exact .pure _

theorem within_create (key value : Bytes) (lease : ℤ) :
    Within [.deal, .read, .commit] (create key value lease) := by
  unfold create
  refine .bind ((within_deal _).mono (by decide)) fun a => ?_
  split
  · exact .pure _
  · exact .bind ((within_createWithTTL _ _ _ _).mono (by decide)) fun _ => .pure _

theorem within_update (old : ℕ) (key value : Bytes) :
    Within [.deal, .commit] (update old key value) := by
  unfold update
  refine .bind ((within_deal _).mono (by decide)) fun a => ?_
  split
  · exact .pure _
  · exact .bind (.kvCall (by simp) (internal_pair rfl rfl)) fun _ => .pure _

theorem within_delete (old : ℕ) (key : Bytes) :
    Within [.deal, .read, .commit, .control] (delete old key) := by
  unfold delete
  refine .bind ((within_get _ _).mono (by decide)) fun r => ?_
  split
  · exact .bind (.bind ((within_deal _).mono (by decide)) fun _ => .pure _) fun _ => .pure _
  refine .bind ((within_deal _).mono (by decide)) fun a => ?_
  split
  · exact .pure _
  dsimp only
  split
  · exact .pure _
  split
  · exact .pure _
  · exact .bind (.kvCall (by simp) (internal_pair rfl rfl)) fun _ => .pure _

/-- Kinds of operations of a write request. -/
def writeKinds : List OpKind := [.deal, .revision, .read, .commit, .publish, .control]

theorem within_handleCreate (r : CreateRequest) : Within writeKinds (handleCreate r) := by
  unfold handleCreate
  refine .bind ((within_create _ _ _).mono (by decide)) fun a =>
    .bind ((within_notify _ _ _ _ _ _ _).mono (by decide)) fun _ => ?_
  split
  · exact .pure _
  · split <;> exact .pure _

theorem within_handleDelete (r : DeleteRequest) : Within writeKinds (handleDelete r) := by
  unfold handleDelete
  refine .bind ((within_delete _ _).mono (by decide)) fun a =>
    .bind ((within_notify _ _ _ _ _ _ _).mono (by decide)) fun _ => ?_
  split
  · exact .pure _
  split
  · exact .pure _
  split
  · refine .bind ((within_get _ _).mono (by decide)) fun b => ?_
    split <;> exact .pure _
  · exact .pure _

theorem within_handleUpdate (r : UpdateRequest) : Within writeKinds (handleUpdate r) := by
  have hwrite : Within writeKinds (writeUpdate r) := by
    unfold writeUpdate
    split
    · exact .bind ((within_create _ _ _).mono (by decide)) fun a =>
        .bind ((within_notify _ _ _ _ _ _ _).mono (by decide)) fun _ => .pure _
    · exact .bind ((within_update _ _ _).mono (by decide)) fun a =>
        .bind ((within_notify _ _ _ _ _ _ _).mono (by decide)) fun _ => .pure _
  unfold handleUpdate
  refine .bind hwrite fun a => ?_
  obtain ⟨rev, err⟩ := a
  cases err with
  | none => exact .pure _
  | some e =>
    dsimp only
    split
    · refine .bind ((within_get _ _).mono (by decide)) fun b => ?_
      split <;> exact .pure _
    · exact .pure _

theorem within_overwrite (key : Bytes) (prevOpRev : ℕ) :
    Within [.deal, .retryRead, .commit, .control] (overwrite key prevOpRev) := by
  unfold overwrite
  refine .bind ((within_getInternalVal (.retry _) _ _).mono (by simp)) fun r => ?_
  split
  · exact .pure _
  · exact .pure _
  · split
    · exact .pure _
    · exact .bind (.call (by simp) trivial) fun _ =>
        .bind (.kvCall (by simp) (internal_pair rfl rfl)) fun _ => .pure _

theorem within_retry : Within (writeKinds ++ [.retryRead, .queueHead, .queuePop, .time]) retry := by
  unfold retry
  refine .bind (.call (by simp) trivial) fun head => ?_
  split
  · exact .pure _
  refine .bind (.call (by simp) trivial) fun start => ?_
  split
  · exact .pure _
  refine .bind ((within_overwrite _ _).mono (by decide)) fun a => ?_
  split
  split
  · split
    · exact .pure _
    · exact .bind (.call (by simp) trivial) fun _ => .pure _
  · exact .bind ((within_notify _ _ _ _ _ _ _).mono (by decide)) fun _ =>
      .bind (.call (by simp) trivial) fun _ => .pure _

theorem within_collectStorageWriteEvents (batch : List Event) :
    Within [.revision, .tso, .slot, .queuePush, .cacheAdd, .chanSend]
      (collectStorageWriteEvents batch) := by
  have hset (rev : ℕ) : Within [.revision, .tso, .slot, .queuePush, .cacheAdd, .chanSend]
      (setCurrentRevision rev) := by
    unfold setCurrentRevision
    refine .bind (.call (by simp) trivial) fun _ => .bind (.call (by simp) trivial) fun _ => ?_
    split
    · exact .call (by simp) trivial
    · exact .pure _
  unfold collectStorageWriteEvents
  split
  · refine .bind (.call (by simp) trivial) fun cur => .bind (.call (by simp) trivial) fun ev => ?_
    split
    · split
      · exact .pure _
      · exact .bind (.call (by simp) trivial) fun _ => .pure _
    · refine .bind (.call (by simp) trivial) fun _ => ?_
      split
      · exact .bind (hset _) fun _ => .bind (.call (by simp) trivial) fun _ => .pure _
      split
      · exact .bind (.call (by simp) trivial) fun _ => .bind (hset _) fun _ => .pure _
      · exact .bind (hset _) fun _ => .pure _
  · exact .bind (.call (by simp) trivial) fun _ => .pure _

theorem within_handleGet (r : GetRequest) : Within [.revision, .read, .control] (handleGet r) := by
  unfold handleGet
  refine .bind (.call (by simp) trivial) fun cur =>
    .bind ((within_get _ _).mono (by decide)) fun a => ?_
  split <;> exact .pure _

end KubeBrain

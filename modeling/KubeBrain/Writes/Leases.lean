import KubeBrain.Backend.Footprint
import KubeBrain.Writes.Apart

/-! Times to live on a storage that supports them: with which one the index key and the newest
object key are stored after creations and updates of a key. -/
namespace KubeBrain

open Interleaving Coder

namespace BatchOp

/-- The time to live that an operation stores its key with. -/
def ttl : BatchOp → Option ℤ
  | putIfNotExist _ _ ttl | cas _ _ _ ttl | put _ _ ttl => some ttl
  | del _ => none

end BatchOp

/-- The time to live that a write asks for: `eventsTTL` for events, else the lease. -/
def ttlFor (key : Bytes) (lease : ℤ) : ℤ := if contains key events then eventsTTL else lease

namespace Lease

/-- The storage with the time to live that each of its keys was stored with. -/
structure State where
  solo : Solo.State
  ttls : Bytes → Option ℤ

/-- A batch that took effect. -/
def noted (ttls : Bytes → Option ℤ) (ops : List BatchOp) : Bytes → Option ℤ :=
  ops.foldl (fun ttls o => Function.update ttls o.key o.ttl) ttls

def execCommit (s : State) (ops : List BatchOp) : Option Err × State :=
  match Solo.execCommit s.solo ops with
  | (none, solo) => (none, ⟨solo, noted s.ttls ops⟩)
  | (some err, solo) => (some err, { s with solo })

def exec : (o : Op) → State → Option (o.Res × State)
  | .kv (.commit _ ops), s => some (execCommit s ops)
  | o, s => (Solo.exec o s.solo).map fun x => (x.1, { s with solo := x.2 })

theorem exec_solo (o : Op) (s : State) :
    Solo.exec o s.solo = (exec o s).map fun x => (x.1, x.2.solo) := by
  unfold exec
  split
  · next w ops =>
    show some (Solo.execCommit s.solo ops) = some ((execCommit s ops).1, (execCommit s ops).2.solo)
    unfold execCommit
    split <;> next h => rw [h]
  · rw [Option.map_map]
    exact Option.map_id'.symm

/-- Times to live do not change what a program does. -/
theorem eval_solo {α : Type} {p : M α} {s s' : State} {a : α}
    (h : p.eval exec s = some (a, s')) : p.eval Solo.exec s.solo = some (a, s'.solo) := by
  rw [(Prog.only_true p).eval_frame State.solo (fun o _ s => exec_solo o s) s, h]
  rfl

/-- The batches of a write of `k` with revision `rev`: both keys are stored with `ttl`. -/
def Stores (k : Bytes) (ttl : ℤ) (rev : ℕ) : Op → Prop
  | .kv (.commit _ ops) => ∃ o val, ops = [o, .put (encodeObjectKey k rev) val ttl] ∧
      o.key = encodeRevisionKey k ∧ o.ttl = some ttl
  | _ => True

/-- The contents are still those of before, or both keys are stored with `ttl`. -/
def Kept (k : Bytes) (ttl : ℤ) (rev : ℕ) (before : Store) (s : State) : Prop :=
  s.solo.store = before ∨
    s.ttls (encodeRevisionKey k) = some ttl ∧ s.ttls (encodeObjectKey k rev) = some ttl

theorem noted_pair {ttls : Bytes → Option ℤ} {k val : Bytes} {ttl : ℤ} {rev : ℕ} {o : BatchOp}
    (hkey : o.key = encodeRevisionKey k) (httl : o.ttl = some ttl) :
    noted ttls [o, .put (encodeObjectKey k rev) val ttl] (encodeRevisionKey k) = some ttl ∧
      noted ttls [o, .put (encodeObjectKey k rev) val ttl] (encodeObjectKey k rev) = some ttl := by
  have hnoted : noted ttls [o, .put (encodeObjectKey k rev) val ttl] = Function.update
      (Function.update ttls o.key o.ttl) (encodeObjectKey k rev) (some ttl) := rfl
  rw [hnoted, hkey, httl]
  refine ⟨?_, Function.update_self _ _ _⟩
  by_cases h : encodeRevisionKey k = encodeObjectKey k rev
  · rw [h, Function.update_self]
  · rw [Function.update_of_ne h, Function.update_self]

/-- Only a commit changes the contents. -/
theorem store_of_exec {o : Op} (hcommit : ∀ w ops, o ≠ .kv (.commit w ops)) {s s' : State}
    {r : o.Res} (ho : exec o s = some (r, s')) :
    s'.solo.store = s.solo.store ∧ s'.ttls = s.ttls := by
  have hexec : (Solo.exec o s.solo).map (fun x => (x.1, { s with solo := x.2 })) =
    some (r, s') := by
    unfold exec at ho
    split at ho
    · next w ops => exact absurd rfl (hcommit w ops)
    · exact ho
  obtain ⟨⟨r', t⟩, ht, heq⟩ := Option.map_eq_some_iff.mp hexec
  obtain ⟨-, rfl⟩ := Prod.mk.inj heq
  refine ⟨?_, rfl⟩
  generalize s.solo = u at ht
  unfold Solo.exec at ht
  split at ht
  · split at ht
    · cases ht
      rfl
    · cases ht
  · cases ht
    rfl
  · cases ht
    rfl
  · cases ht
    rfl
  · next w ops => exact absurd rfl (hcommit w ops)
  · cases ht
    rfl
  · cases ht

theorem kept_step {k : Bytes} {ttl : ℤ} {rev : ℕ} {before : Store} (o : Op)
    (hp : Stores k ttl rev o) (s : State) (r : o.Res) (s' : State)
    (hs : Kept k ttl rev before s) (ho : exec o s = some (r, s')) :
    Kept k ttl rev before s' := by
  by_cases hcommit : ∀ w ops, o ≠ .kv (.commit w ops)
  · obtain ⟨hstore, httls⟩ := store_of_exec hcommit ho
    unfold Kept
    rw [hstore, httls]
    exact hs
  · push Not at hcommit
    obtain ⟨w, ops, rfl⟩ := hcommit
    obtain ⟨o, val, rfl, hkey, httl⟩ := hp
    have hexec : execCommit s [o, .put (encodeObjectKey k rev) val ttl] = (r, s') :=
      Option.some.inj ho
    unfold execCommit Solo.execCommit at hexec
    cases happly : BatchOp.applyFrom 0 s.solo.store [o, .put (encodeObjectKey k rev) val ttl] with
    | ok st =>
      simp only [happly] at hexec
      obtain ⟨-, rfl⟩ := Prod.mk.inj hexec
      exact .inr (noted_pair hkey httl)
    | error e =>
      simp only [happly] at hexec
      obtain ⟨-, rfl⟩ := Prod.mk.inj hexec
      exact hs

/-- A program that stores with `ttl` and has changed the contents has stored both keys so. -/
theorem ttls_of_changed {α : Type} {p : M α} {k : Bytes} {ttl : ℤ} {rev : ℕ}
    (hp : p.Only (Stores k ttl rev)) {s s' : State} {a : α} (heval : p.eval exec s = some (a, s'))
    (hne : s'.solo.store ≠ s.solo.store) :
    s'.ttls (encodeRevisionKey k) = some ttl ∧ s'.ttls (encodeObjectKey k rev) = some ttl :=
  (hp.eval_keeps (I := Kept k ttl rev s.solo.store) kept_step heval (.inl rfl)).resolve_left hne

section Programs

variable {k v : Bytes} {ttl : ℤ} {rev : ℕ}

theorem stores_createWithTTL (k v : Bytes) (rev : ℕ) (ttl : ℤ) :
    (Creator.createWithTTL k v rev ttl).Only (Stores k ttl rev) := by
  have hcreate : (Creator.create (.create k rev) (encodeRevisionKey k) (encodeObjectKey k rev) v
      (uint64ToBytes rev) ttl).Only (Stores k ttl rev) :=
    Prog.only_call ⟨_, v, rfl, rfl, rfl⟩
  unfold Creator.createWithTTL
  refine hcreate.bind fun e => ?_
  split
  · trivial
  split
  · refine Prog.Only.bind ?_ fun old => ?_
    · unfold Creator.oldRevision
      split
      · trivial
      · exact Prog.only_call trivial
    split
    · exact hcreate
    · trivial
    · split
      · trivial
      · split
        · exact Prog.only_call ⟨_, v, rfl, rfl, rfl⟩
        · trivial
  · trivial

/-- Programs without batches. -/
theorem stores_of_within {ks : List OpKind} (hks : .commit ∉ ks ∧ .record ∉ ks) {α : Type}
    {p : M α} (h : Within ks p) : p.Only (Stores k ttl rev) := by
  refine Prog.Only.mono (fun o ho => ?_) h
  unfold Stores
  split
  · next w ops =>
    have hkind := ho.1
    cases w <;> first | exact absurd hkind hks.1 | exact absurd hkind hks.2
  · trivial

end Programs

variable {k : Bytes} {s s' : State}

theorem eval_deal (hroom : Solo.Room 1 s.solo) {site : DealSite}
    (h : ¬ Solo.Drifts s.solo site.prevRevision) : (deal site).eval exec s =
      some ((s.solo.dealRevision + 1, none), { s with solo := s.solo.skipped }) := by
  have hexec : exec (.deal site) s =
      some (s.solo.dealRevision + 1, { s with solo := s.solo.skipped }) := by
    show (Solo.exec (.deal site) s.solo).map _ = _
    rw [Solo.exec_deal hroom]
    rfl
  unfold deal
  unfold Solo.Drifts at h
  rw [Prog.eval_call_bind hexec, if_neg h]
  rfl

/-- No version of `k` has a revision that is still to be dealt. -/
def Behind (k : Bytes) (s : State) : Prop :=
  ∀ r v, objects s.solo.store k r v → r ≤ s.solo.dealRevision

/-- The index key and the newest object key of `k` are stored with `ttl`. -/
def Stored (k : Bytes) (ttl : ℤ) (s : State) : Prop :=
  s.ttls (encodeRevisionKey k) = some ttl ∧ ∃ rev v, objects s.solo.store k rev v ∧
    (∀ r w, objects s.solo.store k r w → r ≤ rev) ∧ s.ttls (encodeObjectKey k rev) = some ttl

section Wrote

variable {v : Bytes} {ttl : ℤ}

theorem objects_wrote {r : ℕ} {w : Bytes} (hbehind : Behind k s)
    (hn : s.solo.dealRevision + 1 < 2 ^ 64) (h : objects (s.solo.wrote k v false).store k r w) :
    r ≤ s.solo.dealRevision + 1 := by
  obtain ⟨h0, hr, hget⟩ := h
  simp only [Solo.State.wrote] at hget
  rw [SortedMap.get_insert] at hget
  split at hget
  · next heq => exact (encodeObjectKey_injective hr hn heq).2.le
  · rw [SortedMap.get_insert_of_ne _ _ (encodeObjectKey_ne_encodeRevisionKey h0 hr)] at hget
    exact (hbehind r w ⟨h0, hr, hget⟩).trans (Nat.le_succ _)

/-- A write that has taken effect, by a program whose batches store with `ttl`. -/
theorem stored_of_wrote {α : Type} {p : M α} {a : α} {t : State} (hbehind : Behind k s)
    (hn : s.solo.dealRevision + 1 < 2 ^ 64) (ht : t.solo.store = s.solo.store)
    (hp : p.Only (Stores k ttl (s.solo.dealRevision + 1))) (heval : p.eval exec t = some (a, s'))
    (hwrote : s'.solo = s.solo.wrote k v false) : Stored k ttl s' ∧ Behind k s' := by
  have hget : s'.solo.store.get (encodeObjectKey k (s.solo.dealRevision + 1)) = some v := by
    rw [hwrote]
    exact SortedMap.get_insert_self _ _ _
  have hchanged : s'.solo.store ≠ t.solo.store := by
    intro heq
    rw [heq, ht] at hget
    have := hbehind _ _ ⟨by omega, hn, hget⟩
    omega
  obtain ⟨hindex, hobject⟩ := ttls_of_changed hp heval hchanged
  have hle (r : ℕ) (w : Bytes) (h : objects s'.solo.store k r w) : r ≤ s.solo.dealRevision + 1 := by
    rw [hwrote] at h
    exact objects_wrote hbehind hn h
  refine ⟨⟨hindex, _, v, ⟨by omega, hn, hget⟩, hle, hobject⟩, ?_⟩
  intro r w h
  have hdealt : s'.solo.dealRevision = s.solo.dealRevision + 1 := by
    rw [hwrote]
    rfl
  rw [hdealt]
  exact hle r w h

end Wrote

theorem stores_notify (key val : Bytes) (revision pre : ℕ) (valid : Bool) (verb : Verb)
    (err : Option Err) {ttl : ℤ} {rev : ℕ} :
    (notify key val revision pre valid verb err).Only (Stores k ttl rev) :=
  stores_of_within (by decide) (within_notify key val revision pre valid verb err)

theorem handleCreate_stores (hbehind : Behind k s) (hroom : Solo.Room 1 s.solo)
    {put : CreateRequest} (hkey : put.key = k) {a : CreateResponse}
    (heval : (handleCreate put).eval exec s = some (.ok a, s')) (hsucc : a.succeeded = true) :
    Stored k (ttlFor k put.lease) s' ∧ Behind k s' := by
  subst hkey
  have hsolo := eval_solo heval
  rw [Solo.eval_handleCreate hroom, Option.some.injEq, Prod.mk.injEq] at hsolo
  obtain ⟨hanswer, hstate⟩ := hsolo
  have herr : Solo.createError s.solo.store put.key (s.solo.dealRevision + 1) = none := by
    cases herr : Solo.createError s.solo.store put.key (s.solo.dealRevision + 1) with
    | none => rfl
    | some e =>
      rw [herr] at hanswer
      unfold Solo.created at hanswer
      dsimp only at hanswer
      split at hanswer
      · obtain rfl := Except.ok.inj hanswer
        cases hsucc
      · cases hanswer
  rw [herr] at hstate
  unfold handleCreate create at heval
  rw [bind_assoc, Prog.eval_bind_some (eval_deal hroom fun h => absurd h.1 (lt_irrefl 0))] at heval
  refine stored_of_wrote (t := { s with solo := s.solo.skipped }) hbehind
    (by have := hroom.2.2; omega) rfl ?_ heval hstate.symm
  refine Prog.Only.bind (Prog.Only.bind (stores_createWithTTL _ _ _ _) fun _ => trivial) fun x => ?_
  refine Prog.Only.bind (stores_notify _ _ _ _ _ _ _) fun _ => ?_
  split
  · trivial
  · split <;> trivial

/-- What follows the write in `Update` does not store anything. -/
theorem stores_answer {ttl : ℤ} {rev : ℕ} (r : UpdateRequest) (curRev : ℕ) (err : Option Err) :
    (match err with
      | none => pure (.ok ⟨curRev, true, none⟩)
      | some e =>
        if e.isCASFailed then do
          match ← get r.kv.key 0 with
          | .error .keyNotFound => pure (.ok ⟨curRev, false, none⟩)
          | .error getErr => pure (.error getErr)
          | .ok (val, modRevision) =>
            pure (.ok ⟨max curRev modRevision, false, some ⟨r.kv.key, val, modRevision⟩⟩)
        else pure (.error e) : M (Except Err UpdateResponse)).Only (Stores k ttl rev) := by
  split
  · trivial
  · split
    · refine Prog.Only.bind (stores_of_within (by decide) (within_get _ _)) fun b => ?_
      split <;> trivial
    · trivial

theorem handleUpdate_stores (hbehind : Behind k s) (hroom : Solo.Room 1 s.solo)
    {r : UpdateRequest} (hkey : r.kv.key = k) {a : UpdateResponse}
    (heval : (handleUpdate r).eval exec s = some (.ok a, s')) (hsucc : a.succeeded = true) :
    Stored k (if r.kv.revision = 0 then ttlFor k r.lease else 0) s' ∧ Behind k s' := by
  subst hkey
  have hsolo := eval_solo heval
  rw [Solo.eval_handleUpdate hroom] at hsolo
  obtain ⟨answer, hanswer, heq⟩ := Option.map_eq_some_iff.mp hsolo
  obtain ⟨rfl, hstate⟩ := Prod.mk.inj heq
  have herr : Solo.updateError s.solo r.kv = none := by
    cases herr : Solo.updateError s.solo r.kv with
    | none => rfl
    | some e =>
      rw [herr] at hanswer
      unfold Solo.updated at hanswer
      dsimp only at hanswer
      split at hanswer
      · obtain ⟨res, -, hres⟩ := Option.map_eq_some_iff.mp hanswer
        split at hres
        · obtain rfl := Except.ok.inj hres
          cases hsucc
        · cases hres
        · obtain rfl := Except.ok.inj hres
          cases hsucc
      · cases hanswer
  rw [herr] at hstate
  have hdrift : ¬ Solo.Drifts s.solo r.kv.revision := by
    intro hd
    unfold Solo.updateError at herr
    rw [if_neg (by have := hd.1; omega), if_pos hd] at herr
    cases herr
  have hn : s.solo.dealRevision + 1 < 2 ^ 64 := by
    have := hroom.2.2
    omega
  unfold handleUpdate writeUpdate at heval
  by_cases h0 : r.kv.revision = 0
  · rw [if_pos h0]
    rw [if_pos h0] at heval
    unfold create at heval
    rw [bind_assoc, bind_assoc,
      Prog.eval_bind_some (eval_deal hroom fun h => absurd h.1 (lt_irrefl 0))] at heval
    refine stored_of_wrote (t := { s with solo := s.solo.skipped }) hbehind hn rfl ?_ heval
      hstate.symm
    refine Prog.Only.bind (Prog.Only.bind (stores_createWithTTL _ _ _ _) fun _ => trivial)
      fun x => ?_
    exact Prog.Only.bind (Prog.Only.bind (stores_notify _ _ _ _ _ _ _) fun _ => trivial)
      fun y => stores_answer r y.1 y.2
  · rw [if_neg h0]
    rw [if_neg h0] at heval
    unfold update at heval
    have hdeal : (deal (.update r.kv.revision)).eval exec s = _ := eval_deal hroom hdrift
    rw [bind_assoc, bind_assoc, Prog.eval_bind_some hdeal] at heval
    refine stored_of_wrote (t := { s with solo := s.solo.skipped }) hbehind hn rfl ?_ heval
      hstate.symm
    refine Prog.Only.bind (Prog.Only.bind (Prog.only_call ⟨_, r.kv.value, rfl, rfl, rfl⟩)
      fun _ => trivial) fun x => ?_
    exact Prog.Only.bind (Prog.Only.bind (stores_notify _ _ _ _ _ _ _) fun _ => trivial)
      fun y => stores_answer r y.1 y.2

/-- The lease of a creation or an update. -/
def leaseOf : Request → Option ℤ
  | .create r => some r.lease
  | .update r => some r.lease
  | _ => none

/-- The request is carried out by the creator. -/
def Creates : Request → Prop
  | .create _ => True
  | .update r => r.kv.revision = 0
  | _ => False

instance (r : Request) : Decidable (Creates r) := by
  cases r <;> unfold Creates <;> infer_instance

/-- A creation or an update of `k` with the given lease that is carried out. The sequencer and
the event ring buffer have room for it, else it panics. -/
structure Succeeds (cfg : Config) (k : Bytes) (s : State) (r : Request) (s' : State) : Prop where
  room : Solo.Room 1 s.solo
  key : r.written = some k
  lease : (leaseOf r).isSome
  answer : ∃ out, (Leader.handle cfg r).eval exec s = some (out, s') ∧ out.succeeded = true

/-- Between the requests for `k` the storage may drop versions of it, and revisions are dealt
for other keys. -/
structure Idle (k : Bytes) (s t : State) : Prop where
  dealt : s.solo.dealRevision ≤ t.solo.dealRevision
  objects : ∀ r v, objects t.solo.store k r v → objects s.solo.store k r v

/-- Requests for `k` that are carried out one after the other. -/
inductive Served (cfg : Config) (k : Bytes) (s : State) : List Request → State → Prop where
  | nil : Served cfg k s [] s
  | snoc {rs : List Request} {t u s' : State} {r : Request} (served : Served cfg k s rs t)
      (idle : Idle k t u) (succeeds : Succeeds cfg k u r s') : Served cfg k s (rs ++ [r]) s'

theorem Succeeds.stored {cfg : Config} {r : Request} {lease : ℤ} (h : Succeeds cfg k s r s')
    (hbehind : Behind k s) (hlease : leaseOf r = some lease) :
    Stored k (if Creates r then ttlFor k lease else 0) s' ∧ Behind k s' := by
  obtain ⟨hroom, hkey, -, out, heval, hsucc⟩ := h
  cases r with
  | create put =>
    obtain ⟨⟨a, t⟩, ha, hout⟩ := Option.bind_eq_some_iff.mp
      ((Prog.eval_bind _ _ _).symm.trans heval)
    obtain ⟨rfl, rfl⟩ := Prod.mk.inj (Option.some.inj hout)
    obtain rfl := Option.some.inj hlease
    rw [if_pos (show Creates (.create put) from trivial)]
    cases a with
    | error e => cases hsucc
    | ok a => exact handleCreate_stores hbehind hroom (Option.some.inj hkey) ha hsucc
  | update u =>
    obtain ⟨⟨a, t⟩, ha, hout⟩ := Option.bind_eq_some_iff.mp
      ((Prog.eval_bind _ _ _).symm.trans heval)
    obtain ⟨rfl, rfl⟩ := Prod.mk.inj (Option.some.inj hout)
    obtain rfl := Option.some.inj hlease
    cases a with
    | error e => cases hsucc
    | ok a => exact handleUpdate_stores hbehind hroom (Option.some.inj hkey) ha hsucc
  | _ => cases hlease

theorem Served.behind {cfg : Config} {rs : List Request} (h : Served cfg k s rs s')
    (hbehind : Behind k s) : Behind k s' := by
  induction h with
  | nil => exact hbehind
  | snoc _ idle succeeds ih =>
    obtain ⟨lease, hlease⟩ := Option.isSome_iff_exists.mp succeeds.lease
    exact (succeeds.stored (fun r v hv => (ih r v (idle.objects r v hv)).trans idle.dealt) hlease).2

/-- A key has one newest version. -/
theorem Stored.unique {ttl ttl' : ℤ} (h : Stored k ttl s) (h' : Stored k ttl' s) : ttl = ttl' :=
  Option.some.inj (h.1.symm.trans h'.1)

/-- Whatever creations and updates of a key were carried out, the index key and the newest
object key are stored with the time to live that the last one asks for exactly when that one
took the path of the creator or asks for none. -/
theorem lease_survives_iff {cfg : Config} {rs : List Request} {r : Request} {lease : ℤ}
    (hbehind : Behind k s) (hserved : Served cfg k s (rs ++ [r]) s')
    (hlease : leaseOf r = some lease) :
    Stored k (ttlFor k lease) s' ↔ Creates r ∨ ttlFor k lease = 0 := by
  generalize hall : rs ++ [r] = all at hserved
  cases hserved with
  | nil => cases rs <;> cases hall
  | snoc served idle succeeds =>
    obtain ⟨rfl, hr⟩ := List.append_inj' hall rfl
    obtain rfl := List.singleton_inj.mp hr
    have hprev := served.behind hbehind
    obtain ⟨hstored, -⟩ := succeeds.stored
      (fun r v hv => (hprev r v (idle.objects r v hv)).trans idle.dealt) hlease
    by_cases hc : Creates r
    · rw [if_pos hc] at hstored
      exact ⟨fun _ => .inl hc, fun _ => hstored⟩
    · rw [if_neg hc] at hstored
      refine ⟨fun h => .inr (h.unique hstored), fun h => ?_⟩
      rw [h.resolve_left hc]
      exact hstored

/-- A key that is created and then updated, each time with a lease of a minute. -/
def leasedKey : Bytes := [47, 97]

def fresh : State := ⟨⟨SortedMap.empty, 0, 0⟩, fun _ => none⟩

def createLeased : Request := .create ⟨leasedKey, [1], 60⟩

def updateLeased : Request := .update ⟨⟨leasedKey, [2], 1⟩, 60⟩

def afterCreate : State :=
  ⟨fresh.solo.wrote leasedKey [1] false, noted fresh.ttls
    [.putIfNotExist (encodeRevisionKey leasedKey) (uint64ToBytes 1) 60,
      .put (encodeObjectKey leasedKey 1) [1] 60]⟩

def afterUpdate : State :=
  ⟨afterCreate.solo.wrote leasedKey [2] false, noted afterCreate.ttls
    [.cas (encodeRevisionKey leasedKey) (uint64ToBytes 2) (uint64ToBytes 1) 0,
      .put (encodeObjectKey leasedKey 2) [2] 0]⟩

theorem served_create (cfg : Config) : Served cfg leasedKey fresh [createLeased] afterCreate :=
  .snoc .nil ⟨le_rfl, fun _ _ h => h⟩ ⟨by decide, rfl, rfl, _, rfl, rfl⟩

theorem behind_fresh : Behind leasedKey fresh :=
  fun _ _ h => absurd h.2.2 (by simp [fresh])

theorem lease_survives_create : Stored leasedKey (ttlFor leasedKey 60) afterCreate ↔
      Creates createLeased ∨ ttlFor leasedKey 60 = 0 :=
  lease_survives_iff behind_fresh
    (show Served Solo.bareConfig leasedKey fresh ([] ++ [createLeased]) afterCreate from
      served_create _) rfl

/-- The update stores both keys without a time to live, so the lease is gone. -/
theorem update_drops_lease :
    Served Solo.bareConfig leasedKey fresh [createLeased, updateLeased] afterUpdate ∧
      ttlFor leasedKey 60 = 60 ∧ afterUpdate.ttls (encodeRevisionKey leasedKey) = some 0 ∧
      ¬ Stored leasedKey 60 afterUpdate := by
  have hindex : afterUpdate.ttls (encodeRevisionKey leasedKey) = some 0 := by decide
  refine ⟨?_, by decide, hindex, fun h => ?_⟩
  · exact .snoc (served_create Solo.bareConfig) ⟨le_rfl, fun _ _ h => h⟩
      ⟨by decide, rfl, rfl, _, rfl, rfl⟩
  · exact absurd (h.1.symm.trans hindex) (by decide)

end Lease
end KubeBrain

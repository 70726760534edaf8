import KubeBrain.Events.Publication
import KubeBrain.Writes.Version

/-! What every goroutine may do to the versions of the keys: a batch is committed under a
revision that was dealt for it, its result is published, and compactions work below every
write that can still land. -/
namespace KubeBrain

open Interleaving Coder

/-- Where the sequencer starts and what the storage holds then. In restricted runs the requests
keep to some keys and values, and the storage holds nothing above the start. -/
structure WriteMode where
  start : ℕ
  base : Store
  restricted : Prop
  key : Bytes → Prop
  value : Bytes → Prop
  start_lt : start < 2 ^ 63
  index : ∀ k val, base.get (encodeRevisionKey k) = some val →
    ∃ q d, q ≤ start ∧ val = indexValue q d
  objects : restricted → ∀ k r, start < r → r < 2 ^ 64 → base.get (encodeObjectKey k r) = none

/-- The request writes an allowed key and value, if it writes. -/
def WriteMode.Accepts (m : WriteMode) : Request → Prop
  | .create r => m.key r.key ∧ m.value r.value
  | .update r => m.key r.kv.key ∧ m.value r.kv.value
  | .delete r => m.key r.key
  | _ => True

namespace Writes

/-- What became of the batch of a dealt revision: none has taken effect, its version is
written, or its commit was answered with an uncertain error. -/
inductive Fate where
  | fresh
  | landed (v : Version)
  | doubt (v : Version)

def Fate.after (v : Version) : Option Err → Fate
  | none => .landed v
  | some e => if e.isUncertain then .doubt v else .fresh

structure Debt where
  rev : ℕ
  fate : Fate

/-- The revision that the goroutine has dealt and not yet published; the committed revision
it has seen last; a revision that no write can land at or below; and for the retry worker the
event it works on, and whether the batch of that event is decided. -/
structure Ghost where
  debt : Option Debt
  seen : ℕ
  limit : ℕ
  retrier : Bool
  head : Option WatchEvent
  settled : Bool

def idle : Ghost := ⟨none, 0, 0, false, none, false⟩

section

variable (m : WriteMode)

def Allows (v : Version) : Prop :=
  m.restricted → m.key v.key ∧ if v.deleted then v.val = tombStoneBytes else m.value v.val

def Describes (ev : WatchEvent) (v : Version) : Prop :=
  ev.key = v.key ∧ (m.restricted → v.val = if ev.verb = .delete then tombStoneBytes else ev.value)

def Announces (ev : WatchEvent) : Fate → Prop
  | .fresh => ev.valid = false
  | .landed v => ev.valid = true ∧ Describes m ev v
  | .doubt v => (ev.valid = false ∧ ev.isUncertain = true) ∧ Describes m ev v

/-- What is known of a value that is stored under the key and revision of an event. -/
def Content (ev : WatchEvent) (val : Bytes) : Prop :=
  m.restricted → (val = if ev.verb = .delete then tombStoneBytes else ev.value) ∧
    (val ≠ tombStoneBytes → m.value val)

end

/-- Compactions stay at or below this revision, given the head of the retry queue. -/
def horizon (seen : ℕ) : Option (WatchEvent × ℕ) → ℕ
  | none => seen
  | some (ev, _) => min seen (ev.revision - 1)

namespace Ghost

def committed (g : Ghost) (b : Batch) (r : Option Err) : Ghost :=
  match b.version with
  | none => g
  | some v => { g with debt := some ⟨v.rev, .after v r⟩ }

def polled (g : Ghost) (r : Option (WatchEvent × ℕ)) : Ghost :=
  { g with
    limit := max g.limit (horizon g.seen r)
    head := if g.retrier then r.map Prod.fst else none
    settled := false }

def reads (g : Ghost) : Reader → Ghost
  | .retry _ => { g with settled := true }
  | _ => g

end Ghost

section

variable (m : WriteMode) (g : Ghost)

/-- A worker that may delete stays below the limit. -/
def PreSpawn : Task → Prop
  | .worker w _ => w.compact = true ∨ w.timeoutRevision ≠ 0 →
      w.revision ≤ g.limit ∧ w.timeoutRevision ≤ g.limit
  | .request _ => False
  | _ => True

def PreKv : KvOp → Prop
  | .commit (.record _) ops => ∀ o ∈ ops, ¬ Internal o.key
  | .commit w ops => ∃ v, Wrote ⟨w, ops⟩ v ∧ g.debt = some ⟨v.rev, .fresh⟩ ∧ Allows m v
  | .del C key => C ≤ g.limit ∧ ∃ k r, key = encodeObjectKey k r ∧ 0 < r ∧ r < 2 ^ 64
  | .delCurrent C key val => C ≤ g.limit ∧
      ∃ k, key = encodeRevisionKey k ∧ Bytes.toNatBE (val.take 8) ≤ g.limit
  | .iter (.retry r) _ _ ts _ => ts = 0 ∧ g.retrier = true ∧ ∃ ev, g.head = some ev ∧
    ev.revision = r
  | _ => True

def Pre : Op → Prop
  | .deal _ => g.debt = none
  | .kv o => PreKv m g o
  | .ringStore _ (some ev) => (∃ fate, g.debt = some ⟨ev.revision, fate⟩ ∧ Announces m ev fate) ∧
      (m.restricted → m.key ev.key)
  | .queuePop => g.retrier = true ∧ g.head ≠ none ∧ g.settled = true
  | .historyPush C _ => C ≤ g.limit
  | .spawn t => PreSpawn g t
  | _ => True

def PostKv (o : KvOp) (r : o.Res) (g' : Ghost) : Prop :=
  match o, r with
  | .commit w ops, r => g' = g.committed ⟨w, ops⟩ r
  | .iter reader _ _ _ _, r => g' = g.reads reader ∧ ∀ it, r = .ok it →
      (∀ k, (encodeRevisionKey k, tombStoneBytes) ∉ it.items) ∧
      ∀ n ev val, reader = .retry n → g.head = some ev →
        (encodeObjectKey ev.key ev.revision, val) ∈ it.items → Content m ev val
  | _, _ => g' = g

def Post (o : Op) (r : o.Res) (g' : Ghost) : Prop :=
  match o, r with
  | .deal _, r => g' = { g with debt := some ⟨r, .fresh⟩ } ∧ 0 < r ∧ r < 2 ^ 63 ∧
      ∀ ev, g.head = some ev → ev.revision < r
  | .kv o, r => PostKv m g o r g'
  | .ringStore _ (some _), _ => g' = { g with debt := none }
  | .getRevision, r => g' = { g with seen := r }
  | .queueHead, r => g' = g.polled r ∧ ∀ ev t, r = some (ev, t) →
      0 < ev.revision ∧ (m.restricted → m.key ev.key)
  | .queuePop, _ => g' = { g with head := none, settled := false }
  | .historyTimeout _, r => g' = { g with limit := max g.limit r }
  | _, _ => g' = g

end

abbrev spec (m : WriteMode) : Spec sig Outcome where
  Ghost := Ghost
  idle := idle
  Pre := Pre m
  Post := Post m
  Fin := fun _ _ => True

section Programs

variable {m : WriteMode} {g : Ghost} {α : Type}

variable {key : Bytes} {rev : ℕ} {ops : List BatchOp} {val : Bytes} {C : ℕ}

/-- Kinds of operations that every goroutine may issue at any time. -/
def quietKinds : List OpKind :=
  [.revision, .tso, .read, .slot, .queueHead, .queuePush, .time, .cacheAdd, .cacheFind, .chanSend,
    .hub, .sub, .client, .stream, .fork, .forkWatch, .control]

private theorem pre_quiet {o : Op} (h : o.kind ∈ quietKinds) : Pre m g o := by
  cases o with
  | deal _ => exact absurd h (by simp [quietKinds])
  | kv o =>
    cases o with
    | commit w ops => cases w <;> exact absurd h (by simp [quietKinds])
    | del _ _ => exact absurd h (by simp [quietKinds])
    | delCurrent _ _ _ => exact absurd h (by simp [quietKinds])
    | iter reader _ _ _ _ =>
      cases reader with
      | retry _ => exact absurd h (by simp [quietKinds])
      | _ => trivial
    | _ => trivial
  | ringStore _ ev =>
    cases ev with
    | none => trivial
    | some _ => exact absurd h (by simp [quietKinds])
  | queuePop => exact absurd h (by simp [quietKinds])
  | historyPush _ _ => exact absurd h (by simp [quietKinds])
  | spawn t =>
    cases t with
    | request r => exact absurd h (by simp [quietKinds, Task.kind])
    | worker w receiver =>
      intro hw
      exact absurd h (by simp [quietKinds, Task.kind, hw])
    | _ => trivial
  | _ => trivial

theorem safe_quiet {q : M α} (h : Within quietKinds q) : (spec m).Safe (fun _ _ => True) g q := by
  apply Spec.safe_of_only (O := spec m) (I := fun _ : Ghost => True) ?_ ?_ h trivial
  · intro g' o _ ho
    exact pre_quiet ho.1
  · intro g' o r g'' _ _ _
    trivial

/-- Kinds of operations that leave the account of a goroutine as it is. -/
def stillKinds : List OpKind := [.read, .time, .stream, .fork, .forkWatch, .control]

private theorem still_of_kind {o : Op} (h : o.kind ∈ stillKinds) :
    Pre m g o ∧ ∀ r g', Post m g o r g' → g' = g := by
  have hquiet : stillKinds ⊆ quietKinds := by decide
  refine ⟨pre_quiet (hquiet h), fun r g' hpost => ?_⟩
  cases o with
  | deal _ => exact absurd h (by simp [stillKinds])
  | kv o =>
    cases o with
    | commit w ops => cases w <;> exact absurd h (by simp [stillKinds])
    | iter reader _ _ _ _ =>
      cases reader with
      | retry _ => exact absurd h (by simp [stillKinds])
      | _ => exact hpost.1
    | _ => exact hpost
  | ringStore _ ev => cases ev <;> exact absurd h (by simp [stillKinds])
  | getRevision => exact absurd h (by simp [stillKinds])
  | queueHead => exact absurd h (by simp [stillKinds])
  | queuePop => exact absurd h (by simp [stillKinds])
  | historyTimeout _ => exact absurd h (by simp [stillKinds])
  | _ => exact hpost

theorem safe_still {q : M α} (h : Within stillKinds q) :
    (spec m).Safe (fun g' _ => g' = g) g q :=
  Spec.safe_of_still (O := spec m) (fun _ ho => still_of_kind ho.1) h

theorem safe_deal {site : DealSite} (hdebt : g.debt = none) :
    (spec m).Safe (fun g' a => g' = { g with debt := some ⟨a.1, .fresh⟩ } ∧ 0 < a.1 ∧
      (a.2 = none → site.prevRevision ≤ a.1)) g (deal site) := by
  unfold deal
  apply Spec.Safe.call_bind hdebt
  intro (rev : ℕ) g' hpost
  obtain ⟨rfl, hpos, -⟩ := hpost
  split
  · exact ⟨rfl, hpos, nofun⟩
  · next h =>
    refine ⟨rfl, hpos, fun _ => ?_⟩
    by_contra hlt
    have hlt : rev < site.prevRevision := not_le.mp hlt
    exact h ⟨by omega, hlt⟩

/-- The account of a goroutine at the end of a write: the event that it is about to publish
says what became of the batch. -/
def Answered (m : WriteMode) (g : Ghost) (key : Bytes) (verb : Verb) (value : Bytes) (rev : ℕ)
    (err : Option Err) : Prop :=
  rev ≠ 0 → ∃ fate, g.debt = some ⟨rev, fate⟩ ∧
    ∀ prev, Announces m ⟨rev, prev, verb, err.isNone, key, value, err⟩ fate

theorem announces_after {ev : WatchEvent} {v : Version} {err : Option Err}
    (h : Describes m ev v) (hvalid : ev.valid = err.isNone) (herr : ev.err = err) :
    Announces m ev (Fate.after v err) := by
  cases err with
  | none => exact ⟨hvalid, h⟩
  | some e =>
    by_cases he : e.isUncertain = true
    · simp only [Fate.after, he, if_true]
      exact ⟨⟨hvalid, by simp [WatchEvent.isUncertain, herr, he]⟩, h⟩
    · simp only [Fate.after, if_neg he]
      exact hvalid

/-- No batch has taken effect, and the error says so. -/
theorem answered_fresh {value : Bytes} {verb : Verb} {e : Err}
    (hdebt : g.debt = some ⟨rev, .fresh⟩) :
    Answered m g key verb value rev (some e) :=
  fun _ => ⟨.fresh, hdebt, fun _ => rfl⟩

theorem safe_commit {w : Writer} {v : Version} (hw : Wrote ⟨w, ops⟩ v)
    (hdebt : g.debt = some ⟨v.rev, .fresh⟩) (hallow : Allows m v) :
    (spec m).Safe (fun g' r => g' = { g with debt := some ⟨v.rev, .after v r⟩ }) g
      (kvCall (.commit w ops)) := by
  apply Spec.safe_call.mpr
  constructor
  · have hver := hw.target
    cases w with
    | record C => cases hver
    | _ => exact ⟨v, hw, hdebt, hallow⟩
  · intro r g' hpost
    have heq : g' = g.committed ⟨w, ops⟩ r := hpost
    rw [heq, Ghost.committed, hw.version]

/-- A commit answers for the event that describes its version. -/
theorem safe_commit_answered {w : Writer} {v : Version} {verb : Verb} {value : Bytes}
    (hw : Wrote ⟨w, ops⟩ v) (hdebt : g.debt = some ⟨v.rev, .fresh⟩) (hallow : Allows m v)
    (hval : m.restricted → v.val = if verb = .delete then tombStoneBytes else value) :
    (spec m).Safe (fun g' r => (∃ fate, g' = { g with debt := some ⟨v.rev, fate⟩ }) ∧
      Answered m g' v.key verb value v.rev r) g (kvCall (.commit w ops)) := by
  apply (safe_commit hw hdebt hallow).mono
  intro g' r hg'
  subst hg'
  exact ⟨⟨_, rfl⟩, fun _ => ⟨_, rfl, fun prev => announces_after ⟨rfl, hval⟩ rfl rfl⟩⟩

theorem safe_createWithTTL {ttl : ℤ} (hdebt : g.debt = some ⟨rev, .fresh⟩)
    (hallow : m.restricted → m.key key ∧ m.value val) :
    (spec m).Safe (fun g' r => Answered m g' key .create val rev r) g
      (Creator.createWithTTL key val rev ttl) := by
  have hver : Allows m ⟨key, rev, val, false⟩ := hallow
  have hval : m.restricted → val = if Verb.create = .delete then tombStoneBytes else val :=
    fun _ => rfl
  unfold Creator.createWithTTL
  apply (safe_commit (.create key rev val ttl) hdebt hver).bind
  intro g₁ e hg₁
  cases e with
  | none =>
    subst hg₁
    exact fun _ => ⟨_, rfl, fun prev => announces_after ⟨rfl, hval⟩ rfl rfl⟩
  | some e =>
    dsimp only
    split
    · next hcas =>
      -- a failed compare is a definite answer, so the revision is still free
      have hg₁ : g₁.debt = some ⟨rev, .fresh⟩ := by
        subst hg₁
        have hu : e.isUncertain = false := by
          cases e <;> first | rfl | cases hcas
        simp [Fate.after, hu]
      have hold : Within stillKinds (Creator.oldRevision e key) := by
        unfold Creator.oldRevision
        split
        · exact .pure _
        · exact .kvCall (by simp [stillKinds]) trivial
      apply (safe_still hold).bind
      intro g₂ old hg₂
      subst hg₂
      split
      · exact (safe_commit_answered (.create key rev val ttl) hg₁ hver hval).mono fun _ _ h => h.2
      · exact answered_fresh hg₁
      · next oldRev =>
        split
        · exact answered_fresh hg₁
        · next p isTombstone hparse =>
          split
          · next h =>
            obtain ⟨rfl, hlt⟩ := h
            exact (safe_commit_answered (.recreate key rev val ttl oldRev p hparse hlt) hg₁ hver
              hval).mono fun _ _ h => h.2
          · exact answered_fresh hg₁
    · subst hg₁
      exact fun _ => ⟨_, rfl, fun prev => announces_after ⟨rfl, hval⟩ rfl rfl⟩

theorem safe_create {lease : ℤ} (hdebt : g.debt = none)
    (hallow : m.restricted → m.key key ∧ m.value val) :
    (spec m).Safe (fun g' a => Answered m g' key .create val a.1 a.2) g (create key val lease) := by
  unfold create
  apply (safe_deal hdebt).bind
  intro g₁ a h
  obtain ⟨rfl, hpos, -⟩ := h
  split
  · exact fun h => absurd rfl h
  · exact (safe_createWithTTL rfl hallow).bind fun g₂ e h => h

theorem safe_update {old : ℕ} (hdebt : g.debt = none)
    (hallow : m.restricted → m.key key ∧ m.value val) :
    (spec m).Safe (fun g' a => Answered m g' key .put val a.1 a.2) g (update old key val) := by
  unfold update
  apply (safe_deal hdebt).bind
  intro g₁ a h
  obtain ⟨rfl, hpos, hprev⟩ := h
  split
  · exact fun h => absurd rfl h
  · next rev =>
    have hle : old ≤ rev := hprev rfl
    exact (safe_commit_answered (.update key rev old val hle) rfl hallow fun _ => rfl).bind
      fun g₂ e h => h.2

/-- What a point read or the read of the retry worker tells. -/
theorem safe_getInternalVal {reader : Reader}
    (hpre : ∀ n, reader = .retry n → g.retrier = true ∧ ∃ ev, g.head = some ev ∧ ev.revision = n) :
    (spec m).Safe (fun g' a => g' = g.reads reader ∧ ∀ n ev val modRev, reader = .retry n →
      g.head = some ev → a = .ok (val, modRev) → ev.key = key → ev.revision = modRev →
      Content m ev val) g (getInternalVal reader key rev) := by
  unfold getInternalVal
  dsimp only
  refine Spec.Safe.call_bind ?_ ?_
  · show PreKv m g _
    cases reader with
    | retry n => exact ⟨rfl, hpre n rfl⟩
    | _ => trivial
  intro r g' hpost
  obtain ⟨rfl, hitems⟩ := hpost
  have hnone {e : Err} : g.reads reader = g.reads reader ∧ ∀ n ev val modRev, reader = .retry n →
      g.head = some ev → (Except.error e : Except Err (Bytes × ℕ)) = .ok (val, modRev) →
      ev.key = key → ev.revision = modRev → Content m ev val :=
    ⟨rfl, by rintro _ _ _ _ _ _ ⟨⟩⟩
  split
  · exact hnone
  · exact hnone
  · exact hnone
  · next k v rest err =>
    split
    · exact Spec.Safe.call_bind trivial (by simp)
    · next userKey modRev hdec =>
      split
      · exact hnone
      · next hne =>
        refine ⟨rfl, ?_⟩
        intro n ev val modRev' hn hhead ha hkey hrev
        obtain ⟨rfl, rfl⟩ := Prod.mk.inj (Except.ok.inj ha)
        have huser : userKey = key := by
          by_contra h
          exact hne (.inr h)
        obtain ⟨rfl, -⟩ := encode_of_decode hdec
        subst huser hkey hrev
        exact (hitems _ rfl).2 n ev v hn hhead List.mem_cons_self
    · exact hnone

theorem safe_delete {old : ℕ} (hdebt : g.debt = none) (hallow : m.restricted → m.key key) :
    (spec m).Safe (fun g' a => Answered m g' key .delete a.2.1.val a.1 a.2.2) g
      (delete old key) := by
  unfold delete
  apply (safe_still ((within_get key 0).mono (by decide))).bind
  intro g₁ r hg₁
  subst hg₁
  split
  · next err =>
    refine Spec.Safe.bind (Q := fun (g' : Ghost) rev => g'.debt = some ⟨rev, .fresh⟩) ?_ ?_
    · exact (safe_deal hdebt).bind fun g₂ a h => congrArg Ghost.debt h.1
    · intro g₂ rev hg₂
      exact answered_fresh hg₂
  · next oldVal modRevision =>
    apply (safe_deal hdebt).bind
    intro g₂ a h
    obtain ⟨rfl, hpos, hprev⟩ := h
    split
    · exact fun h => absurd rfl h
    · next rev =>
      dsimp only
      split
      · exact answered_fresh rfl
      next hold =>
      split
      · exact answered_fresh rfl
      next hmod =>
      generalize he : (if 0 < old then old else modRevision) = expected
      have hle : expected ≤ rev := by
        subst he
        split
        · exact hprev rfl
        · omega
      have hver : Allows m ⟨key, rev, tombStoneBytes, true⟩ := fun h => ⟨hallow h, rfl⟩
      exact (safe_commit_answered (.delete key rev expected hle) rfl hver
        (fun _ => rfl)).bind fun g₃ e h => h.2

/-- The part of the account that belongs to the turn of the retry worker. -/
def SameTurn (g g' : Ghost) : Prop :=
  g'.retrier = g.retrier ∧ g'.head = g.head ∧ g'.settled = g.settled

theorem safe_notify {verb : Verb} {prev : ℕ} {err : Option Err}
    (h : Answered m g key verb val rev err) (hkey : m.restricted → m.key key) :
    (spec m).Safe (fun g' _ => SameTurn g g' ∧ (rev ≠ 0 → g'.debt = none)) g
      (notify key val rev prev err.isNone verb err) := by
  unfold notify
  split
  · next h0 => exact ⟨⟨rfl, rfl, rfl⟩, fun hne => absurd h0 hne⟩
  next hrev =>
  obtain ⟨fate, hdebt, hann⟩ := h hrev
  apply Spec.Safe.call_bind trivial
  intro (cur : ℕ) g₁ hg₁
  obtain rfl : g₁ = { g with seen := cur } := hg₁
  split
  · exact Spec.Safe.call_bind trivial nofun
  refine Spec.safe_call.mpr ⟨⟨⟨fate, hdebt, hann prev⟩, hkey⟩, ?_⟩
  intro _ g₂ hg₂
  obtain rfl : g₂ = { g with seen := cur, debt := none } := hg₂
  exact ⟨⟨rfl, rfl, rfl⟩, fun _ => rfl⟩

section

variable (hdebt : g.debt = none)

include hdebt

theorem safe_handleCreate {r : CreateRequest}
    (hallow : m.restricted → m.key r.key ∧ m.value r.value) :
    (spec m).Safe (fun _ _ => True) g (handleCreate r) := by
  unfold handleCreate
  apply (safe_create hdebt hallow).bind
  intro g₁ a h₁
  apply (safe_notify h₁ fun h => (hallow h).1).bind
  intro g₂ _ _
  obtain ⟨rev, err⟩ := a
  cases err with
  | none => trivial
  | some e =>
    dsimp only
    split <;> trivial

theorem safe_handleDelete {r : DeleteRequest} (hallow : m.restricted → m.key r.key) :
    (spec m).Safe (fun _ _ => True) g (handleDelete r) := by
  unfold handleDelete
  apply (safe_delete hdebt hallow).bind
  intro g₁ a h₁
  obtain ⟨rev, old, err⟩ := a
  apply (safe_notify h₁ hallow).bind
  intro g₂ _ _
  cases err with
  | none => trivial
  | some e =>
    dsimp only
    split
    · trivial
    split
    · apply (safe_quiet ((within_get _ _).mono (by decide))).bind
      intro g₃ b _
      split <;> trivial
    · trivial

theorem safe_handleUpdate {r : UpdateRequest}
    (hallow : m.restricted → m.key r.kv.key ∧ m.value r.kv.value) :
    (spec m).Safe (fun _ _ => True) g (handleUpdate r) := by
  have hwrite : (spec m).Safe (fun _ _ => True) g (writeUpdate r) := by
    unfold writeUpdate
    split
    · apply (safe_create hdebt hallow).bind
      intro g₁ a h₁
      exact (safe_notify h₁ fun h => (hallow h).1).bind fun _ _ _ => trivial
    · apply (safe_update hdebt hallow).bind
      intro g₁ a h₁
      exact (safe_notify h₁ fun h => (hallow h).1).bind fun _ _ _ => trivial
  unfold handleUpdate
  apply hwrite.bind
  intro g₁ a _
  obtain ⟨rev, err⟩ := a
  cases err with
  | none => trivial
  | some e =>
    dsimp only
    split
    · apply (safe_quiet ((within_get _ _).mono (by decide))).bind
      intro g₃ b _
      split <;> trivial
    · trivial

/-- An overwrite leaves the event of the retry worker decided, and answers for the same event
at the new revision. -/
theorem safe_overwrite {ev : WatchEvent} (hretrier : g.retrier = true)
    (hhead : g.head = some ev) (hkey : m.restricted → m.key ev.key) :
    (spec m).Safe (fun g' a => (g'.retrier = true ∧ g'.head = some ev ∧ g'.settled = true) ∧
      (a.1 = 0 → g'.debt = none) ∧ Answered m g' ev.key ev.verb ev.value a.1 a.2) g
      (overwrite ev.key ev.revision) := by
  have hread (n : ℕ) (hn : Reader.retry ev.revision = .retry n) :
      g.retrier = true ∧ ∃ ev, g.head = some ev ∧ ev.revision = n := by
    obtain rfl := Reader.retry.inj hn
    exact ⟨hretrier, ev, hhead, rfl⟩
  unfold overwrite
  apply (safe_getInternalVal hread).bind
  intro g₁ a h
  obtain ⟨hg₁, hcontent⟩ := h
  have hg₁ : g₁ = { g with settled := true } := hg₁
  have hskip {e : Option Err} : (g₁.retrier = true ∧ g₁.head = some ev ∧ g₁.settled = true) ∧
      (0 = 0 → g₁.debt = none) ∧ Answered m g₁ ev.key ev.verb ev.value 0 e := by
    subst hg₁
    exact ⟨⟨hretrier, hhead, rfl⟩, fun _ => hdebt, fun h => absurd rfl h⟩
  split
  · exact hskip
  · exact hskip
  · next val modRev =>
    split
    · exact hskip
    next hne =>
    have hmod : modRev = ev.revision := by
      by_contra h
      exact hne (.inr h)
    have hval := hcontent _ ev val modRev rfl hhead rfl rfl hmod.symm
    subst hg₁
    refine Spec.Safe.call_bind hdebt ?_
    intro (rev : ℕ) g₂ hpost
    obtain ⟨rfl, hpos, -, hlt⟩ := hpost
    have hle : ev.revision ≤ rev := (hlt ev hhead).le
    have hver : Allows m ⟨ev.key, rev, val, decide (val = tombStoneBytes)⟩ := by
      intro ho
      refine ⟨hkey ho, ?_⟩
      by_cases htomb : val = tombStoneBytes
      · simp [htomb]
      · simpa [htomb] using (hval ho).2 htomb
    apply (safe_commit_answered (.overwrite ev.key rev ev.revision val hle) rfl hver
      fun ho => (hval ho).1).bind
    intro g₃ e h
    obtain ⟨⟨fate, rfl⟩, hans⟩ := h
    exact ⟨⟨hretrier, hhead, rfl⟩, fun h0 => absurd h0 (Nat.ne_of_gt hpos), hans⟩

/-- A pass of the retry worker starts and ends without debt. -/
theorem safe_retry (hretrier : g.retrier = true) :
    (spec m).Safe (fun g' _ => g'.debt = none ∧ g'.retrier = true) g retry := by
  have hpop {g₁ : Ghost} {ev : WatchEvent} {b : Bool} (hdebt : g₁.debt = none)
      (hturn : g₁.retrier = true ∧ g₁.head = some ev ∧ g₁.settled = true) :
      (spec m).Safe (fun g' _ => g'.debt = none ∧ g'.retrier = true) g₁
        (do call .queuePop; pure b) := by
    refine Spec.Safe.call_bind ⟨hturn.1, by simp [hturn.2.1], hturn.2.2⟩ ?_
    intro _ g₂ hpost
    obtain rfl : g₂ = { g₁ with head := none, settled := false } := hpost
    exact ⟨hdebt, hturn.1⟩
  unfold retry
  apply Spec.Safe.call_bind trivial
  intro (head : Option (WatchEvent × ℕ)) g₁ hpost
  obtain ⟨rfl, hev⟩ := hpost
  cases head with
  | none => exact ⟨hdebt, hretrier⟩
  | some node =>
    obtain ⟨ev, time⟩ := node
    apply Spec.Safe.call_bind trivial
    intro (now : ℕ) g₂ hg₂
    obtain rfl : g₂ = g.polled (some (ev, time)) := hg₂
    dsimp only
    split
    · exact ⟨hdebt, hretrier⟩
    have hhead : (g.polled (some (ev, time))).head = some ev := by
      simp [Ghost.polled, hretrier]
    refine Spec.Safe.bind (safe_overwrite (by exact hdebt) (by exact hretrier) hhead
      (hev ev time rfl).2) ?_
    intro g₃ a h
    obtain ⟨rev, err⟩ := a
    obtain ⟨hturn, hzero, hans⟩ := h
    dsimp only
    split
    · next h0 =>
      cases err with
      | some e => exact ⟨hzero h0, hturn.1⟩
      | none => exact hpop (hzero h0) hturn
    · next h0 =>
      apply (safe_notify hans (hev ev time rfl).2).bind
      intro g₄ _ h
      obtain ⟨⟨h₁, h₂, h₃⟩, hpaid⟩ := h
      exact hpop (hpaid h0) ⟨h₁.trans hturn.1, h₂.trans hturn.2.1, h₃.trans hturn.2.2⟩

end

/-- A worker deletes object keys as they are, and revision keys below the limit. -/
theorem safe_attempts {ttl : Bool} {w : WorkerConfig}
    (hw : w.compact = true ∨ w.timeoutRevision ≠ 0 →
      w.revision ≤ g.limit ∧ w.timeoutRevision ≤ g.limit)
    (n : ℕ) (receiver : Receiver) (failedKey : Bytes) (latest : Err) :
    (spec m).Safe (fun g' _ => g' = g) g (Worker.attempts ttl w n receiver failedKey latest) := by
  let P : Op → Prop := fun o => Pre m g o ∧ ∀ r g', Post m g o r g' → g' = g
  have hrest (o : Op) (ho : o.kind ∈ [OpKind.read, .stream, .control]) : P o := by
    have hsub : [OpKind.read, .stream, .control] ⊆ stillKinds := by decide
    exact still_of_kind (hsub ho)
  have hsafe {β : Type} {q : M β} (hq : q.Only P) : (spec m).Safe (fun g' _ => g' = g) g q :=
    Spec.safe_of_still (O := spec m) (fun _ ho => ho) hq
  have hio (o : Op) (ho : o.kind ∈ [OpKind.stream, .control]) : P o :=
    hrest o (List.mem_cons_of_mem _ ho)
  have hloop (err : Option Err) (items : List (Bytes × Bytes)) (st : Worker.State)
      (hitems : ∀ k, (encodeRevisionKey k, tombStoneBytes) ∉ items)
      (hst : st.prevRevision < 2 ^ 64) : (Worker.loop ttl w err items st).Only P := by
    have hodd (_ : w.compact = true ∨ w.timeoutRevision ≠ 0) (k : Bytes) (h : False) :
        P (.kv (.del w.revision (encodeRevisionKey k))) := h.elim
    apply Worker.only_loop ttl w hio ?_ ?_ hodd err hitems hst
    · intro hgc k r h0 hr
      exact ⟨⟨(hw hgc).1, k, r, rfl, h0, hr⟩, fun _ _ h => h⟩
    · intro hgc k val hval
      exact ⟨⟨(hw hgc).1, k, rfl, hval.trans (max_le (hw hgc).1 (hw hgc).2)⟩, fun _ _ h => h⟩
  have hrun (receiver : Receiver) (failedKey : Bytes) :
      (spec m).Safe (fun g' _ => g' = g) g (Worker.run ttl w receiver failedKey) := by
    unfold Worker.run
    dsimp only
    generalize hreader : (if w.compact = true then Reader.compact w.revision
      else Reader.list w.revision) = reader
    have hread : P (.kv (.iter reader w.partition.start w.partition.stop w.tso 0)) := by
      apply hrest
      subst hreader
      cases w.compact <;> simp
    apply Spec.Safe.call_bind hread.1
    intro r g₁ hpost
    obtain rfl : g₁ = g := hread.2 r g₁ hpost
    split
    · rfl
    · next it =>
      apply (hsafe (hloop it.err it.items _ (hpost.2 it rfl).1 (by norm_num))).bind
      intro g₂ a hg₂
      subst hg₂
      split
      · rfl
      · rfl
      · rfl
      · exact (hsafe (Worker.only_finish hio _)).bind fun g₃ _ h => h
  induction n generalizing receiver failedKey latest with
  | zero => rfl
  | succ n ih =>
    unfold Worker.attempts
    apply (safe_still (Within.call (o := .ctxDone) (by simp [stillKinds]) trivial)).bind
    intro g₁ b hg₁
    subst hg₁
    split
    · rfl
    apply (hrun _ _).bind
    intro g₂ a hg₂
    subst hg₂
    split
    · rfl
    · exact ih _ _ _

private theorem safe_record (cfg : Config) (hops : ∀ o ∈ ops, o.key = getCompactKey cfg.keyPrefix) :
    (spec m).Safe (fun g' _ => g' = g) g (kvCall (.commit (.record C) ops)) := by
  apply Spec.safe_call.mpr
  constructor
  · intro o ho hint
    exact not_internal_getCompactKey _ (hops o ho ▸ hint)
  · intro r g' hpost
    exact hpost

variable {cfg : Config}

theorem safe_setCompactRecord : (spec m).Safe (fun g' _ => g' = g) g (setCompactRecord cfg C) := by
  unfold setCompactRecord
  apply (safe_still (Within.kvCall (o := .get _) (by simp [stillKinds]) trivial)).bind
  intro g₁ r hg₁
  subst hg₁
  split
  · dsimp only
    split
    · exact Spec.Safe.call_bind trivial nofun
    split
    · rfl
    · exact safe_record cfg (by simp [BatchOp.key])
  · exact safe_record cfg (by simp [BatchOp.key])
  · exact safe_record cfg (by simp [BatchOp.key])
  · rfl

/-- The expired revision that a compaction takes from the history is below the limit. -/
theorem safe_timeoutRevision : (spec m).Safe (fun g' r => g.limit ≤ g'.limit ∧ r ≤ g'.limit) g
      (Scanner.timeoutRevision cfg true) := by
  show (spec m).Safe _ g (Scanner.getTimeoutRevision cfg)
  unfold Scanner.getTimeoutRevision
  split
  · exact ⟨le_refl _, Nat.zero_le _⟩
  · apply (safe_still (Within.call (o := .now) (by simp [stillKinds]) trivial)).bind
    intro g₁ time hg₁
    subst hg₁
    refine Spec.safe_call.mpr ⟨trivial, ?_⟩
    intro (r : ℕ) g₂ hpost
    obtain rfl : g₂ = { g₁ with limit := max g₁.limit r } := hpost
    exact ⟨le_max_left _ _, le_max_right _ _⟩

theorem safe_scan_compact {start stop : Bytes} (hC : C ≤ g.limit) :
    (spec m).Safe (fun g' _ => C ≤ g'.limit) g (Scanner.scan cfg start stop C true .empty) := by
  unfold Scanner.scan
  apply (safe_still (Within.kvCall (o := .getTimestampOracle) (by simp [stillKinds]) trivial)).bind
  intro g₁ tso hg₁
  subst hg₁
  split
  · exact hC
  apply (safe_record cfg (by simp [BatchOp.key])).bind
  intro g₂ e hg₂
  subst hg₂
  split
  · exact hC
  apply (safe_still (Within.kvCall (o := .getPartitions start stop) (by simp [stillKinds])
    trivial)).bind
  intro g₃ ps hg₃
  subst hg₃
  split
  · exact hC
  split
  · exact Spec.Safe.call_bind trivial nofun
  apply safe_timeoutRevision.bind
  intro g₄ timeout h₄
  have hC₄ : C ≤ g₄.limit := hC.trans h₄.1
  apply (Scanner.safe_spawnAll (I := fun g' : Ghost => g' = g₄) ?_ rfl).bind
  · intro g₅ ids hg₅
    subst hg₅
    apply (safe_still ((Scanner.within_joinAll ids).mono (by decide))).bind
    intro g₆ rs hg₆
    subst hg₆
    split
    · exact hC₄
    · apply (safe_still ((Scanner.within_mergeAll _ _ _).mono (by decide))).mono
      intro g₇ _ hg₇
      exact hg₇ ▸ hC₄
  · intro t ht g' hg'
    subst hg'
    obtain ⟨i, hi, rfl⟩ := List.mem_mapIdx.mp ht
    exact Spec.safe_call.mpr ⟨fun _ => ⟨hC₄, h₄.2⟩, fun _ _ hpost => hpost⟩

theorem safe_compact {start stop : Bytes} (hC : C ≤ g.limit) :
    (spec m).Safe (fun g' _ => C ≤ g'.limit) g (Scanner.compact cfg start stop C) := by
  unfold Scanner.compact
  apply (safe_still (Within.call (o := .now) (by simp [stillKinds]) trivial)).bind
  intro g₂ time hg₂
  subst hg₂
  apply Spec.Safe.call_bind hC
  intro _ g₃ hg₃
  obtain rfl : g₃ = g₂ := hg₃
  exact (safe_scan_compact hC).bind fun _ _ h => h

theorem safe_handleCompact : (spec m).Safe (fun _ _ => True) g (handleCompact cfg C) := by
  unfold handleCompact
  apply Spec.Safe.call_bind trivial
  intro (cur : ℕ) g₁ hg₁
  obtain rfl : g₁ = { g with seen := cur } := hg₁
  dsimp only
  generalize hC₁ : (if C = 0 ∨ cur < C then cur else C) = C₁
  have hle₁ : C₁ ≤ cur := by
    subst hC₁
    split <;> omega
  refine Spec.Safe.bind (Q := fun (g' : Ghost) u =>
    (if u ≠ 0 then min (u - 1) C₁ else C₁) ≤ g'.limit) ?_ ?_
  · unfold minRevision
    apply Spec.Safe.call_bind trivial
    intro (head : Option (WatchEvent × ℕ)) g₂ hpost
    obtain ⟨rfl, hev⟩ := hpost
    cases head with
    | none => exact hle₁.trans (le_max_right _ _)
    | some node =>
      obtain ⟨ev, time⟩ := node
      have hpos := (hev ev time rfl).1
      have hlimit : min cur (ev.revision - 1) ≤
          (Ghost.polled { g with seen := cur } (some (ev, time))).limit := le_max_right _ _
      show (if ev.revision ≠ 0 then min (ev.revision - 1) C₁ else C₁) ≤ _
      rw [if_pos (Nat.ne_of_gt hpos)]
      exact le_trans (by omega) hlimit
  · intro g₂ u hC₂
    generalize (if u ≠ 0 then min (u - 1) C₁ else C₁) = C₂ at hC₂ ⊢
    refine Spec.Safe.bind (Q := fun (_ : Ghost) _ => True) ?_ fun _ _ _ => trivial
    unfold compact
    apply safe_setCompactRecord.bind
    intro g₃ e hg₃
    subst hg₃
    split
    · trivial
    · exact (safe_compactRanges (I := fun g' : Ghost => C₂ ≤ g'.limit) cfg _
        (fun _ _ _ hC => safe_compact hC) hC₂ _).bind fun _ _ _ => trivial

theorem threadSafe_quiet {ks : List OpKind} {t : Leader.Goroutine} (h : Confined ks t)
    (hks : ∀ k ∈ ks, k ∈ quietKinds) : (spec m).ThreadSafe g t :=
  Spec.threadSafe_of_keeps (O := spec m) (I := fun _ => True) (fun _ _ _ => trivial)
    (safe_quiet (h.1.mono hks)) fun f hf _ a _ => safe_quiet ((h.2 f hf a).mono hks)

theorem threadSafe_request {r : Request} (hacc : m.restricted → m.Accepts r) :
    (spec m).ThreadSafe idle (Leader.goroutine cfg (.request r)) := by
  cases r with
  | create r => exact (safe_handleCreate rfl hacc).bind fun _ _ _ => trivial
  | update r => exact (safe_handleUpdate rfl hacc).bind fun _ _ _ => trivial
  | delete r => exact (safe_handleDelete rfl hacc).bind fun _ _ _ => trivial
  | compact C => exact safe_handleCompact.bind fun _ _ _ => trivial
  | _ => exact threadSafe_quiet (confined_reads cfg id id) (by decide)

theorem threadSafe_task {t : Task} (ht : PreSpawn g t) :
    (spec m).ThreadSafe { idle with limit := g.limit } (Leader.goroutine cfg t) := by
  cases t with
  | request r => exact ht.elim
  | worker w receiver => exact (safe_attempts (by exact ht) _ _ _ _).bind fun _ _ _ => trivial
  | _ => exact threadSafe_quiet (confined_reads cfg id id) (by decide)

/-- Ghosts of a fresh leader: only the retry worker takes turns with the queue. -/
def start (i : ℕ) : Ghost := if i = 1 then { idle with retrier := true } else idle

theorem threadSafe_start {i : ℕ} {t : Leader.Goroutine}
    (ht : [Leader.consumer, Leader.retryWorker, Leader.hub, Leader.server][i]? = some t) :
    (spec m).ThreadSafe (start i) t := by
  have hretry : (spec m).ThreadSafe (start 1) Leader.retryWorker :=
    ⟨fun g _ => g.debt = none ∧ g.retrier = true, fun _ _ _ => trivial, ⟨rfl, rfl⟩,
      fun _ _ hg => (safe_retry hg.1 hg.2).bind fun _ _ h => h⟩
  exact Leader.forall_start (P := fun i t => (spec m).ThreadSafe (start i) t)
    (threadSafe_quiet Leader.confined_consumer (by decide)) hretry
    (threadSafe_quiet Leader.confined_hub (by decide))
    (threadSafe_quiet Leader.confined_server (by decide)) ht

end Programs

end Writes
end KubeBrain

import KubeBrain.Events.Ledger
import KubeBrain.Lib.Outline

/-! Every goroutine keeps its account with the ledger: it deals a revision only when it
owes none, and what it publishes is what it owes. -/
namespace KubeBrain

open Interleaving

namespace Accounts

/-- What the ledger knows of a goroutine: the revision it owes, the last committed revision
it has seen, and for the consumer its batch and its place in the pass. -/
structure Ghost where
  owed : Option ℕ
  seen : ℕ
  consumer : Option (List Event × Phase)

variable {K : KvStorage} {cfg : Config}

/-- Operations that leave the ledger alone. -/
def OffLedger (o : Op) : Prop :=
  o.kind ∉ [.deal, .tso, .slot, .publish, .queuePush, .cacheAdd, .chanSend]

def Pre (m : LedgerMode) (g : Ghost) (o : Op) : Prop :=
  match g.consumer, o with
  | none, .deal _ => m.dealing ∧ g.owed = none
  | none, .accept | none, .spawn _ => m.dealing
  | none, .ringStore idx (some ev) => g.owed = some ev.revision ∧
      idx = ev.revision % watchersChanCapacity ∧ ev.revision < g.seen + watchersChanCapacity
  | none, o => OffLedger o
  | some (_, .idle), .getRevision => True
  | some (_, .idle), .ringLoad idx => idx = (g.seen + 1) % watchersChanCapacity
  | some (batch, .idle), .chanSend evs => evs = batch
  | some (_, .idle), .loadDeal => True
  | some (_, .idle), .casDeal .. => ¬ m.dealing
  | some (_, .loaded ev), .ringStore idx none => idx = ev.revision % watchersChanCapacity
  | some (_, .cleared ev), .queuePush e => e = ev ∧ ev.valid = false ∧ ev.isUncertain = true
  | some (_, .cleared ev), .storeCommitted r => r = ev.revision ∧
      (ev.valid = false → ev.isUncertain = false)
  | some (_, .queued ev), .storeCommitted r => r = ev.revision
  | some (_, .stored _), .loadDeal => True
  | some (_, .stored _), .casDeal .. => ¬ m.dealing
  | some (_, .stored ev), .cacheAdd e => e = ev.toEvent
  | _, _ => False

/-- Ghost of the consumer after an operation. -/
def advance (batch : List Event) (phase : Phase) (g : Ghost) (o : Op) (r : o.Res) : Ghost :=
  match phase, o, r with
  | .idle, .ringLoad _, some ev => { g with consumer := some (batch, .loaded ev) }
  | .idle, .chanSend _, _ => { g with consumer := some ([], .idle) }
  | .loaded ev, .ringStore .., _ => { g with consumer := some (batch, .cleared ev) }
  | .cleared ev, .queuePush _, _ => { g with consumer := some (batch, .queued ev) }
  | .cleared ev, .storeCommitted r, _ =>
    ⟨g.owed, r, some (batch, if ev.valid then .stored ev else .idle)⟩
  | .queued _, .storeCommitted r, _ => ⟨g.owed, r, some (batch, .idle)⟩
  | .stored ev, .cacheAdd _, _ => { g with consumer := some (batch ++ [ev.toEvent], .idle) }
  | _, _, _ => g

def Post (m : LedgerMode) (g : Ghost) (o : Op) (r : o.Res) (g' : Ghost) : Prop :=
  match g.consumer with
  | some (batch, phase) => g' = advance batch phase g o r ∧
      match o, r with
      | .getRevision, r => r = g.seen
      | .ringLoad _, r => ∀ ev, r = some ev → ev.revision = g.seen + 1
      | .loadDeal, r => m.dealing → g.seen ≤ r
      | _, _ => True
  | none =>
    match o, r with
    | .deal site, r => g' = { g with owed := some r } ∧ 0 < r ∧
        (m.noDrift → ∀ p, site = .update p ∨ site = .delete p → p ≤ r)
    | .ringStore .., _ => g' = { g with owed := none }
    | .getRevision, r => g' = { g with seen := r }
    | _, _ => g' = g

/-- A consumer returns with its batch, any other goroutine owes nothing. -/
def Fin (m : LedgerMode) (g : Ghost) (a : Outcome) : Prop :=
  match g.consumer with
  | some (batch, phase) => phase = .idle ∧ a = .batch batch
  | none => m.noDrift → g.owed = none

structure Inv (m : LedgerMode) (s : LeaderState K) (gs : ℕ → Ghost) (batch : List Event)
    (phase : Phase) : Prop where
  consumer : (gs 0).consumer = some (batch, phase)
  owes_not : (gs 0).owed = none
  seen : (gs 0).seen = s.committedRevision
  others : ∀ i, i ≠ 0 → (gs i).consumer = none ∧ (gs i).seen ≤ s.committedRevision
  ledger : Ledger m s.events (fun i => (gs i).owed) batch phase

abbrev spec (m : LedgerMode) : Spec sig Outcome where
  Ghost := Ghost
  idle := ⟨none, 0, none⟩
  Pre := Pre m
  Post := Post m
  Fin := Fin m

abbrev outline (cfg : Config) (K : KvStorage) (m : LedgerMode) : Outline (leader cfg K) where
  toSpec := spec m
  Inv := fun s gs => ∃ batch phase, Inv m s gs batch phase

section Programs

variable {m : LedgerMode} {α : Type} {g : Ghost}

/-- Kinds of operations that leave the ledger alone. -/
def quietKinds : List OpKind :=
  [.revision, .read, .retryRead, .commit, .record, .gc, .queueHead, .queuePop, .time, .cacheFind,
    .hub, .sub, .client, .stream, .history, .fork, .forkWriter, .forkWatch, .control]

private theorem offLedger_of_mem {o : Op} (h : o.kind ∈ quietKinds) : OffLedger o := by
  unfold OffLedger
  intro hbad
  revert h hbad
  generalize o.kind = k
  cases k <;> decide

private theorem quiet_step {o : Op} (hd : m.dealing) (hg : g.consumer = none) (h : OffLedger o) :
    Pre m g o ∧ ∀ r g', Post m g o r g' → g'.consumer = none ∧ g'.owed = g.owed := by
  obtain ⟨owed, seen, consumer⟩ := g
  obtain rfl : consumer = none := hg
  have hkeeps : ∀ r g', g' = (⟨owed, r, none⟩ : Ghost) → g'.consumer = none ∧ g'.owed = owed := by
    rintro r g' rfl
    exact ⟨rfl, rfl⟩
  cases o with
  | deal site => exact absurd h (by simp [OffLedger])
  | ringStore idx ev => cases ev <;> exact absurd h (by simp [OffLedger])
  | getRevision => exact ⟨h, hkeeps⟩
  | accept => exact ⟨hd, fun _ => hkeeps seen⟩
  | spawn t => exact ⟨hd, fun _ => hkeeps seen⟩
  | _ => exact ⟨h, fun _ => hkeeps seen⟩

private theorem pre_deal {site : DealSite} (hg : g.consumer = none) (hd : m.dealing)
    (howed : g.owed = none) : Pre m g (.deal site) := by
  obtain ⟨owed, seen, consumer⟩ := g
  obtain rfl : consumer = none := hg
  exact ⟨hd, howed⟩

private theorem post_deal {site : DealSite} {r : ℕ} {g' : Ghost} (hg : g.consumer = none)
    (hpost : Post m g (.deal site) r g') : g' = { g with owed := some r } ∧ 0 < r ∧
      (m.noDrift → ∀ p, site = .update p ∨ site = .delete p → p ≤ r) := by
  obtain ⟨owed, seen, consumer⟩ := g
  obtain rfl : consumer = none := hg
  exact hpost

/-- Programs of quiet operations keep the account as it is. -/
theorem safe_quiet {p : M α} (hd : m.dealing) (h : Within quietKinds p) (hg : g.consumer = none) :
    (spec m).Safe (fun g' _ => g'.consumer = none ∧ g'.owed = g.owed) g p := by
  refine Spec.safe_of_only (O := spec m)
    (I := fun g' : Ghost => g'.consumer = none ∧ g'.owed = g.owed) ?_ ?_ h ⟨hg, rfl⟩
  · intro g' o hI ho
    exact (quiet_step hd hI.1 (offLedger_of_mem ho.1)).1
  · intro g' o r g'' hI ho hpost
    obtain ⟨hc, howed⟩ := (quiet_step hd hI.1 (offLedger_of_mem ho.1)).2 _ _ hpost
    exact ⟨hc, howed.trans hI.2⟩

theorem safe_deal {site : DealSite} (hd : m.dealing) (hg : g.consumer = none)
    (howed : g.owed = none) :
    (spec m).Safe (fun g' a => g'.consumer = none ∧ g'.owed = some a.1 ∧ 0 < a.1 ∧
      (a.2 ≠ none → site.prevRevision ≠ 0 ∧
        (m.noDrift → ∀ p, ¬ (site = .update p ∨ site = .delete p)))) g (deal site) := by
  unfold deal
  refine Spec.Safe.call_bind (pre_deal hg hd howed) fun r g' hpost => ?_
  obtain ⟨rfl, hpos, hnodrift⟩ := post_deal hg hpost
  split
  · next hdrift =>
    refine ⟨hg, rfl, hpos, fun _ => ⟨by omega, fun hn p hp => ?_⟩⟩
    have hle := hnodrift hn p hp
    rcases hp with rfl | rfl
    · exact absurd hdrift.2 (not_lt.mpr hle)
    · exact absurd hdrift.2 (not_lt.mpr hle)
  · exact ⟨hg, rfl, hpos, fun h => absurd rfl h⟩

/-- Publishing pays what is owed; revision zero is not published. -/
theorem safe_notify {key val : Bytes} {rev prev : ℕ} {valid : Bool} {verb : Verb}
    {err : Option Err} (hg : g.consumer = none) (howed : rev ≠ 0 → g.owed = some rev) :
    (spec m).Safe (fun g' _ => g'.consumer = none ∧
      g'.owed = if rev = 0 then g.owed else none) g (notify key val rev prev valid verb err) := by
  obtain ⟨owed, seen, consumer⟩ := g
  obtain rfl : consumer = none := hg
  unfold notify
  split
  · exact ⟨rfl, rfl⟩
  next hrev =>
  refine Spec.Safe.call_bind (show OffLedger .getRevision by simp [OffLedger]) fun cur g' hpost =>
    ?_
  obtain rfl : g' = ⟨owed, cur, none⟩ := hpost
  split
  · exact Spec.Safe.call_bind (show OffLedger .panic by simp [OffLedger]) nofun
  next hwin =>
  refine ⟨⟨howed hrev, rfl, ?_⟩, fun _ g' hpost => ?_⟩
  · show rev < cur + watchersChanCapacity
    omega
  · obtain rfl : g' = ⟨none, cur, none⟩ := hpost
    exact ⟨rfl, rfl⟩

/-- After a write the goroutine owes the revision that the write returns, except after a
request that was ahead of the sequencer. -/
def Wrote (m : LedgerMode) (g : Ghost) (rev : ℕ) : Prop :=
  g.consumer = none ∧ (rev ≠ 0 → g.owed = some rev) ∧ (rev = 0 → ¬ m.noDrift)

theorem safe_create {key value : Bytes} {lease : ℤ} (hd : m.dealing) (hg : g.consumer = none)
    (howed : g.owed = none) :
    (spec m).Safe (fun g' a => Wrote m g' a.1) g (create key value lease) := by
  unfold create
  refine (safe_deal hd hg howed).bind fun g₁ a h => ?_
  obtain ⟨hc, ho, hpos, hdrift⟩ := h
  obtain ⟨rev, err⟩ := a
  cases err with
  | some e => exact absurd rfl (hdrift (by simp)).1
  | none =>
    refine (safe_quiet hd ((within_createWithTTL _ _ _ _).mono (by decide)) hc).bind ?_
    rintro g₂ e ⟨hc₂, ho₂⟩
    exact ⟨hc₂, fun _ => ho₂.trans ho, fun h => absurd h (Nat.ne_of_gt hpos)⟩

theorem safe_update {old : ℕ} {key value : Bytes} (hd : m.dealing) (hg : g.consumer = none)
    (howed : g.owed = none) :
    (spec m).Safe (fun g' a => Wrote m g' a.1) g (update old key value) := by
  unfold update
  refine (safe_deal hd hg howed).bind fun g₁ a h => ?_
  obtain ⟨hc, ho, hpos, hdrift⟩ := h
  obtain ⟨rev, err⟩ := a
  cases err with
  | some e =>
    exact ⟨hc, fun h => absurd rfl h, fun _ hn => (hdrift (by simp)).2 hn old (.inl rfl)⟩
  | none =>
    refine (safe_quiet hd (Within.kvCall (by simp [quietKinds]) (by exact internal_pair rfl rfl))
      hc).bind ?_
    rintro g₂ e ⟨hc₂, ho₂⟩
    exact ⟨hc₂, fun _ => ho₂.trans ho, fun h => absurd h (Nat.ne_of_gt hpos)⟩

theorem safe_delete {old : ℕ} {key : Bytes} (hd : m.dealing) (hg : g.consumer = none)
    (howed : g.owed = none) :
    (spec m).Safe (fun g' a => Wrote m g' a.1) g (delete old key) := by
  unfold delete
  refine (safe_quiet hd ((within_get _ _).mono (by decide)) hg).bind ?_
  rintro g₁ r ⟨hc₁, ho₁⟩
  cases r with
  | error err =>
    unfold mustDeal
    refine Spec.Safe.bind
      (Q := fun (g' : Ghost) rev => g'.consumer = none ∧ g'.owed = some rev ∧ 0 < rev)
      ((safe_deal hd hc₁ (ho₁.trans howed)).bind ?_) ?_
    · rintro g₂ a ⟨hc, ho, hpos, -⟩
      exact ⟨hc, ho, hpos⟩
    · rintro g₂ rev ⟨hc, ho, hpos⟩
      exact ⟨hc, fun _ => ho, fun h => absurd h (Nat.ne_of_gt hpos)⟩
  | ok a =>
    obtain ⟨oldVal, modRevision⟩ := a
    refine (safe_deal hd hc₁ (ho₁.trans howed)).bind fun g₂ a h => ?_
    obtain ⟨hc, ho, hpos, hdrift⟩ := h
    obtain ⟨rev, err⟩ := a
    cases err with
    | some e =>
      exact ⟨hc, fun h => absurd rfl h, fun _ hn => (hdrift (by simp)).2 hn old (.inr rfl)⟩
    | none =>
      have hwrote : Wrote m g₂ rev := ⟨hc, fun _ => ho, fun h => absurd h (Nat.ne_of_gt hpos)⟩
      dsimp only
      split
      · exact hwrote
      split
      · exact hwrote
      refine (safe_quiet hd (Within.kvCall (by simp [quietKinds]) (by exact internal_pair rfl rfl))
        hc).bind ?_
      rintro g₃ e ⟨hc₃, ho₃⟩
      exact ⟨hc₃, fun _ => ho₃.trans ho, fun h => absurd h (Nat.ne_of_gt hpos)⟩

/-- The account is settled. -/
def Paid (m : LedgerMode) (g : Ghost) : Prop := g.consumer = none ∧ (m.noDrift → g.owed = none)

theorem safe_notify_wrote {key val : Bytes} {rev prev : ℕ} {valid : Bool} {verb : Verb}
    {err : Option Err} (h : Wrote m g rev) :
    (spec m).Safe (fun g' _ => Paid m g') g (notify key val rev prev valid verb err) := by
  refine (safe_notify h.1 h.2.1).mono ?_
  rintro g' - ⟨hc, ho⟩
  refine ⟨hc, fun hn => ?_⟩
  rw [ho, if_neg fun hrev => h.2.2 hrev hn]

theorem safe_paid_quiet {p : M α} (hd : m.dealing) (h : Within quietKinds p) (hg : Paid m g) :
    (spec m).Safe (fun g' _ => Paid m g') g p := by
  refine (safe_quiet hd h hg.1).mono ?_
  rintro g' - ⟨hc, ho⟩
  exact ⟨hc, fun hn => ho.trans (hg.2 hn)⟩

theorem safe_handleCreate {r : CreateRequest} (hd : m.dealing) (hg : g.consumer = none)
    (howed : g.owed = none) :
    (spec m).Safe (fun g' _ => Paid m g') g (handleCreate r) := by
  unfold handleCreate
  refine (safe_create hd hg howed).bind fun g₁ a h₁ => (safe_notify_wrote h₁).bind fun g₂ _ h₂ => ?_
  obtain ⟨rev, err⟩ := a
  cases err with
  | none => exact h₂
  | some e =>
    dsimp only
    split <;> exact h₂

theorem safe_handleDelete {r : DeleteRequest} (hd : m.dealing) (hg : g.consumer = none)
    (howed : g.owed = none) :
    (spec m).Safe (fun g' _ => Paid m g') g (handleDelete r) := by
  unfold handleDelete
  refine (safe_delete hd hg howed).bind fun g₁ a h₁ => (safe_notify_wrote h₁).bind fun g₂ _ h₂ => ?_
  obtain ⟨rev, old, err⟩ := a
  cases err with
  | none => exact h₂
  | some e =>
    dsimp only
    split
    · exact h₂
    split
    · refine (safe_paid_quiet hd ((within_get _ _).mono (by decide)) h₂).bind fun g₃ b h₃ => ?_
      cases b <;> exact h₃
    · exact h₂

theorem safe_handleUpdate {r : UpdateRequest} (hd : m.dealing) (hg : g.consumer = none)
    (howed : g.owed = none) :
    (spec m).Safe (fun g' _ => Paid m g') g (handleUpdate r) := by
  have hwrite : (spec m).Safe (fun g' _ => Paid m g') g (writeUpdate r) := by
    unfold writeUpdate
    split
    · exact (safe_create hd hg howed).bind fun g₁ a h₁ =>
        (safe_notify_wrote h₁).bind fun g₂ _ h₂ => h₂
    · exact (safe_update hd hg howed).bind fun g₁ a h₁ =>
        (safe_notify_wrote h₁).bind fun g₂ _ h₂ => h₂
  unfold handleUpdate
  refine hwrite.bind fun g₂ a h₂ => ?_
  obtain ⟨rev, err⟩ := a
  cases err with
  | none => exact h₂
  | some e =>
    dsimp only
    split
    · refine (safe_paid_quiet hd ((within_get _ _).mono (by decide)) h₂).bind fun g₃ b h₃ => ?_
      split <;> exact h₃
    · exact h₂

/-- A pass of the retry worker starts and ends without debt. -/
theorem safe_retry (hd : m.dealing) (hg : g.consumer = none) (howed : g.owed = none) :
    (spec m).Safe (fun g' _ => g'.consumer = none ∧ g'.owed = none) g retry := by
  have hquiet {g₁ : Ghost} (hc : g₁.consumer = none) (ho : g₁.owed = none) {p : M Unit} {b : Bool}
      (hp : Within quietKinds p) :
      (spec m).Safe (fun g' _ => g'.consumer = none ∧ g'.owed = none) g₁
        (p >>= fun _ => pure b) := by
    refine (safe_quiet hd hp hc).bind ?_
    rintro g₂ - ⟨hc₂, ho₂⟩
    exact ⟨hc₂, ho₂.trans ho⟩
  unfold retry
  refine (safe_quiet hd (Within.call (o := .queueHead) (by simp [quietKinds]) trivial) hg).bind ?_
  rintro g₁ head ⟨hc₁, ho₁⟩
  cases head with
  | none => exact ⟨hc₁, ho₁.trans howed⟩
  | some node =>
    obtain ⟨event, time⟩ := node
    refine (safe_quiet hd (Within.call (o := .now) (by simp [quietKinds]) trivial) hc₁).bind ?_
    rintro g₂ start ⟨hc₂, ho₂⟩
    have ho₂' : g₂.owed = none := ho₂.trans (ho₁.trans howed)
    dsimp only
    split
    · exact ⟨hc₂, ho₂'⟩
    refine Spec.Safe.bind (Q := fun (g' : Ghost) a => g'.consumer = none ∧
      (a.1 = 0 → g'.owed = none) ∧ (a.1 ≠ 0 → g'.owed = some a.1)) ?_ ?_
    · unfold overwrite
      refine (safe_quiet hd ((within_getInternalVal (.retry _) _ _).mono (by simp [quietKinds]))
        hc₂).bind ?_
      rintro g₃ r ⟨hc₃, ho₃⟩
      have ho₃' : g₃.owed = none := ho₃.trans ho₂'
      split
      · exact ⟨hc₃, fun _ => ho₃', fun h => absurd rfl h⟩
      · exact ⟨hc₃, fun _ => ho₃', fun h => absurd rfl h⟩
      · split
        · exact ⟨hc₃, fun _ => ho₃', fun h => absurd rfl h⟩
        refine Spec.Safe.call_bind (pre_deal hc₃ hd ho₃') fun rev g₄ hpost => ?_
        obtain ⟨hg₄, hpos, -⟩ := post_deal hc₃ hpost
        have hc₄ : g₄.consumer = none := by rw [hg₄]; exact hc₃
        refine (safe_quiet hd
          (Within.kvCall (by simp [quietKinds]) (by exact internal_pair rfl rfl)) hc₄).bind ?_
        rintro g₅ e ⟨hc₅, ho₅⟩
        exact ⟨hc₅, fun h => absurd h (Nat.ne_of_gt hpos), fun _ => ho₅.trans (by rw [hg₄])⟩
    · rintro g₃ ⟨rev, err⟩ ⟨hc₃, hzero, hpos⟩
      dsimp only
      split
      · next hrev =>
        cases err with
        | some e => exact ⟨hc₃, hzero hrev⟩
        | none => exact hquiet hc₃ (hzero hrev) (Within.call (by simp [quietKinds]) trivial)
      · next hrev =>
        refine (safe_notify hc₃ hpos).bind ?_
        rintro g₄ - ⟨hc₄, ho₄⟩
        rw [if_neg hrev] at ho₄
        exact hquiet hc₄ ho₄ (Within.call (by simp [quietKinds]) trivial)

/-- Ghost of the consumer. -/
def reading (owed : Option ℕ) (seen : ℕ) (batch : List Event) (phase : Phase) : Ghost :=
  ⟨owed, seen, some (batch, phase)⟩

variable {owed : Option ℕ} {seen : ℕ} {batch : List Event}

/-- Moving the counter leaves the sequencer alone where revisions are dealt. -/
private theorem safe_setCurrentRevision {rev : ℕ} (phase phase' : Phase)
    (hpre : Pre m (reading owed seen batch phase) (.storeCommitted rev))
    (hnext : advance batch phase (reading owed seen batch phase) (.storeCommitted rev) () =
      reading owed rev batch phase')
    (hphase' : phase' = .idle ∨ ∃ ev, phase' = .stored ev) :
    (spec m).Safe (fun g' _ => g' = reading owed rev batch phase')
      (reading owed seen batch phase) (setCurrentRevision rev) := by
  unfold setCurrentRevision
  refine Spec.Safe.call_bind hpre fun _ g' hpost => ?_
  obtain rfl : g' = reading owed rev batch phase' := hpost.1.trans hnext
  rcases hphase' with rfl | ⟨ev, rfl⟩
  all_goals
    refine Spec.Safe.call_bind trivial fun pre g' hpost => ?_
    obtain ⟨rfl, hle⟩ := hpost
    split
    · next hlt =>
      refine ⟨fun hd => absurd (hle hd) (not_le.mpr hlt), fun _ g' hpost => ?_⟩
      exact hpost.1
    · exact rfl

/-- A pass of the consumer ends between two events, with its batch. -/
theorem safe_collect (owed : Option ℕ) (seen : ℕ) (batch : List Event) :
    (spec m).Safe (fun g' evs => ∃ seen', g' = reading owed seen' evs .idle)
      (reading owed seen batch .idle) (collectStorageWriteEvents batch) := by
  have hsend : (spec m).Safe (fun g' evs => ∃ seen', g' = reading owed seen' evs .idle)
      (reading owed seen batch .idle) (do call (.chanSend batch); pure [] : M (List Event)) := by
    refine Spec.Safe.call_bind rfl fun _ g' hpost => ?_
    exact ⟨seen, hpost.1⟩
  unfold collectStorageWriteEvents
  split
  · refine Spec.Safe.call_bind trivial fun cur g' hpost => ?_
    obtain rfl : g' = reading owed seen batch .idle := hpost.1
    obtain rfl : cur = seen := hpost.2
    refine Spec.Safe.call_bind rfl fun found g' hpost => ?_
    cases found with
    | none =>
      obtain rfl : g' = reading owed cur batch .idle := hpost.1
      dsimp only
      split
      · next hb =>
        subst hb
        exact ⟨cur, rfl⟩
      · exact hsend
    | some ev =>
      obtain rfl : g' = reading owed cur batch (.loaded ev) := hpost.1
      refine Spec.Safe.call_bind rfl fun _ g' hpost => ?_
      obtain rfl : g' = reading owed cur batch (.cleared ev) := hpost.1
      split
      · next hv =>
        have hset : (spec m).Safe (fun g' _ => g' = reading owed ev.revision batch (.stored ev))
            (reading owed cur batch (.cleared ev)) (setCurrentRevision ev.revision) :=
          safe_setCurrentRevision (.cleared ev) (.stored ev) ⟨rfl, fun h => by simp [hv] at h⟩
            (by simp [advance, reading, hv]) (.inr ⟨ev, rfl⟩)
        refine hset.bind ?_
        rintro g' - rfl
        refine Spec.Safe.call_bind rfl fun _ g' hpost => ?_
        exact ⟨ev.revision, hpost.1⟩
      next hv =>
      have hv : ev.valid = false := by simpa using hv
      split
      · next hu =>
        refine Spec.Safe.call_bind ⟨rfl, hv, hu⟩ fun _ g' hpost => ?_
        obtain rfl : g' = reading owed cur batch (.queued ev) := hpost.1
        have hset : (spec m).Safe (fun g' _ => g' = reading owed ev.revision batch .idle)
            (reading owed cur batch (.queued ev)) (setCurrentRevision ev.revision) :=
          safe_setCurrentRevision (.queued ev) .idle rfl rfl (.inl rfl)
        refine hset.bind ?_
        rintro g' - rfl
        exact ⟨ev.revision, rfl⟩
      · next hu =>
        have hset : (spec m).Safe (fun g' _ => g' = reading owed ev.revision batch .idle)
            (reading owed cur batch (.cleared ev)) (setCurrentRevision ev.revision) :=
          safe_setCurrentRevision (.cleared ev) .idle ⟨rfl, fun _ => by simpa using hu⟩
            (by simp [advance, reading, hv]) (.inl rfl)
        refine hset.bind ?_
        rintro g' - rfl
        exact ⟨ev.revision, rfl⟩
  · exact hsend

/-- Every goroutine that the leader starts is safe without debt. -/
theorem threadSafe_goroutine (hd : m.dealing) (t : Task) :
    (spec m).ThreadSafe ⟨none, 0, none⟩ (Leader.goroutine cfg t) := by
  have hfin (g : Ghost) (a : Outcome) (h : Paid m g) : Fin m g a := by
    unfold Fin
    rw [h.1]
    exact h.2
  have hreq {β : Type} {p : M β} {f : β → Outcome}
      (hp : (spec m).Safe (fun g' _ => Paid m g') ⟨none, 0, none⟩ p) :
      (spec m).Safe (Fin m) ⟨none, 0, none⟩ (p >>= fun a => pure (f a)) :=
    hp.bind fun g' a hg' => hfin _ _ hg'
  have hquiet {t : Leader.Goroutine} (h : Confined compactKinds t) :
      (spec m).ThreadSafe ⟨none, 0, none⟩ t :=
    Spec.threadSafe_of_keeps (O := spec m) hfin
      (safe_paid_quiet hd (h.1.mono (by decide)) ⟨rfl, fun _ => rfl⟩)
      fun f hf _ a hg => safe_paid_quiet hd ((h.2 f hf a).mono (by decide)) hg
  cases t with
  | request r =>
    cases r with
    | create r => exact hreq (safe_handleCreate hd rfl rfl)
    | update r => exact hreq (safe_handleUpdate hd rfl rfl)
    | delete r => exact hreq (safe_handleDelete hd rfl rfl)
    | _ => exact hquiet (confined_of_not_writes cfg id)
  | _ => exact hquiet (confined_of_not_writes cfg id)

end Programs

/-- No request is ahead of the sequencer at the deals whose number it would drop. -/
def NoDrift (cfg : Config) (K : KvStorage) : Guard (leader cfg K) :=
  fun s mv => ∀ site ch, mv = .op (.deal site) ch →
  ∀ p, site = .update p ∨ site = .delete p → p ≤ LeaderState.dealRevision s + 1

section Soundness

variable {m : LedgerMode} {s s' : LeaderState K} {gs : ℕ → Ghost} {batch : List Event}
  {phase : Phase} {i : ℕ}

private theorem owed_update (gs : ℕ → Ghost) (i : ℕ) (g : Ghost) :
    (fun j => (Function.update gs i g j).owed) = Function.update (fun j => (gs j).owed) i g.owed :=
  funext (Function.apply_update (fun _ => Ghost.owed) gs i g)

section

variable (h : Inv m s gs batch phase)

include h

theorem Inv.frame (he : s'.events = s.events) : Inv m s' gs batch phase := by
  have hc : s'.committedRevision = s.committedRevision := congrArg EventView.committed he
  exact ⟨h.consumer, h.owes_not, hc ▸ h.seen, hc ▸ h.others, he ▸ h.ledger⟩

theorem Inv.consumer_eq : gs 0 = reading none s.committedRevision batch phase := by
  have h₁ := h.consumer
  have h₂ := h.owes_not
  have h₃ := h.seen
  cases hg : gs 0
  simp_all [reading]

/-- A goroutine other than the consumer changes its account. -/
theorem Inv.account (hi : i ≠ 0) {g : Ghost}
    (hg : g.consumer = none) (hseen : g.seen ≤ s'.committedRevision)
    (hc : s'.committedRevision = s.committedRevision)
    (hl : Ledger m s'.events (Function.update (fun j => (gs j).owed) i g.owed) batch phase) :
    Inv m s' (Function.update gs i g) batch phase := by
  have h0 : Function.update gs i g 0 = gs 0 := Function.update_of_ne (Ne.symm hi) _ _
  refine ⟨h0 ▸ h.consumer, h0 ▸ h.owes_not, ?_, fun j hj => ?_, ?_⟩
  · rw [h0, hc]
    exact h.seen
  · by_cases hji : j = i
    · subst hji
      rw [Function.update_self]
      exact ⟨hg, hseen⟩
    · rw [Function.update_of_ne hji, hc]
      exact h.others j hj
  · rw [owed_update]
    exact hl

/-- The consumer moves on. -/
theorem Inv.consume {batch' : List Event} {phase' : Phase}
    (hc : s.committedRevision ≤ s'.committedRevision)
    (hl : Ledger m s'.events (fun j => (gs j).owed) batch' phase') :
    Inv m s' (Function.update gs 0 (reading none s'.committedRevision batch' phase')) batch'
      phase' := by
  refine ⟨by simp [reading], by simp [reading], by simp [reading], fun j hj => ?_, ?_⟩
  · rw [Function.update_of_ne hj]
    exact ⟨(h.others j hj).1, (h.others j hj).2.trans hc⟩
  · rw [owed_update, show (reading none s'.committedRevision batch' phase').owed = none from rfl,
      Function.update_eq_self_iff.mpr h.owes_not.symm]
    exact hl

end

variable {o : Op} {ch : LeaderChoice K} {r : o.Res} {sp : Option Leader.Goroutine}
  {outs : List (Option Outcome)}

private theorem sound_other (hinv : Inv m s gs batch phase) (hi : i ≠ 0) (hpre : Pre m (gs i) o)
    (hdrift : m.noDrift → ∀ site, o = .deal site →
      ∀ p, site = .update p ∨ site = .delete p → p ≤ s.dealRevision + 1)
    (hex : Leader.exec cfg s outs i o ch = some (s', r, sp)) :
    ∃ g', Post m (gs i) o r g' ∧ Inv m s' (Function.update gs i g') batch phase := by
  obtain ⟨hc, hseen⟩ := hinv.others i hi
  generalize hg : gs i = g at hpre hc hseen ⊢
  obtain ⟨owed, seen, consumer⟩ := g
  obtain rfl : consumer = none := hc
  have howed : (gs i).owed = owed := by rw [hg]
  have hsame : Function.update gs i ⟨owed, seen, none⟩ = gs :=
    Function.update_eq_self_iff.mpr hg.symm
  cases o with
  | deal site =>
    obtain ⟨hd, rfl⟩ := hpre
    obtain ⟨hlt, rfl, rfl, -⟩ := answer_ite hex
    refine ⟨_, ⟨rfl, Nat.succ_pos _, fun hn p hp => hdrift hn site rfl p hp⟩, ?_⟩
    exact hinv.account hi rfl hseen rfl (hinv.ledger.dealRevision hd hlt howed)
  | ringStore idx ev =>
    cases ev with
    | none => exact absurd hpre (by simp [Pre, OffLedger])
    | some ev =>
      obtain ⟨rfl, rfl, hwin⟩ := hpre
      obtain ⟨rfl, -, -⟩ := answer_inj hex
      refine ⟨_, rfl, hinv.account hi rfl hseen rfl ?_⟩
      exact hinv.ledger.publish howed (by show ev.revision < s.committedRevision + _; omega)
  | getRevision =>
    obtain ⟨rfl, rfl, -⟩ := answer_inj hex
    refine ⟨_, rfl, hinv.account hi rfl (le_refl _) rfl ?_⟩
    rw [show owed = (fun j => (gs j).owed) i from howed.symm, Function.update_eq_self]
    exact hinv.ledger
  | queuePop =>
    obtain ⟨-, rfl, -⟩ := answer_unless hex
    refine ⟨_, rfl, hsame.symm ▸ ?_⟩
    refine ⟨hinv.consumer, hinv.owes_not, hinv.seen, hinv.others, ?_⟩
    have := hinv.ledger.pop
    simpa only [LeaderState.events, List.map_tail] using this
  | storeCommitted _ | loadDeal | casDeal _ _ | ringLoad _ | queuePush _ | cacheAdd _
  | chanSend _ =>
    exact absurd hpre (by simp [Pre, OffLedger])
  | kv o =>
    obtain ⟨c, kv, rfl, -, rfl, rfl⟩ := Leader.exec_kv hex
    exact ⟨_, rfl, hsame.symm ▸ hinv.frame rfl⟩
  | spawn t => exact ⟨_, rfl, hsame.symm ▸ hinv.frame
      (congrArg CoreView.events (Leader.exec_core (Leader.spawn_notMem_coreKinds t) hex))⟩
  | _ => exact ⟨_, rfl,
      hsame.symm ▸ hinv.frame (Leader.exec_events (by simp [Leader.eventKinds]) hex)⟩

private theorem sound_consumer (hinv : Inv m s gs batch phase) (hpre : Pre m (gs 0) o)
    (hex : Leader.exec cfg s outs 0 o ch = some (s', r, sp)) :
    ∃ g', Post m (gs 0) o r g' ∧ ∃ batch phase, Inv m s' (Function.update gs 0 g') batch phase := by
  have hg := hinv.consumer_eq
  have hstay {ph : Phase} (hc : s'.committedRevision = s.committedRevision)
      (hl : Ledger m s'.events (fun j => (gs j).owed) batch ph) :
      ∃ batch' phase', Inv m s' (Function.update gs 0
        (reading none s.committedRevision batch ph)) batch' phase' :=
    ⟨batch, ph, hc ▸ hinv.consume (le_of_eq hc.symm) hl⟩
  have hdeal (hd : m.dealing) : s.committedRevision ≤ s.dealRevision :=
    hinv.ledger.committed_le_deal hd
  rw [hg] at hpre ⊢
  cases phase with
  | idle =>
    cases o with
    | getRevision =>
      obtain ⟨rfl, rfl, -⟩ := answer_inj hex
      exact ⟨_, ⟨rfl, rfl⟩, hstay rfl hinv.ledger⟩
    | ringLoad idx =>
      obtain rfl := hpre
      obtain ⟨rfl, hr, -⟩ := answer_inj hex
      cases r with
      | none => exact ⟨_, ⟨rfl, nofun⟩, hstay rfl hinv.ledger⟩
      | some ev =>
        have hl := hinv.ledger.load hr
        refine ⟨_, ⟨rfl, ?_⟩, hstay rfl hl⟩
        rintro e ⟨⟩
        exact hl.held.2
    | chanSend evs =>
      obtain rfl := hpre
      obtain ⟨-, rfl, -⟩ := answer_ite hex
      exact ⟨_, ⟨rfl, trivial⟩, [], .idle, hinv.consume (le_refl _) hinv.ledger.send⟩
    | loadDeal =>
      obtain ⟨rfl, rfl, -⟩ := answer_inj hex
      exact ⟨_, ⟨rfl, hdeal⟩, hstay rfl hinv.ledger⟩
    | casDeal old new =>
      obtain ⟨rfl, -, -⟩ := answer_inj hex
      exact ⟨_, ⟨rfl, trivial⟩, hstay rfl (hinv.ledger.raiseDeal hpre _)⟩
    | _ => exact hpre.elim
  | loaded ev =>
    cases o with
    | ringStore idx e =>
      cases e with
      | some e => exact hpre.elim
      | none =>
        obtain rfl := hpre
        obtain ⟨rfl, -, -⟩ := answer_inj hex
        exact ⟨_, ⟨rfl, trivial⟩, hstay rfl hinv.ledger.clear⟩
    | _ => exact hpre.elim
  | cleared ev =>
    obtain ⟨hmem, hrev⟩ := hinv.ledger.held
    have hle : s.committedRevision ≤ ev.revision := hrev ▸ Nat.le_succ _
    cases o with
    | queuePush e =>
      obtain ⟨rfl, hv, hu⟩ := hpre
      obtain ⟨rfl, -, -⟩ := answer_inj hex
      refine ⟨_, ⟨rfl, trivial⟩, hstay rfl ?_⟩
      have := hinv.ledger.enqueue hv hu
      simpa only [LeaderState.events, List.map_append, List.map_cons, List.map_nil] using this
    | storeCommitted rev =>
      obtain ⟨rfl, hu⟩ := hpre
      obtain ⟨rfl, -, -⟩ := answer_inj hex
      refine ⟨_, ⟨rfl, trivial⟩, ?_⟩
      cases hv : ev.valid with
      | true =>
        refine ⟨batch, .stored ev, ?_⟩
        simp only [advance, hv, if_true]
        exact hinv.consume hle (hinv.ledger.storeValid hv)
      | false =>
        refine ⟨batch, .idle, ?_⟩
        simp only [advance, hv]
        exact hinv.consume hle (Ledger.storeInvalid (.inr ⟨hinv.ledger, hv, hu hv⟩))
    | _ => exact hpre.elim
  | queued ev =>
    cases o with
    | storeCommitted rev =>
      obtain rfl := hpre
      obtain ⟨rfl, -, -⟩ := answer_inj hex
      have hle : s.committedRevision ≤ ev.revision := hinv.ledger.held.1.2 ▸ Nat.le_succ _
      exact ⟨_, ⟨rfl, trivial⟩, batch, .idle,
        hinv.consume hle (Ledger.storeInvalid (.inl hinv.ledger))⟩
    | _ => exact hpre.elim
  | stored ev =>
    cases o with
    | loadDeal =>
      obtain ⟨rfl, rfl, -⟩ := answer_inj hex
      exact ⟨_, ⟨rfl, hdeal⟩, hstay rfl hinv.ledger⟩
    | casDeal old new =>
      obtain ⟨rfl, -, -⟩ := answer_inj hex
      exact ⟨_, ⟨rfl, trivial⟩, hstay rfl (hinv.ledger.raiseDeal hpre _)⟩
    | cacheAdd e =>
      obtain rfl := hpre
      obtain ⟨rfl, -, -⟩ := answer_inj hex
      exact ⟨_, ⟨rfl, trivial⟩, batch ++ [ev.toEvent], .idle,
        hinv.consume (le_refl _) hinv.ledger.addToCache⟩
    | _ => exact hpre.elim

/-- Goroutines are started only where revisions are dealt. -/
private theorem dealing_of_spawn (hinv : Inv m s gs batch phase) (hpre : Pre m (gs i) o)
    (ho : (∃ t, o = .spawn t) ∨ o = .accept) : m.dealing := by
  by_cases hi : i = 0
  · subst hi
    rw [hinv.consumer_eq] at hpre
    rcases ho with ⟨t, rfl⟩ | rfl <;> cases phase <;> exact hpre.elim
  · have hc := (hinv.others i hi).1
    generalize gs i = g at hpre hc
    obtain ⟨owed, seen, consumer⟩ := g
    obtain rfl : consumer = none := hc
    rcases ho with ⟨t, rfl⟩ | rfl <;> exact hpre

/-- The operations keep the ledger, in every interleaving. -/
theorem sound {G : Guard (leader cfg K)} (hG : m.noDrift → ∀ s mv, G s mv → NoDrift cfg K s mv) :
    (outline cfg K m).Sound G fun _ _ _ => True where
  op := by
    rintro s gs outs i o ch s' r sp - ⟨batch, phase, hinv⟩ hpre hg hlt hidle - hex
    have hspawn (t : Leader.Goroutine) (ht : sp = some t) :
        (spec m).ThreadSafe ⟨none, 0, none⟩ t := by
      obtain ⟨task, rfl, hop⟩ := Leader.exec_spawned hex ht
      exact threadSafe_goroutine
        (dealing_of_spawn hinv hpre (hop.imp (fun h => ⟨task, h⟩) fun h => h.1)) task
    by_cases hi : i = 0
    · subst hi
      obtain ⟨g', hpost, h⟩ := sound_consumer hinv hpre hex
      exact ⟨g', hpost, Outline.spawned_of_idle h hlt (hidle _ (le_refl _)) hspawn⟩
    · obtain ⟨g', hpost, h⟩ := sound_other hinv hi hpre
        (fun hn site ho p hp => hG hn _ _ hg site ch (by rw [ho]) p hp) hex
      exact ⟨g', hpost, Outline.spawned_of_idle ⟨batch, phase, h⟩ hlt (hidle _ (le_refl _)) hspawn⟩
  env := by
    rintro s gs ch s' - ⟨batch, phase, hinv⟩ - he
    exact ⟨batch, phase, hinv.frame (Leader.env_events he)⟩

end Soundness

end Accounts
end KubeBrain

import KubeBrain.Backend.ScanFootprint

/-! What an operation can do to the leader's state, part by part. -/
namespace KubeBrain

open Interleaving

/-- The part of the state that carries write events to the watch channel. -/
structure EventView where
  committed : ℕ
  deal : ℕ
  ring : ℕ → Option WatchEvent
  queue : List WatchEvent
  journal : Journal

def LeaderState.events {K : KvStorage} (s : LeaderState K) : EventView :=
  ⟨s.committedRevision, s.dealRevision, s.ring, s.queue.map Prod.fst, s.journal⟩

/-- What writes and compactions work on. -/
structure CoreView (K : KvStorage) where
  events : EventView
  kv : K.State
  queue : List (WatchEvent × ℕ)
  histories : List (ℕ × ℕ)

def LeaderState.core {K : KvStorage} (s : LeaderState K) : CoreView K :=
  ⟨s.events, s.kv, s.queue, s.compactHistories⟩

/-- What the hub works on, with the batches that were sent to it. -/
structure HubView where
  subs : List Sub
  streaming : Bool
  watchChan : List (List Event)
  sent : List (List Event)

def LeaderState.hub {K : KvStorage} (s : LeaderState K) : HubView :=
  ⟨s.subs, s.streaming, s.watchChan, s.journal.sent⟩

def HubView.push (v : HubView) (batch : List Event) : HubView :=
  { v with watchChan := v.watchChan ++ [batch], sent := v.sent ++ [batch] }

/-- What watches work on. -/
structure WatchView where
  hub : HubView
  cache : Ring
  added : List Event
  results : List ResultChan
  contexts : List Bool

def LeaderState.watch {K : KvStorage} (s : LeaderState K) : WatchView :=
  ⟨s.hub, s.cache, s.journal.added, s.results, s.contexts⟩

namespace Scanner

/-- The revision of an expired record, if there is one. -/
theorem popExpired_cases (time : ℕ) (hs : List (ℕ × ℕ)) (prev : ℕ) :
    ((popExpired time hs prev).1 = prev ∨ ∃ h ∈ hs, (popExpired time hs prev).1 = h.1 ∧
      h.2 + eventsTTL ≤ time) ∧ ∀ h ∈ (popExpired time hs prev).2, h ∈ hs := by
  induction hs generalizing prev with
  | nil => exact ⟨.inl rfl, fun _ h => h⟩
  | cons h hs ih =>
    obtain ⟨revision, t⟩ := h
    unfold popExpired
    split
    · exact ⟨.inl rfl, fun _ h => h⟩
    · next hold =>
      have hpos : 0 < eventsTTL := by decide
      obtain ⟨hcase, hsub⟩ := ih revision
      refine ⟨.inr ?_, fun h hh => List.mem_cons_of_mem _ (hsub h hh)⟩
      rcases hcase with hprev | ⟨h, hh, hrev, hle⟩
      · exact ⟨(revision, t), List.mem_cons_self, hprev, by omega⟩
      · exact ⟨h, List.mem_cons_of_mem _ hh, hrev, hle⟩

end Scanner

namespace Leader

variable {K : KvStorage} {cfg : Config} {s s' : State K} {outs : List (Option Outcome)} {i : ℕ}
  {o : Op} {ch : Choice K} {r : o.Res} {sp : Option Goroutine}

/-- Only these kinds of operations move events. -/
def eventKinds : List OpKind :=
  [.deal, .tso, .slot, .publish, .queuePush, .queuePop, .cacheAdd, .chanSend]

/-- Kinds of operations that touch what writes and compactions share. -/
def coreKinds : List OpKind := eventKinds ++ [.read, .retryRead, .commit, .record, .gc, .history]

theorem spawn_notMem_coreKinds (t : Task) : (Op.spawn t).kind ∉ coreKinds := by
  have hdisj : ∀ k ∈ [OpKind.fork, .forkWriter, .forkWatch], k ∉ coreKinds := by decide
  exact hdisj _ t.kind_mem

theorem exec_kv {o : KvOp} {r : o.Res} (h : exec cfg s outs i (.kv o) ch = some (s', r, sp)) :
    ∃ c kv, ch = .kv c ∧ K.exec s.kv o c = some (kv, r) ∧ s' = { s with kv } ∧ sp = none := by
  cases ch with
  | kv c =>
    unfold exec at h
    simp only [Option.map_eq_some_iff, Prod.exists, Prod.mk.injEq] at h
    obtain ⟨kv, r', hex, rfl, rfl, rfl⟩ := h
    exact ⟨c, kv, rfl, hex, rfl, rfl⟩
  | _ => cases h

/-- What operations of a kind may change is taken from `s'`, the rest from `s`. -/
def frame (k : OpKind) (s s' : State K) : State K :=
  match k with
  | .deal => { s with
      dealRevision := s'.dealRevision
      journal := { s.journal with dealt := s'.journal.dealt } }
  | .tso => { s with
      committedRevision := s'.committedRevision
      dealRevision := s'.dealRevision
      journal := { s.journal with commits := s'.journal.commits } }
  | .read | .retryRead | .commit | .record | .gc => { s with kv := s'.kv }
  | .slot => { s with ring := s'.ring }
  | .publish => { s with
      ring := s'.ring
      journal := { s.journal with
        notified := s'.journal.notified
        clobbered := s'.journal.clobbered } }
  | .queuePush => { s with
      queue := s'.queue
      journal := { s.journal with appended := s'.journal.appended } }
  | .queuePop => { s with queue := s'.queue }
  | .cacheAdd => { s with
      cache := s'.cache
      journal := { s.journal with added := s'.journal.added } }
  | .chanSend => { s with
      watchChan := s'.watchChan
      journal := { s.journal with sent := s'.journal.sent } }
  | .hub | .sub => { s with subs := s'.subs, streaming := s'.streaming, watchChan := s'.watchChan }
  | .client => { s with contexts := s'.contexts, results := s'.results }
  | .stream => { s with streams := s'.streams }
  | .history => { s with compactHistories := s'.compactHistories }
  | .revision | .queueHead | .time | .cacheFind | .fork | .forkWriter | .forkWatch | .control => s

/-- An operation changes what its kind may change, and new goroutines are tasks that were asked
for. -/
theorem exec_frame (h : exec cfg s outs i o ch = some (s', r, sp)) :
    s' = frame o.kind s s' ∧ (sp = none ∨ ∃ t, sp = some (goroutine cfg t) ∧
      (o = .spawn t ∨ o = .accept ∧ ∃ req, ch = .request req ∧ t = .request req)) := by
  cases o with
  | kv o =>
    obtain ⟨c, kv, -, -, rfl, rfl⟩ := exec_kv h
    refine ⟨?_, .inl rfl⟩
    cases o with
    | commit w ops => cases w <;> rfl
    | iter reader _ _ _ _ => cases reader <;> rfl
    | _ => rfl
  | spawn t =>
    obtain ⟨rfl, -, rfl⟩ := answer_inj h
    refine ⟨?_, .inr ⟨t, rfl, .inl rfl⟩⟩
    cases t with
    | worker w receiver =>
      show s = frame (if w.compact ∨ w.timeoutRevision ≠ 0 then OpKind.forkWriter else .fork) s s
      split <;> rfl
    | _ => rfl
  | ringStore idx ev =>
    obtain ⟨rfl, -, rfl⟩ := answer_inj h
    cases ev <;> exact ⟨rfl, .inl rfl⟩
  | getRevision | queueHead | now | cacheFind _ | hubRUnlock | withCancel | cancel _ | makeResult
  | resultClose _ | makeStream | streamSend _ _ | streamClose _ | storeCommitted _ | loadDeal
  | casDeal _ _ | ringLoad _ | queuePush _ | cacheAdd _ | historyPush _ _ | historyTimeout _ =>
    obtain ⟨rfl, -, rfl⟩ := answer_inj h
    exact ⟨rfl, .inl rfl⟩
  | deal _ | queuePop | chanSend _ | chanRecv | addSub | deleteSub _ | waitDone _ | subSend _ _
  | join _ =>
    unfold exec at h
    dsimp only at h
    split at h <;> simp only [Option.some.injEq, Prod.mk.injEq, reduceCtorEq] at h <;>
      exact ⟨h.1 ▸ rfl, .inl h.2.2.symm⟩
  | hubRLock =>
    cases ch with
    | order l =>
      unfold exec at h
      dsimp only at h
      split at h <;> simp only [Option.some.injEq, Prod.mk.injEq, reduceCtorEq] at h
      exact ⟨h.1 ▸ rfl, .inl h.2.2.symm⟩
    | _ => cases h
  | subRecv sub =>
    unfold exec at h
    simp only [Option.map_eq_some_iff, Prod.exists, Prod.mk.injEq] at h
    obtain ⟨s₁, r₁, hs, rfl, -, rfl⟩ := h
    unfold execSub at hs
    split at hs <;> simp only [Option.some.injEq, Prod.mk.injEq, reduceCtorEq] at hs <;>
      exact ⟨hs.1 ▸ rfl, .inl rfl⟩
  | resultSend out evs =>
    unfold exec at h
    simp only [Option.map_eq_some_iff, Prod.mk.injEq] at h
    obtain ⟨s₁, hs, rfl, -, rfl⟩ := h
    unfold execResult at hs
    split at hs
    · cases hs
    · split at hs
      · cases hs
      · exact ⟨Option.some.inj hs ▸ rfl, .inl rfl⟩
  | isLeader | ctxDone =>
    cases ch with
    | flag b =>
      unfold exec at h
      simp only [Option.some.injEq, Prod.mk.injEq] at h
      exact ⟨h.1.symm, .inl h.2.2.symm⟩
    | _ => cases h
  | accept =>
    cases ch with
    | request req =>
      unfold exec at h
      simp only [Option.some.injEq, Prod.mk.injEq] at h
      exact ⟨h.1.symm, .inr ⟨.request req, h.2.2.symm, .inr ⟨rfl, req, rfl, rfl⟩⟩⟩
    | _ => cases h
  | exit => cases r
  | panic => cases r

theorem exec_spawned {t : Goroutine} (h : exec cfg s outs i o ch = some (s', r, sp))
    (ht : sp = some t) : ∃ task, t = goroutine cfg task ∧
      (o = .spawn task ∨ o = .accept ∧ ∃ req, ch = .request req ∧ task = .request req) := by
  subst ht
  rcases (exec_frame h).2 with hsp | ⟨task, hsp, ho⟩
  · cases hsp
  · exact ⟨task, Option.some.inj hsp, ho⟩

/-- Operations of other kinds leave a view alone that only some kinds change. -/
theorem exec_view {α : Type} (view : State K → α) {P : OpKind → Prop}
    (hview : ∀ k, P k → view (frame k s s') = view s) (ho : P o.kind)
    (h : exec cfg s outs i o ch = some (s', r, sp)) : view s' = view s :=
  (congrArg view (exec_frame h).1).trans (hview _ ho)

theorem exec_core (ho : o.kind ∉ coreKinds)
    (h : exec cfg s outs i o ch = some (s', r, sp)) : s'.core = s.core := by
  apply exec_view (P := (· ∉ coreKinds)) LeaderState.core ?_ ho h
  intro k hk
  cases k <;> first | rfl | exact absurd (by decide) hk

theorem exec_events (ho : o.kind ∉ eventKinds)
    (h : exec cfg s outs i o ch = some (s', r, sp)) : s'.events = s.events := by
  apply exec_view (P := (· ∉ eventKinds)) LeaderState.events ?_ ho h
  intro k hk
  cases k <;> first | rfl | exact absurd (by decide) hk

/-- No goroutine moves the clock, and only compactions touch the compact history. -/
theorem exec_clock (h : exec cfg s outs i o ch = some (s', r, sp)) :
    s'.clock = s.clock ∧ (o.kind ≠ .history → s'.compactHistories = s.compactHistories) := by
  constructor
  · apply exec_view (P := fun _ => True) LeaderState.clock ?_ trivial h
    intro k _
    cases k <;> rfl
  · intro ho
    apply exec_view (P := (· ≠ .history)) LeaderState.compactHistories ?_ ho h
    intro k hk
    cases k <;> first | rfl | exact absurd rfl hk

/-- The operations of the kinds that are told apart below. -/
def Names (o : Op) : OpKind → Prop
  | .deal => ∃ site, o = .deal site
  | .tso => (∃ revision, o = .storeCommitted revision) ∨ o = .loadDeal ∨
    ∃ old new, o = .casDeal old new
  | .read | .retryRead | .commit | .record | .gc => ∃ o', o = .kv o'
  | .publish => ∃ idx ev, o = .ringStore idx (some ev)
  | .queuePush => ∃ ev, o = .queuePush ev
  | .queuePop => o = .queuePop
  | .chanSend => ∃ batch, o = .chanSend batch
  | .client => (o = .withCancel ∨ (∃ ctx, o = .cancel ctx) ∨ ∃ ctx, o = .waitDone ctx) ∨
      o = .makeResult ∨ (∃ out evs, o = .resultSend out evs) ∨ ∃ out, o = .resultClose out
  | _ => True

theorem names_kind (o : Op) : Names o o.kind := by
  cases o with
  | kv o =>
    cases o with
    | commit w ops => cases w <;> exact ⟨_, rfl⟩
    | iter reader _ _ _ _ => cases reader <;> exact ⟨_, rfl⟩
    | _ => exact ⟨_, rfl⟩
  | spawn t =>
    cases t with
    | worker w receiver =>
      show Names _ (if w.compact ∨ w.timeoutRevision ≠ 0 then OpKind.forkWriter else .fork)
      split <;> trivial
    | _ => trivial
  | ringStore idx ev =>
    cases ev with
    | none => trivial
    | some ev => exact ⟨idx, ev, rfl⟩
  | _ => simp [Names]

theorem names_of_kind {k : OpKind} (h : o.kind = k) : Names o k := h ▸ names_kind o

theorem exec_unpublished (ho : o.kind ≠ .publish)
    (h : exec cfg s outs i o ch = some (s', r, sp)) : s'.journal.notified = s.journal.notified := by
  apply exec_view (P := (· ≠ .publish)) (fun s => s.journal.notified) ?_ ho h
  intro k hk
  cases k <;> first | rfl | exact absurd rfl hk

section

variable (h : exec cfg s outs i o ch = some (s', r, sp))

include h

/-- Nothing is taken back from the journal of published events and commits. -/
theorem exec_journal :
    s.journal.notified <+: s'.journal.notified ∧ s.journal.commits <+: s'.journal.commits := by
  constructor
  · by_cases ho : o.kind = .publish
    · obtain ⟨idx, ev, rfl⟩ := names_of_kind ho
      cases h
      exact List.prefix_append _ _
    · exact exec_unpublished ho h ▸ List.prefix_refl _
  · by_cases ho : o.kind = .tso
    · rcases names_of_kind ho with ⟨revision, rfl⟩ | rfl | ⟨old, new, rfl⟩ <;> cases h
      · exact List.prefix_append _ _
      all_goals exact List.prefix_refl _
    · have hsame : s'.journal.commits = s.journal.commits := by
        apply exec_view (P := (· ≠ .tso)) (fun s => s.journal.commits) ?_ ho h
        intro k hk
        cases k <;> first | rfl | exact absurd rfl hk
      exact hsame ▸ List.prefix_refl _

/-- Only a store of an event into the ring publishes; a deal is not taken back. -/
theorem exec_notified : s.journal.dealt <+: s'.journal.dealt ∧
    ((∃ idx ev, o = .ringStore idx (some ev) ∧ s'.kv = s.kv ∧
      s'.journal.notified = s.journal.notified ++ [ev]) ∨
    ((∀ idx ev, o ≠ .ringStore idx (some ev)) ∧ s'.journal.notified = s.journal.notified)) := by
  constructor
  · by_cases ho : o.kind = .deal
    · obtain ⟨site, rfl⟩ := names_of_kind ho
      unfold exec at h
      dsimp only at h
      split at h <;> cases h
      exact List.prefix_append _ _
    · have hsame : s'.journal.dealt = s.journal.dealt := by
        apply exec_view (P := (· ≠ .deal)) (fun s => s.journal.dealt) ?_ ho h
        intro k hk
        cases k <;> first | rfl | exact absurd rfl hk
      exact hsame ▸ List.prefix_refl _
  · by_cases ho : o.kind = .publish
    · obtain ⟨idx, ev, rfl⟩ := names_of_kind ho
      cases h
      exact .inl ⟨idx, ev, rfl, rfl, rfl⟩
    · exact .inr ⟨fun idx ev heq => ho (heq ▸ rfl), exec_unpublished ho h⟩

/-- Events enter the retry queue at its end and leave it at its head. -/
theorem exec_queue : (∃ ev, o = .queuePush ev ∧ s'.queue = s.queue ++ [(ev, s.clock)] ∧
      s'.journal.appended = s.journal.appended ++ [ev]) ∨
    (o = .queuePop ∧ s.queue ≠ [] ∧ s'.queue = s.queue.tail ∧
      s'.journal.appended = s.journal.appended) ∨
    ((∀ ev, o ≠ .queuePush ev) ∧ o ≠ .queuePop ∧ s'.queue = s.queue ∧
      s'.journal.appended = s.journal.appended) := by
  by_cases hpush : o.kind = .queuePush
  · obtain ⟨ev, rfl⟩ := names_of_kind hpush
    cases h
    exact .inl ⟨ev, rfl, rfl, rfl⟩
  by_cases hpop : o.kind = .queuePop
  · obtain rfl := names_of_kind hpop
    unfold exec at h
    dsimp only at h
    split at h <;> cases h
    next hne => exact .inr (.inl ⟨rfl, hne, rfl, rfl⟩)
  · have hsame : (s'.queue, s'.journal.appended) = (s.queue, s.journal.appended) := by
      apply exec_view (P := fun k => k ≠ .queuePush ∧ k ≠ .queuePop)
        (fun s => (s.queue, s.journal.appended)) ?_ ⟨hpush, hpop⟩ h
      intro k hk
      cases k <;> first | rfl | exact absurd rfl hk.1 | exact absurd rfl hk.2
    obtain ⟨hqueue, happended⟩ := Prod.mk.inj hsame
    exact .inr (.inr ⟨fun ev heq => hpush (heq ▸ rfl), fun heq => hpop (heq ▸ rfl),
      hqueue, happended⟩)

end

/-- Only storage calls touch the storage. -/
theorem exec_storage (ho : ∀ o', o ≠ .kv o')
    (h : exec cfg s outs i o ch = some (s', r, sp)) : s'.kv = s.kv := by
  apply exec_view (P := fun k => Names o k) LeaderState.kv ?_ (names_kind o) h
  intro k hk
  cases k <;> first | rfl | exact absurd hk.choose_spec (ho _)

/-- Without a goroutine, only the storage moves what writes and compactions share. -/
theorem env_core (h : env s ch = some s') :
    (∃ c kv, ch = .kv c ∧ K.env s.kv c = some kv ∧ s' = { s with kv }) ∨
      (∀ c, ch ≠ .kv c) ∧ s'.core = s.core := by
  cases ch with
  | tick | cancel ctx =>
    obtain rfl := Option.some.inj h
    exact .inr ⟨nofun, rfl⟩
  | receive out =>
    simp only [env] at h
    split at h
    · obtain rfl := Option.some.inj h
      exact .inr ⟨nofun, rfl⟩
    · cases h
  | kv c =>
    simp only [env, Option.map_eq_some_iff] at h
    obtain ⟨kv, he, rfl⟩ := h
    exact .inl ⟨c, kv, rfl, he, rfl⟩
  | none | flag _ | order _ | request _ => cases h

theorem env_events (h : env s ch = some s') : s'.events = s.events := by
  rcases env_core h with ⟨c, kv, -, -, rfl⟩ | ⟨-, hcore⟩
  · rfl
  · exact congrArg CoreView.events hcore

theorem env_clock (h : env s ch = some s') :
    s.clock ≤ s'.clock ∧ s'.compactHistories = s.compactHistories := by
  cases ch with
  | tick =>
    obtain rfl := Option.some.inj h
    exact ⟨Nat.le_succ _, rfl⟩
  | cancel ctx =>
    obtain rfl := Option.some.inj h
    exact ⟨le_refl _, rfl⟩
  | receive out =>
    unfold env at h
    dsimp only at h
    split at h
    · obtain rfl := Option.some.inj h
      exact ⟨le_refl _, rfl⟩
    · cases h
  | kv c =>
    obtain ⟨kv, -, rfl⟩ := Option.map_eq_some_iff.mp h
    exact ⟨le_refl _, rfl⟩
  | _ => cases h

theorem env_queue (h : env s ch = some s') : s'.queue = s.queue := by
  rcases env_core h with ⟨c, kv, -, -, rfl⟩ | ⟨-, hcore⟩
  · rfl
  · exact congrArg CoreView.queue hcore

/-- Kinds of operations of the hub and of its subscribers. -/
def hubKinds : List OpKind := [.hub, .sub]

/-- Apart from these operations, the hub is given batches. -/
theorem exec_hub (ho : o.kind ∉ hubKinds) (h : exec cfg s outs i o ch = some (s', r, sp)) :
    s'.hub = s.hub ∨ ∃ batch, o = .chanSend batch ∧ s'.hub = s.hub.push batch := by
  by_cases hsend : o.kind = .chanSend
  · obtain ⟨batch, rfl⟩ := names_of_kind hsend
    unfold exec at h
    dsimp only at h
    split at h <;> cases h
    exact .inr ⟨batch, rfl, rfl⟩
  · left
    apply exec_view (P := fun k => k ∉ hubKinds ∧ k ≠ .chanSend) LeaderState.hub ?_ ⟨ho, hsend⟩ h
    intro k hk
    cases k <;> first | rfl | exact absurd (by decide) hk.1 | exact absurd rfl hk.2

/-- Kinds of operations that watches see. -/
def watchKinds : List OpKind := [.hub, .sub, .client, .cacheAdd, .chanSend]

theorem exec_watch (ho : o.kind ∉ watchKinds)
    (h : exec cfg s outs i o ch = some (s', r, sp)) : s'.watch = s.watch := by
  apply exec_view (P := (· ∉ watchKinds)) LeaderState.watch ?_ ho h
  intro k hk
  cases k <;> first | rfl | exact absurd (by decide) hk

theorem env_hub (h : env s ch = some s') : s'.hub = s.hub := by
  cases ch with
  | tick | cancel ctx =>
    obtain rfl := Option.some.inj h
    rfl
  | receive out =>
    simp only [env] at h
    split at h
    · obtain rfl := Option.some.inj h
      rfl
    · cases h
  | kv c =>
    simp only [env, Option.map_eq_some_iff] at h
    obtain ⟨kv, -, rfl⟩ := h
    rfl
  | _ => cases h

theorem env_watch (hreceive : ∀ out, ch ≠ .receive out) (hcancel : ∀ ctx, ch ≠ .cancel ctx)
    (h : env s ch = some s') : s'.watch = s.watch := by
  cases ch with
  | tick =>
    obtain rfl := Option.some.inj h
    rfl
  | cancel ctx => exact absurd rfl (hcancel ctx)
  | receive out => exact absurd rfl (hreceive out)
  | kv c =>
    simp only [env, Option.map_eq_some_iff] at h
    obtain ⟨kv, -, rfl⟩ := h
    rfl
  | _ => cases h

theorem exec_results (hmake : o ≠ .makeResult) (hsend : ∀ out evs, o ≠ .resultSend out evs)
    (hclose : ∀ out, o ≠ .resultClose out) (h : exec cfg s outs i o ch = some (s', r, sp)) :
    s'.results = s.results := by
  by_cases ho : o.kind = .client
  · rcases names_of_kind ho with (rfl | ⟨ctx, rfl⟩ | ⟨ctx, rfl⟩) | hres
    · cases h
      rfl
    · cases h
      rfl
    · unfold exec at h
      dsimp only at h
      split at h <;> cases h
      rfl
    · rcases hres with rfl | ⟨out, evs, rfl⟩ | ⟨out, rfl⟩
      · exact absurd rfl hmake
      · exact absurd rfl (hsend out evs)
      · exact absurd rfl (hclose out)
  · apply exec_view (P := (· ≠ .client)) LeaderState.results ?_ ho h
    intro k hk
    cases k <;> first | rfl | exact absurd rfl hk

theorem exec_makeResult {r : ℕ} (h : exec cfg s outs i .makeResult ch = some (s', r, sp)) :
    s'.results = s.results ++ [⟨[], false, []⟩] ∧ r = s.results.length := by
  unfold exec at h
  simp only [Option.some.injEq, Prod.mk.injEq] at h
  exact ⟨h.1 ▸ rfl, h.2.1.symm⟩

theorem exec_resultSend {out : ℕ} {evs : List Event} {r : Unit}
    (h : exec cfg s outs i (.resultSend out evs) ch = some (s', r, sp)) :
    ∃ x : ResultChan, s.results[out]? = some x ∧
      s'.results = s.results.set out { x with buf := x.buf ++ [evs] } := by
  unfold exec at h
  simp only [Option.map_eq_some_iff, Prod.mk.injEq] at h
  obtain ⟨s₁, hs, rfl, -⟩ := h
  unfold execResult at hs
  split at hs
  · cases hs
  · next x hx =>
    split at hs
    · cases hs
    · exact ⟨x, hx, Option.some.inj hs ▸ rfl⟩

theorem exec_resultClose {out : ℕ} {r : Unit}
    (h : exec cfg s outs i (.resultClose out) ch = some (s', r, sp)) :
    s'.results = s.results.modify out fun x => { x with closed := true } := by
  unfold exec at h
  simp only [Option.some.injEq, Prod.mk.injEq] at h
  exact h.1 ▸ rfl

/-- Goroutines leave alone what clients have received. -/
theorem exec_delivered (h : exec cfg s outs i o ch = some (s', r, sp)) (out : ℕ) :
    (s'.results[out]?).map ResultChan.delivered = (s.results[out]?).map ResultChan.delivered ∨
      s.results[out]? = none ∧ (s'.results[out]?).map ResultChan.delivered = some [] := by
  cases o with
  | makeResult =>
    rw [(exec_makeResult h).1]
    by_cases hout : out < s.results.length
    · exact .inl (by simp [List.getElem?_append_left hout])
    · by_cases heq : out = s.results.length
      · subst heq
        exact .inr (by simp)
      · refine .inl ?_
        simp only [List.getElem?_append_right (by omega : s.results.length ≤ out)]
        rw [List.getElem?_eq_none (by simp; omega), List.getElem?_eq_none (by omega)]
  | resultSend j evs =>
    obtain ⟨x, hx, hres⟩ := exec_resultSend h
    rw [hres]
    refine .inl ?_
    by_cases hj : j = out
    · subst hj
      rw [List.getElem?_set_self (List.getElem?_eq_some_iff.mp hx).1, hx]
      rfl
    · simp [List.getElem?_set_ne hj]
  | resultClose j =>
    rw [exec_resultClose h]
    refine .inl ?_
    by_cases hj : j = out
    · subst hj
      cases hr : s.results[j]? <;> simp [hr]
    · simp [hj]
  | _ =>
    rw [exec_results (by nofun) (by nofun) (by nofun) h]
    exact .inl rfl

theorem exec_join {thread : ℕ} {r : Receiver × Except Err ℕ}
    (h : exec cfg s outs i (.join thread) ch = some (s', r, sp)) :
    outs[thread]? = some (some (.scanned r.1 r.2)) := by
  unfold exec at h
  dsimp only at h
  split at h
  · next hout =>
    simp only [Option.some.injEq, Prod.mk.injEq] at h
    rw [hout, ← h.2.1]
  · cases h

theorem exec_no_spawn (hs : ∀ t, o ≠ .spawn t) (ha : o ≠ .accept)
    (h : exec cfg s outs i o ch = some (s', r, sp)) : sp = none := by
  rcases (exec_frame h).2 with hsp | ⟨t, -, ho | ⟨ho, -⟩⟩
  · exact hsp
  · exact absurd ho (hs t)
  · exact absurd ho ha

theorem exec_chanRecv {r : Op.chanRecv.Res}
    (h : exec cfg s outs i .chanRecv ch = some (s', r, sp)) :
    ∃ rest, s.watchChan = r :: rest ∧ s' = { s with watchChan := rest } := by
  unfold exec at h
  dsimp only at h
  split at h
  · cases h
  · next item rest hchan =>
    obtain ⟨rfl, rfl, -⟩ := answer_inj h
    exact ⟨rest, hchan, rfl⟩

/-- A subscriber receives what is in its channel, or learns that the channel is closed. -/
theorem exec_subRecv {sub : ℕ} {r : (Op.subRecv sub).Res}
    (h : exec cfg s outs i (.subRecv sub) ch = some (s', r, sp)) :
    (∃ item rest reg, s.subs[sub]? = some ⟨item :: rest, reg⟩ ∧
      s' = { s with subs := s.subs.set sub ⟨rest, reg⟩ } ∧ r = some item) ∨
      s.subs[sub]? = some ⟨[], false⟩ ∧ s' = s ∧ r = none := by
  unfold exec at h
  simp only [Option.map_eq_some_iff, Prod.exists, Prod.mk.injEq] at h
  obtain ⟨s₁, r₁, hs, rfl, rfl, -⟩ := h
  unfold execSub at hs
  split at hs
  · cases hs
  · next item rest reg hx =>
    obtain ⟨rfl, rfl⟩ := Prod.mk.inj (Option.some.inj hs)
    exact .inl ⟨item, rest, reg, hx, rfl, rfl⟩
  · cases hs
  · next hx =>
    obtain ⟨rfl, rfl⟩ := Prod.mk.inj (Option.some.inj hs)
    exact .inr ⟨hx, rfl, rfl⟩

theorem exec_accept {r : Op.accept.Res} (h : exec cfg s outs i .accept ch = some (s', r, sp)) :
    ∃ req, ch = .request req ∧ s' = s ∧ sp = some (goroutine cfg (.request req)) := by
  cases ch with
  | request req =>
    unfold exec at h
    simp only [Option.some.injEq, Prod.mk.injEq] at h
    exact ⟨req, rfl, h.1.symm, h.2.2.symm⟩
  | _ => cases h

theorem exec_spawn_task {t : Task} {r : ℕ}
    (h : exec cfg s outs i (.spawn t) ch = some (s', r, sp)) :
    s' = s ∧ r = outs.length ∧ sp = some (goroutine cfg t) := by
  unfold exec at h
  simp only [Option.some.injEq, Prod.mk.injEq] at h
  exact ⟨h.1.symm, h.2.1.symm, h.2.2.symm⟩

end Leader
end KubeBrain

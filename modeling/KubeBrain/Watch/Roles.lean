import KubeBrain.Backend.Steps
import KubeBrain.Lib.Outline

/-! The goroutines of a watch (`pkg/backend/watch.go`) by the part they play: the request that
subscribes and catches up, the goroutine that forwards batches, and the one that removes the
subscriber when the context of the watch is done. -/
namespace KubeBrain

open Interleaving

namespace Watch

/-- A watch that is served: what it asks for, the channels it uses, and how it starts: with the
events it has caught up, and then with the revision from which batches are forwarded. -/
structure Live where
  pre : Bytes
  revision : ℕ
  ctx : ℕ
  sub : ℕ
  out : ℕ
  start : ℕ
  caught : List Event

inductive Role where
  | bystander
  | asked (pre : Bytes) (revision : ℕ)
  | opened (pre : Bytes) (revision ctx : ℕ)
  | subscribed (pre : Bytes) (revision ctx sub : ℕ)
  | ready (pre : Bytes) (revision ctx sub out : ℕ)
  | catching (w : Live) (todo : List Event)
  | declined (ctx : ℕ)
  | rejected
  | served (w : Live)
  | forwards (w : Live) (held : List Event)
  | cleaner (ctx sub : ℕ)
  | cleared (ctx sub : ℕ)

/-- How a watch goes on after it has looked into the cache. -/
def Role.decide (pre : Bytes) (revision ctx sub out : ℕ) : Ring.FindRet → Role
  | .empty | .high => .catching ⟨pre, revision, ctx, sub, out, revision, []⟩ []
  | .low _ => .declined ctx
  | .found newest events =>
    if filterByPrefix events pre = [] then .catching ⟨pre, revision, ctx, sub, out, revision, []⟩ []
    else .catching ⟨pre, revision, ctx, sub, out, newest.revision + 1, filterByPrefix events pre⟩
      (filterByPrefix events pre)

/-- The context of a request that may still be rejected. -/
def Role.requestCtx : Role → Option ℕ
  | opened _ _ ctx | subscribed _ _ ctx _ | ready _ _ ctx _ _ | declined ctx => some ctx
  | catching w _ => some w.ctx
  | _ => none

def PreSpawn (g : Role) : Task → Prop
  | .processEvents ctx out sub pre start => ∃ w, g = .catching w [] ∧ w.ctx = ctx ∧ w.out = out ∧
      w.sub = sub ∧ w.pre = pre ∧ w.start = start
  | .deleteWatcherOnDone ctx sub => ∃ pre revision, g = .subscribed pre revision ctx sub
  | .deleteWatcher _ => False
  | _ => g = .bystander

def Pre (g : Role) : Op → Prop
  | .withCancel => ∃ pre revision, g = .asked pre revision
  | .addSub => ∃ pre revision ctx, g = .opened pre revision ctx
  | .makeResult => ∃ pre revision ctx sub, g = .subscribed pre revision ctx sub
  | .cacheFind revision => ∃ pre ctx sub out, g = .ready pre revision ctx sub out
  | .resultSend out evs => ∃ w, w.out = out ∧
      ((∃ todo, g = .catching w (evs ++ todo)) ∨ g = .forwards w evs)
  | .cancel ctx => g.requestCtx = some ctx
  | .subRecv sub => ∃ w, g = .forwards w [] ∧ w.sub = sub
  | .waitDone ctx => ∃ sub, g = .cleaner ctx sub
  | .deleteSub sub => ∃ ctx, g = .cleared ctx sub
  | .resultClose _ => False
  | .spawn t => PreSpawn g t
  | .getRevision => g = .bystander ∨ g.requestCtx.isSome
  | _ => g = .bystander

def Post (g : Role) (o : Op) (r : o.Res) (g' : Role) : Prop :=
  match o, r with
  | .withCancel, ctx => ∃ pre revision, g = .asked pre revision ∧ g' = .opened pre revision ctx
  | .addSub, sub => ∃ pre revision ctx, g = .opened pre revision ctx ∧
      g' = .subscribed pre revision ctx sub
  | .makeResult, out => ∃ pre revision ctx sub, g = .subscribed pre revision ctx sub ∧
      g' = if revision = 0 then .catching ⟨pre, 0, ctx, sub, out, 0, []⟩ []
        else .ready pre revision ctx sub out
  | .cacheFind _, found => ∃ pre revision ctx sub out, g = .ready pre revision ctx sub out ∧
      g' = Role.decide pre revision ctx sub out found
  | .resultSend _ evs, _ => ∃ w, (∃ todo, g = .catching w (evs ++ todo) ∧ g' = .catching w todo) ∨
      (g = .forwards w evs ∧ g' = .forwards w [])
  | .cancel _, _ => g' = .rejected
  | .subRecv _, some evs => ∃ w, g = .forwards w [] ∧
      g' = .forwards w (filterByPrefix (filterByRevision evs w.start) w.pre)
  | .subRecv _, none => False
  | .waitDone ctx, _ => ∃ sub, g = .cleaner ctx sub ∧ g' = .cleared ctx sub
  | .deleteSub _, _ => g' = .bystander
  | .subSend _ _, accepted => accepted = true ∧ g' = g
  | .spawn (.processEvents ..), _ => ∃ w, g = .catching w [] ∧ g' = .served w
  | _, _ => g' = g

/-- Not the answer of a watch. -/
def Unrelated (a : Outcome) : Prop := ∀ r, a ≠ .watching r

def Fin (g : Role) (a : Outcome) : Prop :=
  match g with
  | .bystander => Unrelated a
  | .served w => a = .watching (.ok w.out)
  | .rejected => ∃ err, a = .watching (.error err)
  | .forwards _ held => held = [] ∧ Unrelated a
  | _ => False

abbrev spec : Spec sig Outcome where
  Ghost := Role
  idle := .bystander
  Pre := Pre
  Post := Post
  Fin := Fin

/-- The part that a new goroutine plays. -/
def roleOf (g : Role) : Task → Role
  | .request (.watch pre revision) => .asked pre revision
  | .processEvents .. => match g with
    | .catching w _ => .forwards w []
    | _ => .bystander
  | .deleteWatcherOnDone ctx sub => .cleaner ctx sub
  | _ => .bystander

section Programs

theorem safe_forward (w : Live) : spec.Safe (fun g _ => g = .forwards w []) (.forwards w [])
    (processEvents w.ctx w.out w.sub w.pre w.start) := by
  refine ⟨⟨w, rfl, rfl⟩, fun r g' hpost => ?_⟩
  cases r with
  | none => exact hpost.elim
  | some evs =>
    obtain ⟨w', hg, rfl⟩ := hpost
    obtain ⟨rfl, -⟩ := Role.forwards.inj hg
    show spec.Safe _ _ (if _ then _ else _ : M Unit)
    split
    · next hnil =>
      show Role.forwards w _ = _
      rw [hnil]
    · refine ⟨⟨w, rfl, .inr rfl⟩, fun _ g' hpost => ?_⟩
      obtain ⟨w', ⟨todo, hg, -⟩ | ⟨hg, rfl⟩⟩ := hpost
      · cases hg
      · obtain ⟨rfl, -⟩ := Role.forwards.inj hg
        rfl

theorem safe_sendBatches (w : Live) (size fuel : ℕ) (hsize : 0 < size) (evs : List Event)
    (hfuel : evs.length < fuel) :
    spec.Safe (fun g _ => g = .catching w []) (.catching w evs)
      (sendBatches w.out size fuel evs) := by
  induction fuel generalizing evs with
  | zero => exact absurd hfuel (Nat.not_lt_zero _)
  | succ fuel ih =>
    unfold sendBatches
    split
    · next hlt =>
      refine ⟨⟨w, rfl, .inl ⟨evs.drop size, by rw [List.take_append_drop]⟩⟩, fun _ g' hpost => ?_⟩
      obtain ⟨w', ⟨todo, hg, rfl⟩ | ⟨hg, -⟩⟩ := hpost
      · obtain ⟨rfl, happ⟩ := Role.catching.inj hg
        obtain rfl : evs.drop size = todo :=
          List.append_cancel_left ((List.take_append_drop size evs).trans happ)
        apply ih
        rw [List.length_drop]
        omega
      · cases hg
    · refine ⟨⟨w, rfl, .inl ⟨[], by rw [List.append_nil]⟩⟩, fun _ g' hpost => ?_⟩
      obtain ⟨w', ⟨todo, hg, rfl⟩ | ⟨hg, -⟩⟩ := hpost
      · obtain ⟨rfl, happ⟩ := Role.catching.inj hg
        obtain rfl : todo = [] := List.append_right_eq_self.mp happ.symm
        rfl
      · cases hg

theorem safe_catchUpEvents (w : Live) (evs : List Event) :
    spec.Safe (fun g _ => g = .catching w []) (.catching w evs) (catchUpEvents w.out evs) := by
  apply safe_sendBatches
  · split
    · next hlt =>
      apply Nat.div_pos
      · simp only [resultChanLength, eventBatchSize] at hlt ⊢
        omega
      · decide
    · decide
  · exact Nat.lt_succ_self _

/-- A request that was answered: it is served from the revision it asked for, or rejected. -/
def Answered (pre : Bytes) (revision : ℕ) (g : Role) (a : Except Err ℕ) : Prop :=
  (∃ w, g = .served w ∧ w.pre = pre ∧ w.revision = revision ∧ a = .ok w.out) ∨
    (g = .rejected ∧ ∃ err, a = .error err)

/-- The last steps of a request: start the goroutine that forwards, and return the channel. -/
theorem safe_live (w : Live) : spec.Safe (Answered w.pre w.revision) (.catching w [])
      (do let _ ← call (.spawn (.processEvents w.ctx w.out w.sub w.pre w.start))
          pure (.ok w.out) : M (Except Err ℕ)) := by
  refine ⟨⟨w, rfl, rfl, rfl, rfl, rfl, rfl⟩, fun _ g' hpost => ?_⟩
  obtain ⟨w', hg, rfl⟩ := hpost
  obtain ⟨rfl, -⟩ := Role.catching.inj hg
  exact .inl ⟨w, rfl, rfl, rfl, rfl⟩

theorem safe_handleWatch (pre : Bytes) (revision : ℕ) :
    spec.Safe (Answered pre revision) (.asked pre revision) (handleWatch pre revision) := by
  refine ⟨⟨pre, revision, rfl⟩, fun ctx g' hpost => ?_⟩
  obtain ⟨pre', revision', hg, rfl⟩ := hpost
  obtain ⟨rfl, rfl⟩ := Role.asked.inj hg
  refine ⟨⟨pre, revision, ctx, rfl⟩, fun sub g' hpost => ?_⟩
  obtain ⟨_, _, _, hg, rfl⟩ := hpost
  obtain ⟨rfl, rfl, rfl⟩ := Role.opened.inj hg
  refine ⟨⟨pre, revision, rfl⟩, fun _ g' hpost => ?_⟩
  obtain rfl : g' = .subscribed pre revision ctx sub := hpost
  refine ⟨⟨pre, revision, ctx, sub, rfl⟩, fun out g' hpost => ?_⟩
  obtain ⟨_, _, _, _, hg, rfl⟩ := hpost
  obtain ⟨rfl, rfl, rfl, rfl⟩ := Role.subscribed.inj hg
  show spec.Safe _ _ (if _ then _ else _ : M (Except Err ℕ))
  split
  · next h0 =>
    subst h0
    exact safe_live ⟨pre, 0, ctx, sub, out, 0, []⟩
  refine ⟨⟨pre, ctx, sub, out, rfl⟩, fun found g' hpost => ?_⟩
  obtain ⟨_, _, _, _, _, hg, rfl⟩ := hpost
  obtain ⟨rfl, rfl, rfl, rfl, rfl⟩ := Role.ready.inj hg
  cases found with
  | empty =>
    refine ⟨.inr rfl, fun cur g' hpost => ?_⟩
    obtain rfl : g' = .catching ⟨pre, revision, ctx, sub, out, revision, []⟩ [] := hpost
    show spec.Safe _ _ (if _ then _ else _ : M (Except Err ℕ))
    split
    · exact safe_live ⟨pre, revision, ctx, sub, out, revision, []⟩
    · refine ⟨.inr rfl, fun cur' g' hpost => ?_⟩
      obtain rfl : g' = .catching ⟨pre, revision, ctx, sub, out, revision, []⟩ [] := hpost
      refine ⟨rfl, fun _ g' hpost => ?_⟩
      exact .inr ⟨hpost, _, rfl⟩
  | high => exact safe_live ⟨pre, revision, ctx, sub, out, revision, []⟩
  | low oldest =>
    refine ⟨rfl, fun _ g' hpost => ?_⟩
    exact .inr ⟨hpost, _, rfl⟩
  | found newest events =>
    show spec.Safe _ (if _ then _ else _) (if _ then _ else _ : M (Except Err ℕ))
    split
    · exact safe_live ⟨pre, revision, ctx, sub, out, revision, []⟩
    · apply (safe_catchUpEvents ⟨pre, revision, ctx, sub, out, newest.revision + 1,
        filterByPrefix events pre⟩ (filterByPrefix events pre)).bind
      intro g _ hg
      subst hg
      exact safe_live ⟨pre, revision, ctx, sub, out, newest.revision + 1, filterByPrefix events pre⟩

/-- Kinds of operations that bystanders issue. -/
def bystanderKinds : List OpKind :=
  [.deal, .revision, .tso, .read, .retryRead, .commit, .record, .gc, .slot, .publish, .queueHead,
    .queuePush, .queuePop, .time, .cacheAdd, .chanSend, .stream, .history, .fork, .forkWriter,
    .control]

theorem still_of_bystander {o : Op} (h : o.kind ∈ bystanderKinds) :
    Pre .bystander o ∧ ∀ r g', Post .bystander o r g' → g' = .bystander := by
  cases o with
  | withCancel | addSub | makeResult | cacheFind _ | resultSend _ _ | cancel _ | subRecv _
  | waitDone _ | deleteSub _ | resultClose _ | subSend _ _ =>
    simp [bystanderKinds] at h
  | spawn t =>
    cases t with
    | processEvents _ _ _ _ _ | deleteWatcherOnDone _ _ | deleteWatcher _ =>
      simp [bystanderKinds, Task.kind] at h
    | _ => exact ⟨rfl, fun _ _ hpost => hpost⟩
  | getRevision => exact ⟨.inl rfl, fun _ _ hpost => hpost⟩
  | _ => exact ⟨rfl, fun _ _ hpost => hpost⟩

theorem safe_bystander {α : Type} {p : M α} (hp : Within bystanderKinds p) :
    spec.Safe (fun g _ => g = .bystander) .bystander p :=
  Spec.safe_of_still (O := spec) (fun _ ho => still_of_bystander ho.1) hp

theorem safe_sendAll (item : List Event) (subs : List ℕ) :
    spec.Safe (fun g _ => g = .bystander) .bystander (sendAll item subs) := by
  induction subs with
  | nil => exact rfl
  | cons sub subs ih =>
    refine ⟨rfl, fun accepted g' hpost => ?_⟩
    obtain ⟨rfl, rfl⟩ := hpost
    exact ih

theorem safe_stream : spec.Safe (fun g _ => g = .bystander) .bystander stream := by
  refine ⟨rfl, fun item g' hpost => ?_⟩
  obtain rfl : g' = .bystander := hpost
  refine ⟨rfl, fun subs g' hpost => ?_⟩
  obtain rfl : g' = .bystander := hpost
  apply (safe_sendAll item subs).bind
  intro g _ hg
  subst hg
  exact ⟨rfl, fun _ g' hpost => hpost⟩

/-- Loops of bystanders. -/
theorem threadSafe_loop {f : Outcome → Prog sig Outcome} {a : Outcome} (ha : Unrelated a)
    (hf : ∀ a, Unrelated a → spec.Safe (fun g a => g = .bystander ∧ Unrelated a) .bystander (f a)) :
    spec.ThreadSafe .bystander ⟨.ret a, some f⟩ := by
  refine ⟨fun g a => g = .bystander ∧ Unrelated a, ?_, ⟨rfl, ha⟩, ?_⟩
  · rintro g a ⟨rfl, ha⟩
    exact ha
  · rintro g a ⟨rfl, ha⟩
    exact hf a ha

/-- Goroutines of requests other than watches, of scans and of streams. -/
def Unwatched : Task → Prop
  | .request (.watch ..) | .processEvents .. | .deleteWatcher _ | .deleteWatcherOnDone .. => False
  | _ => True

/-- They run once, and have nothing to do with watches. -/
theorem exists_once (cfg : Config) {t : Task} (ht : Unwatched t) :
    ∃ (α : Type) (p : M α) (f : α → Outcome),
      Leader.goroutine cfg t = ⟨p >>= fun a => pure (f a), none⟩ ∧ Within bystanderKinds p ∧
        ∀ a, Unrelated (f a) := by
  cases t with
  | request r =>
    cases r with
    | create r => exact ⟨_, _, _, rfl, (within_handleCreate r).mono (by decide), nofun⟩
    | update r => exact ⟨_, _, _, rfl, (within_handleUpdate r).mono (by decide), nofun⟩
    | delete r => exact ⟨_, _, _, rfl, (within_handleDelete r).mono (by decide), nofun⟩
    | get r => exact ⟨_, _, _, rfl, (within_handleGet r).mono (by decide), nofun⟩
    | list r => exact ⟨_, _, _, rfl, (within_handleList cfg r).mono (by decide), nofun⟩
    | count key stop =>
      exact ⟨_, _, _, rfl, (within_handleCount cfg key stop).mono (by decide), nofun⟩
    | compact rev => exact ⟨_, _, _, rfl, (within_handleCompact cfg rev).mono (by decide), nofun⟩
    | listByStream start stop rev =>
      exact ⟨_, _, _, rfl, (within_handleListByStream start stop rev).mono (by decide), nofun⟩
    | watch pre revision => exact ht.elim
  | worker w receiver =>
    have hrun := Worker.within_attempts (c := true) cfg.supportTTL w (fun _ => rfl)
    exact ⟨_, _, _, rfl, (hrun _ _ _ _).mono (by decide), nofun⟩
  | rangeStream start stop rev id =>
    exact ⟨_, _, _, rfl, (within_rangeStream cfg start stop rev id).mono (by decide), nofun⟩
  | _ => exact ht.elim

theorem threadSafe_once {cfg : Config} {t : Task} (ht : Unwatched t) :
    spec.ThreadSafe .bystander (Leader.goroutine cfg t) := by
  obtain ⟨α, p, f, hgo, hp, hf⟩ := exists_once cfg ht
  rw [hgo]
  apply (safe_bystander hp).bind
  intro g a hg
  subst hg
  exact hf a

theorem threadSafe_goroutine (cfg : Config) {g : Role} {t : Task}
    (hpre : PreSpawn g t ∨ ∃ r, t = .request r) :
    spec.ThreadSafe (roleOf g t) (Leader.goroutine cfg t) := by
  cases t with
  | request r =>
    cases r with
    | watch pre revision =>
      apply (safe_handleWatch pre revision).bind
      intro g a h
      rcases h with ⟨w, rfl, -, -, rfl⟩ | ⟨rfl, err, rfl⟩
      · exact rfl
      · exact ⟨err, rfl⟩
    | _ => exact threadSafe_once trivial
  | worker w receiver => exact threadSafe_once trivial
  | rangeStream start stop rev id => exact threadSafe_once trivial
  | processEvents ctx out sub pre start =>
    rcases hpre with ⟨w, rfl, rfl, rfl, rfl, rfl, rfl⟩ | ⟨r, hr⟩
    · refine ⟨fun g a => g = .forwards w [] ∧ Unrelated a, ?_, ⟨rfl, nofun⟩, ?_⟩
      · rintro g a ⟨rfl, ha⟩
        exact ⟨rfl, ha⟩
      · rintro g a ⟨rfl, -⟩
        exact (safe_forward w).bind fun _ _ h => ⟨h, nofun⟩
    · cases hr
  | deleteWatcherOnDone ctx sub =>
    refine ⟨⟨sub, rfl⟩, fun _ g' hpost => ?_⟩
    obtain ⟨sub', hg, rfl⟩ := hpost
    obtain ⟨-, rfl⟩ := Role.cleaner.inj hg
    refine ⟨⟨ctx, rfl⟩, fun _ g' hpost => ?_⟩
    obtain rfl : g' = .bystander := hpost
    exact nofun
  | deleteWatcher sub =>
    rcases hpre with hpre | ⟨r, hr⟩
    · exact hpre.elim
    · cases hr

end Programs

end Watch
end KubeBrain

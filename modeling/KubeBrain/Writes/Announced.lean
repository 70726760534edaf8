import KubeBrain.Sweep.Agreement

/-! What is announced of the versions. Events that set a value bring no tombstone; and where
commits are certain, the event of a version that is written is valid. -/
namespace KubeBrain

open Interleaving Coder

namespace Announced

section Bears

/-- An event that sets a value brings no tombstone. -/
def Bears (ev : WatchEvent) : Prop := ev.verb ≠ .delete → ev.value ≠ tombStoneBytes

def Pre : Op → Prop
  | .ringStore _ (some ev) => Bears ev
  | _ => True

def Post (o : Op) (r : o.Res) : Prop :=
  match o, r with
  | .queueHead, r => ∀ ev t, r = some (ev, t) → Bears ev
  | _, _ => True

abbrev spec : Spec sig Outcome where
  Ghost := Unit
  idle := ()
  Pre := fun _ => Pre
  Post := fun _ o r _ => Post o r
  Fin := fun _ _ => True

abbrev outline (cfg : Config) (K : KvStorage) : Outline (leader cfg K) where
  toSpec := spec
  Inv := fun s _ => ∀ ev ∈ s.journal.notified, Bears ev

variable {cfg : Config} {K : KvStorage} {α : Type} {g : Unit}

/-- Programs that publish nothing. -/
theorem safe_silent {ks : List OpKind} (hks : .publish ∉ ks) {q : M α} (h : Within ks q) :
    spec.Safe (fun _ _ => True) g q := by
  apply Spec.safe_of_only (O := spec) (I := fun _ : Unit => True) ?_ ?_ h trivial
  · intro _ o _ ho
    cases o with
    | ringStore idx ev =>
      cases ev with
      | none => trivial
      | some ev => exact absurd ho.1 hks
    | _ => trivial
  · exact fun _ _ _ _ _ _ _ => trivial

theorem safe_notify {key val : Bytes} {rev prev : ℕ} {valid : Bool} {verb : Verb}
    {err : Option Err} (hbears : verb ≠ .delete → val ≠ tombStoneBytes) :
    spec.Safe (fun _ _ => True) g (notify key val rev prev valid verb err) := by
  unfold notify
  split
  · trivial
  · apply Spec.Safe.call_bind trivial
    intro cur _ _
    split
    · exact Spec.Safe.call_bind trivial fun r => r.elim
    · exact Spec.safe_call.mpr ⟨hbears, fun _ _ _ => trivial⟩

theorem safe_handleCreate {r : CreateRequest} (hr : r.value ≠ tombStoneBytes) :
    spec.Safe (fun _ _ => True) g (handleCreate r) := by
  unfold handleCreate
  apply (safe_silent (by decide) (within_create _ _ _)).bind
  intro _ a _
  apply (safe_notify fun _ => hr).bind
  intro _ _ _
  cases a.2 with
  | none => trivial
  | some e =>
    dsimp only
    split <;> trivial

theorem safe_handleDelete (r : DeleteRequest) : spec.Safe (fun _ _ => True) g (handleDelete r) := by
  unfold handleDelete
  apply (safe_silent (by decide) (within_delete _ _)).bind
  intro _ a _
  apply (safe_notify fun h => absurd rfl h).bind
  intro _ _ _
  cases a.2.2 with
  | none => trivial
  | some e =>
    dsimp only
    split
    · trivial
    split
    · apply (safe_silent (by decide) (within_get _ _)).bind
      intro _ b _
      cases b <;> trivial
    · trivial

theorem safe_handleUpdate {r : UpdateRequest} (hr : r.kv.value ≠ tombStoneBytes) :
    spec.Safe (fun _ _ => True) g (handleUpdate r) := by
  have hwrite : spec.Safe (fun _ _ => True) g (writeUpdate r) := by
    unfold writeUpdate
    split
    · apply (safe_silent (by decide) (within_create _ _ _)).bind
      exact fun _ _ _ => (safe_notify fun _ => hr).bind fun _ _ _ => trivial
    · apply (safe_silent (by decide) (within_update _ _ _)).bind
      exact fun _ _ _ => (safe_notify fun _ => hr).bind fun _ _ _ => trivial
  unfold handleUpdate
  apply hwrite.bind
  intro _ a _
  obtain ⟨rev, err⟩ := a
  cases err with
  | none => trivial
  | some e =>
    dsimp only
    split
    · apply (safe_silent (by decide) (within_get _ _)).bind
      intro _ b _
      split <;> trivial
    · trivial

/-- The worker publishes the value of the event that it found in the queue. -/
theorem safe_retry : spec.Safe (fun _ _ => True) g retry := by
  have hpop (g : Unit) : spec.Safe (fun _ _ => True) g (do call .queuePop; pure false : M Bool) :=
    Spec.Safe.call_bind trivial fun _ _ _ => trivial
  unfold retry
  apply Spec.Safe.call_bind trivial
  intro (head : Option (WatchEvent × ℕ)) _ hpost
  have hbears : ∀ ev t, head = some (ev, t) → Bears ev := hpost
  cases head with
  | none => trivial
  | some node =>
    obtain ⟨event, time⟩ := node
    apply Spec.Safe.call_bind trivial
    intro now _ _
    dsimp only
    split
    · trivial
    apply (safe_silent (by decide) (within_overwrite _ _)).bind
    intro _ a _
    obtain ⟨rev, err⟩ := a
    dsimp only
    split
    · cases err with
      | some e => trivial
      | none => exact hpop _
    · exact (safe_notify (hbears event time rfl)).bind fun _ _ _ => hpop _

theorem threadSafe_silent {ks : List OpKind} {t : Leader.Goroutine} (h : Confined ks t)
    (hks : .publish ∉ ks) : spec.ThreadSafe g t :=
  Spec.threadSafe_of_keeps (O := spec) (I := fun _ => True) (fun _ _ _ => trivial)
    (safe_silent hks h.1) fun f hf _ a _ => safe_silent hks (h.2 f hf a)

theorem threadSafe_goroutine {t : Task} (ht : ∀ r, t = .request r → Proper r) :
    spec.ThreadSafe g (Leader.goroutine cfg t) := by
  cases t with
  | request r =>
    have hr := ht r rfl
    cases r with
    | create r => exact (safe_handleCreate hr.2).bind fun _ _ _ => trivial
    | update r => exact (safe_handleUpdate hr.2).bind fun _ _ _ => trivial
    | delete r => exact (safe_handleDelete r).bind fun _ _ _ => trivial
    | _ => exact threadSafe_silent (confined_of_not_writes cfg id) (by decide)
  | _ => exact threadSafe_silent (confined_of_not_writes cfg id) (by decide)

end Bears

variable {cfg : Config} {p : Engine.Policy} {m : WriteMode}

theorem sound {G : Guard (leader cfg (engine p))}
    (hproper : ∀ s mv, G s mv → ∀ r, mv = .op .accept (.request r) → Proper r) :
    (outline cfg (engine p)).Sound G fun s x s' =>
      (Writes.outline cfg p m).Known s x s' ∧ Sequenced m.start (K := engine p) s where
  op := by
    intro s gs outs i o ch s' r sp hknown hinv hpre hG hlt hidle _ hex
    obtain ⟨⟨⟨ws, -, hwpre⟩, -⟩, hseq⟩ := hknown
    have hord := Writes.ordered_of_sequenced hseq
    have hpost : Post o r := by
      by_cases hhead : o = .queueHead
      · subst hhead
        have hout : Leader.exec cfg s outs i .queueHead ch = some (s', r, sp) := hex
        unfold Leader.exec at hout
        cases hout
        intro ev time hev
        have hmem : ev ∈ s.queue.map Prod.fst :=
          List.mem_map_of_mem (f := Prod.fst) (List.mem_of_head? hev)
        exact hinv ev (hord.mem_appended ev (hord.mem_queue ev hmem))
      · cases o <;> first | exact absurd rfl hhead | trivial
    have hinv' : ∀ ev ∈ s'.journal.notified, Bears ev := by
      obtain ⟨-, ⟨idx, ev, rfl, -, hnotified⟩ | ⟨-, hnotified⟩⟩ :=
        Leader.exec_notified (K := engine p) hex
      · rw [hnotified]
        exact List.forall_mem_append.mpr ⟨hinv, List.forall_mem_singleton.mpr hpre⟩
      · exact hnotified ▸ hinv
    refine ⟨(), hpost, Outline.spawned_of_idle hinv' hlt rfl ?_⟩
    intro t ht
    obtain ⟨task, rfl, hask⟩ := Leader.exec_spawned (K := engine p) hex ht
    apply threadSafe_goroutine
    rintro req rfl
    rcases hask with rfl | ⟨rfl, req', rfl, hreq⟩
    · exact (hwpre i _ rfl).elim
    · obtain rfl := Task.request.inj hreq
      exact hproper s _ hG _ rfl
  env := by
    intro s gs ch s' _ hinv _ he
    have hjournal : LeaderState.journal s' = LeaderState.journal s :=
      congrArg EventView.journal (Leader.env_events (K := engine p) he)
    show ∀ ev ∈ (LeaderState.journal s').notified, Bears ev
    rw [hjournal]
    exact hinv

theorem good_init (start : ℕ) (kv : Engine.State) :
    (outline cfg (engine p)).Good (Leader.init cfg (engine p) start kv) fun _ => () where
  inv := by simp [Leader.init, Leader.initState]
  safe := by
    have hretry : spec.ThreadSafe () Leader.retryWorker :=
      ⟨fun _ _ => True, fun _ _ _ => trivial, trivial,
        fun _ _ _ => safe_retry.bind fun _ _ _ => trivial⟩
    intro i t ht
    exact Leader.forall_start (P := fun _ t => spec.ThreadSafe () t)
      (threadSafe_silent Leader.confined_consumer (by decide)) hretry
      (threadSafe_silent Leader.confined_hub (by decide))
      (threadSafe_silent Leader.confined_server (by decide)) ht
  idle := fun _ _ => rfl

end Announced

namespace Writes

variable {cfg : Config} {p : Engine.Policy} {m : WriteMode}

/-- The goroutine's batch was not left in doubt. -/
def Clear (g : Ghost) : Prop := ∀ d v, g.debt = some d → d.fate ≠ .doubt v

/-- The batches that took effect or still may. -/
def batches (e : Engine.State) : List Batch := e.landed.map Prod.fst ++ e.pending

/-- Events that share the revision of a batch are valid. -/
def Matched (s : LeaderState (engine p)) : Prop :=
  ∀ ev ∈ s.journal.notified, ∀ b ∈ batches s.kv, ∀ x, b.version = some x →
    x.rev = ev.revision → ev.valid = true

/-- The account of the writes where commits are certain. -/
abbrev clearOutline (cfg : Config) (p : Engine.Policy) (m : WriteMode) :
    Outline (leader cfg (engine p)) where
  toSpec := spec m
  Inv := fun s gs => Inv m (view s) gs ∧ (∀ i, Clear (gs i)) ∧ Matched s

theorem clear_update {gs : ℕ → Ghost} (h : ∀ j, Clear (gs j)) {g : Ghost} (hg : Clear g) (i j : ℕ) :
    Clear (Function.update gs i g j) := forall_update (P := fun _ g => Clear g) h hg j

theorem Clear.of_post {g g' : Ghost} {o : Op} {r : o.Res} (h : Clear g)
    (ho : ∀ w ops, o ≠ .kv (.commit w ops)) (hpost : Post m g o r g') : Clear g' := by
  cases o with
  | deal site =>
    obtain ⟨rfl, -⟩ := hpost
    rintro d v ⟨⟩
    simp
  | kv o =>
    cases o with
    | commit w ops => exact absurd rfl (ho w ops)
    | iter reader _ _ _ _ =>
      obtain ⟨rfl, -⟩ := hpost
      cases reader <;> exact h
    | _ => exact hpost ▸ h
  | ringStore idx ev =>
    cases ev with
    | none => exact hpost ▸ h
    | some ev =>
      obtain rfl : g' = { g with debt := none } := hpost
      rintro d v ⟨⟩
  | getRevision | queuePop | historyTimeout _ =>
    have hdebt := congrArg Ghost.debt hpost
    exact fun d v hd => h d v (hdebt ▸ hd)
  | queueHead =>
    have hdebt := congrArg Ghost.debt hpost.1
    exact fun d v hd => h d v (hdebt ▸ hd)
  | _ => exact hpost ▸ h

/-- A commit whose answer is certain leaves no doubt. -/
theorem Clear.committed {g : Ghost} {b : Batch} {r : Option Err} (h : Clear g)
    (hr : ∀ e, r = some e → e.isUncertain = false) : Clear (g.committed b r) := by
  unfold Ghost.committed
  split
  · exact h
  · rintro d v ⟨⟩
    cases r with
    | none => simp [Fate.after]
    | some e => simp [Fate.after, hr e rfl]

section Step

variable {s s' : LeaderState (engine p)} {gs : ℕ → Ghost} {outs : List (Option Outcome)} {i : ℕ}
  {o : Op} {ch : LeaderChoice (engine p)} {r : o.Res} {sp : Option Leader.Goroutine}

theorem Matched.of_batches (h : Matched s) (hnotified : s'.journal.notified = s.journal.notified)
    (hbatches : ∀ b ∈ batches s'.kv, b ∈ batches s.kv ∨
      ∀ x, b.version = some x → ∀ ev ∈ s.journal.notified, ev.revision ≠ x.rev) : Matched s' := by
  unfold Matched
  rw [hnotified]
  intro ev hev b hb x hx hrev
  rcases hbatches b hb with hb | hb
  · exact h ev hev b hb x hx hrev
  · exact absurd hrev.symm (hb x hx ev hev)

theorem matched_of_exec (hinv : Inv m (view s) gs) (hclear : Clear (gs i)) (h : Matched s)
    (hpre : Pre m (gs i) o) (hex : Leader.exec cfg s outs i o ch = some (s', r, sp)) :
    Matched s' := by
  obtain ⟨-, ⟨idx, ev, rfl, hkv, hnotified⟩ | ⟨-, hnotified⟩⟩ := Leader.exec_notified hex
  · -- the event that is published says what became of the batch
    obtain ⟨⟨fate, hdebt, hann⟩, -⟩ := hpre
    unfold Matched
    rw [hnotified, hkv]
    intro ev' hev' b hb x hx hrev
    rcases List.mem_snoc.mp hev' with hev' | rfl
    · exact h ev' hev' b hb x hx hrev
    · have hfits := hinv.debts.fits i _ hdebt
      cases fate with
      | fresh =>
        have hmem : x ∈ written s.kv ++ undecided s.kv := by
          simpa [batches, written, undecided, versions] using List.mem_filterMap.mpr ⟨b, hb, hx⟩
        exact absurd hrev (hfits x hmem)
      | landed v => exact hann.1
      | doubt v => exact absurd rfl (hclear _ v hdebt)
  · apply h.of_batches hnotified
    by_cases hkv : ∃ o', o = .kv o'
    · obtain ⟨o', rfl⟩ := hkv
      obtain ⟨ch', kv, rfl, hkv, rfl, -⟩ := Leader.exec_kv (K := engine p) hex
      have hbatches : (∀ b ∈ batches kv, b ∈ batches s.kv) ∨ ∃ w ops, o' = .commit w ops ∧
          ∀ b ∈ batches kv, b ∈ batches s.kv ∨ b = ⟨w, ops⟩ := by
        rcases Engine.exec_batches hkv with ⟨h₁, h₂⟩ | ⟨w, ops, ho, ⟨h₁, h₂⟩ | ⟨h₁, h₂, -⟩⟩
        · simp [batches, h₁, h₂]
        all_goals
          refine .inr ⟨w, ops, ho, ?_⟩
          simp only [batches, h₁, h₂, List.map_append, List.mem_append]
          grind
      rcases hbatches with hold | ⟨w, ops, rfl, hnew⟩
      · exact fun b hb => .inl (hold b hb)
      · -- a new version has the revision that its goroutine is still to publish
        intro b hb
        rcases hnew b hb with hb | rfl
        · exact .inl hb
        · right
          intro x hx
          cases w with
          | record C => simp [Batch.version] at hx
          | _ =>
            obtain ⟨v, hv, hdebt, -⟩ := hpre
            obtain rfl := Option.some.inj (hx.symm.trans hv.version)
            exact (hinv.debts.dealt i _ hdebt).2.2
    · have hkv := Leader.exec_storage (K := engine p) (fun o' h => hkv ⟨o', h⟩) hex
      exact fun b hb => .inl (hkv ▸ hb)

theorem clear_of_exec (hclear : Clear (gs i))
    (hcertain : Certain cfg p s (.op o ch)) (hex : Leader.exec cfg s outs i o ch = some (s', r, sp))
    {g' : Ghost} (hpost : Post m (gs i) o r g') : Clear g' := by
  by_cases ho : ∃ w ops, o = .kv (.commit w ops)
  · obtain ⟨w, ops, rfl⟩ := ho
    obtain ⟨ch', kv, rfl, hkv, -, -⟩ := Leader.exec_kv (K := engine p) hex
    obtain rfl : g' = (gs i).committed ⟨w, ops⟩ r := hpost
    apply hclear.committed
    rintro e rfl
    rcases Engine.execCommit_cases hkv with ⟨-, -, h⟩ | ⟨_, rfl, -⟩ | ⟨_, -, -, h, he⟩ | ⟨_, rfl, -⟩
    · cases h
    · rcases hcertain w ops _ rfl with h | ⟨_, h⟩ <;> cases h
    · exact Option.some.inj h ▸ he
    · rcases hcertain w ops _ rfl with h | ⟨_, h⟩ <;> cases h
  · exact hclear.of_post (fun w ops h => ho ⟨w, ops, h⟩) hpost

end Step

theorem clear_sound {G : Guard (leader cfg (engine p))}
    (hsettle : ∀ s mv, G s mv → Settles cfg p s mv)
    (haccept : m.restricted → ∀ s mv, G s mv → Accepts cfg p m s mv)
    (hcertain : ∀ s mv, G s mv → Certain cfg p s mv) :
    (clearOutline cfg p m).Sound G
      (fun s _ s' => Sequenced m.start (K := engine p) s ∧
        Sequenced m.start (K := engine p) s') where
  op := by
    intro s gs outs i o ch s' r sp hseq hinv hpre hG hlt hidle houts hex
    obtain ⟨hinv, hclear, hmatched⟩ := hinv
    have hmatched' : Matched s' := matched_of_exec hinv (hclear i) hmatched hpre hex
    have hold : Inv m (view s) (Function.update gs i (gs i)) := by rwa [Function.update_eq_self]
    have hfree : Function.update gs i (gs i) outs.length = idle := by
      rw [Function.update_eq_self]
      exact hidle _ (le_refl _)
    by_cases hspawn : (∃ t, o = .spawn t) ∨ o = .accept
    · rcases hspawn with ⟨t, rfl⟩ | rfl
      · have hout : Leader.exec cfg s outs i (.spawn t) ch = some (s', r, sp) := hex
        obtain ⟨rfl, -, rfl⟩ := Leader.exec_spawn_task hout
        refine ⟨gs i, rfl, _, threadSafe_task hpre, ?_, ?_, hmatched'⟩
        · refine hold.set (congrArg Ghost.debt hfree.symm :) ?_
          exact hold.limits.set (Nat.zero_le _) (hinv.limits.limit i) (by rintro ⟨⟩)
            (by rintro _ ⟨⟩)
            (by rintro _ ⟨⟩)
        · apply clear_update (clear_update hclear (hclear i) i)
          rintro d v ⟨⟩
      · have hout : Leader.exec cfg s outs i .accept ch = some (s', r, sp) := hex
        obtain ⟨req, rfl, rfl, rfl⟩ := Leader.exec_accept hout
        refine ⟨gs i, rfl, Outline.spawned_of_idle ⟨hold, ?_, hmatched'⟩ hlt
          (hidle _ (le_refl _)) ?_⟩
        · exact clear_update hclear (hclear i) i
        · intro t ht
          obtain rfl := Option.some.inj ht
          exact threadSafe_request fun ho => haccept ho _ _ hG req rfl
    · have hsp : sp = none := Leader.exec_no_spawn (K := engine p) (fun t h => hspawn (.inl ⟨t, h⟩))
        (fun h => hspawn (.inr h)) hex
      obtain ⟨g', hpost, hwrites⟩ :=
        (sound hsettle haccept).op hseq hinv hpre hG hlt hidle houts hex
      subst hsp
      exact ⟨g', hpost, hwrites, clear_update hclear
        (clear_of_exec (hclear i) (hcertain s _ hG) hex hpost) i, hmatched'⟩
  env := by
    intro s gs ch s' hseq hinv hG he
    obtain ⟨hinv, hclear, hmatched⟩ := hinv
    refine ⟨(sound hsettle haccept).env hseq hinv hG he, hclear, hmatched.of_batches ?_ ?_⟩
    · exact congrArg (fun v : EventView => v.journal.notified)
        (Leader.env_events (K := engine p) he)
    · intro b hb
      left
      rcases Leader.env_core (K := engine p) he with ⟨ch', kv, -, hkv, rfl⟩ | ⟨-, hcore⟩
      · obtain ⟨n, b', hb', ⟨-, hl⟩ | ⟨-, rfl⟩⟩ := Engine.env_cases hkv
        · obtain ⟨-, -, hlanded, hpending, -⟩ := Engine.land_fields hl
          have hmem := List.mem_of_getElem? hb'
          have herase := List.mem_of_mem_eraseIdx (l := Engine.State.pending s.kv) (i := n) (a := b)
          simp only [batches, hlanded, hpending, List.map_append, List.mem_append] at hb ⊢
          grind
        · have herase := List.mem_of_mem_eraseIdx (l := Engine.State.pending s.kv) (i := n) (a := b)
          simp only [batches, List.mem_append] at hb ⊢
          exact hb.imp_right herase
      · have hkv : s'.kv = s.kv := congrArg CoreView.kv hcore
        exact hkv ▸ hb

theorem clear_init : (clearOutline cfg p m).Good
    (Leader.init cfg (engine p) m.start (Engine.init m.base)) Writes.start where
  inv := by
    refine ⟨good_init.inv, fun i d v hd => ?_, by simp [Matched, Leader.init, Leader.initState]⟩
    unfold start at hd
    split at hd <;> cases hd
  safe := good_init.safe
  idle := good_init.idle

end Writes

section Runs

variable {cfg : Config} {p : Engine.Policy} {start : ℕ} {base : Store}
  {c : Interleaving.Config (leader cfg (engine p))}

/-- No commit is answered with an uncertain error either. -/
def Decided (cfg : Config) (p : Engine.Policy) : Guard (leader cfg (engine p)) := fun s mv =>
  ProperPartitioned cfg p s mv ∧ Writes.Certain cfg p s mv

/-- An event that sets a value brings no tombstone. -/
theorem Startable.bears_of_reach (h : Startable cfg start base)
    (hr : Config.Reach (ProperPartitioned cfg p)
      (Leader.init cfg (engine p) start (Engine.init base)) c)
    {ev : WatchEvent} (hev : ev ∈ (LeaderState.journal c.state).notified) : Announced.Bears ev := by
  have hfacts := Outline.Holds.of_states fun d (hd : Config.Reach (ProperPartitioned cfg p)
    (Leader.init cfg (engine p) start (Engine.init base)) d) => sequenced_of_reach hd
  have hwrites : (Writes.outline cfg p h.mode).Sound (ProperPartitioned cfg p) (fun s _ s' =>
      Sequenced start (K := engine p) s ∧ Sequenced start (K := engine p) s') :=
    Writes.sound (m := h.mode) (fun _ _ hg => hg.1.1) fun _ _ _ hg => h.accepts hg
  have hknown := (Outline.Good.known hwrites hfacts Writes.good_init).and hfacts
  obtain ⟨gs, hgood⟩ := (Announced.good_init start (Engine.init base)).reach
    (Announced.sound (m := h.mode) fun _ _ hg => hg.1.2)
    (fun d l d' x hd hs hl hx =>
      ⟨(hknown d l d' x hd hs hl hx).1, (hknown d l d' x hd hs hl hx).2.1⟩) hr
  exact hgood.inv ev hev

/-- Where commits are certain, a version whose revision is committed has a valid event. -/
theorem Startable.event_of_written (h : Startable cfg start base)
    (hr : Config.Reach (Decided cfg p) (Leader.init cfg (engine p) start (Engine.init base)) c)
    {x : Version} (hx : x ∈ Writes.written (LeaderState.kv c.state))
    (hle : x.rev ≤ LeaderState.committedRevision c.state) :
    ∃ ev ∈ (LeaderState.journal c.state).notified, ev.revision = x.rev ∧ ev.valid = true := by
  have hsound : (Writes.clearOutline cfg p h.mode).Sound (Decided cfg p) (fun s _ s' =>
      Sequenced start (K := engine p) s ∧ Sequenced start (K := engine p) s') :=
    Writes.clear_sound (m := h.mode) (fun _ _ hg => hg.1.1.1) (fun _ _ _ hg => h.accepts hg.1)
      fun _ _ hg => hg.2
  obtain ⟨gs, hgood⟩ := (Writes.clear_init (m := h.mode)).reach hsound
    (.of_states fun d hd => sequenced_of_reach hd) hr
  obtain ⟨hinv, -, hmatched⟩ := hgood.inv
  have hseq := Writes.ordered_of_sequenced (sequenced_of_reach hr)
  obtain ⟨y, hy, hyx⟩ := Writes.mem_written.mp hx
  have hstart := (hinv.history.mem_facts (List.mem_append_left _ hx)).1
  obtain ⟨ev, hev, hrev⟩ := hseq.filled x.rev hstart hle
  exact ⟨ev, hev, hrev, hmatched ev hev y.1
    (List.mem_append_left _ (List.mem_map_of_mem hy)) x hyx hrev.symm⟩

end Runs
end KubeBrain

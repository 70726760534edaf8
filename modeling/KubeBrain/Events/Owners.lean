import KubeBrain.Events.Publication
import KubeBrain.Writes.Version

/-! A batch is committed by the goroutine that was dealt its revision, before it publishes the
result: as long as batches come in for a revision, that revision is not committed. -/
namespace KubeBrain

open Interleaving

namespace Owners

variable {cfg : Config} {K : KvStorage}

/-- The ghost of a goroutine is the revision that it was dealt and has not published. -/
def Pre (g : Option ℕ) : Op → Prop
  | .kv (.commit wr _) => ∀ k r, wr.target = some (k, r) → g = some r
  | .ringStore _ (some ev) => g = some ev.revision
  | _ => True

def Post (g : Option ℕ) (o : Op) (r : o.Res) (g' : Option ℕ) : Prop :=
  match o, r with
  | .deal _, r => g' = some r
  | .ringStore _ (some _), _ => g' = none
  | _, _ => g' = g

structure Inv (s : LeaderState K) (gs : ℕ → Option ℕ) : Prop where
  dealt : ∀ i r, gs i = some r → (i, r) ∈ s.journal.dealt
  fresh : ∀ i r, gs i = some r → ∀ ev ∈ s.journal.notified, ev.revision ≠ r

abbrev spec : Spec sig Outcome where
  Ghost := Option ℕ
  idle := none
  Pre := Pre
  Post := Post
  Fin := fun _ _ => True

abbrev outline (cfg : Config) (K : KvStorage) : Outline (leader cfg K) where
  toSpec := spec
  Inv := Inv

section Programs

variable {α : Type} {g : Option ℕ}

/-- Kinds of operations that are free of revisions. -/
def freeKinds : List OpKind :=
  [.revision, .tso, .read, .retryRead, .record, .gc, .slot, .queueHead, .queuePush,
    .queuePop, .time,
    .cacheAdd, .cacheFind, .chanSend, .hub, .sub, .client, .stream, .history, .fork, .forkWriter,
    .forkWatch, .control]

private theorem still_of_free {o : Op} (h : o.kind ∈ freeKinds) :
    Pre g o ∧ ∀ r g', Post g o r g' → g' = g := by
  cases o with
  | deal site => exact absurd h (by simp [freeKinds])
  | kv o =>
    refine ⟨?_, fun _ _ hpost => hpost⟩
    cases o with
    | commit wr ops =>
      cases wr with
      | record C =>
        intro k r htarget
        cases htarget
      | _ => exact absurd h (by simp [freeKinds])
    | _ => trivial
  | ringStore idx ev =>
    cases ev with
    | none => exact ⟨trivial, fun _ _ hpost => hpost⟩
    | some ev => exact absurd h (by simp [freeKinds])
  | _ => exact ⟨trivial, fun _ _ hpost => hpost⟩

theorem safe_free {p : M α} (h : Within freeKinds p) : spec.Safe (fun g' _ => g' = g) g p :=
  Spec.safe_of_still (O := spec) (fun _ ho => still_of_free ho.1) h

theorem safe_deal (site : DealSite) : spec.Safe (fun g' a => g' = some a.1) g (deal site) := by
  unfold deal
  refine Spec.Safe.call_bind trivial fun r g' hpost => ?_
  obtain rfl : g' = some r := hpost
  split <;> exact rfl

theorem safe_commit {wr : Writer} {ops : List BatchOp}
    (h : ∀ k r, wr.target = some (k, r) → g = some r) :
    spec.Safe (fun g' _ => g' = g) g (kvCall (.commit wr ops)) :=
  ⟨h, fun _ _ hpost => hpost⟩

/-- Revision zero is not published. -/
theorem safe_notify {key val : Bytes} {rev prev : ℕ} {valid : Bool} {verb : Verb}
    {err : Option Err} (h : rev ≠ 0 → g = some rev) :
    spec.Safe (fun _ _ => True) g (notify key val rev prev valid verb err) := by
  unfold notify
  split
  · trivial
  · next hrev =>
    refine Spec.Safe.call_bind trivial fun cur g' hpost => ?_
    obtain rfl : g' = g := hpost
    split
    · exact Spec.Safe.call_bind trivial nofun
    · exact ⟨h hrev, fun _ _ _ => trivial⟩

theorem safe_createWithTTL {key val : Bytes} {rev : ℕ} {ttl : ℤ} :
    spec.Safe (fun g' _ => g' = some rev) (some rev) (Creator.createWithTTL key val rev ttl) := by
  have hcommit {ops : List BatchOp} : spec.Safe (fun g' _ => g' = some rev) (some rev)
      (kvCall (.commit (.create key rev) ops)) := by
    refine safe_commit fun k r htarget => ?_
    obtain ⟨-, rfl⟩ := Prod.mk.inj (Option.some.inj htarget)
    rfl
  have hread (err : Err) : spec.Safe (fun g' _ => g' = some rev) (some rev)
      (Creator.oldRevision err key) := by
    unfold Creator.oldRevision
    split
    · exact rfl
    · exact safe_free (.kvCall (by simp [freeKinds]) trivial)
  unfold Creator.createWithTTL
  refine hcommit.bind ?_
  rintro g₁ e rfl
  split
  · exact rfl
  · split
    · refine (hread _).bind ?_
      rintro g₂ old rfl
      split
      · exact hcommit
      · exact rfl
      · split
        · exact rfl
        · split
          · exact hcommit
          · exact rfl
    · exact rfl

/-- The revision that a write returns is the one it was dealt. -/
def Returns (g : Option ℕ) (rev : ℕ) : Prop := rev ≠ 0 → g = some rev

theorem safe_create {key value : Bytes} {lease : ℤ} :
    spec.Safe (fun g' a => Returns g' a.1) g (create key value lease) := by
  unfold create
  refine (safe_deal .create).bind ?_
  rintro g₁ ⟨rev, err⟩ rfl
  cases err with
  | some e => exact fun h => absurd rfl h
  | none =>
    refine safe_createWithTTL.bind ?_
    rintro g₂ e rfl
    exact fun _ => rfl

theorem safe_update {old : ℕ} {key value : Bytes} :
    spec.Safe (fun g' a => Returns g' a.1) g (update old key value) := by
  unfold update
  refine (safe_deal _).bind ?_
  rintro g₁ ⟨rev, err⟩ rfl
  cases err with
  | some e => exact fun h => absurd rfl h
  | none =>
    refine (safe_commit fun k r htarget => ?_).bind ?_
    · obtain ⟨-, rfl⟩ := Prod.mk.inj (Option.some.inj htarget)
      rfl
    · rintro g₂ e rfl
      exact fun _ => rfl

theorem safe_delete {old : ℕ} {key : Bytes} :
    spec.Safe (fun g' a => Returns g' a.1) g (delete old key) := by
  unfold delete
  refine (safe_free ((within_get _ _).mono (by decide))).bind ?_
  rintro g₁ r rfl
  cases r with
  | error err =>
    unfold mustDeal
    refine Spec.Safe.bind (Q := fun g' rev => g' = some rev) ((safe_deal _).bind ?_) ?_
    · rintro g₂ a rfl
      exact rfl
    · rintro g₂ rev rfl
      exact fun _ => rfl
  | ok a =>
    obtain ⟨oldVal, modRevision⟩ := a
    refine (safe_deal _).bind ?_
    rintro g₂ ⟨rev, err⟩ rfl
    cases err with
    | some e => exact fun h => absurd rfl h
    | none =>
      dsimp only
      split
      · exact fun _ => rfl
      split
      · exact fun _ => rfl
      refine (safe_commit fun k r htarget => ?_).bind ?_
      · obtain ⟨-, rfl⟩ := Prod.mk.inj (Option.some.inj htarget)
        rfl
      · rintro g₃ e rfl
        exact fun _ => rfl

theorem safe_any {p : M α} (h : Within freeKinds p) : spec.Safe (fun _ _ => True) g p :=
  (safe_free h).mono fun _ _ _ => trivial

theorem safe_handleCreate {r : CreateRequest} : spec.Safe (fun _ _ => True) g (handleCreate r) := by
  unfold handleCreate
  refine safe_create.bind fun g₁ a h₁ => (safe_notify h₁).bind fun g₂ _ _ => ?_
  obtain ⟨rev, err⟩ := a
  cases err with
  | none => trivial
  | some e =>
    dsimp only
    split <;> trivial

theorem safe_handleDelete {r : DeleteRequest} : spec.Safe (fun _ _ => True) g (handleDelete r) := by
  unfold handleDelete
  refine safe_delete.bind fun g₁ a h₁ => (safe_notify h₁).bind fun g₂ _ _ => ?_
  obtain ⟨rev, old, err⟩ := a
  cases err with
  | none => trivial
  | some e =>
    dsimp only
    split
    · trivial
    split
    · refine (safe_any ((within_get _ _).mono (by decide))).bind fun g₃ b _ => ?_
      cases b <;> trivial
    · trivial

theorem safe_handleUpdate {r : UpdateRequest} : spec.Safe (fun _ _ => True) g (handleUpdate r) := by
  have hwrite : spec.Safe (fun _ _ => True) g (writeUpdate r) := by
    unfold writeUpdate
    split
    · exact safe_create.bind fun g₁ a h₁ => (safe_notify h₁).bind fun _ _ _ => trivial
    · exact safe_update.bind fun g₁ a h₁ => (safe_notify h₁).bind fun _ _ _ => trivial
  unfold handleUpdate
  refine hwrite.bind fun g₂ a _ => ?_
  obtain ⟨rev, err⟩ := a
  cases err with
  | none => trivial
  | some e =>
    dsimp only
    split
    · refine (safe_any ((within_get _ _).mono (by decide))).bind fun g₃ b _ => ?_
      split <;> trivial
    · trivial

theorem safe_overwrite {key : Bytes} {prevOpRev : ℕ} :
    spec.Safe (fun g' a => Returns g' a.1) g (overwrite key prevOpRev) := by
  have hzero {g' : Option ℕ} : Returns g' 0 := fun h => absurd rfl h
  unfold overwrite
  refine (safe_any ((within_getInternalVal (.retry _) _ _).mono (by simp [freeKinds]))).bind ?_
  intro g₁ r _
  split
  · exact hzero
  · exact hzero
  · split
    · exact hzero
    · refine Spec.Safe.call_bind trivial fun rev g₂ hpost => ?_
      obtain rfl : g₂ = some rev := hpost
      refine (safe_commit fun k r htarget => ?_).bind ?_
      · obtain ⟨-, rfl⟩ := Prod.mk.inj (Option.some.inj htarget)
        rfl
      · rintro g₃ e rfl
        exact fun _ => rfl

theorem safe_retry : spec.Safe (fun _ _ => True) g retry := by
  have hpop {g₁ : Option ℕ} : spec.Safe (fun _ _ => True) g₁
      (do call .queuePop; pure false : M Bool) :=
    safe_any (.bind (.call (by simp [freeKinds]) trivial) fun _ => .pure _)
  unfold retry
  refine Spec.Safe.call_bind trivial fun head g₁ _ => ?_
  cases head with
  | none => trivial
  | some node =>
    obtain ⟨event, time⟩ := node
    refine Spec.Safe.call_bind trivial fun start g₂ _ => ?_
    split
    · trivial
    refine safe_overwrite.bind ?_
    rintro g₃ ⟨rev, err⟩ h₃
    dsimp only
    split
    · cases err with
      | some e => trivial
      | none => exact hpop
    · exact (safe_notify h₃).bind fun _ _ _ => hpop

theorem threadSafe_free {ks : List OpKind} {t : Leader.Goroutine} (h : Confined ks t)
    (hks : ∀ k ∈ ks, k ∈ freeKinds) (g : Option ℕ) : spec.ThreadSafe g t :=
  Spec.threadSafe_of_keeps (O := spec) (I := fun _ => True) (fun _ _ _ => trivial)
    (safe_any (h.1.mono hks)) fun f hf _ a _ => safe_any ((h.2 f hf a).mono hks)

theorem threadSafe_goroutine (t : Task) : spec.ThreadSafe none (Leader.goroutine cfg t) := by
  cases t with
  | request r =>
    cases r with
    | create r => exact safe_handleCreate.bind fun _ _ _ => trivial
    | update r => exact safe_handleUpdate.bind fun _ _ _ => trivial
    | delete r => exact safe_handleDelete.bind fun _ _ _ => trivial
    | _ => exact threadSafe_free (confined_of_not_writes cfg id) (by decide) _
  | _ => exact threadSafe_free (confined_of_not_writes cfg id) (by decide) _

end Programs

section Soundness

variable {s s' : LeaderState K} {gs : ℕ → Option ℕ} {outs : List (Option Outcome)} {i : ℕ} {o : Op}
  {ch : LeaderChoice K} {r : o.Res} {sp : Option Leader.Goroutine}

/-- Nothing is dealt or published. -/
private theorem exec_free (hd : ∀ site, o ≠ .deal site)
    (hp : ∀ idx ev, o ≠ .ringStore idx (some ev))
    (h : Leader.exec cfg s outs i o ch = some (s', r, sp)) :
    s'.journal.dealt = s.journal.dealt ∧ s'.journal.notified = s.journal.notified := by
  by_cases ho : o.kind ∈ Leader.eventKinds
  · cases o with
    | deal site => exact absurd rfl (hd site)
    | ringStore idx ev =>
      cases ev with
      | none =>
        obtain ⟨rfl, -⟩ := answer_inj h
        exact ⟨rfl, rfl⟩
      | some ev => exact absurd rfl (hp idx ev)
    | storeCommitted _ | loadDeal | casDeal _ _ | ringLoad _ | queuePush _ | cacheAdd _ =>
      obtain ⟨rfl, -⟩ := answer_inj h
      exact ⟨rfl, rfl⟩
    | queuePop =>
      obtain ⟨-, rfl, -⟩ := answer_unless h
      exact ⟨rfl, rfl⟩
    | chanSend _ =>
      obtain ⟨-, rfl, -⟩ := answer_ite h
      exact ⟨rfl, rfl⟩
    | kv o =>
      obtain ⟨c, kv, rfl, -, rfl, rfl⟩ := Leader.exec_kv h
      exact ⟨rfl, rfl⟩
    | spawn t =>
      have hdisj : ∀ k ∈ [OpKind.fork, .forkWriter, .forkWatch], k ∉ Leader.eventKinds := by decide
      exact absurd ho (hdisj _ t.kind_mem)
    | _ => simp [Leader.eventKinds] at ho
  · have hjournal : s'.journal = s.journal :=
      congrArg EventView.journal (Leader.exec_events ho h)
    rw [hjournal]
    exact ⟨rfl, rfl⟩

private theorem post_of_free (hd : ∀ site, o ≠ .deal site)
    (hp : ∀ idx ev, o ≠ .ringStore idx (some ev)) (g : Option ℕ) : Post g o r g := by
  cases o with
  | deal site => exact absurd rfl (hd site)
  | ringStore idx ev =>
    cases ev with
    | none => exact rfl
    | some ev => exact absurd rfl (hp idx ev)
  | _ => exact rfl

theorem sound_op {start : ℕ} (hseq : Sequenced start s) (hinv : Inv s gs) (hpre : Pre (gs i) o)
    (h : Leader.exec cfg s outs i o ch = some (s', r, sp)) :
    ∃ g', Post (gs i) o r g' ∧ Inv s' (Function.update gs i g') := by
  obtain ⟨_, _, _, hl⟩ := hseq
  obtain ⟨-, hdealt, hnotified, -⟩ := hl.dealt trivial
  by_cases hd : ∃ site, o = .deal site
  · obtain ⟨site, rfl⟩ := hd
    obtain ⟨-, rfl, rfl, -⟩ := answer_ite h
    refine ⟨_, rfl, fun j n hj => ?_, fun j n hj ev hev => ?_⟩
    · rcases update_cases (P := (· = some n)) hj with ⟨rfl, hn⟩ | ⟨-, hj⟩
      · obtain rfl := Option.some.inj hn
        exact List.mem_append_right _ List.mem_cons_self
      · exact List.mem_append_left _ (hinv.dealt j n hj)
    · rcases update_cases (P := (· = some n)) hj with ⟨-, hj⟩ | ⟨-, hj⟩
      · obtain rfl := Option.some.inj hj
        have hle : ev.revision ≤ s.dealRevision := hnotified ev hev
        omega
      · exact hinv.fresh j n hj ev hev
  by_cases hp : ∃ idx ev, o = .ringStore idx (some ev)
  · obtain ⟨idx, ev, rfl⟩ := hp
    have hmine : gs i = some ev.revision := hpre
    obtain ⟨rfl, -⟩ := answer_inj h
    refine ⟨none, rfl, fun j n hj => ?_, fun j n hj ev' hev' => ?_⟩
    · rcases update_cases (P := (· = some n)) hj with ⟨-, hj⟩ | ⟨-, hj⟩
      · cases hj
      · exact hinv.dealt j n hj
    · rcases update_cases (P := (· = some n)) hj with ⟨-, hj⟩ | ⟨hji, hj⟩
      · cases hj
      · rcases List.mem_append.mp hev' with hev' | hev'
        · exact hinv.fresh j n hj ev' hev'
        · -- a revision is dealt to one goroutine
          rw [List.mem_singleton.mp hev']
          rintro rfl
          have hnodup : (s.journal.dealt.map Prod.snd).Nodup := hdealt ▸ List.nodup_range'
          have heq := List.inj_on_of_nodup_map hnodup (hinv.dealt j _ hj) (hinv.dealt i _ hmine) rfl
          exact hji (Prod.mk.inj heq).1
  · have hd : ∀ site, o ≠ .deal site := fun site ho => hd ⟨site, ho⟩
    have hp : ∀ idx ev, o ≠ .ringStore idx (some ev) := fun idx ev ho => hp ⟨idx, ev, ho⟩
    obtain ⟨hj₁, hj₂⟩ := exec_free hd hp h
    refine ⟨gs i, post_of_free hd hp _, ?_⟩
    rw [Function.update_eq_self]
    exact ⟨fun j n hj => hj₁ ▸ hinv.dealt j n hj, fun j n hj => hj₂ ▸ hinv.fresh j n hj⟩

theorem sound {start : ℕ} (G : Guard (leader cfg K)) :
    (outline cfg K).Sound G fun s _ _ => Sequenced start (K := K) s where
  op := by
    intro s gs outs i o ch s' r sp hseq hinv hpre _ hlt hidle _ hex
    obtain ⟨g', hpost, hinv'⟩ := sound_op hseq hinv hpre hex
    refine ⟨g', hpost, Outline.spawned_of_idle hinv' hlt (hidle _ (le_refl _)) fun t ht => ?_⟩
    obtain ⟨task, rfl, -⟩ := Leader.exec_spawned hex ht
    exact threadSafe_goroutine task
  env := by
    intro s gs ch s' _ hinv _ he
    have hjournal : LeaderState.journal s' = LeaderState.journal s :=
      congrArg EventView.journal (Leader.env_events he)
    exact ⟨fun j n hj => hjournal ▸ hinv.dealt j n hj, fun j n hj => hjournal ▸ hinv.fresh j n hj⟩

theorem good_init (start : ℕ) (kv : K.State) :
    (outline cfg K).Good (Leader.init cfg K start kv) fun _ => none where
  inv := ⟨nofun, nofun⟩
  safe := by
    have hretry : spec.ThreadSafe none Leader.retryWorker :=
      ⟨fun _ _ => True, fun _ _ _ => trivial, trivial,
        fun _ _ _ => safe_retry.bind fun _ _ _ => trivial⟩
    intro i t ht
    exact Leader.forall_start (P := fun _ t => spec.ThreadSafe none t)
      (threadSafe_free Leader.confined_consumer (by decide) _) hretry
      (threadSafe_free Leader.confined_hub (by decide) _)
      (threadSafe_free Leader.confined_server (by decide) _) ht
  idle := fun _ _ => rfl

end Soundness
end Owners

/-- A goroutine that is about to commit a batch for a revision has not published it, so the
revision is not committed. -/
theorem committed_lt_of_commit {cfg : Config} {K : KvStorage} {start : ℕ} {kv : K.State}
    {G : Guard (leader cfg K)} {c : Interleaving.Config (leader cfg K)}
    (h : Config.Reach G (Leader.init cfg K start kv) c) {i : ℕ} {wr : Writer} {ops : List BatchOp}
    {k : Option Err → M Outcome} {again : Option (Outcome → M Outcome)}
    (ht : c.threads[i]? = some ⟨.op (.kv (.commit wr ops)) k, again⟩) {key : Bytes} {r : ℕ}
    (hr : wr.target = some (key, r)) : LeaderState.committedRevision c.state < r := by
  have hholds : Outline.Holds G (fun s _ _ => Sequenced start (K := K) s)
      (Leader.init cfg K start kv) := fun d _ _ _ hd _ _ _ => sequenced_of_reach hd
  obtain ⟨gs, hgood⟩ := (Owners.good_init start kv).reach (Owners.sound G) hholds h
  have hpre : Owners.Pre (gs i) (.kv (.commit wr ops)) := hgood.pre ht
  have hmine : gs i = some r := hpre key r hr
  obtain ⟨_, _, _, hl⟩ := sequenced_of_reach h
  obtain ⟨-, hdealt, -⟩ := hl.dealt trivial
  have hmem : r ∈ List.range' (start + 1) (LeaderState.dealRevision c.state - start) :=
    hdealt ▸ List.mem_map_of_mem (hgood.inv.dealt i r hmine)
  have hstart : start < r := by
    rw [List.mem_range'_1] at hmem
    omega
  by_contra hle
  obtain ⟨ev, hev, hrev⟩ := hl.filled r hstart (not_lt.mp hle)
  exact hgood.inv.fresh i r hmine ev hev hrev

end KubeBrain

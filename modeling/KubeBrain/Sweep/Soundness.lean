import KubeBrain.Sweep.Worker

/-! Every goroutine of a leader keeps to the protocol of the compactions. -/
namespace KubeBrain

open Interleaving Coder

namespace Sweep

variable {p : Engine.Policy} {S : Setting p} {s₀ : LeaderState (engine p)} {h₀ : Inv S s₀.kv}
  {g : (protocol S h₀).Ghost}

/-- The record is written where it belongs. -/
theorem safe_record (C : ℕ) {ops : List BatchOp}
    (hops : ∀ o ∈ ops, o.key = getCompactKey S.cfg.keyPrefix) :
    (protocol S h₀).spec.Safe (fun g' _ => g.Later g') g (kvCall (.commit (.record C) ops)) := by
  apply Spec.Safe.mono _ (safe_call (o := .kv (.commit (.record C) ops)) fun _ _ _ => ?_)
  · intro g' _ h
    exact h.1
  · exact fun _ => hops

theorem safe_setCompactRecord (C : ℕ) :
    (protocol S h₀).spec.Safe (fun g' _ => g.Later g') g (setCompactRecord S.cfg C) := by
  have hwrite {ops : List BatchOp} {g₁ : (protocol S h₀).Ghost} (hlater : g.Later g₁)
      (hops : ∀ o ∈ ops, o.key = getCompactKey S.cfg.keyPrefix) :
      (protocol S h₀).spec.Safe (fun g' _ => g.Later g') g₁ (kvCall (.commit (.record C) ops)) :=
    (safe_record C hops).mono fun _ _ h => hlater.trans h
  have hread : Within [.read] (kvCall (.get (getCompactKey S.cfg.keyPrefix))) :=
    .kvCall (by simp) trivial
  unfold setCompactRecord
  apply (safe_free hread (by decide)).bind
  intro g₁ r hlater
  split
  · dsimp only
    split
    · exact Spec.Safe.call_bind (fun _ _ _ => trivial) nofun
    split
    · exact hlater
    · exact hwrite hlater (by simp [BatchOp.key])
  · exact hwrite hlater (by simp [BatchOp.key])
  · exact hwrite hlater (by simp [BatchOp.key])
  · exact hlater

/-- The timestamp is taken when nothing is written below the revision any more. -/
theorem safe_scan {start stop : Bytes} {C : ℕ} (receiver : Receiver) (hquiet : S.quiet g.last C) :
    (protocol S h₀).spec.Safe (fun g' _ => g.Later g') g
      (Scanner.scan S.cfg start stop C true receiver) := by
  unfold Scanner.scan
  apply Spec.Safe.bind (safe_call (o := .kv .getTimestampOracle) fun _ _ _ => trivial)
  intro g₁ tso ⟨hlater₁, htso⟩
  split
  · exact hlater₁
  · next ts =>
    have haimed : Aimed S g₁.last ts C := by
      obtain rfl := htso ts rfl
      exact aimed_now g₁.inv C
    have hquiet₁ := hlater₁.1.quiet C hquiet
    apply (safe_record C (by simp [BatchOp.key])).bind
    intro g₂ e hlater₂
    split
    · exact hlater₁.trans hlater₂
    apply Spec.Safe.bind (safe_call (o := .kv (.getPartitions start stop)) fun _ _ _ => trivial)
    intro g₃ ps ⟨hlater₃, hps⟩
    have hlater := (hlater₁.trans hlater₂).trans hlater₃
    split
    · exact hlater
    · next ps =>
      split
      · exact Spec.Safe.call_bind (fun _ _ _ => trivial) nofun
      · next qs hqs =>
        have htidy := hps ps qs rfl hqs
        apply (safe_free (Scanner.within_timeoutRevision S.cfg) (by decide)).bind
        intro g₄ timeout hlater₄
        have hrely : Rely S g₁.last g₄.last := ((hlater₂.trans hlater₃).trans hlater₄).1
        apply (Scanner.safe_spawnAll (I := fun g' => g₄.Later g') ?_
          (Protocol.Ghost.Later.refl g₄)).bind
        · intro g₅ ids hlater₅
          apply (safe_free (Scanner.within_joinAll ids) (by decide)).bind
          intro g₆ rs hlater₆
          have hall := ((hlater.trans hlater₄).trans hlater₅).trans hlater₆
          split
          · exact hall
          · apply (safe_free (Scanner.within_mergeAll _ _ _) (by decide)).mono
            intro g₇ _ hlater₇
            exact hall.trans hlater₇
        · intro t ht g' hg'
          obtain ⟨idx, hidx, rfl⟩ := List.mem_mapIdx.mp ht
          apply (safe_call fun s _ hs => ?_).mono
          · exact fun _ _ h => hg'.trans h.1
          · have hrely := (hrely.trans hg'.1).trans hs
            exact fun _ => ⟨rfl, hrely.quiet C hquiet₁, htidy _ (List.getElem_mem hidx),
              haimed.rely hquiet₁ hrely⟩

theorem safe_compact {start stop : Bytes} {C : ℕ} :
    (protocol S h₀).spec.Safe (fun g' _ => g.Later g') g (Scanner.compact S.cfg start stop C) := by
  have hnow : Within [.time] (call .now) := .call (by simp) trivial
  unfold Scanner.compact
  apply (safe_free hnow (by decide)).bind
  intro g₁ time hlater₁
  apply Spec.Safe.bind (safe_call (o := .historyPush C time) fun _ _ _ => trivial)
  intro g₂ _ ⟨hlater₂, hquiet⟩
  apply (safe_scan .empty hquiet).bind
  intro g₃ _ hlater₃
  exact (hlater₁.trans hlater₂).trans hlater₃

theorem safe_handleCompact {C : ℕ} :
    (protocol S h₀).spec.Safe (fun g' _ => g.Later g') g (handleCompact S.cfg C) := by
  have hcur : Within [.revision] getCurrentRevision := .call (by simp) trivial
  unfold handleCompact
  apply (safe_free hcur (by decide)).bind
  intro g₁ cur hlater₁
  apply (safe_free within_minRevision (by decide)).bind
  intro g₂ u hlater₂
  have hlater := hlater₁.trans hlater₂
  refine Spec.Safe.bind (Q := fun g' _ => g.Later g') ?_ ?_
  rotate_left
  · intro g' _ h
    exact h
  unfold compact
  apply (safe_setCompactRecord _).bind
  intro g₃ e hlater₃
  split
  · exact hlater.trans hlater₃
  · apply (safe_compactRanges (I := fun g' => g.Later g') S.cfg _ ?_ (hlater.trans hlater₃) _).bind
    · exact fun _ _ h => h
    · exact fun _ _ _ hg' => safe_compact.mono fun _ _ h => hg'.trans h

/-- Goroutines that neither remove anything nor start such goroutines. -/
theorem threadSafe_free {t : Leader.Goroutine} {ks : List OpKind} (ht : Confined ks t)
    (hks : ∀ kind ∈ ks, kind ∉ reasonedKinds) (hg : ∀ a, g.post a) :
    (protocol S h₀).spec.ThreadSafe g t :=
  Protocol.threadSafe_of_ok (Q := fun o : Op => o.kind ∉ reasonedKinds)
    (fun _ _ ho => ok_of_kind ho) (Prog.Only.mono (fun _ ho => hks _ ho.1) ht.1)
    (fun f h a => Prog.Only.mono (fun _ ho => hks _ ho.1) (ht.2 f h a)) hg

theorem threadSafe_request (hg : ∀ a, g.post a) (r : Request) :
    (protocol S h₀).spec.ThreadSafe g (Leader.goroutine S.cfg (.request r)) := by
  cases r with
  | compact C =>
    apply safe_handleCompact.bind
    intro g' a hlater
    show g'.post _
    rw [hlater.2]
    exact hg _
  | _ => exact threadSafe_free (confined_of_not_compacts S.cfg id) (by decide) hg

/-- The goroutines that an operation may start. -/
theorem threadSafe_task (hg : ∀ a, g.post a) {t : Task} (ht : Ok S g.last (.spawn t)) :
    (protocol S h₀).spec.ThreadSafe g (Leader.goroutine S.cfg t) := by
  cases t with
  | request r => exact threadSafe_request hg r
  | worker w receiver =>
    by_cases hw : w.compact = true ∨ w.timeoutRevision ≠ 0
    · obtain ⟨hcompact, hquiet, htidy, haimed⟩ := ht hw
      show (protocol S h₀).spec.ThreadSafe g ⟨Worker.attempts S.cfg.supportTTL w _ receiver [] _
        >>= fun a => pure (.scanned a.1 a.2), none⟩
      apply (safe_attempts ⟨hcompact, hquiet, htidy, haimed⟩ _ _ _ _).bind
      intro g' a hlater
      show g'.post _
      rw [hlater.2]
      exact hg _
    · exact threadSafe_free (.once (Worker.within_attempts (c := false) _ w
        (fun h => absurd h hw) _ _ _ _) _) (by decide) hg
  | _ => exact threadSafe_free (confined_of_not_compacts S.cfg id) (by decide) hg

/-- The goroutines that a leader starts with. -/
theorem threadSafe_start (hg : ∀ a, g.post a) {i : ℕ} {t : Leader.Goroutine}
    (ht : [Leader.consumer, Leader.retryWorker, Leader.hub, Leader.server][i]? = some t) :
    (protocol S h₀).spec.ThreadSafe g t :=
  threadSafe_free (Leader.confined_start ht) (by decide) hg

/-- Runs in which ranges are cut between user keys, and of whose steps it is known what they
write. -/
theorem sound {G : Guard (leader S.cfg (engine p))} (hG : ∀ s m, G s m → Partitioned S.cfg s m) :
    (protocol S h₀).Sound G (Lands S) where
  op := fun hA hg hinv hok hex => op_step hA (hG _ _ hg) hinv hok hex
  start := by
    intro s outs i o ch s' r t hg hok hrely hex hinv
    obtain ⟨task, rfl, rfl | ⟨rfl, req, -, rfl⟩⟩ := Leader.exec_spawned hex rfl
    · obtain ⟨rfl, -⟩ := @Leader.exec_spawn_task (engine p) _ _ _ _ i ch _ _ _ hex
      exact threadSafe_task (fun _ => trivial) hok
    · exact threadSafe_request (fun _ => trivial) req
  started := nofun
  joined := nofun
  env := fun hA _ hinv he => env_step hA hinv he

/-- What every reachable state satisfies, and how it is related to the first one. -/
theorem of_reach {G : Guard (leader S.cfg (engine p))} (hG : ∀ s m, G s m → Partitioned S.cfg s m)
    {c c' : Interleaving.Config (leader S.cfg (engine p))}
    (hA : Outline.Holds G (Lands S) c) (hinv : Inv S c.state.kv)
    (hsafe : ∀ (h₀ : Inv S c.state.kv) (g : (protocol S h₀).Ghost), (∀ a, g.post a) →
      ∀ (i : ℕ) (t : Leader.Goroutine), c.threads[i]? = some t →
        (protocol S h₀).spec.ThreadSafe g t)
    (hr : Config.Reach G c c') : Inv S c'.state.kv ∧ Rely S c.state c'.state := by
  have hgood : (protocol S hinv).outline.Good c fun _ => (protocol S hinv).spec.idle :=
    Protocol.good_origin rfl (hsafe hinv _ fun _ => trivial)
  have hsound : (protocol S hinv).Sound G (Lands S) := sound hG
  obtain ⟨gs, hgood'⟩ := hgood.reach hsound.outline hA hr
  exact ⟨hgood'.inv.inv, Protocol.rely_of_reach hsound hA hgood hr⟩

end Sweep
end KubeBrain

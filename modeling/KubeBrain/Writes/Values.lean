import KubeBrain.Scan.Limit
import KubeBrain.Sweep.Agreement
import KubeBrain.Writes.Apart

/-! A value that was written comes back: until the next write of its key it is read, listed,
kept by compactions and accepted as the version to update from. -/
namespace KubeBrain

open Interleaving Coder

/-- The revision of a creation or update that was carried out. -/
def Outcome.success : Outcome → Option ℕ
  | .created (.ok ⟨revision, true⟩) => some revision
  | .updated (.ok ⟨revision, true, _⟩) => some revision
  | _ => .none

/-- The user key and the value of a creation or update. -/
def Request.value : Request → Option (Bytes × Bytes)
  | .create r => some (r.key, r.value)
  | .update r => some (r.kv.key, r.kv.value)
  | _ => none

namespace Receipts

/-- Versions that a goroutine was told are written. -/
abbrev Ghost := List Version

def Post (g : Ghost) (o : Op) (r : o.Res) (g' : Ghost) : Prop :=
  match o, r with
  | .kv (.commit w ops), none => g' = g ++ (Batch.version ⟨w, ops⟩).toList
  | _, _ => g' = g

abbrev spec : Spec sig Outcome where
  Ghost := Ghost
  idle := []
  Pre := fun _ _ => True
  Post := Post
  Fin := fun _ _ => True

abbrev outline (cfg : Config) (p : Engine.Policy) : Outline (leader cfg (engine p)) where
  toSpec := spec
  Inv := fun s gs => ∀ i, ∀ x ∈ gs i, x ∈ Writes.written (LeaderState.kv s)

section Programs

variable {α : Type} {g g' : Ghost}

theorem sub_of_post {o : Op} {r : o.Res} (h : Post g o r g') : g ⊆ g' := by
  unfold Post at h
  split at h
  · subst h
    exact List.subset_append_left _ _
  · subst h
    exact List.Subset.refl _

theorem safe_sub (q : M α) : spec.Safe (fun g' _ => g ⊆ g') g q := by
  induction q generalizing g with
  | ret a => exact List.Subset.refl g
  | op o k ih =>
    refine ⟨trivial, fun r g' hpost => ?_⟩
    exact (ih r).mono fun _ _ h => List.Subset.trans (sub_of_post hpost) h

theorem threadSafe_any (t : Leader.Goroutine) : spec.ThreadSafe g t := by
  unfold Spec.ThreadSafe
  split
  · exact (safe_sub _).mono fun _ _ _ => trivial
  · exact ⟨fun _ _ => True, fun _ _ h => h, (safe_sub _).mono fun _ _ _ => trivial,
      fun _ _ _ => (safe_sub _).mono fun _ _ _ => trivial⟩

theorem safe_commit {w : Writer} {ops : List BatchOp} {x : Version}
    (hx : Batch.version ⟨w, ops⟩ = some x) :
    spec.Safe (fun g' e => e = none → x ∈ g') g (kvCall (.commit w ops)) := by
  refine Spec.safe_call.mpr ⟨trivial, fun r g' hpost hr => ?_⟩
  have hr : r = none := hr
  subst hr
  have heq : g' = g ++ (Batch.version ⟨w, ops⟩).toList := hpost
  simp [heq, hx]

theorem safe_createWithTTL (k v : Bytes) (rev : ℕ) (ttl : ℤ) :
    spec.Safe (fun g' e => e = none → ⟨k, rev, v, false⟩ ∈ g') g
      (Creator.createWithTTL k v rev ttl) := by
  unfold Creator.createWithTTL
  apply (safe_commit (x := ⟨k, rev, v, false⟩) rfl).bind
  intro g₁ e hg₁
  cases e with
  | none => exact hg₁
  | some e =>
    dsimp only
    split
    · apply (safe_sub _).bind
      intro g₂ old _
      split
      · exact safe_commit rfl
      · exact nofun
      · split
        · exact nofun
        · split
          · exact safe_commit rfl
          · exact nofun
    · exact nofun

theorem safe_create (k v : Bytes) (lease : ℤ) :
    spec.Safe (fun g' a => a.2 = none → ⟨k, a.1, v, false⟩ ∈ g') g (create k v lease) := by
  unfold create
  apply (safe_sub _).bind
  intro g₁ a _
  split
  · exact nofun
  · exact (safe_createWithTTL _ _ _ _).bind fun _ _ h => h

theorem safe_update (old : ℕ) (k v : Bytes) :
    spec.Safe (fun g' a => a.2 = none → ⟨k, a.1, v, false⟩ ∈ g') g (update old k v) := by
  unfold update
  apply (safe_sub _).bind
  intro g₁ a _
  split
  · exact nofun
  · next rev =>
    exact (safe_commit (x := ⟨k, rev, v, false⟩) rfl).bind fun _ _ h => h

theorem safe_handleCreate (r : CreateRequest) :
    spec.Safe (fun g' a => ∀ n, (Outcome.created a).success = some n →
      ⟨r.key, n, r.value, false⟩ ∈ g') g (handleCreate r) := by
  unfold handleCreate
  apply (safe_create _ _ _).bind
  intro g₁ a h₁
  obtain ⟨rev, err⟩ := a
  apply (safe_sub _).bind
  intro g₂ _ hsub
  cases err with
  | none =>
    intro n hn
    obtain rfl := Option.some.inj hn
    exact hsub (h₁ rfl)
  | some e =>
    dsimp only
    split <;> exact nofun

theorem safe_writeUpdate (r : UpdateRequest) :
    spec.Safe (fun g' a => a.2 = none → ⟨r.kv.key, a.1, r.kv.value, false⟩ ∈ g') g
      (writeUpdate r) := by
  unfold writeUpdate
  split
  · apply (safe_create _ _ _).bind
    intro g₁ a h₁
    apply (safe_sub _).bind
    intro g₂ _ hsub hnone
    exact hsub (h₁ hnone)
  · apply (safe_update _ _ _).bind
    intro g₁ a h₁
    apply (safe_sub _).bind
    intro g₂ _ hsub hnone
    exact hsub (h₁ hnone)

theorem safe_handleUpdate (r : UpdateRequest) :
    spec.Safe (fun g' a => ∀ n, (Outcome.updated a).success = some n →
      ⟨r.kv.key, n, r.kv.value, false⟩ ∈ g') g (handleUpdate r) := by
  unfold handleUpdate
  apply (safe_writeUpdate r).bind
  intro g₁ a h₁
  obtain ⟨rev, err⟩ := a
  cases err with
  | none =>
    intro n hn
    obtain rfl := Option.some.inj hn
    exact h₁ rfl
  | some e =>
    dsimp only
    split
    · apply (safe_sub _).bind
      intro g₂ b _
      split <;> exact nofun
    · exact nofun

/-- A creation or update that is carried out was told so. -/
theorem safe_request (cfg : Config) {r : Request} {k v : Bytes} (hr : r.value = some (k, v)) :
    spec.Safe (fun g' a => ∀ n, a.success = some n → ⟨k, n, v, false⟩ ∈ g') g
      (Leader.handle cfg r) := by
  cases r with
  | create r =>
    obtain ⟨rfl, rfl⟩ := Prod.mk.inj (Option.some.inj hr)
    exact (safe_handleCreate r).bind fun _ _ h => h
  | update r =>
    obtain ⟨rfl, rfl⟩ := Prod.mk.inj (Option.some.inj hr)
    exact (safe_handleUpdate r).bind fun _ _ h => h
  | _ => cases hr

end Programs

section Soundness

variable {cfg : Config} {p : Engine.Policy}

/-- What is written stays written. -/
theorem written_mono {e e' : Engine.State} (h : e.landed <+: e'.landed) {x : Version}
    (hx : x ∈ Writes.written e) : x ∈ Writes.written e' := by
  obtain ⟨y, hy, hyx⟩ := Writes.mem_written.mp hx
  exact Writes.mem_written.mpr ⟨y, h.subset hy, hyx⟩

theorem sound (G : Guard (leader cfg (engine p))) : (outline cfg p).Sound G fun _ _ _ => True where
  op := by
    intro s gs outs i o ch s' r sp _ hinv _ _ hlt hidle _ hex
    have hspawn {g' : Ghost} (h : ∀ j, ∀ x ∈ Function.update gs i g' j,
        x ∈ Writes.written (LeaderState.kv s')) :
        (outline cfg p).Spawned s' (Function.update gs i g') outs.length sp :=
      Outline.spawned_of_idle h hlt (hidle _ le_rfl) fun t _ => threadSafe_any t
    have hsame (hmono : ∀ x ∈ Writes.written (LeaderState.kv s),
        x ∈ Writes.written (LeaderState.kv s')) : ∀ j, ∀ x ∈ Function.update gs i (gs i) j,
        x ∈ Writes.written (LeaderState.kv s') := by
      rw [Function.update_eq_self]
      exact fun j x hx => hmono x (hinv j x hx)
    by_cases ho : ∃ o', o = .kv o'
    · obtain ⟨o, rfl⟩ := ho
      obtain ⟨c, e, rfl, hkv, rfl, rfl⟩ := Leader.exec_kv (K := engine p) hex
      have hmono (x : Version) (hx : x ∈ Writes.written (LeaderState.kv s)) :
          x ∈ Writes.written e := by
        refine written_mono ?_ hx
        rcases Engine.exec_batches hkv with ⟨h, -⟩ | ⟨w, ops, -, ⟨h, -⟩ | ⟨h, -⟩⟩
        · exact h ▸ List.prefix_refl _
        · exact h ▸ List.prefix_append _ _
        · exact h ▸ List.prefix_refl _
      cases o with
      | commit w ops =>
        cases r with
        | none =>
          refine ⟨_, rfl, hspawn fun j x hx => ?_⟩
          by_cases hji : j = i
          · subst hji
            rw [Function.update_self] at hx
            rcases List.mem_append.mp hx with hx | hx
            · exact hmono x (hinv j x hx)
            · -- an answer without an error says that the batch took effect
              have hl : (LeaderState.kv s).land ⟨w, ops⟩ = some e := by
                rcases Engine.execCommit_cases hkv with ⟨-, hl, -⟩ | ⟨_, -, -, h, -⟩ |
                  ⟨_, -, -, h, -⟩ | ⟨_, -, -, h⟩
                · exact hl
                · cases h
                · cases h
                · cases h
              have hmem : (⟨w, ops⟩, Engine.State.now (LeaderState.kv s)) ∈ e.landed := by
                rw [(Engine.land_fields hl).2.2.1]
                simp
              exact Writes.mem_written.mpr ⟨_, hmem, Option.mem_toList.mp hx⟩
          · rw [Function.update_of_ne hji] at hx
            exact hmono x (hinv j x hx)
        | some err => exact ⟨gs i, rfl, hspawn (hsame hmono)⟩
      | _ => exact ⟨gs i, rfl, hspawn (hsame hmono)⟩
    · have hkv := Leader.exec_storage (K := engine p) (fun o' h => ho ⟨o', h⟩) hex
      refine ⟨gs i, ?_, hspawn (hsame fun x hx => hkv.symm ▸ hx)⟩
      show Post (gs i) o r (gs i)
      unfold Post
      split
      · exact absurd ⟨_, rfl⟩ ho
      · rfl
  env := by
    intro s gs ch s' _ hinv _ he i x hx
    rcases Leader.env_core (K := engine p) he with ⟨c, e, -, hkv, rfl⟩ | ⟨-, hcore⟩
    · refine written_mono ?_ (hinv i x hx)
      obtain ⟨n, b, -, ⟨-, hl⟩ | ⟨-, rfl⟩⟩ := Engine.env_cases hkv
      · obtain ⟨-, -, hlanded, -⟩ := Engine.land_fields hl
        exact hlanded ▸ List.prefix_append _ _
      · exact List.prefix_refl _
    · have hkv : LeaderState.kv s' = LeaderState.kv s := congrArg CoreView.kv hcore
      exact hkv ▸ hinv i x hx

/-- In every run, the version of a creation or update that was carried out is written. -/
theorem written_of_success {G : Guard (leader cfg (engine p))} {start : ℕ} {base : Store}
    {c₁ c : Interleaving.Config (leader cfg (engine p))}
    (h₁ : Config.Reach G (Leader.init cfg (engine p) start (Engine.init base)) c₁) {i : ℕ}
    {r : Request} {k v : Bytes} (hi : c₁.threads[i]? = some (Leader.goroutine cfg (.request r)))
    (hr : r.value = some (k, v)) (h : Config.Reach G c₁ c) {a : Outcome} {n : ℕ}
    (ha : c.Returned i a) (hn : a.success = some n) :
    ⟨k, n, v, false⟩ ∈ Writes.written c.state.kv := by
  have hinit : (outline cfg p).Good (Leader.init cfg (engine p) start (Engine.init base))
      fun _ => [] := ⟨fun _ _ => nofun, fun _ t _ => threadSafe_any t, fun _ _ => rfl⟩
  have hfacts : Outline.Holds G (fun _ _ _ => True)
      (Leader.init cfg (engine p) start (Engine.init base)) := fun _ _ _ _ _ _ _ _ => trivial
  obtain ⟨gs₁, hgood₁⟩ := hinit.reach (sound G) hfacts h₁
  obtain ⟨gs, hgood, hfollows⟩ := hgood₁.run (sound G) (hfacts.of_reach h₁) h
  exact hgood.inv i _ (hfollows.returned hi (safe_request cfg hr) ha n hn)

end Soundness

end Receipts

section Kept

variable {cfg : Config} {p : Engine.Policy} {start : ℕ} {base : Store}

theorem Startable.writes_of_reach (h : Startable cfg start base)
    {c : Interleaving.Config (leader cfg (engine p))} (hr : Config.Reach (ProperPartitioned cfg p)
      (Leader.init cfg (engine p) start (Engine.init base)) c) :
    ∃ gs, Writes.Inv h.mode (Writes.view (p := p) c.state) gs := by
  obtain ⟨gs, hgood⟩ := Writes.good_of_reach (m := h.mode) (fun _ _ hg => hg.1.1)
    (fun _ _ _ hg => h.accepts hg) hr
  exact ⟨gs, hgood.inv⟩

/-- The newest version of a key, if it is no deletion, is in the storage and the index names
it, whatever compactions have done. -/
theorem Startable.newest_kept (h : Startable cfg start base)
    {c : Interleaving.Config (leader cfg (engine p))} (hr : Config.Reach (ProperPartitioned cfg p)
      (Leader.init cfg (engine p) start (Engine.init base)) c)
    {x : Version} (hx : x ∈ Writes.written c.state.kv) (hlive : x.deleted = false)
    (hlast : ∀ y ∈ Writes.written c.state.kv, y.key = x.key → y.rev ≤ x.rev)
    (hk : Lasting cfg.supportTTL x.key) :
    objects (Engine.State.now c.state.kv) x.key x.rev x.val ∧
      index (Engine.State.now c.state.kv) x.key = some (x.rev, false) ∧
      ∀ r v, objects (Engine.State.now c.state.kv) x.key r v → r ≤ x.rev := by
  obtain ⟨_, hwrites⟩ := h.writes_of_reach hr
  obtain ⟨hstart, hdeal, hallow⟩ := hwrites.history.mem_facts (List.mem_append_left _ hx)
  have hval : x.val ≠ tombStoneBytes := by
    have := (hallow trivial).2
    rwa [hlive, if_neg (by decide)] at this
  have hidx := (h.inv_of_reach hr).indexed x.key hk
  have hhist : (Writes.setting cfg p h.mode).hist c.state.kv x.key x.rev x.val :=
    .inr ⟨x, hx, rfl, rfl, rfl⟩
  have hmax (r : ℕ) (v : Bytes)
      (hv : (Writes.setting cfg p h.mode).hist c.state.kv x.key r v) : r ≤ x.rev := by
    rcases hv with ⟨-, hr, hget⟩ | ⟨y, hy, hkey, rfl, -⟩
    · have hget : base.get (encodeObjectKey x.key r) = some v := hget
      have hle : r ≤ start := by
        by_contra hlt
        rw [h.objects_le x.key r (not_le.mp hlt) hr] at hget
        cases hget
      exact hle.trans (le_of_lt hstart)
    · exact hlast y hy hkey
  cases hindex : index (Engine.State.now c.state.kv) x.key with
  | none =>
    rw [hindex] at hidx
    rcases hidx.unnamed rfl with hnone | ⟨r, v, hv, hdead, htop⟩
    · exact absurd hhist (hnone _ _)
    · obtain rfl : r = x.rev := le_antisymm (hmax r v hv) (htop _ _ hhist)
      exact absurd (hidx.functional _ _ _ hhist hv ▸ hdead) hval
  | some qd =>
    obtain ⟨q, d⟩ := qd
    obtain ⟨⟨v, hv, hdead⟩, htop⟩ := hidx.named q d hindex
    obtain rfl : q = x.rev :=
      le_antisymm (hmax q v (hidx.sub q v hv)) (htop _ _ hhist)
    obtain rfl : v = x.val := hidx.functional _ _ _ (hidx.sub _ _ hv) hhist
    have hd : d = false := by
      cases d with
      | false => rfl
      | true => exact absurd (hdead.mpr rfl) hval
    exact ⟨hv, by rw [hd], fun r v' hv' => hmax r v' (hidx.sub r v' hv')⟩

theorem Sweep.WellKept.spaced {S : Sweep.Setting p} {st : Store} (h : Sweep.WellKept S st)
    (hrecord : ¬ magicBytes <+: getCompactKey S.cfg.keyPrefix) : Spaced st := by
  intro key val hval hmagic
  rcases h.internal key val hval hmagic with rfl | ⟨k, r, hk, hr, rfl⟩
  · exact absurd hmagic hrecord
  · exact ⟨k, r, hk.1, hr, rfl⟩

end Kept

/-- Point reads that run alone on a store. -/
theorem Solo.pointRead_answers {st : Store} {k : Bytes} {R : ℕ} (hst : Spaced st)
    (hR : R < 2 ^ 64) : ∃ res, Solo.pointRead st k R = some res ∧ Answers st k R res := by
  have hlt : encodeObjectKey k 0 < encodeObjectKey k (readRevision R) := by
    rw [← not_le, encodeObjectKey_le_iff k (readRevision_lt hR) (by decide)]
    exact not_le.mpr (readRevision_pos R)
  have hdec : ∀ e ∈ (Engine.items st (encodeObjectKey k (readRevision R)) (encodeObjectKey k 0)
      1).head?, decode e.1 ≠ .panic := by
    intro e he
    have hmem := List.mem_of_mem_head? he
    simp only [Engine.items, if_pos hlt] at hmem
    obtain ⟨hget, hlo, hhi⟩ := SortedMap.mem_rangeDesc.mp (List.mem_of_mem_take hmem)
    obtain ⟨k', r, -, hr, heq⟩ := hst _ _ hget (Bytes.prefix_of_between hlo.le hhi)
    rw [heq, decode_encodeObjectKey k' hr]
    simp
  obtain ⟨res, heval, hres⟩ := eval_get (h := Solo.exec) (s := ⟨st, 0, 0⟩) hst hR rfl
    (Engine.descends st hlt 1) hdec
  exact ⟨res, by rw [Solo.pointRead, heval]; rfl, hres⟩

/-- What requests for one key read and write on a leader. -/
def LeaderState.solo {p : Engine.Policy} (s : LeaderState (engine p)) : Solo.State :=
  ⟨Engine.State.now s.kv, s.dealRevision, s.committedRevision⟩

open Scanner in
/-- The value `v` of `k`, written at `n`, comes back. -/
structure Transparent (cfg : Config) {p : Engine.Policy} (s : LeaderState (engine p))
    (k v : Bytes) (n : ℕ) : Prop where
  get : ∀ R, R = 0 ∨ n ≤ R → R < 2 ^ 64 → (handleGet ⟨k, R⟩).eval Solo.exec s.solo =
    some (.ok ⟨max s.committedRevision n, if v = [] then none else some ⟨k, v, n⟩⟩, s.solo)
  list : ∀ (f : Frozen) (rev : ℕ) (a b : Bytes), f.store = Engine.State.now s.kv → Plain a →
    Plain b → a ≤ k → k < b → n ≤ effective f rev →
    Tikv.Covers (f.regions (encodeObjectKey a 0) (encodeObjectKey b 0)) (encodeObjectKey a 0)
      (encodeObjectKey b 0) →
    (∀ c ∈ Tikv.borders (f.regions (encodeObjectKey a 0) (encodeObjectKey b 0)),
      PlainInternal c) → NotCompacted cfg f.store (effective f rev) →
    f.store.entries.length < 2 ^ 63 →
    ∃ resp, (f.call cfg (handleList cfg ⟨a, b, rev, 0⟩)).map Prod.fst = some (.ok resp) ∧
      ⟨k, v, n⟩ ∈ resp.kvs
  kept : (Engine.State.now s.kv).get (encodeRevisionKey k) = some (indexValue n false) ∧
    (Engine.State.now s.kv).get (encodeObjectKey k n) = some v
  update : ∀ v' lease, Solo.Room 1 s.solo →
    Solo.Succeeds cfg s.solo (.update ⟨⟨k, v', n⟩, lease⟩) (s.solo.wrote k v' false)

theorem transparent_of_newest {cfg : Config} {p : Engine.Policy} {s : LeaderState (engine p)}
    {k v : Bytes} {n : ℕ} (hst : Spaced (Engine.State.now s.kv))
    (hshaped : Shaped (Engine.State.now s.kv) k) (hval : v ≠ tombStoneBytes)
    (hdeal : n ≤ s.dealRevision) (hobj : objects (Engine.State.now s.kv) k n v)
    (hidx : index (Engine.State.now s.kv) k = some (n, false))
    (hmax : ∀ r v', objects (Engine.State.now s.kv) k r v' → r ≤ n) : Transparent cfg s k v n := by
  have hlive (R : ℕ) (hR : n ≤ R) :
      Mvcc.Live (· = tombStoneBytes) (objects (Engine.State.now s.kv) k) R n v :=
    ⟨⟨hobj, hR, fun r v' hv' _ => hmax r v' hv'⟩, hval⟩
  have hget : (Engine.State.now s.kv).get (encodeRevisionKey k) = some (indexValue n false) :=
    (hshaped.get_of_index hidx).2
  constructor
  · intro R hR hlt
    obtain ⟨res, hread, hres⟩ := Solo.pointRead_answers (k := k) hst hlt
    have hn : n ≤ readRevision R := by
      rcases hR with rfl | hR
      · exact Nat.le_of_lt_succ hobj.2.1
      · exact hR.trans (le_readRevision R)
    obtain rfl : res = .ok (v, n) := (hres.1 v n).mpr (hlive _ hn)
    have hcur : Solo.exec .getRevision s.solo = some (s.committedRevision, s.solo) := rfl
    unfold handleGet getCurrentRevision
    rw [Prog.eval_call_bind hcur, Prog.eval_bind_some (Solo.eval_get_ok (s := s.solo) hread)]
    rfl
  · intro f rev a b hstore ha hb hak hkb hn hcover hborders hrecord hlen
    obtain ⟨all, hall, -, hlist, -⟩ := list_exact cfg f rev 0 ha hb (hak.trans_lt hkb)
      (hstore ▸ hst) hcover hborders hrecord (by decide) hlen
    refine ⟨_, hlist, ?_⟩
    have hmem : ⟨k, v, n⟩ ∈ all := (hall.mem ⟨k, v, n⟩).mpr ⟨hak, hkb, hstore ▸ hlive _ hn⟩
    simpa [pageOf] using hmem
  · exact ⟨hget, hobj.2.2⟩
  · intro v' lease hroom
    refine (Solo.succeeds_update hroom).mpr ⟨?_, rfl⟩
    have hpos := hobj.1
    have hdrift : ¬ Solo.Drifts s.solo n := fun h => absurd h.2 (by
      show ¬ s.dealRevision + 1 < n
      omega)
    unfold Solo.updateError
    rw [if_neg (show ¬ n = 0 by omega), if_neg hdrift, Solo.casError, if_pos]
    rw [Solo.indexValue_false]
    exact hget

section Values

variable {cfg : Config} {p : Engine.Policy} {start : ℕ} {base : Store}

/-- A creation or update that was carried out, in every later state of the run in which its
version is still the newest of its key, whatever was written to other keys and compacted
meanwhile. -/
theorem values_come_back (h : Startable cfg start base)
    (hrecord : ¬ magicBytes <+: getCompactKey cfg.keyPrefix)
    {c₁ c : Interleaving.Config (leader cfg (engine p))}
    (h₁ : Config.Reach (ProperPartitioned cfg p)
      (Leader.init cfg (engine p) start (Engine.init base)) c₁)
    {i : ℕ} {r : Request} {k v : Bytes} (hk : Lasting cfg.supportTTL k)
    (hi : c₁.threads[i]? = some (Leader.goroutine cfg (.request r)))
    (hr : r.value = some (k, v)) (h₂ : Config.Reach (ProperPartitioned cfg p) c₁ c)
    {a : Outcome} {n : ℕ} (ha : c.Returned i a) (hn : a.success = some n)
    (hlast : ∀ x ∈ Writes.written c.state.kv, x.key = k → x.rev ≤ n) :
    Transparent cfg (p := p) c.state k v n := by
  have hreach := h₁.trans h₂
  have hx := Receipts.written_of_success h₁ hi hr h₂ ha hn
  have hinv := h.inv_of_reach hreach
  obtain ⟨_, hwrites⟩ := h.writes_of_reach hreach
  obtain ⟨-, hdeal, hallow⟩ := hwrites.history.mem_facts (List.mem_append_left _ hx)
  obtain ⟨hobj, hidx, hmax⟩ := h.newest_kept hreach hx rfl hlast hk
  exact transparent_of_newest (hinv.toWellKept.spaced hrecord) (hinv.shaped k hk)
    (hallow trivial).2 hdeal hobj hidx hmax

/-- A key is created, and an update of it arrives. -/
def createThenUpdate : List (Label (leader sampleConfig (engine .atTimestamp))) :=
  [.restart 3, .thread 3 (.request (.create ⟨sampleKey, [98], 0⟩)), .thread 4 .none,
    .thread 4 (.kv .ok), .thread 4 .none, .thread 4 .none,
    .restart 3, .thread 3 (.request (.update ⟨⟨sampleKey, [99], 1⟩, 0⟩))]

/-- The update is carried out, both events are committed, and a compaction removes the first
version. -/
def updateThenCompact : List (Label (leader sampleConfig (engine .atTimestamp))) :=
  [.thread 5 .none, .thread 5 (.kv .ok), .thread 5 .none, .thread 5 .none] ++
  List.flatten (List.replicate 2 [.restart 0, .thread 0 .none, .thread 0 .none, .thread 0 .none,
    .thread 0 .none, .thread 0 .none, .thread 0 .none]) ++
  [.restart 3, .thread 3 (.request (.compact 2)), .thread 6 .none, .thread 6 .none,
    .thread 6 (.kv .ok), .thread 6 (.kv .ok), .thread 6 .none, .thread 6 .none,
    .thread 6 (.kv .ok), .thread 6 (.kv .ok), .thread 6 (.kv (.partitions [sampleRange])),
    .thread 6 .none, .thread 7 (.flag false), .thread 7 (.kv .ok), .thread 7 (.flag false),
    .thread 7 (.flag false), .thread 7 (.flag false), .thread 7 (.kv .ok)]

theorem values_come_back_compacted :
    ∃ c a, Config.Reach (ProperPartitioned sampleConfig .atTimestamp) sampleInit c ∧
      c.Returned 5 a ∧ a.success = some 2 ∧
      (Engine.State.now c.state.kv).get (encodeObjectKey sampleKey 1) = none ∧
      Transparent sampleConfig (p := .atTimestamp) c.state sampleKey [99] 2 := by
  obtain ⟨c₁, c, hc₁, h₁, h₂, hret, hgone, hwritten⟩ := Config.exists_of_runs
    properPartitioned_of_check createThenUpdate updateThenCompact (c := sampleInit) (P := fun _ c =>
      c.Returned 5 (.updated (.ok ⟨2, true, none⟩)) ∧
      (Engine.State.now c.state.kv).get (encodeObjectKey sampleKey 1) = none ∧
      (Writes.written c.state.kv).map (fun x => (x.key, x.rev)) = [(sampleKey, 1), (sampleKey, 2)])
    (by decide +kernel)
  have hthread : c₁.threads[5]? = some (Leader.goroutine sampleConfig
      (.request (.update ⟨⟨sampleKey, [99], 1⟩, 0⟩))) := Config.thread_of_run hc₁ (by rfl)
  refine ⟨c, _, h₁.trans h₂, hret, rfl, hgone, ?_⟩
  refine values_come_back (startable_empty _) (by decide +kernel) h₁ ⟨by decide +kernel, .inl rfl⟩
    hthread rfl h₂ hret rfl fun x hx _ => ?_
  have hmem := List.mem_map_of_mem (f := fun x : Version => (x.key, x.rev)) hx
  rw [hwritten] at hmem
  simp only [List.mem_cons, Prod.mk.injEq, List.not_mem_nil, or_false] at hmem
  omega

/-- A creation brings the tombstone as its value. -/
def createTombstone : List (Label (leader sampleConfig (engine .atTimestamp))) :=
  [.restart 3, .thread 3 (.request (.create ⟨sampleKey, tombStoneBytes, 0⟩)), .thread 4 .none,
    .thread 4 (.kv .ok), .thread 4 .none, .thread 4 .none]

/-- The creation is carried out, the index names its version, and no read finds it. -/
theorem tombstone_value_is_lost :
    ∃ c, Config.Reach (Writes.Settles sampleConfig .atTimestamp) sampleInit c ∧
      c.Returned 4 (.created (.ok ⟨1, true⟩)) ∧
      index (Engine.State.now c.state.kv) sampleKey = some (1, false) ∧
      Solo.pointRead (Engine.State.now c.state.kv) sampleKey 0 = some (.error .keyNotFound) :=
  Config.exists_of_run settles_of_check createTombstone (by rfl)

end Values
end KubeBrain

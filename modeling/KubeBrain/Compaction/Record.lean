import KubeBrain.Events.Publication
import KubeBrain.Storage.Effects

/-! The compact record. It is written by two functions, by one of them without a compare,
and read by lists that must not look below it. -/
namespace KubeBrain

open Interleaving Coder

/-- The revision in the compact record, zero when there is none. -/
def compactRecord (cfg : Config) (st : Store) : ℕ :=
  match st.get (getCompactKey cfg.keyPrefix) with
  | some v => Bytes.toNatBE (v.take 8)
  | none => 0

theorem compactRecord_congr {cfg : Config} {st st' : Store}
    (h : st'.get (getCompactKey cfg.keyPrefix) = st.get (getCompactKey cfg.keyPrefix)) :
    compactRecord cfg st' = compactRecord cfg st := by
  unfold compactRecord
  rw [h]

theorem compactRecord_erase {cfg : Config} {key : Bytes} (h : Internal key) (st : Store) :
    compactRecord cfg (st.erase key) = compactRecord cfg st := by
  apply compactRecord_congr
  apply st.get_erase_of_ne
  intro he
  exact not_internal_getCompactKey _ (he ▸ h)

theorem compactRecord_insert {cfg : Config} {C : ℕ} (hC : C < 2 ^ 64) (st : Store) :
    compactRecord cfg (st.insert (getCompactKey cfg.keyPrefix) (uint64ToBytes C)) = C := by
  have htake : (uint64ToBytes C).take 8 = uint64ToBytes C :=
    List.take_of_length_le (le_of_eq (length_uint64ToBytes C))
  unfold compactRecord
  rw [st.get_insert_self]
  simp only [htake, toNat_uint64ToBytes hC]

/-- A batch that takes effect by a move. -/
def landing {cfg : Config} {p : Engine.Policy} (s : LeaderState (engine p)) :
    Move (leader cfg (engine p)) → Option Batch
  | .op (.kv (.commit w ops)) (.kv .ok) => some ⟨w, ops⟩
  | .op (.kv (.commit w ops)) (.kv (.failApplied _)) => some ⟨w, ops⟩
  | .env (.kv (.landPending i)) => (Engine.State.pending s.kv)[i]?
  | _ => none

/-- Whenever the plain put of the compact record takes effect, the record does not fall. -/
def RecordRises (cfg : Config) (p : Engine.Policy) : Guard (leader cfg (engine p)) :=
  fun s mv => ∀ b, landing s mv = some b →
    ∀ v ttl, b.ops = [.put (getCompactKey cfg.keyPrefix) v ttl] →
      compactRecord cfg (Engine.State.now (LeaderState.kv s)) ≤ Bytes.toNatBE (v.take 8)

namespace Record

variable {cfg : Config} {p : Engine.Policy}

/-- The batches that write the record. -/
inductive Writes (cfg : Config) (C : ℕ) : List BatchOp → Prop where
  | put : Writes cfg C [.put (getCompactKey cfg.keyPrefix) (uint64ToBytes C) 0]
  | putIfNotExist : Writes cfg C [.putIfNotExist (getCompactKey cfg.keyPrefix) (uint64ToBytes C) 0]
  | cas (old : Bytes) (h : Bytes.toNatBE (old.take 8) ≤ C) :
    Writes cfg C [.cas (getCompactKey cfg.keyPrefix) (uint64ToBytes C) old 0]

/-- A batch writes the record, or internal keys only. -/
def Formed (cfg : Config) (b : Batch) : Prop :=
  match b.writer with
  | .record C => C < 2 ^ 64 ∧ Writes cfg C b.ops
  | _ => ∀ o ∈ b.ops, Internal o.key

/-- The ghost of a goroutine is a revision that it knows the record to have reached. -/
def Pre (cfg : Config) (bound : ℕ) : Op → Prop
  | .kv (.commit w ops) => Formed cfg ⟨w, ops⟩
  | .kv (.del C key) | .kv (.delCurrent C key _) => C ≤ bound ∧ Internal key
  | .spawn (.worker w _) => w.compact ∨ w.timeoutRevision ≠ 0 → w.revision ≤ bound
  | _ => True

def Post (cfg : Config) (bound : ℕ) (o : Op) (r : o.Res) (bound' : ℕ) : Prop :=
  match o, r with
  | .kv (.commit (.record C) _), none => bound' = max bound C
  | .kv (.get key), r => bound' = bound ∧ (key = getCompactKey cfg.keyPrefix →
      (∀ v, r = .ok v → bound ≤ Bytes.toNatBE (v.take 8)) ∧
      (r = .error .keyNotFound → bound = 0))
  | .getRevision, r => bound' = bound ∧ r < 2 ^ 64
  | _, _ => bound' = bound

structure Inv (cfg : Config) (s : Engine.State) (gs : ℕ → ℕ) : Prop where
  bound : ∀ i, gs i ≤ compactRecord cfg s.now
  gcRev : s.gcRev ≤ compactRecord cfg s.now
  rising : (s.past ++ [s.now]).Pairwise fun a b => compactRecord cfg a ≤ compactRecord cfg b
  pending : ∀ b ∈ s.pending, Formed cfg b

abbrev spec (cfg : Config) : Spec sig Outcome where
  Ghost := ℕ
  idle := 0
  Pre := Pre cfg
  Post := Post cfg
  Fin := fun _ _ => True

abbrev outline (cfg : Config) (p : Engine.Policy) : Outline (leader cfg (engine p)) where
  toSpec := spec cfg
  Inv := fun s gs => Inv cfg s.kv gs

section Programs

variable {g : ℕ} {α : Type}

variable {C : ℕ}

/-- Kinds of operations that write no record and delete nothing. -/
def recordFreeKinds : List OpKind :=
  [.deal, .revision, .tso, .read, .retryRead, .commit, .slot, .publish, .queueHead, .queuePush,
    .queuePop, .time, .cacheAdd, .cacheFind, .chanSend, .hub, .sub, .client, .stream,
    .history, .fork, .forkWatch, .control]

private theorem still_of_recordFree {o : Op} (hk : o.kind ∈ recordFreeKinds) (hi : o.OnInternal) :
    Pre cfg g o ∧ ∀ r g', Post cfg g o r g' → g' = g := by
  cases o with
  | kv o =>
    cases o with
    | commit w ops =>
      cases w with
      | record C => exact absurd hk (by simp [recordFreeKinds])
      | _ => exact ⟨hi, fun _ _ h => h⟩
    | del C key => exact absurd hk (by simp [recordFreeKinds])
    | delCurrent C key v => exact absurd hk (by simp [recordFreeKinds])
    | get key => exact ⟨trivial, fun _ _ h => h.1⟩
    | _ => exact ⟨trivial, fun _ _ h => h⟩
  | spawn t =>
    refine ⟨?_, fun _ _ h => h⟩
    cases t with
    | worker w receiver =>
      intro hw
      simp only [Op.kind, Task.kind, if_pos hw] at hk
      exact absurd hk (by simp [recordFreeKinds])
    | _ => trivial
  | getRevision => exact ⟨trivial, fun _ _ h => h.1⟩
  | _ => exact ⟨trivial, fun _ _ h => h⟩

theorem safe_recordFree {q : M α} (h : Within recordFreeKinds q) :
    (spec cfg).Safe (fun g' _ => g' = g) g q :=
  Spec.safe_of_still (O := spec cfg) (fun _ ho => still_of_recordFree ho.1 ho.2) h

/-- Deletions of a compaction stay below the record. -/
theorem safe_worker {w : WorkerConfig} {receiver : Receiver}
    (hw : w.compact = true ∨ w.timeoutRevision ≠ 0 → w.revision ≤ g) :
    (spec cfg).Safe (fun g' _ => g' = g) g
      (Worker.runWithBackoffRetry cfg.supportTTL w receiver) := by
  let P : Op → Prop := fun o => Pre cfg g o ∧ ∀ r g', Post cfg g o r g' → g' = g
  have hrest (o : Op) (ho : o.kind ∈ [OpKind.read, .stream, .control]) : P o := by
    have hsub : [OpKind.read, .stream, .control] ⊆ recordFreeKinds := by decide
    exact still_of_recordFree (hsub ho) (onInternal_of_kind ho)
  apply Spec.safe_of_still (O := spec cfg) (P := P) fun _ ho => ho
  apply Worker.only_attempts
  · exact fun o ho => hrest o (List.mem_cons_of_mem _ ho)
  · intro hgc k r _ _
    exact ⟨⟨hw hgc, k, r, rfl⟩, fun r g' h => h⟩
  · intro hgc k val _
    exact ⟨⟨hw hgc, k, 0, rfl⟩, fun r g' h => h⟩
  · intro hgc k
    exact ⟨⟨hw hgc, k, 0, rfl⟩, fun r g' h => h⟩
  · exact hrest _ (by split <;> simp)

private theorem safe_quiet {q : M α} (h : Within recordFreeKinds q) :
    (spec cfg).Safe (fun _ _ => True) g q :=
  (safe_recordFree h).mono fun _ _ _ => trivial

private theorem safe_record {ops : List BatchOp} (hC : C < 2 ^ 64) (hops : Writes cfg C ops) :
    (spec cfg).Safe (fun g' r => r = none → C ≤ g') g (kvCall (.commit (.record C) ops)) := by
  apply Spec.safe_call.mpr
  constructor
  · exact ⟨hC, hops⟩
  · intro r g' hpost hr
    subst hr
    obtain rfl : g' = max g C := hpost
    exact le_max_right _ _

theorem safe_setCompactRecord (hC : C < 2 ^ 64) :
    (spec cfg).Safe (fun _ _ => True) g (setCompactRecord cfg C) := by
  have hwrite {g₁ : ℕ} {ops : List BatchOp} (hops : Writes cfg C ops) :
      (spec cfg).Safe (fun _ _ => True) g₁ (kvCall (.commit (.record C) ops)) :=
    (safe_record hC hops).mono fun _ _ _ => trivial
  unfold setCompactRecord
  apply Spec.Safe.call_bind trivial
  intro r g' _
  split
  · dsimp only
    split
    · exact Spec.Safe.call_bind trivial nofun
    split
    · trivial
    · next hle => exact hwrite (.cas _ (not_lt.mp hle))
  · exact hwrite .putIfNotExist
  · exact hwrite .putIfNotExist
  · trivial

/-- The workers of a compaction start after its revision has been recorded. -/
theorem safe_scan_compact {start stop : Bytes} (hC : C < 2 ^ 64) :
    (spec cfg).Safe (fun _ _ => True) g (Scanner.scan cfg start stop C true .empty) := by
  unfold Scanner.scan
  apply (safe_quiet (Within.kvCall (o := .getTimestampOracle) (by simp [recordFreeKinds])
    trivial)).bind
  intro g₁ tso _
  split
  · trivial
  apply (safe_record hC .put).bind
  intro g₂ e hbound
  split
  · trivial
  have hle := hbound rfl
  apply (safe_recordFree (Within.kvCall (o := .getPartitions start stop) (by simp [recordFreeKinds])
    trivial)).bind
  intro g₃ ps h₃
  subst h₃
  split
  · trivial
  split
  · exact Spec.Safe.call_bind trivial nofun
  apply (safe_recordFree ((Scanner.within_timeoutRevision cfg).mono (by decide))).bind
  intro g₄ timeout h₄
  subst h₄
  apply (Scanner.safe_spawnAll (I := fun g' : ℕ => C ≤ g') ?_ hle).bind
  · intro g₅ ids _
    apply (safe_quiet ((Scanner.within_joinAll ids).mono (by decide))).bind
    intro g₆ rs _
    split
    · trivial
    · exact safe_quiet ((Scanner.within_mergeAll _ _ _).mono (by decide))
  · intro t ht g' hg'
    obtain ⟨i, hi, rfl⟩ := List.mem_mapIdx.mp ht
    refine Spec.safe_call.mpr ⟨fun _ => hg', fun _ g'' hpost => ?_⟩
    obtain rfl : g'' = g' := hpost
    exact hg'

theorem safe_compact {start stop : Bytes} (hC : C < 2 ^ 64) :
    (spec cfg).Safe (fun _ _ => True) g (Scanner.compact cfg start stop C) := by
  unfold Scanner.compact
  apply (safe_quiet (Within.call (o := .now) (by simp [recordFreeKinds]) trivial)).bind
  intro g₂ time _
  apply (safe_quiet (Within.call (o := .historyPush C time) (by simp [recordFreeKinds])
    trivial)).bind
  intro g₃ _ _
  exact (safe_scan_compact hC).bind fun _ _ _ => trivial

theorem safe_handleCompact : (spec cfg).Safe (fun _ _ => True) g (handleCompact cfg C) := by
  unfold handleCompact
  apply Spec.Safe.call_bind trivial
  intro (cur : ℕ) g₁ hpost
  obtain ⟨rfl, hcur⟩ : g₁ = g ∧ cur < 2 ^ 64 := hpost
  apply (safe_quiet (within_minRevision.mono (by decide))).bind
  intro g₂ uncertainRev _
  dsimp only
  generalize hC₁ : (if C = 0 ∨ cur < C then cur else C) = C₁
  have hle₁ : C₁ ≤ cur := by
    subst hC₁
    split <;> omega
  generalize hC₂ : (if uncertainRev ≠ 0 then min (uncertainRev - 1) C₁ else C₁) = C₂
  have hlt : C₂ < 2 ^ 64 := by
    subst hC₂
    split <;> omega
  refine Spec.Safe.bind (Q := fun (_ : ℕ) _ => True) ?_ fun _ _ _ => trivial
  unfold compact
  apply (safe_setCompactRecord hlt).bind
  intro g₃ e _
  split
  · trivial
  · exact (safe_compactRanges (I := fun _ => True) cfg _ (fun _ _ _ _ => safe_compact hlt)
      trivial _).bind fun _ _ _ => trivial

/-- A list below the record is refused, whichever way it scans. -/
theorem safe_handleList_reject {r : RangeRequest} (h0 : 0 < r.revision) (hlt : r.revision < g) :
    (spec cfg).Safe (fun _ a => ∃ e, a = .error e) g (handleList cfg r) := by
  have hcheck (g₁ : ℕ) (hg₁ : g₁ = g) : (spec cfg).Safe (fun _ e => e ≠ none) g₁
      (Scanner.checkCompactRace cfg r.revision false) := by
    subst hg₁
    apply Spec.Safe.call_bind trivial
    intro a g' hpost
    obtain ⟨hok, hnone⟩ := hpost.2 rfl
    split
    · have := hnone rfl
      omega
    · exact Option.some_ne_none _
    · next val =>
      split
      · exact Spec.Safe.call_bind trivial nofun
      dsimp only
      have := hok val rfl
      rw [if_pos (by omega)]
      exact Option.some_ne_none _
  have htime {β : Type} {f : Except Err ℕ → M β} {Q : ℕ → β → Prop}
      (hf : ∀ a, (spec cfg).Safe Q g (f a)) :
      (spec cfg).Safe Q g (kvCall .getTimestampOracle >>= f) := by
    apply Spec.Safe.call_bind trivial
    intro a g' hpost
    obtain rfl : g' = g := hpost
    exact hf a
  unfold handleList
  split
  · exact ⟨_, rfl⟩
  apply Spec.Safe.call_bind trivial
  intro cur g₁ hpost
  obtain ⟨rfl, -⟩ := hpost
  rw [if_neg (Nat.ne_of_gt h0)]
  dsimp only
  split
  · exact ⟨_, rfl⟩
  generalize (if 0 < r.limit then incInt64 r.limit else r.limit) = limit
  refine Spec.Safe.bind (Q := fun (_ : ℕ) a => ∃ e, a = .error e) ?_ ?_
  · unfold Scanner.range
    split
    · unfold Scanner.rangeWithLimit
      apply htime
      intro a
      split
      · exact ⟨_, rfl⟩
      apply (hcheck _ rfl).bind
      intro g₂ e he
      split
      · exact ⟨_, rfl⟩
      · exact absurd rfl he
    · refine Spec.Safe.bind (Q := fun (_ : ℕ) a => ∃ e, a.2 = .error e) ?_ ?_
      · unfold Scanner.scan
        apply htime
        intro a
        split
        · exact ⟨_, rfl⟩
        apply (hcheck _ rfl).bind
        intro g₂ e he
        split
        · exact ⟨_, rfl⟩
        · exact absurd rfl he
      · intro g₂ a ha
        obtain ⟨receiver, res⟩ := a
        obtain ⟨e, rfl⟩ := ha
        exact ⟨e, rfl⟩
  · intro g₂ a ha
    obtain ⟨e, rfl⟩ := ha
    exact ⟨e, rfl⟩

theorem threadSafe_quiet {ks : List OpKind} {t : Leader.Goroutine} (h : Confined ks t)
    (hks : ∀ k ∈ ks, k ∈ recordFreeKinds) : (spec cfg).ThreadSafe g t :=
  Spec.threadSafe_of_keeps (O := spec cfg) (I := fun _ => True) (fun _ _ _ => trivial)
    (safe_quiet (h.1.mono hks)) fun f hf _ a _ => safe_quiet ((h.2 f hf a).mono hks)

theorem threadSafe_goroutine (t : Task)
    (ht : ∀ w r, t = .worker w r → w.compact = true ∨ w.timeoutRevision ≠ 0 → w.revision ≤ g) :
    (spec cfg).ThreadSafe g (Leader.goroutine cfg t) := by
  cases t with
  | request r =>
    cases r with
    | compact C => exact safe_handleCompact.bind fun _ _ _ => trivial
    | _ => exact threadSafe_quiet (confined_of_not_compacts cfg id) (by decide)
  | worker w receiver => exact (safe_worker (ht w receiver rfl)).bind fun _ _ _ => trivial
  | _ => exact threadSafe_quiet (confined_of_not_compacts cfg id) (by decide)

end Programs

section Soundness

variable {s s' : Engine.State} {gs : ℕ → ℕ}

theorem Inv.set (h : Inv cfg s gs) {g : ℕ} (hg : g ≤ compactRecord cfg s.now) (i : ℕ) :
    Inv cfg s (Function.update gs i g) := by
  exact ⟨forall_update (P := fun _ g => g ≤ compactRecord cfg s.now) h.bound hg, h.gcRev, h.rising,
    h.pending⟩

/-- The contents change and the record does not fall. -/
theorem Inv.write (h : Inv cfg s gs) (hpast : s'.past = s.past ++ [s.now])
    (hrec : compactRecord cfg s.now ≤ compactRecord cfg s'.now)
    (hgc : s'.gcRev ≤ compactRecord cfg s'.now) (hpend : ∀ b ∈ s'.pending, Formed cfg b) :
    Inv cfg s' gs := by
  constructor
  · intro i
    exact (h.bound i).trans hrec
  · exact hgc
  · rw [hpast]
    refine List.pairwise_snoc.mpr ⟨h.rising, List.forall_mem_snoc.mpr ⟨fun a ha => ?_, hrec⟩⟩
    exact ((List.pairwise_snoc.mp h.rising).2 a ha).trans hrec
  · exact hpend

/-- What a batch does to the record. -/
theorem Formed.rises {b : Batch} {st st' : Store} (hf : Formed cfg b)
    (happly : BatchOp.applyAll st b.ops = some st')
    (hput : ∀ v ttl, b.ops = [.put (getCompactKey cfg.keyPrefix) v ttl] →
      compactRecord cfg st ≤ Bytes.toNatBE (v.take 8)) :
    compactRecord cfg st ≤ compactRecord cfg st' ∧
      ∀ C, b.writer = .record C → compactRecord cfg st' = C := by
  obtain ⟨w, ops⟩ := b
  have hother (hkeys : ∀ o ∈ ops, Internal o.key) :
      compactRecord cfg st' = compactRecord cfg st := by
    apply compactRecord_congr
    apply BatchOp.get_applyAll happly
    intro o ho heq
    exact not_internal_getCompactKey _ (heq ▸ hkeys o ho)
  cases w with
  | record C =>
    obtain ⟨hC, hw⟩ := hf
    have htake : (uint64ToBytes C).take 8 = uint64ToBytes C :=
      List.take_of_length_le (le_of_eq (length_uint64ToBytes C))
    cases hw with
    | put =>
      obtain rfl := Option.some.inj happly
      have hle := hput _ _ rfl
      rw [htake, toNat_uint64ToBytes hC] at hle
      rw [compactRecord_insert hC]
      exact ⟨hle, fun C' h => by injection h⟩
    | putIfNotExist =>
      simp only [BatchOp.applyAll, BatchOp.apply] at happly
      split at happly
      · cases happly
      next st₁ hif =>
      obtain rfl := Option.some.inj happly
      split at hif
      · next hnone =>
        obtain rfl := Option.some.inj hif
        rw [compactRecord_insert hC]
        constructor
        · simp [compactRecord, hnone]
        · exact fun C' h => by injection h
      · cases hif
    | cas old hold =>
      simp only [BatchOp.applyAll, BatchOp.apply] at happly
      split at happly
      · cases happly
      next st₁ hif =>
      obtain rfl := Option.some.inj happly
      split at hif
      · next hsome =>
        obtain rfl := Option.some.inj hif
        rw [compactRecord_insert hC]
        constructor
        · simpa [compactRecord, hsome] using hold
        · exact fun C' h => by injection h
      · cases hif
  | create k r | update k r e | delete k r e | overwrite k r o =>
    exact ⟨le_of_eq (hother hf).symm, (by simp)⟩

theorem Inv.land (h : Inv cfg s gs) {b : Batch} (hf : Formed cfg b) (hl : s.land b = some s')
    (hput : ∀ v ttl, b.ops = [.put (getCompactKey cfg.keyPrefix) v ttl] →
      compactRecord cfg s.now ≤ Bytes.toNatBE (v.take 8)) :
    Inv cfg s' gs ∧ ∀ C, b.writer = .record C → compactRecord cfg s'.now = C := by
  obtain ⟨now, happly, rfl⟩ := Engine.land_eq_some.mp hl
  obtain ⟨hle, hrec⟩ := hf.rises happly hput
  exact ⟨h.write rfl hle (h.gcRev.trans hle) h.pending, hrec⟩

theorem Inv.delete (h : Inv cfg s gs) {C : ℕ} {key : Bytes} (hC : C ≤ compactRecord cfg s.now)
    (hkey : Internal key) :
    Inv cfg { s.write (s.now.erase key) with gcRev := max s.gcRev C } gs := by
  have heq : compactRecord cfg (s.now.erase key) = compactRecord cfg s.now :=
    compactRecord_erase hkey s.now
  have hgc : max s.gcRev C ≤ compactRecord cfg (s.now.erase key) := by
    rw [heq]
    exact max_le h.gcRev hC
  exact h.write rfl (le_of_eq heq.symm) hgc h.pending

theorem Inv.callDelete (h : Inv cfg s gs) {C : ℕ} (hC : C ≤ compactRecord cfg s.now) :
    Inv cfg { s with gcRev := max s.gcRev C } gs :=
  ⟨h.bound, max_le h.gcRev hC, h.rising, h.pending⟩

private theorem sound_kv {ls : LeaderState (engine p)} {o : KvOp}
    {c : Engine.Choice} {kv : Engine.State} {r : o.Res} {i : ℕ}
    (hinv : Inv cfg ls.kv gs) (hpre : Pre cfg (gs i) (.kv o))
    (hg : RecordRises cfg p ls (.op (.kv o) (.kv c)))
    (hex : Engine.exec p ls.kv o c = some (kv, r)) :
    ∃ g', Post cfg (gs i) (.kv o) r g' ∧ Inv cfg kv (Function.update gs i g') := by
  have hsame : Function.update gs i (gs i) = gs := Function.update_eq_self i gs
  have hbound := hinv.bound i
  cases o with
  | getTimestampOracle =>
    obtain ⟨rfl, -⟩ := Engine.exec_getTimestampOracle hex
    exact ⟨_, rfl, hsame.symm ▸ hinv⟩
  | getPartitions start stop =>
    obtain ⟨rfl, -⟩ := Engine.exec_getPartitions hex
    exact ⟨_, rfl, hsame.symm ▸ hinv⟩
  | iter reader start stop ts limit =>
    obtain ⟨rfl, -⟩ := Engine.exec_iter hex
    exact ⟨_, rfl, hsame.symm ▸ hinv⟩
  | get key =>
    obtain ⟨rfl, hok, hnone⟩ := Engine.exec_get hex
    refine ⟨_, ⟨rfl, ?_⟩, hsame.symm ▸ hinv⟩
    intro hkey
    subst hkey
    constructor
    · intro v hv
      simpa [compactRecord, hok v hv] using hbound
    · intro hnf
      simpa [compactRecord, hnone hnf] using hbound
  | commit w ops =>
    have hput (hch : c = .ok ∨ ∃ e, c = .failApplied e) :
        ∀ v ttl, ops = [.put (getCompactKey cfg.keyPrefix) v ttl] →
          compactRecord cfg (Engine.State.now ls.kv) ≤ Bytes.toNatBE (v.take 8) := by
      intro v ttl hops
      refine hg ⟨w, ops⟩ ?_ v ttl hops
      rcases hch with rfl | ⟨e, rfl⟩ <;> rfl
    rcases Engine.execCommit_cases hex with ⟨rfl, hl, rfl⟩ | ⟨e, rfl, hl, rfl, -⟩ |
      ⟨e, rfl, rfl, rfl, -⟩ | ⟨n, rfl, rfl, rfl⟩
    · obtain ⟨hinv', hrec⟩ := hinv.land hpre hl (hput (.inl rfl))
      cases w with
      | record C =>
        refine ⟨_, rfl, hinv'.set ?_ i⟩
        exact max_le (hinv'.bound i) (le_of_eq (hrec C rfl).symm)
      | create _ _ | update _ _ _ | delete _ _ _ | overwrite _ _ _ =>
        exact ⟨_, rfl, hsame.symm ▸ hinv'⟩
    · obtain ⟨hinv', -⟩ := hinv.land hpre hl (hput (.inr ⟨e, rfl⟩))
      refine ⟨gs i, ?_, hsame.symm ▸ hinv'⟩
      cases w <;> rfl
    · refine ⟨gs i, ?_, hsame.symm ▸ hinv⟩
      cases w <;> rfl
    · refine ⟨gs i, ?_, hsame.symm ▸ ⟨hinv.bound, hinv.gcRev, hinv.rising, ?_⟩⟩
      · cases w <;> rfl
      · exact List.forall_mem_snoc.mpr ⟨hinv.pending, hpre⟩
  | del C key =>
    have hC : C ≤ compactRecord cfg (Engine.State.now ls.kv) := hpre.1.trans hbound
    rcases (Engine.execDel_cases hex).2 with rfl | ⟨rfl, -⟩
    · exact ⟨_, rfl, hsame.symm ▸ hinv.delete hC hpre.2⟩
    · exact ⟨_, rfl, hsame.symm ▸ hinv.callDelete hC⟩
  | delCurrent C key val =>
    have hC : C ≤ compactRecord cfg (Engine.State.now ls.kv) := hpre.1.trans hbound
    rcases Engine.execDelCurrent_cases hex with ⟨-, -, rfl | ⟨rfl, -⟩⟩ | ⟨-, rfl, -⟩
    · exact ⟨_, rfl, hsame.symm ▸ hinv.delete hC hpre.2⟩
    · exact ⟨_, rfl, hsame.symm ▸ hinv.callDelete hC⟩
    · exact ⟨_, rfl, hsame.symm ▸ hinv.callDelete hC⟩

private theorem sound_op {start : ℕ} (hstart : start < 2 ^ 63) {s s' : LeaderState (engine p)}
    {outs : List (Option Outcome)} {i : ℕ} {o : Op} {ch : LeaderChoice (engine p)} {r : o.Res}
    {sp : Option Leader.Goroutine} (hinv : Inv cfg s.kv gs) (hpre : Pre cfg (gs i) o)
    (hseq : Sequenced start s) (hg : RecordRises cfg p s (.op o ch)) (hidle : gs outs.length = 0)
    (hlt : i < outs.length) (hex : Leader.exec cfg s outs i o ch = some (s', r, sp)) :
    ∃ g', Post cfg (gs i) o r g' ∧
      (outline cfg p).Spawned s' (Function.update gs i g') outs.length sp := by
  have hsame {kv : Engine.State} (hkv : kv = s.kv) : Inv cfg kv (Function.update gs i (gs i)) := by
    rw [Function.update_eq_self, hkv]
    exact hinv
  cases o with
  | kv o =>
    obtain ⟨c, kv, rfl, hkv, rfl, rfl⟩ := Leader.exec_kv hex
    exact sound_kv hinv hpre hg hkv
  | getRevision =>
    obtain ⟨rfl, rfl, rfl⟩ := answer_inj hex
    refine ⟨gs i, ⟨rfl, ?_⟩, hsame rfl⟩
    obtain ⟨owed, batch, phase, hl⟩ := hseq
    have hle : s.committedRevision ≤ s.dealRevision := hl.committed_le_deal trivial
    have hdeal : s.dealRevision < 2 ^ 63 := hl.deal_lt trivial hstart
    show s.committedRevision < 2 ^ 64
    omega
  | spawn t =>
    obtain ⟨rfl, -, rfl⟩ := Leader.exec_spawn_task hex
    refine ⟨gs i, rfl, gs i, ?_, (hsame rfl).set (hinv.bound i) _⟩
    apply threadSafe_goroutine t
    intro w receiver ht
    subst ht
    exact hpre
  | accept =>
    obtain ⟨req, -, rfl, rfl⟩ := Leader.exec_accept hex
    refine ⟨gs i, rfl, Outline.spawned_of_idle (hsame rfl) hlt hidle fun t ht => ?_⟩
    obtain rfl := Option.some.inj ht
    exact threadSafe_goroutine _ nofun
  | _ =>
    obtain rfl := Leader.exec_no_spawn (by simp) (by simp) hex
    exact ⟨gs i, rfl, hsame (Leader.exec_storage (by simp) hex)⟩

private theorem sound_env {s s' : LeaderState (engine p)}
    {ch : LeaderChoice (engine p)} (hinv : Inv cfg s.kv gs) (hg : RecordRises cfg p s (.env ch))
    (he : Leader.env s ch = some s') : Inv cfg s'.kv gs := by
  rcases Leader.env_core he with ⟨c, kv, rfl, hkv, rfl⟩ | ⟨-, hcore⟩
  · obtain ⟨i, b, hb, hcase⟩ := Engine.env_cases hkv
    have hpend : ∀ b' ∈ (Engine.State.pending s.kv).eraseIdx i, Formed cfg b' :=
      fun b' hb' => hinv.pending b' (List.mem_of_mem_eraseIdx hb')
    have herase : Inv cfg { LeaderState.kv s with
        pending := (Engine.State.pending s.kv).eraseIdx i } gs :=
      ⟨hinv.bound, hinv.gcRev, hinv.rising, hpend⟩
    rcases hcase with ⟨rfl, hl⟩ | ⟨-, rfl⟩
    · exact (herase.land (hinv.pending b (List.mem_of_getElem? hb)) hl (hg b hb)).1
    · exact herase
  · rw [show s'.kv = s.kv from congrArg CoreView.kv hcore]
    exact hinv

theorem sound {start : ℕ} (hstart : start < 2 ^ 63) : (outline cfg p).Sound (RecordRises cfg p)
      (fun s _ s' => Sequenced start (K := engine p) s ∧ Sequenced start (K := engine p) s') where
  op := fun hseq hinv hpre hg hlt hidle _ hex =>
    sound_op hstart hinv hpre hseq.1 hg (hidle _ (le_refl _)) hlt hex
  env := fun _ hinv hg he => sound_env hinv hg he

/-- A fresh leader, over any contents of the storage. -/
theorem good_init (start : ℕ) (st : Store) :
    (outline cfg p).Good (Leader.init cfg (engine p) start (Engine.init st)) (fun _ => 0) where
  inv := ⟨fun _ => Nat.zero_le _, Nat.zero_le _, List.pairwise_singleton _ _, by
    intro b hb
    cases hb⟩
  safe := fun _ _ ht => threadSafe_quiet (Leader.confined_start ht) (by decide)
  idle := fun _ _ => rfl

end Soundness

end Record

open Record

variable {cfg : Config} {p : Engine.Policy}

/-- In runs where the plain put of the record never lowers it: the record only rises, every
deletion of a compaction has been recorded before, and a list that starts below the record
is refused, however the run goes on. -/
theorem compact_record_rises {start : ℕ} (hstart : start < 2 ^ 63) (st : Store)
    {c : Interleaving.Config (leader cfg (engine p))}
    (h : Config.Reach (RecordRises cfg p) (Leader.init cfg (engine p) start (Engine.init st)) c) :
    (Engine.State.past c.state.kv ++ [Engine.State.now c.state.kv]).Pairwise
      (fun a b => compactRecord cfg a ≤ compactRecord cfg b) ∧
    Engine.State.gcRev c.state.kv ≤ compactRecord cfg (Engine.State.now c.state.kv) ∧
    ∀ i r, c.threads[i]? = some (Leader.goroutine cfg (.request (.list r))) → 0 < r.revision →
      r.revision < compactRecord cfg (Engine.State.now c.state.kv) →
      ∀ c' a, Config.Reach (RecordRises cfg p) c c' → c'.Returned i a →
        ∃ e, a = .listed (.error e) := by
  obtain ⟨gs, hgood⟩ := (good_init start st).reach (sound hstart)
    (.of_states fun d hd => sequenced_of_reach hd) h
  refine ⟨hgood.inv.rising, hgood.inv.gcRev, ?_⟩
  intro i r hi h0 hlt c' a hr ha
  have hthread : (spec cfg).ThreadSafe (compactRecord cfg (Engine.State.now c.state.kv))
      (Leader.goroutine cfg (.request (.list r))) := threadSafe_goroutine _ nofun
  have hlist := hgood.regard hi hthread (hgood.inv.set (le_refl _) i)
  obtain ⟨gs', -, hfollows⟩ := hlist.run (sound hstart)
    (.of_states fun d hd => sequenced_of_reach (h.trans hd)) hr
  have hsafe : (spec cfg).Safe (fun _ a => ∃ e, a = .listed (.error e))
      (Function.update gs i (compactRecord cfg (Engine.State.now c.state.kv)) i)
      (Leader.handle cfg (.list r)) := by
    rw [Function.update_self]
    apply (safe_handleList_reject h0 hlt).bind
    intro g' b hb
    obtain ⟨e, rfl⟩ := hb
    exact ⟨e, rfl⟩
  exact hfollows.returned hi hsafe ha

/-- The check of the condition on a schedule. -/
private def recordCheck (s : LeaderState (engine .atTimestamp))
    (mv : Move (leader sampleConfig (engine .atTimestamp))) : Bool :=
  match landing s mv with
  | some ⟨_, [.put _ v _]⟩ =>
    compactRecord sampleConfig (Engine.State.now s.kv) ≤ Bytes.toNatBE (v.take 8)
  | _ => true

private theorem recordRises_of_check (s : LeaderState (engine .atTimestamp))
    (mv : Move (leader sampleConfig (engine .atTimestamp))) (h : recordCheck s mv = true) :
    RecordRises sampleConfig .atTimestamp s mv := by
  intro b hb v ttl hops
  obtain ⟨w, ops⟩ := b
  subst hops
  simpa [recordCheck, hb] using h

/-- A leader at revision 100. -/
abbrev sampleInit100 : Interleaving.Config (leader sampleConfig (engine .atTimestamp)) :=
  Leader.init sampleConfig (engine .atTimestamp) 100 (Engine.init SortedMap.empty)

private def samplePartition : Partition :=
  ⟨encodeObjectKey [47, 114, 47] 0, encodeObjectKey [47, 114, 48] 0⟩

/-- `Compact` at 100, up to the put of the scanner, and the arrival of a list at 60. -/
def compactThenList : List (Label (leader sampleConfig (engine .atTimestamp))) :=
  [.restart 3, .thread 3 (.request (.compact 100)), .thread 4 .none, .thread 4 .none,
    .thread 4 (.kv .ok), .thread 4 (.kv .ok), .thread 4 .none, .thread 4 .none,
    .thread 4 (.kv .ok), .thread 4 (.kv .ok),
    .restart 3, .thread 3 (.request (.list ⟨[47, 114, 47], [47, 114, 48], 60, 0⟩))]

def runList : List (Label (leader sampleConfig (engine .atTimestamp))) :=
  [.thread 5 .none, .thread 5 (.kv .ok), .thread 5 (.kv .ok)]

theorem compact_record_rises_list_refused :
    ∃ c, Config.Reach (RecordRises sampleConfig .atTimestamp) sampleInit100 c ∧
      compactRecord sampleConfig (Engine.State.now c.state.kv) = 100 ∧
      ∃ c' a, Config.Reach (RecordRises sampleConfig .atTimestamp) c c' ∧ c'.Returned 5 a ∧
        ∃ e, a = .listed (.error e) := by
  obtain ⟨c, c', hc, hreach, hreach', hrec, hret⟩ := Config.exists_of_runs recordRises_of_check
    compactThenList runList (c := sampleInit100) (P := fun c c' =>
      compactRecord sampleConfig (Engine.State.now c.state.kv) = 100 ∧
      c'.Returned 5 (.listed (.error (.compacted 60 100)))) (by rfl)
  have hthread : c.threads[5]? = some (Leader.goroutine sampleConfig
      (.request (.list ⟨[47, 114, 47], [47, 114, 48], 60, 0⟩))) := Config.thread_of_run hc (by rfl)
  exact ⟨c, hreach, hrec, c', _, hreach', hret,
    (compact_record_rises (by decide) SortedMap.empty hreach).2.2 5 _ hthread (by decide)
      (by rw [hrec]; decide) c' _ hreach' hret⟩

/-- `Compact` at 100 runs to its end, `Compact` at 50 up to the put of the scanner, and then
a list at 60 runs to its end. -/
def compactLower : List (Label (leader sampleConfig (engine .atTimestamp))) :=
  [.restart 3, .thread 3 (.request (.compact 100)), .thread 4 .none, .thread 4 .none,
    .thread 4 (.kv .ok), .thread 4 (.kv .ok), .thread 4 .none, .thread 4 .none,
    .thread 4 (.kv .ok), .thread 4 (.kv .ok), .thread 4 (.kv (.partitions [samplePartition])),
    .thread 4 .none, .thread 5 (.flag false), .thread 5 (.kv .ok), .thread 5 (.flag false),
    .thread 4 .none,
    .restart 3, .thread 3 (.request (.compact 50)), .thread 6 .none, .thread 6 .none,
    .thread 6 (.kv .ok), .thread 6 .none, .thread 6 .none, .thread 6 (.kv .ok),
    .thread 6 (.kv .ok),
    .restart 3, .thread 3 (.request (.list ⟨[47, 114, 47], [47, 114, 48], 60, 0⟩)),
    .thread 7 .none, .thread 7 (.kv .ok), .thread 7 (.kv .ok),
    .thread 7 (.kv (.partitions [samplePartition])), .thread 7 .none, .thread 8 (.flag false),
    .thread 8 (.kv .ok), .thread 8 (.flag false), .thread 7 .none]

/-- A compaction below an earlier one lowers the record: the contents of the storage, in
order, hold 0, 100, 100 and 50, and a list at 60 is answered. -/
theorem lower_compaction_lowers_record : ∃ c, Config.Reach (fun _ _ => True) sampleInit100 c ∧
      (Engine.State.past c.state.kv ++ [Engine.State.now c.state.kv]).map
        (compactRecord sampleConfig) = [0, 100, 100, 50] ∧
      c.outcomes[4]? = some (some (.compacted 100 none)) ∧
      c.outcomes[7]? = some (some (.listed (.ok ⟨100, [], false⟩))) :=
  Config.exists_of_unchecked compactLower (by rfl)

end KubeBrain

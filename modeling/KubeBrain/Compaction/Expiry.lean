import KubeBrain.Events.Owners
import KubeBrain.Lib.Rely

/-! Which events expire: the history of the compactions leads from the time of a compaction back
to a revision that was committed long enough ago. -/
namespace KubeBrain

open Interleaving

namespace Expiry

variable {cfg : Config} {K : KvStorage} {T B : ℕ}

/-- Before the time `T` the committed revision is below `B`. -/
def Early (T B : ℕ) (s : LeaderState K) : Prop := s.clock < T → s.committedRevision < B

/-- Compactions that were recorded before `T` have revisions below `B`. -/
def Inv (T B : ℕ) (s : LeaderState K) : Prop := ∀ h ∈ s.compactHistories, h.2 < T → h.1 < B

/-- Workers that start before the TTL has passed since `T` expire revisions below `B`. -/
def Ok (T B : ℕ) (s : LeaderState K) : Op → Prop
  | .historyPush C time => time < T → C < B
  | .spawn (.worker w _) => w.timeoutRevision ≠ 0 → s.clock < T + eventsTTL → w.timeoutRevision < B
  | _ => True

def Fact (T B : ℕ) (s : LeaderState K) (o : Op) (r : o.Res) : Prop :=
  match o, r with
  | .getRevision, r => s.clock < T → r < B
  | .now, r => r = s.clock
  | .historyTimeout time, r => r ≠ 0 → time < T + eventsTTL → r < B
  | _, _ => True

def protocol (cfg : Config) (T B : ℕ) {s₀ : LeaderState K} (h₀ : Inv T B s₀) :
    Protocol (leader cfg K) where
  Inv := Inv T B
  Rely := fun s s' => LeaderState.clock s ≤ LeaderState.clock s'
  Ok := Ok T B
  Fact := fun s o r _ => Fact T B s o r
  Promise := fun _ _ _ => True
  started := fun _ _ => none
  joined := fun _ _ => none
  origin := s₀
  refl := fun _ => le_refl _
  trans := fun _ _ _ => le_trans
  origin_inv := h₀

section Steps

variable {s s' : LeaderState K}

theorem op_step {outs : List (Option Outcome)} {i : ℕ} {o : Op} {ch : LeaderChoice K} {r : o.Res}
    {sp : Option Leader.Goroutine} (hearly : Early T B s) (hinv : Inv T B s) (hok : Ok T B s o)
    (hex : Leader.exec cfg s outs i o ch = some (s', r, sp)) :
    Inv T B s' ∧ s.clock ≤ s'.clock ∧ Fact T B s o r := by
  obtain ⟨hclock, hhist⟩ := Leader.exec_clock hex
  have hkeep (hk : o.kind ≠ .history) : Inv T B s' := by
    unfold Inv
    rw [hhist hk]
    exact hinv
  cases o with
  | getRevision =>
    obtain ⟨-, rfl, -⟩ := answer_inj hex
    exact ⟨hkeep (by simp), hclock.ge, hearly⟩
  | now =>
    unfold Leader.exec at hex
    simp only [Option.some.injEq, Prod.mk.injEq] at hex
    exact ⟨hkeep (by simp), hclock.ge, hex.2.1.symm⟩
  | historyPush C time =>
    obtain ⟨rfl, -⟩ := answer_inj hex
    exact ⟨List.forall_mem_snoc.mpr ⟨hinv, hok⟩, hclock.ge, trivial⟩
  | historyTimeout time =>
    obtain ⟨rfl, rfl, -⟩ := answer_inj hex
    obtain ⟨hcase, hsub⟩ := Scanner.popExpired_cases time s.compactHistories 0
    refine ⟨fun h hh => hinv h (hsub h hh), hclock.ge, fun hne htime => ?_⟩
    rcases hcase with h0 | ⟨h, hh, hrev, hle⟩
    · exact absurd h0 hne
    · rw [hrev]
      exact hinv h hh (by omega)
  | spawn t =>
    refine ⟨hkeep ?_, hclock.ge, trivial⟩
    have hdisj : ∀ k ∈ [OpKind.fork, .forkWriter, .forkWatch], k ≠ .history := by decide
    exact hdisj _ t.kind_mem
  | kv o =>
    refine ⟨hkeep ?_, hclock.ge, trivial⟩
    have hdisj : ∀ k ∈ [OpKind.read, .retryRead, .commit, .record, .gc], k ≠ .history := by decide
    exact hdisj _ o.kind_mem
  | ringStore idx ev =>
    refine ⟨hkeep ?_, hclock.ge, trivial⟩
    cases ev <;> simp
  | _ => exact ⟨hkeep (by simp), hclock.ge, trivial⟩

end Steps

section Programs

variable {s₀ : LeaderState K} {h₀ : Inv T B s₀} {g : (protocol cfg T B h₀).Ghost}

/-- Kinds of operations that need a reason. -/
def reasonedKinds : List OpKind := [.history, .forkWriter]

theorem ok_of_kind {s : LeaderState K} {o : Op} (h : o.kind ∉ reasonedKinds) : Ok T B s o := by
  cases o with
  | historyPush C time => exact absurd h (by simp [reasonedKinds])
  | spawn t =>
    cases t with
    | worker w receiver =>
      intro hne
      refine absurd h ?_
      simp [reasonedKinds, Task.kind, hne]
    | _ => trivial
  | _ => trivial

theorem safe_free {α : Type} {q : M α} {ks : List OpKind} (h : Within ks q)
    (hks : ∀ kind ∈ ks, kind ∉ reasonedKinds) :
    (protocol cfg T B h₀).spec.Safe (fun g' _ => g.Later g') g q :=
  Protocol.safe_of_ok (Q := fun o : Op => o.kind ∉ reasonedKinds) (fun _ _ ho => ok_of_kind ho)
    (Prog.Only.mono (fun _ ho => hks _ ho.1) h) g

/-- A revision that was read before `T` is below `B`. -/
def Known (g : (protocol cfg T B h₀).Ghost) (C : ℕ) : Prop :=
  LeaderState.clock g.last < T → C < B

theorem Known.later {C : ℕ} {g' : (protocol cfg T B h₀).Ghost} (h : Known g C)
    (hlater : g.Later g') :
    Known g' C := fun hT => h (lt_of_le_of_lt hlater.1 hT)

theorem safe_timeoutRevision (cfg' : Config) :
    (protocol cfg T B h₀).spec.Safe (fun g' t => g.Later g' ∧
      (t ≠ 0 → LeaderState.clock g'.last < T + eventsTTL → t < B)) g
      (Scanner.timeoutRevision cfg' true) := by
  show (protocol cfg T B h₀).spec.Safe _ g (Scanner.getTimeoutRevision cfg')
  unfold Scanner.getTimeoutRevision
  split
  · exact ⟨Protocol.Ghost.Later.refl g, fun h => absurd rfl h⟩
  · refine Spec.Safe.call_bind (fun _ _ _ => trivial) fun (time : ℕ) g₁ hpost₁ => ?_
    obtain ⟨s₁, -, -, hs₁, htime⟩ := Protocol.fact_of_post hpost₁
    have htime : time = LeaderState.clock s₁ := htime
    have hs₁ : LeaderState.clock s₁ ≤ LeaderState.clock g₁.last := hs₁
    refine ⟨fun _ _ _ => trivial, fun (t : ℕ) g₂ hpost₂ => ?_⟩
    obtain ⟨s₂, -, hs₂, hs₂', hfact⟩ := Protocol.fact_of_post hpost₂
    have hs₂ : LeaderState.clock g₁.last ≤ LeaderState.clock s₂ := hs₂
    have hs₂' : LeaderState.clock s₂ ≤ LeaderState.clock g₂.last := hs₂'
    have hfact : t ≠ 0 → time < T + eventsTTL → t < B := hfact
    refine ⟨(Protocol.later_of_post hpost₁).trans (Protocol.later_of_post hpost₂), fun hne hT => ?_⟩
    exact hfact hne (by omega)

theorem safe_scan {start stop : Bytes} {C : ℕ} (receiver : Receiver) :
    (protocol cfg T B h₀).spec.Safe (fun g' _ => g.Later g') g
      (Scanner.scan cfg start stop C true receiver) := by
  have hclock : Within [.read] (kvCall .getTimestampOracle) := .kvCall (by simp) trivial
  have hcut : Within [.read] (kvCall (.getPartitions start stop)) := .kvCall (by simp) trivial
  unfold Scanner.scan
  refine (safe_free hclock (by decide)).bind ?_
  intro g₁ tso hlater₁
  split
  · exact hlater₁
  refine (safe_free (Scanner.within_checkCompactRace cfg C true) (by decide)).bind ?_
  intro g₂ e hlater₂
  have hlater := hlater₁.trans hlater₂
  split
  · exact hlater
  refine (safe_free hcut (by decide)).bind ?_
  intro g₃ ps hlater₃
  have hlater := hlater.trans hlater₃
  split
  · exact hlater
  split
  · exact Spec.Safe.call_bind (fun _ _ _ => trivial) nofun
  refine (safe_timeoutRevision cfg).bind ?_
  intro g₄ t ⟨hlater₄, ht⟩
  refine (Scanner.safe_spawnAll (I := fun g' => g₄.Later g') ?_
    (Protocol.Ghost.Later.refl g₄)).bind ?_
  · intro x hx g' hg'
    obtain ⟨idx, hidx, rfl⟩ := List.mem_mapIdx.mp hx
    refine Spec.safe_call.mpr ⟨fun s _ hs => ?_, fun _ g'' hpost =>
      hg'.trans (Protocol.later_of_post hpost)⟩
    intro hne hT
    have hs : LeaderState.clock g'.last ≤ LeaderState.clock s := hs
    exact ht hne (lt_of_le_of_lt (hg'.1.trans hs) hT)
  intro g₅ ids hlater₅
  refine (safe_free (Scanner.within_joinAll ids) (by decide)).bind ?_
  intro g₆ rs hlater₆
  have hall := ((hlater.trans hlater₄).trans hlater₅).trans hlater₆
  split
  · exact hall
  · exact (safe_free (Scanner.within_mergeAll _ _ _) (by decide)).mono fun _ _ h => hall.trans h

theorem safe_compact {start stop : Bytes} {C : ℕ} (hC : Known g C) :
    (protocol cfg T B h₀).spec.Safe (fun g' _ => g.Later g') g
      (Scanner.compact cfg start stop C) := by
  unfold Scanner.compact
  refine Spec.Safe.call_bind (fun _ _ _ => trivial) fun (time : ℕ) g₁ hpost₁ => ?_
  obtain ⟨s₁, -, hs₁, -, htime⟩ := Protocol.fact_of_post hpost₁
  have htime : time = LeaderState.clock s₁ := htime
  have hs₁ : LeaderState.clock g.last ≤ LeaderState.clock s₁ := hs₁
  refine Spec.Safe.call_bind (fun _ _ _ => fun hT => hC (by omega)) fun _ g₂ hpost₂ => ?_
  have hlater := (Protocol.later_of_post hpost₁).trans (Protocol.later_of_post hpost₂)
  exact (safe_scan .empty).bind fun g₃ _ hlater₃ => hlater.trans hlater₃

/-- `Compact` works at a revision that is no greater than what it has read. -/
theorem safe_handleCompact {C : ℕ} :
    (protocol cfg T B h₀).spec.Safe (fun g' _ => g.Later g') g (handleCompact cfg C) := by
  unfold handleCompact
  refine Spec.Safe.call_bind (fun _ _ _ => trivial) fun (cur : ℕ) g₁ hpost₁ => ?_
  obtain ⟨s₁, -, -, hs₁, hcur⟩ := Protocol.fact_of_post hpost₁
  have hlater₁ := Protocol.later_of_post hpost₁
  have hknown (D : ℕ) (hD : D ≤ cur) : Known g₁ D := by
    intro hT
    have hs₁ : LeaderState.clock s₁ ≤ LeaderState.clock g₁.last := hs₁
    have hcur : LeaderState.clock s₁ < T → cur < B := hcur
    have := hcur (lt_of_le_of_lt hs₁ hT)
    omega
  refine (safe_free within_minRevision (by decide)).bind fun g₂ u hlater₂ => ?_
  have hlater := hlater₁.trans hlater₂
  dsimp only
  refine Spec.Safe.bind (Q := fun g' _ => g.Later g') ?_ ?_
  rotate_left
  · intro g' _ h
    exact h
  unfold compact
  refine (safe_free (within_setCompactRecord cfg _) (by decide)).bind fun g₃ e hlater₃ => ?_
  split
  · exact hlater.trans hlater₃
  · refine (safe_compactRanges (I := fun g' => g₁.Later g') cfg _ ?_
      (hlater₂.trans hlater₃) _).bind fun _ _ h => hlater₁.trans h
    intro start stop g' hg'
    refine (safe_compact ((hknown _ ?_).later hg')).mono fun _ _ h => hg'.trans h
    split <;> split <;> omega

theorem threadSafe_free {t : Leader.Goroutine} {ks : List OpKind} (ht : Confined ks t)
    (hks : ∀ kind ∈ ks, kind ∉ reasonedKinds) (hg : ∀ a, g.post a) :
    (protocol cfg T B h₀).spec.ThreadSafe g t :=
  Protocol.threadSafe_of_ok (Q := fun o : Op => o.kind ∉ reasonedKinds)
    (fun _ _ ho => ok_of_kind ho) (Prog.Only.mono (fun _ ho => hks _ ho.1) ht.1)
    (fun f h a => Prog.Only.mono (fun _ ho => hks _ ho.1) (ht.2 f h a)) hg

theorem threadSafe_goroutine (hg : ∀ a, g.post a) (t : Task) :
    (protocol cfg T B h₀).spec.ThreadSafe g (Leader.goroutine cfg t) := by
  cases t with
  | request r =>
    cases r with
    | compact C =>
      refine safe_handleCompact.bind fun g' a hlater => ?_
      show g'.post _
      rw [hlater.2]
      exact hg _
    | _ => exact threadSafe_free (confined_of_not_compacts cfg id) (by decide) hg
  | worker w receiver =>
    exact threadSafe_free (.once (Worker.within_attempts cfg.supportTTL w (fun _ => rfl) _ _ _ _) _)
      (by decide) hg
  | _ => exact threadSafe_free (confined_of_not_compacts cfg id) (by decide) hg

/-- The goroutines that a leader starts with leave the compact history alone. -/
theorem threadSafe_start (hg : ∀ a, g.post a) {i : ℕ} {t : Leader.Goroutine}
    (ht : [Leader.consumer, Leader.retryWorker, Leader.hub, Leader.server][i]? = some t) :
    (protocol cfg T B h₀).spec.ThreadSafe g t :=
  threadSafe_free (Leader.confined_start ht) (by decide) hg

end Programs

theorem sound {s₀ : LeaderState K} {h₀ : Inv T B s₀} :
    (protocol cfg T B h₀).Sound (fun s _ => Early T B s) fun _ _ _ => True where
  op := fun _ hg hinv hok hex => op_step hg hinv hok hex
  start := by
    intro s outs i o ch s' r t _ _ _ hex hinv
    obtain ⟨task, rfl, -⟩ := Leader.exec_spawned hex rfl
    exact threadSafe_goroutine (fun _ => trivial) task
  started := nofun
  joined := nofun
  env := fun _ _ hinv he => by
    obtain ⟨hclock, hhist⟩ := Leader.env_clock he
    refine ⟨fun h hh => hinv h ?_, hclock⟩
    rw [← hhist]
    exact hh

/-- Workers that start before the TTL has passed since `T` expire revisions below `B`, where the
committed revision is below `B` before `T`. -/
theorem timeoutRevision_lt {start : ℕ} {kv : K.State} {c : Interleaving.Config (leader cfg K)}
    (h : Config.Reach (fun s _ => Early (K := K) T B s) (Leader.init cfg K start kv) c) {i : ℕ}
    {w : WorkerConfig} {receiver : Receiver} {k : ℕ → M Outcome}
    {again : Option (Outcome → M Outcome)}
    (ht : c.threads[i]? = some ⟨.op (.spawn (.worker w receiver)) k, again⟩)
    (hne : w.timeoutRevision ≠ 0) (hclock : LeaderState.clock c.state < T + eventsTTL) :
    w.timeoutRevision < B := by
  have h₀ : Inv T B (Leader.initState cfg K start kv) := nofun
  have hgood : (protocol cfg T B h₀).outline.Good (Leader.init cfg K start kv)
      fun _ => (protocol cfg T B h₀).spec.idle :=
    Protocol.good_origin rfl fun i t => threadSafe_start (fun _ => trivial)
  obtain ⟨gs, hgood'⟩ := hgood.reach sound.outline (fun _ _ _ _ _ _ _ _ => trivial) h
  have hpre : (protocol cfg T B h₀).spec.Pre (gs i) (.spawn (.worker w receiver)) := hgood'.pre ht
  have hok : Ok T B c.state (.spawn (.worker w receiver)) :=
    hpre _ hgood'.inv.inv (hgood'.inv.seen i)
  exact hok hne hclock

theorem clock_le_of_reach {G : Guard (leader cfg K)} {c c' : Interleaving.Config (leader cfg K)}
    (h : Config.Reach G c c') : LeaderState.clock c.state ≤ LeaderState.clock c'.state :=
  h.state (R := fun s s' : LeaderState K => s.clock ≤ s'.clock) (fun _ => le_rfl) le_trans
    (fun hex => (Leader.exec_clock hex).1.ge) fun he => (Leader.env_clock he).1

end Expiry

variable {cfg : Config} {K : KvStorage}

/-- The revision of a version, or the one that an index value holds. -/
def heldRevision (revision : ℕ) (value : Bytes) : ℕ :=
  if revision = 0 then Bytes.toNatBE (value.take 8) else revision

/-- The TTL branch deletes the pair it looks at, of an event and up to the timeout revision. -/
theorem only_compactIfExpired (ttl : Bool) (w : WorkerConfig) (key rawKey : Bytes) (revision : ℕ)
    (value failedKey : Bytes) :
    (Worker.compactIfExpired ttl w key rawKey revision value failedKey).Only fun o : Op =>
      o = .panic ∨ (o = .kv (.delCurrent w.revision key value) ∧ revision = 0 ∨
        o = .kv (.del w.revision key) ∧ revision ≠ 0) ∧ contains rawKey events = true ∧
          w.timeoutRevision ≠ 0 ∧ heldRevision revision value ≤ w.timeoutRevision := by
  unfold Worker.compactIfExpired
  split
  · exact Prog.only_pure _
  next hopen =>
  push Not at hopen
  obtain ⟨-, hne, hevent⟩ := hopen
  have hevent : contains rawKey events = true := by simpa using hevent
  split
  · next h0 =>
    split
    · exact .bind (Prog.only_call (.inl rfl)) nofun
    split
    · next hle =>
      refine .bind (Worker.only_compactCurrent w (.inr ⟨.inl ⟨rfl, h0⟩, hevent, hne, ?_⟩) _ _)
        fun _ => Prog.only_pure _
      rwa [heldRevision, if_pos h0]
    · exact Prog.only_pure _
  · next h0 =>
    split
    · next hle =>
      refine .bind (Worker.only_compactKey w (.inr ⟨.inr ⟨rfl, h0⟩, hevent, hne, ?_⟩) _ _)
        fun _ => Prog.only_pure _
      rwa [heldRevision, if_neg h0]
    · exact Prog.only_pure _

/-- On a schedule `ls` of a leader, at a configuration `c` where a worker is started: the TTL
branch of the worker deletes a pair only if it is of an event and its revision was committed at
some instant `d` that was at least the TTL ago. Writes that come in at an instant `e` less than
the TTL before `c`, or after it, have greater revisions. -/
theorem ttl_branch_spares_recent (start : ℕ) (kv : K.State) {ls rest : List (Label (leader cfg K))}
    {c : Interleaving.Config (leader cfg K)} (hc : (Leader.init cfg K start kv).Visits ls c rest)
    {i : ℕ} {w : WorkerConfig} {receiver : Receiver} {k : ℕ → M Outcome}
    {again : Option (Outcome → M Outcome)}
    (ht : c.threads[i]? = some ⟨.op (.spawn (.worker w receiver)) k, again⟩)
    (key rawKey : Bytes) (revision : ℕ) (value failedKey : Bytes) :
    (Worker.compactIfExpired cfg.supportTTL w key rawKey revision value failedKey).Only
    fun o : Op =>
      o = .panic ∨ (o = .kv (.delCurrent w.revision key value) ∧ revision = 0 ∨
        o = .kv (.del w.revision key) ∧ revision ≠ 0) ∧ contains rawKey events = true ∧
        (∃ d rest', (Leader.init cfg K start kv).Visits ls d rest' ∧
          LeaderState.clock d.state + eventsTTL ≤ LeaderState.clock c.state ∧
          heldRevision revision value ≤ LeaderState.committedRevision d.state) ∧
        ∀ e rest', (Leader.init cfg K start kv).Visits ls e rest' →
          LeaderState.clock c.state < LeaderState.clock e.state + eventsTTL →
          ∀ (j : ℕ) (wr : Writer) (ops : List BatchOp) (k' : Option Err → M Outcome)
            (again' : Option (Outcome → M Outcome)),
            e.threads[j]? = some ⟨.op (.kv (.commit wr ops)) k', again'⟩ →
            ∀ key' r, wr.target = some (key', r) → heldRevision revision value < r := by
  refine (only_compactIfExpired _ w key rawKey revision value failedKey).mono ?_
  rintro o (rfl | ⟨hop, hevent, hne, hle⟩)
  · exact .inl rfl
  -- otherwise the committed revision was too small until the TTL before `c`
  obtain ⟨d, rest', hd, hclock, hcommitted⟩ :
      ∃ d rest', (Leader.init cfg K start kv).Visits ls d rest' ∧
        LeaderState.clock d.state + eventsTTL ≤ LeaderState.clock c.state ∧
        w.timeoutRevision ≤ LeaderState.committedRevision d.state := by
    by_contra hno
    push Not at hno
    have hearly : Config.Reach (fun s _ => Expiry.Early (K := K)
        (LeaderState.clock c.state + 1 - eventsTTL) w.timeoutRevision s)
        (Leader.init cfg K start kv) c :=
      hc.guarded fun e rest' he hlt => hno e rest' he (by omega)
    exact absurd (Expiry.timeoutRevision_lt hearly ht hne (by omega)) (lt_irrefl _)
  refine .inr ⟨hop, hevent, ⟨d, rest', hd, hclock, hle.trans hcommitted⟩, ?_⟩
  intro e rest'' he hrecent j wr ops k' again' hj key' r hr
  have hlt := committed_lt_of_commit he.reach hj hr
  rcases hd.total he with hde | hed
  · have := committed_le_of_reach hd.reach hde
    omega
  · have := Expiry.clock_le_of_reach hed
    omega

theorem run_ticks (c : Interleaving.Config (leader cfg K)) (n : ℕ) :
    c.run (fun _ _ => true) (List.replicate n (.env .tick)) =
      some ⟨{ c.state with clock := LeaderState.clock c.state + n }, c.threads⟩ := by
  induction n generalizing c with
  | zero => rfl
  | succ n ih =>
    rw [List.replicate_succ]
    refine (ih ⟨{ c.state with clock := LeaderState.clock c.state + 1 }, c.threads⟩).trans ?_
    simp only [Nat.add_assoc, Nat.add_comm 1 n]

/-- A node without TTL support in its storage. -/
def eventConfig : Config := { sampleConfig with supportTTL := false }

/-- An event under the prefix. -/
def eventKey : Bytes := [47, 114] ++ events ++ [97]

def eventRange : Partition :=
  ⟨Coder.encodeObjectKey [47, 114, 47] 0, Coder.encodeObjectKey [47, 114, 48] 0⟩

/-- The event is created and committed, then a compaction records its revision and fails. -/
def createEvent : List (Label (leader eventConfig (engine .atTimestamp))) :=
  [.restart 3, .thread 3 (.request (.create ⟨eventKey, [98], 0⟩)), .thread 4 .none,
    .thread 4 (.kv .ok), .thread 4 .none, .thread 4 .none,
    .restart 0, .thread 0 .none, .thread 0 .none, .thread 0 .none, .thread 0 .none, .thread 0 .none,
    .thread 0 .none, .restart 3, .thread 3 (.request (.compact 0)), .thread 5 .none,
      .thread 5 .none,
    .thread 5 (.kv .ok), .thread 5 (.kv .ok), .thread 5 .none, .thread 5 .none,
    .thread 5 (.kv (.fail .unavailable))]

/-- Another compaction, up to the start of its worker. -/
def expireEvent : List (Label (leader eventConfig (engine .atTimestamp))) :=
  [.restart 3, .thread 3 (.request (.compact 0)), .thread 6 .none, .thread 6 .none,
    .thread 6 (.kv .ok), .thread 6 (.kv .ok), .thread 6 .none, .thread 6 .none,
    .thread 6 (.kv .ok), .thread 6 (.kv .ok), .thread 6 (.kv (.partitions [eventRange])),
    .thread 6 .none, .thread 6 .none]

/-- The worker that a goroutine is about to start. -/
def nextWorker (t : Leader.Goroutine) : Option WorkerConfig :=
  match t.prog with
  | .op (.spawn (.worker w _)) _ => some w
  | _ => none

theorem of_nextWorker {t : Leader.Goroutine} {w : WorkerConfig} (h : nextWorker t = some w) :
    ∃ receiver k again, t = ⟨.op (.spawn (.worker w receiver)) k, again⟩ := by
  obtain ⟨prog, again⟩ := t
  unfold nextWorker at h
  dsimp only at h
  split at h
  · next w' receiver k =>
    obtain rfl := Option.some.inj h
    exact ⟨receiver, k, again, rfl⟩
  · cases h

theorem ttl_branch_spares_recent_expired :
    ∃ c w, (Leader.init eventConfig (engine .atTimestamp) 0 (Engine.init SortedMap.empty)).Visits
        (createEvent ++ List.replicate 3600 (.env .tick) ++ expireEvent) c [] ∧
      (c.threads[6]?).bind nextWorker = some w ∧ w.timeoutRevision = 1 ∧
      ∃ d rest', (Leader.init eventConfig (engine .atTimestamp) 0
          (Engine.init SortedMap.empty)).Visits
          (createEvent ++ List.replicate 3600 (.env .tick) ++ expireEvent) d rest' ∧
        LeaderState.clock d.state + eventsTTL ≤ LeaderState.clock c.state ∧
        1 ≤ LeaderState.committedRevision d.state := by
  let c₀ := Leader.init eventConfig (engine .atTimestamp) 0 (Engine.init SortedMap.empty)
  let w : WorkerConfig := ⟨0, eventRange, 4, 1, true, 1⟩
  have hrun : (c₀.run (fun _ _ => true) (createEvent ++ List.replicate 3600 (.env .tick) ++
      expireEvent)).map (fun c => (c.threads[6]?).bind nextWorker) = some (some w) := by
    rw [Config.run_append, Config.run_append]
    simp only [run_ticks]
    decide +kernel
  obtain ⟨c, hc, hw⟩ := Option.map_eq_some_iff.mp hrun
  obtain ⟨t, ht, hnext⟩ := Option.bind_eq_some_iff.mp hw
  obtain ⟨receiver, k, again, rfl⟩ := of_nextWorker hnext
  have hvisit : c₀.Visits (createEvent ++ List.replicate 3600 (.env .tick) ++ expireEvent) c [] :=
    ⟨_, (List.append_nil _).symm, hc⟩
  have honly := ttl_branch_spares_recent 0 _ hvisit ht (Coder.encodeObjectKey eventKey 1) eventKey 1
    [98] []
  obtain ⟨k', hk'⟩ : ∃ k', Worker.compactIfExpired eventConfig.supportTTL w
      (Coder.encodeObjectKey eventKey 1) eventKey 1 [98] [] =
        .op (.kv (.del 1 (Coder.encodeObjectKey eventKey 1))) k' := ⟨_, rfl⟩
  rw [hk'] at honly
  rcases honly.1 with hpanic | ⟨-, -, hd, -⟩
  · cases hpanic
  · exact ⟨c, w, hvisit, hw, rfl, hd⟩

end KubeBrain

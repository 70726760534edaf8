import KubeBrain.Events.Publication
import KubeBrain.Race.Protocol

/-! The invariant of a race: it is open and nobody has lost it, or it is decided and has one
winner. -/
namespace KubeBrain

open Interleaving Coder

namespace Race

section Invariant

variable {a : TxnEngine} {key : Bytes} {e : Expected} {start : ℕ} {base : Store}

/-- The race is open and nobody has lost it, or it is decided and has one winner. -/
def Verdict (key : Bytes) (e : Expected) (start : ℕ) (base : Store) (kv : Optimistic.State)
    (stage : ℕ → Stage) : Prop :=
  (kv = Optimistic.init base ∧ ∀ i, stage i ≠ .won ∧ stage i ≠ .lost ∧
    (stage i = .seen → e.index ≠ none)) ∨
  ∃ n w, Decided key start base n kv ∧ stage w = .won ∧ ∀ j, stage j = .won → j = w

namespace Verdict

variable {kv kv' : Optimistic.State} {stage : ℕ → Stage} {i : ℕ} {x : Stage}

variable (h : Verdict key e start base kv stage)

include h

theorem cases : kv = Optimistic.init base ∨ ∃ n, Decided key start base n kv := by
  rcases h with ⟨hkv, -⟩ | ⟨n, -, hn, -⟩
  · exact .inl hkv
  · exact .inr ⟨n, hn⟩

/-- A goroutine that has not won moves on, without a win. -/
theorem move (hi : stage i ≠ .won) (hx : x ≠ .won)
    (hlost : x = .lost → ∃ n, Decided key start base n kv)
    (hseen : x = .seen → kv = Optimistic.init base → e.index ≠ none) :
    Verdict key e start base kv (Function.update stage i x) := by
  rcases h with ⟨hkv, hnone⟩ | ⟨n, w, hn, hw, huniq⟩
  · refine .inl ⟨hkv, fun j => ?_⟩
    by_cases hj : j = i
    · subst hj
      rw [Function.update_self]
      refine ⟨hx, fun h => ?_, fun h => hseen h hkv⟩
      obtain ⟨n, hn⟩ := hlost h
      exact hn.ne_init hkv
    · rw [Function.update_of_ne hj]
      exact hnone j
  · have hwi : w ≠ i := fun h => hi (h ▸ hw)
    refine .inr ⟨n, w, hn, by rwa [Function.update_of_ne hwi], fun j hj => huniq j ?_⟩
    exact ((update_cases (P := (· = Stage.won)) hj).resolve_left fun h => hx h.2).2

/-- The first batch to commit wins. -/
theorem win {n : ℕ} (hkv : kv = Optimistic.init base) (hn : Decided key start base n kv') :
    Verdict key e start base kv' (Function.update stage i .won) := by
  rcases h with ⟨-, hnone⟩ | ⟨m, -, hm, -⟩
  · refine .inr ⟨n, i, hn, Function.update_self .., fun j hj => ?_⟩
    by_contra hji
    rw [Function.update_of_ne hji] at hj
    exact (hnone j).1 hj
  · exact absurd hkv hm.ne_init

variable (hs : Scene key e start base)

include hs

theorem seen_index (hi : stage i = .seen) : kv.now.get (encodeRevisionKey key) ≠ none := by
  rcases h with ⟨rfl, hnone⟩ | ⟨n, -, hn, -⟩
  · show base.get _ ≠ none
    rw [hs.index]
    exact (hnone i).2.2 hi
  · rw [hn.index]
    exact nofun

theorem decodes {y v : Bytes} (hy : kv.now.get y = some v) : decode y ≠ .panic := by
  rcases h.cases with rfl | ⟨n, hn⟩
  · exact hs.decodes y v hy
  · exact hn.decodes y v hy

/-- What the index can hold. -/
theorem found {v : Bytes}
    (he : ∀ p, e ≠ .live p) (hv : kv.now.get (encodeRevisionKey key) = some v) :
    Found key e start base kv v := by
  rcases h.cases with rfl | ⟨n, hn⟩
  · have hindex : e.index = some v := hs.index.symm.trans hv
    cases e with
    | absent => cases hindex
    | deleted p => exact .inl ⟨p, rfl, (Option.some.inj hindex).symm⟩
    | live p => exact absurd rfl (he p)
  · exact .inr ⟨n, Option.some.inj (hv.symm.trans hn.index), hn⟩

end Verdict

structure Inv (key : Bytes) (e : Expected) (start : ℕ) (base : Store)
    (s : LeaderState (optimistic a)) (gs : ℕ → Ghost) : Prop where
  bystander_iff : ∀ i, (gs i).stage = .bystander ↔ i < 4
  verdict : Verdict key e start base s.kv fun i => (gs i).stage
  owed : ∀ i r, (gs i).owed = some r →
    (i, r) ∈ s.journal.dealt ∧ ∀ ev ∈ s.journal.notified, ev.revision ≠ r
  certain : ∀ ev ∈ s.journal.notified, ev.isUncertain = false
  room : s.dealRevision < s.committedRevision + watchersChanCapacity
  subs : s.subs = []

/-- The race runs in the leader; its ghosts follow the requests. -/
abbrev outline (cfg : Config) (a : TxnEngine) (key : Bytes) (e : Expected) (start : ℕ)
    (base : Store) : Outline (leader cfg (optimistic a)) where
  toSpec := spec key e start
  Inv := Inv key e start base

/-- Only requests that expect the same state arrive, and revisions are dealt while the event
ring buffer has room for them. -/
def Arriving (cfg : Config) (a : TxnEngine) (key : Bytes) (e : Expected) :
    Guard (leader cfg (optimistic a)) := fun (s : LeaderState (optimistic a)) mv =>
  (∀ r, mv = .op .accept (.request r) → Joins key e r) ∧
  ∀ site ch, mv = .op (.deal site) ch →
    s.dealRevision + 1 < s.committedRevision + watchersChanCapacity

/-- And the engine of `badger` aborts no batch. -/
def Racing (cfg : Config) (a : TxnEngine) (key : Bytes) (e : Expected) :
    Guard (leader cfg (optimistic a)) := fun (s : LeaderState (optimistic a)) mv =>
  Arriving cfg a key e s mv ∧
  ∀ w ops ts, mv = .op (.kv (.commit w ops)) (.kv (.beganAt ts)) → a = .badger →
    (a.commit s.kv ts ops).2 ≠ some a.conflictError

end Invariant

section Soundness

variable {cfg : Config} {a : TxnEngine} {key : Bytes} {e : Expected} {start : ℕ} {base : Store}
  {s s' : LeaderState (optimistic a)} {gs : ℕ → Ghost} {outs : List (Option Outcome)} {i : ℕ}
  {o : Op} {ch : LeaderChoice (optimistic a)} {r : o.Res} {sp : Option Leader.Goroutine}

private theorem not_bystands_kv {o : KvOp} : ¬ Bystands (.kv o) := by
  have hkv : ∀ k ∈ [OpKind.read, .retryRead, .commit, .record, .gc],
      k ∉ [OpKind.revision, .tso, .slot, .queuePush, .cacheAdd, .chanSend] := by decide
  rintro (ho | ho)
  · exact hkv _ o.kind_mem ho
  · simp at ho

private theorem not_bystands_spawn {t : Task} : ¬ Bystands (.spawn t) := by
  have hfork : ∀ k ∈ [OpKind.fork, .forkWriter, .forkWatch],
      k ∉ [OpKind.revision, .tso, .slot, .queuePush, .cacheAdd, .chanSend] := by decide
  rintro (ho | ho)
  · exact hfork _ t.kind_mem ho
  · simp at ho

/-- The part of the state that the race depends on. -/
private theorem exec_bystands (ho : Bystands o) (hcas : ∀ old new, o ≠ .casDeal old new)
    (h : Leader.exec cfg s outs i o ch = some (s', r, sp)) :
    s'.kv = s.kv ∧ s'.dealRevision = s.dealRevision ∧ s'.journal.dealt = s.journal.dealt ∧
      s'.journal.notified = s.journal.notified ∧ s'.subs = s.subs := by
  cases o with
  | casDeal old new => exact absurd rfl (hcas old new)
  | getRevision | storeCommitted _ | loadDeal | ringLoad _ | queuePush _ | queueHead | cacheAdd _
  | hubRUnlock =>
    obtain ⟨rfl, -⟩ := answer_inj h
    exact ⟨rfl, rfl, rfl, rfl, rfl⟩
  | ringStore idx ev =>
    cases ev with
    | some ev => simp [Bystands] at ho
    | none =>
      obtain ⟨rfl, -⟩ := answer_inj h
      exact ⟨rfl, rfl, rfl, rfl, rfl⟩
  | chanSend _ =>
    obtain ⟨-, rfl, -⟩ := answer_ite h
    exact ⟨rfl, rfl, rfl, rfl, rfl⟩
  | chanRecv =>
    obtain ⟨rest, -, rfl⟩ := Leader.exec_chanRecv h
    exact ⟨rfl, rfl, rfl, rfl, rfl⟩
  | hubRLock =>
    cases ch with
    | order l =>
      obtain ⟨-, rfl, -⟩ := answer_ite h
      exact ⟨rfl, rfl, rfl, rfl, rfl⟩
    | _ => cases h
  | accept =>
    obtain ⟨req, -, rfl, -⟩ := Leader.exec_accept h
    exact ⟨rfl, rfl, rfl, rfl, rfl⟩
  | kv o => exact absurd ho not_bystands_kv
  | spawn t => exact absurd ho not_bystands_spawn
  | _ => simp [Bystands] at ho

/-- The ledger of the leader, before and after a step. -/
private theorem known {x : Option (ℕ × Op)}
    (h : (Accounts.outline cfg (optimistic a) ⟨start, True, False⟩).Known s x s') :
    Sequenced start s ∧ Sequenced start s' ∧
      ∀ i old new, x ≠ some (i, .casDeal old new) := by
  obtain ⟨⟨gs, ⟨batch, phase, hinv⟩, hpre⟩, gs', batch', phase', hinv'⟩ := h
  refine ⟨⟨_, batch, phase, hinv.ledger⟩, ⟨_, batch', phase', hinv'.ledger⟩, ?_⟩
  rintro i old new rfl
  have hpre : Accounts.Pre ⟨start, True, False⟩ (gs i) (.casDeal old new) := hpre i _ rfl
  generalize gs i = g at hpre
  obtain ⟨owed, seen, consumer⟩ := g
  cases consumer with
  | none => simp [Accounts.Pre, Accounts.OffLedger] at hpre
  | some c =>
    obtain ⟨batch, phase⟩ := c
    cases phase <;> simp [Accounts.Pre] at hpre

/-- A revision that is dealt and not published is in the window of the event ring buffer. -/
private theorem Inv.owed_window (h : Inv key e start base s gs) (hseq : Sequenced start s) {rev : ℕ}
    (hi : (gs i).owed = some rev) :
    s.committedRevision < rev ∧ rev < s.committedRevision + watchersChanCapacity := by
  obtain ⟨owed, batch, phase, hl⟩ := hseq
  obtain ⟨hdealt, hfresh⟩ := h.owed i rev hi
  obtain ⟨-, hrange, -⟩ := hl.dealt trivial
  have hmem : rev ∈ s.journal.dealt.map Prod.snd := List.mem_map_of_mem hdealt
  have hrange : s.journal.dealt.map Prod.snd =
      List.range' (start + 1) (s.dealRevision - start) := hrange
  rw [hrange, List.mem_range'_1] at hmem
  have hroom := h.room
  refine ⟨?_, by omega⟩
  by_contra hle
  obtain ⟨ev, hev, hrev⟩ := hl.filled rev (show start < rev by omega) (not_lt.mp hle)
  exact hfresh ev hev hrev

/-- Different goroutines owe different revisions. -/
private theorem Inv.owed_ne (h : Inv key e start base s gs) (hseq : Sequenced start s)
    {j rev rev' : ℕ}
    (hij : i ≠ j) (hi : (gs i).owed = some rev) (hj : (gs j).owed = some rev') : rev ≠ rev' := by
  rintro rfl
  obtain ⟨owed, batch, phase, hl⟩ := hseq
  have hrange : s.journal.dealt.map Prod.snd =
      List.range' (start + 1) (s.dealRevision - start) := (hl.dealt trivial).2.1
  have hnodup : (s.journal.dealt.map Prod.snd).Nodup := by
    rw [hrange]
    exact List.nodup_range'
  have := List.inj_on_of_nodup_map hnodup (h.owed i rev hi).1 (h.owed j rev hj).1 rfl
  exact hij (congrArg Prod.fst this)

private theorem stage_update (gs : ℕ → Ghost) (i : ℕ) (g : Ghost) :
    (fun j => (Function.update gs i g j).stage) =
      Function.update (fun j => (gs j).stage) i g.stage := by
  funext j
  exact Function.apply_update (fun _ (g : Ghost) => g.stage) gs i g j

/-- What a goroutine owes was dealt to it and has not been published. -/
def Owes (s : LeaderState (optimistic a)) (i : ℕ) (g : Ghost) : Prop :=
  ∀ r, g.owed = some r → (i, r) ∈ s.journal.dealt ∧ ∀ ev ∈ s.journal.notified, ev.revision ≠ r

/-- A goroutine takes a step, and the others owe what they owed. -/
private theorem Inv.step (h : Inv key e start base s gs) {g : Ghost}
    (hstage : g.stage = .bystander ↔ (gs i).stage = .bystander)
    (hv : Verdict key e start base s'.kv (Function.update (fun j => (gs j).stage) i g.stage))
    (hmine : Owes s' i g) (hothers : ∀ j, j ≠ i → Owes s' j (gs j))
    (hcertain : ∀ ev ∈ s'.journal.notified, ev.isUncertain = false)
    (hroom : s'.dealRevision < s'.committedRevision + watchersChanCapacity)
    (hsubs : s'.subs = s.subs) : Inv key e start base s' (Function.update gs i g) where
  bystander_iff := (Function.forall_update_iff gs fun j g => g.stage = .bystander ↔ j < 4).mpr
    ⟨hstage.trans (h.bystander_iff i), fun j _ => h.bystander_iff j⟩
  verdict := by
    rw [stage_update]
    exact hv
  owed := (Function.forall_update_iff gs (Owes s')).mpr ⟨hmine, hothers⟩
  certain := hcertain
  room := hroom
  subs := hsubs.trans h.subs

/-- A goroutine of the race takes a step that changes the storage only. -/
private theorem Inv.race (h : Inv key e start base s gs) (hi : ¬ i < 4) {kv : Optimistic.State}
    {x : Stage} (hx : x ≠ .bystander)
    (hv : Verdict key e start base kv (Function.update (fun j => (gs j).stage) i x)) :
    Inv (a := a) key e start base { s with kv } (Function.update gs i { gs i with stage := x }) :=
  h.step (iff_of_false hx fun hby => hi ((h.bystander_iff i).mp hby)) hv (h.owed i)
    (fun j _ => h.owed j) h.certain h.room rfl

/-- Nothing was uncertain, so there is nothing to retry. -/
private theorem Inv.queue_nil (h : Inv key e start base s gs) (hseq : Sequenced start s) :
    s.queue = [] := by
  obtain ⟨owed, batch, phase, hl⟩ := hseq
  have happended : s.events.journal.appended = [] := by
    refine List.eq_nil_iff_forall_not_mem.mpr fun ev hev => ?_
    obtain ⟨hnot, -, hu, -⟩ := (hl.mem_appended ev).mp hev
    have hcertain := h.certain ev hnot
    rw [hcertain] at hu
    cases hu
  obtain ⟨n, hn⟩ := hl.queue
  rw [happended, List.drop_nil] at hn
  exact List.map_eq_nil_iff.mp hn

section

variable (hinv : Inv key e start base s gs)

include hinv

private theorem sound_bystands (hseq : Sequenced start s)
    (hseq' : Sequenced start s') (hcas : ∀ old new, o ≠ .casDeal old new) (ho : Bystands o)
    (hex : Leader.exec cfg s outs i o ch = some (s', r, sp)) :
    Post e start (gs i) o r (gs i) ∧ Inv key e start base s' gs := by
  obtain ⟨hkv, hdeal, hdealt, hnotified, hsubs⟩ := exec_bystands ho hcas hex
  have hcommitted := hseq.committed_le hseq' (Leader.exec_journal hex).2
  constructor
  · cases o with
    | queueHead =>
      unfold Leader.exec at hex
      simp only [hinv.queue_nil hseq, Option.some.injEq, Prod.mk.injEq] at hex
      exact ⟨rfl, hex.2.1.symm⟩
    | hubRLock =>
      cases ch with
      | order l =>
        obtain ⟨hperm, -, rfl, -⟩ := answer_ite hex
        rw [hinv.subs] at hperm
        exact ⟨rfl, (List.isPerm_iff.mp hperm).eq_nil⟩
      | _ => cases hex
    | getRevision =>
      obtain ⟨-, rfl, -⟩ := answer_inj hex
      exact ⟨rfl, fun rev hrev => hinv.owed_window hseq hrev⟩
    | deal site => simp [Bystands] at ho
    | ringStore idx ev =>
      cases ev with
      | none => rfl
      | some ev => simp [Bystands] at ho
    | kv o => exact absurd ho not_bystands_kv
    | _ => rfl
  · refine ⟨hinv.bystander_iff, ?_, ?_, ?_, ?_, ?_⟩
    · rw [hkv]
      exact hinv.verdict
    · rw [hdealt, hnotified]
      exact hinv.owed
    · rw [hnotified]
      exact hinv.certain
    · have := hinv.room
      omega
    · rw [hsubs]
      exact hinv.subs

/-- Dealing a revision enters the race. -/
private theorem sound_deal {site : DealSite} {r : ℕ}
    (hseq : Sequenced start s) (hstage : (gs i).stage = .ready)
    (hroom : s.dealRevision + 1 < s.committedRevision + watchersChanCapacity)
    (hex : Leader.exec cfg s outs i (.deal site) ch = some (s', r, sp)) :
    Post e start (gs i) (.deal site) r ⟨.trying, some r⟩ ∧
      Inv key e start base s' (Function.update gs i ⟨.trying, some r⟩) := by
  obtain ⟨hlt, rfl, rfl, -⟩ := answer_ite hex
  obtain ⟨owed, batch, phase, hl⟩ := hseq
  obtain ⟨hstart, -, hnot, -⟩ := hl.dealt trivial
  have hstart : start ≤ s.dealRevision := hstart
  refine ⟨⟨by omega, hlt, rfl⟩, hinv.step (by simp [hstage])
    (hinv.verdict.move (by simp [hstage]) nofun nofun nofun) ?_ ?_ hinv.certain hroom rfl⟩
  · intro rev hrev
    obtain rfl := Option.some.inj hrev
    refine ⟨by simp, fun ev hev hrev => ?_⟩
    have hle : ev.revision ≤ s.dealRevision := hnot ev hev
    omega
  · intro j _ rev hj
    obtain ⟨hdealt, hfresh⟩ := hinv.owed j rev hj
    exact ⟨List.mem_append_left _ hdealt, hfresh⟩

/-- Publishing a certain result pays the debt. -/
private theorem sound_publish {idx : ℕ} {ev : WatchEvent} {r : Unit} (hseq : Sequenced start s)
    (howed : (gs i).owed = some ev.revision) (hcertain : ev.isUncertain = false)
    (hex : Leader.exec cfg s outs i (.ringStore idx (some ev)) ch = some (s', r, sp)) :
    Inv key e start base s' (Function.update gs i { gs i with owed := none }) := by
  obtain ⟨rfl, -⟩ := answer_inj hex
  refine hinv.step Iff.rfl ?_ nofun (fun j hji rev hj => ?_) ?_ hinv.room rfl
  · rw [Function.update_eq_self_iff.mpr rfl]
    exact hinv.verdict
  · obtain ⟨hdealt, hfresh⟩ := hinv.owed j rev hj
    exact ⟨hdealt, List.forall_mem_append.mpr ⟨hfresh, List.forall_mem_singleton.mpr
      (hinv.owed_ne hseq (Ne.symm hji) howed hj)⟩⟩
  · exact List.forall_mem_append.mpr ⟨hinv.certain, List.forall_mem_singleton.mpr hcertain⟩

/-- A value of the index tells a goroutine to go on or that it has lost. -/
private theorem Inv.judge {v : Bytes} (hi : ¬ i < 4)
    (hwon : (gs i).stage ≠ .won) (hfound : Found key e start base s.kv v) :
    ∃ g', Judged e v (gs i) g' ∧ Inv key e start base s (Function.update gs i g') := by
  rcases hfound with ⟨p, rfl, rfl⟩ | ⟨n, rfl, hn⟩
  · exact ⟨_, .inl ⟨p, rfl, rfl, rfl⟩,
      hinv.race hi nofun (hinv.verdict.move hwon nofun nofun fun _ _ => nofun)⟩
  · exact ⟨_, .inr ⟨n, hn.lt, rfl, rfl⟩,
      hinv.race hi nofun (hinv.verdict.move hwon nofun (fun _ => ⟨n, hn⟩) nofun)⟩

end

section

variable (hs : Scene key e start base)

include hs

variable (hinv : Inv key e start base s gs)

include hinv

/-- A compare-and-swap from the expected state settles the race for its writer. -/
private theorem Inv.settle {kv : Optimistic.State} {ts p rev : ℕ} {d : Bool} {val : Bytes} {ttl : ℤ}
    {r : Option Err} (hi : ¬ i < 4)
    (hwon : (gs i).stage ≠ .won) (hindex : e.index = some (indexValue p d)) (hp : p ≤ start)
    (hrev : start < rev) (hlt : rev < 2 ^ 63) (hts : ts ≤ s.kv.commits.length)
    (hquiet : a = .badger → r ≠ some a.conflictError)
    (hc : a.commit s.kv ts (casOps key rev (indexValue p d) val ttl) = (kv, r)) :
    ∃ g', StageAfter r (gs i) g' ∧
      Inv (a := a) key e start base { s with kv } (Function.update gs i g') := by
  rcases commit_cas hs hindex hp hinv.verdict.cases hrev hlt hts hquiet hc with
    ⟨rfl, hinit, hn⟩ | ⟨rfl, ⟨err, rfl, herr⟩, hdecided⟩
  · exact ⟨_, rfl, hinv.race hi nofun (hinv.verdict.win hinit hn)⟩
  · exact ⟨_, ⟨herr, rfl⟩,
      hinv.race hi nofun (hinv.verdict.move hwon nofun (fun _ => hdecided) nofun)⟩

/-- A creation wins, loses, or sees a tombstone. -/
private theorem Inv.try {kv : Optimistic.State} {ts rev : ℕ} {val : Bytes} {ttl : ℤ}
    {r : Option Err} (hi : ¬ i < 4)
    (hwon : (gs i).stage ≠ .won) (he : ∀ p, e ≠ .live p) (hrev : start < rev) (hlt : rev < 2 ^ 63)
    (hts : ts ≤ s.kv.commits.length) (hquiet : a = .badger → r ≠ some a.conflictError)
    (hc : a.commit s.kv ts (createOps key rev val ttl) = (kv, r)) :
    ∃ g', Tried e r (gs i) g' ∧
      Inv (a := a) key e start base { s with kv } (Function.update gs i g') := by
  rcases commit_create hs he hinv.verdict.cases hrev hlt hts hquiet hc with
    ⟨rfl, hinit, hn⟩ | ⟨rfl, ⟨x, v, rfl, hfound⟩ | ⟨err, rfl, hcas, hne, hpresent⟩⟩
  · exact ⟨_, rfl, hinv.race hi nofun (hinv.verdict.win hinit hn)⟩
  · obtain ⟨g', hj, hinv'⟩ := hinv.judge hi hwon hfound
    exact ⟨g', .inl ⟨x, v, rfl, hj⟩, hinv'⟩
  · refine ⟨_, .inr ⟨hcas, hne, rfl⟩,
      hinv.race hi nofun (hinv.verdict.move hwon nofun nofun fun _ hinit => ?_)⟩
    rw [hinit] at hpresent
    exact hs.index ▸ hpresent

private theorem sound_commit {w : Writer} {ops : List BatchOp} {r : Option Err} (hi : ¬ i < 4)
    (hpre : Pre key e start (gs i) (.kv (.commit w ops)))
    (hg : Racing cfg a key e s (.op (.kv (.commit w ops)) ch))
    (hex : Leader.exec cfg s outs i (.kv (.commit w ops)) ch = some (s', r, sp)) :
    ∃ g', Post e start (gs i) (.kv (.commit w ops)) r g' ∧
      Inv key e start base s' (Function.update gs i g') := by
  obtain ⟨c, kv, rfl, hkv, rfl, -⟩ := Leader.exec_kv hex
  obtain ⟨ts, rfl, hts, hc⟩ := Optimistic.exec_commit hkv
  have hquiet : a = .badger → r ≠ some a.conflictError := by
    intro ha
    have := hg.2 w ops ts rfl ha
    rwa [hc] at this
  cases hstage : (gs i).stage with
  | trying =>
    simp only [Pre, hstage] at hpre
    obtain ⟨w', rev, val, ttl, hop, hrev, hlt⟩ := hpre
    obtain ⟨rfl, rfl⟩ := KvOp.commit.inj (Op.kv.inj hop)
    have hwon : (gs i).stage ≠ .won := by simp [hstage]
    simp only [Post, hstage]
    cases e with
    | live p =>
      have hc : a.commit s.kv ts (casOps key rev (indexValue p false) val ttl) = (kv, r) := by
        rw [← Solo.indexValue_false]
        exact hc
      exact hinv.settle hs hi hwon rfl hs.revision_le hrev hlt hts hquiet hc
    | absent => exact hinv.try hs hi hwon (by simp) hrev hlt hts hquiet hc
    | deleted p => exact hinv.try hs hi hwon (by simp) hrev hlt hts hquiet hc
  | seen =>
    simp only [Pre, hstage] at hpre
    rcases hpre with ⟨hop, -⟩ | ⟨w', p, rev, val, ttl, hop, rfl, hrev, hlt⟩
    · cases hop
    obtain ⟨rfl, rfl⟩ := KvOp.commit.inj (Op.kv.inj hop)
    have hwon : (gs i).stage ≠ .won := by simp [hstage]
    simp only [Post, hstage]
    exact hinv.settle hs hi hwon rfl hs.revision_le hrev hlt hts hquiet hc
  | bystander => exact absurd ((hinv.bystander_iff i).mp hstage) hi
  | ready => simp [Pre, hstage] at hpre
  | won => simp [Pre, hstage] at hpre
  | lost => simp [Pre, hstage] at hpre

private theorem sound_get {x : Bytes} {r : Except Err Bytes} (hi : ¬ i < 4)
    (hpre : Pre key e start (gs i) (.kv (.get x)))
    (hex : Leader.exec cfg s outs i (.kv (.get x)) ch = some (s', r, sp)) :
    ∃ g', Post e start (gs i) (.kv (.get x)) r g' ∧
      Inv key e start base s' (Function.update gs i g') := by
  obtain ⟨c, kv, rfl, hkv, rfl, -⟩ := Leader.exec_kv hex
  obtain ⟨rfl, hread⟩ := Optimistic.exec_get hkv
  cases hstage : (gs i).stage with
  | seen =>
    simp only [Pre, hstage] at hpre
    rcases hpre with ⟨hop, he⟩ | ⟨w', p, rev, val, ttl, hop, -⟩
    · obtain rfl := KvOp.get.inj (Op.kv.inj hop)
      obtain ⟨v, hv⟩ := Option.ne_none_iff_exists'.mp (hinv.verdict.seen_index hs hstage)
      obtain ⟨g', hj, hinv'⟩ := hinv.judge hi (by simp [hstage]) (hinv.verdict.found hs he hv)
      exact ⟨g', ⟨v, hread v hv, hj⟩, hinv'⟩
    · cases hop
  | bystander => exact absurd ((hinv.bystander_iff i).mp hstage) hi
  | ready => simp [Pre, hstage] at hpre
  | trying => simp [Pre, hstage] at hpre
  | won => simp [Pre, hstage] at hpre
  | lost => simp [Pre, hstage] at hpre

private theorem sound_iter {reader : Reader} {lo hi : Bytes} {ts limit : ℕ} {r : Except Err Iter}
    (hlt : hi < lo)
    (hex : Leader.exec cfg s outs i (.kv (.iter reader lo hi ts limit)) ch = some (s', r, sp)) :
    Post e start (gs i) (.kv (.iter reader lo hi ts limit)) r (gs i) ∧
      Inv key e start base s' gs := by
  obtain ⟨c, kv, rfl, hkv, rfl, -⟩ := Leader.exec_kv hex
  obtain ⟨rfl, rfl⟩ := Optimistic.exec_iter hkv
  have hdesc := a.adapter.descends s.kv.now hlt limit
  generalize a.adapter.iter s.kv.now lo hi limit = it at hdesc
  obtain ⟨items, err⟩ := it
  obtain rfl : err = none := hdesc.err
  refine ⟨⟨rfl, items, rfl, fun x hx => ?_⟩, hinv⟩
  exact hinv.verdict.decodes hs (mem_downFrom.mp (hdesc.items.subset hx)).1

end

/-- No goroutine of the race starts a goroutine; the server starts requests. -/
private theorem not_spawn {g : Ghost} (hpre : Pre key e start g o) (t : Task) : o ≠ .spawn t := by
  rintro rfl
  cases hstage : g.stage with
  | bystander =>
    simp only [Pre, hstage] at hpre
    exact not_bystands_spawn hpre
  | _ => simp [Pre, hstage] at hpre

theorem sound (hs : Scene key e start base) :
    (outline cfg a key e start base).Sound (Racing cfg a key e)
      (Accounts.outline cfg (optimistic a) ⟨start, True, False⟩).Known where
  op := by
    intro s gs outs i o ch s' r sp hA hinv hpre hg hlt hidle _ hex
    obtain ⟨hseq, hseq', hcas⟩ := known hA
    have hspawn (t : Leader.Goroutine) (ht : sp = some t) :
        (spec key e start).ThreadSafe ⟨.ready, none⟩ t := by
      obtain ⟨task, rfl, hop | ⟨rfl, req, rfl, rfl⟩⟩ := Leader.exec_spawned hex ht
      · exact absurd hop (not_spawn hpre task)
      · exact safe_handle (hg.1.1 req rfl) hs.revision_le
    -- a goroutine that keeps its ghost, and one that takes another
    have hdone {g' : Ghost} (hpost : Post e start (gs i) o r g')
        (hinv' : Inv key e start base s' (Function.update gs i g')) :
        ∃ g', Post e start (gs i) o r g' ∧ (outline cfg a key e start base).Spawned s'
          (Function.update gs i g') outs.length sp :=
      ⟨g', hpost, Outline.spawned_of_idle hinv' hlt (hidle _ (le_refl _)) hspawn⟩
    have hkeep (h : Post e start (gs i) o r (gs i) ∧ Inv key e start base s' gs) :
        ∃ g', Post e start (gs i) o r g' ∧ (outline cfg a key e start base).Spawned s'
          (Function.update gs i g') outs.length sp :=
      hdone h.1 (by rw [Function.update_eq_self]; exact h.2)
    have hbystands (ho : Bystands o) :=
      hkeep (sound_bystands hinv hseq hseq' (fun old new ho => hcas i old new (by rw [ho])) ho hex)
    have hpublish (idx : ℕ) (ev : WatchEvent) (ho : o = .ringStore idx (some ev))
        (howed : (gs i).owed = some ev.revision) (hcertain : ev.isUncertain = false) :
        ∃ g', Post e start (gs i) o r g' ∧ (outline cfg a key e start base).Spawned s'
          (Function.update gs i g') outs.length sp := by
      subst ho
      have hexec : Leader.exec cfg s outs i (.ringStore idx (some ev)) ch = some (s', r, sp) := hex
      exact hdone rfl (sound_publish hinv hseq howed hcertain hexec)
    have hpre' := hpre
    cases hstage : (gs i).stage with
    | bystander =>
      simp only [Pre, hstage] at hpre
      exact hbystands hpre
    | ready =>
      simp only [Pre, hstage] at hpre
      obtain ⟨site, rfl, -⟩ := hpre
      have hexec : Leader.exec cfg s outs i (.deal site) ch = some (s', r, sp) := hex
      obtain ⟨hpost, hinv'⟩ := sound_deal hinv hseq hstage (hg.1.2 site ch rfl) hexec
      exact hdone hpost hinv'
    | trying =>
      have hi : ¬ i < 4 := fun hi => by simp [(hinv.bystander_iff i).mpr hi] at hstage
      simp only [Pre, hstage] at hpre
      obtain ⟨w, rev, val, ttl, rfl, -⟩ := hpre
      obtain ⟨g', hpost, hinv'⟩ := sound_commit hs hinv hi hpre' hg hex
      exact hdone hpost hinv'
    | seen =>
      have hi : ¬ i < 4 := fun hi => by simp [(hinv.bystander_iff i).mpr hi] at hstage
      simp only [Pre, hstage] at hpre
      rcases hpre with ⟨rfl, -⟩ | ⟨w, p, rev, val, ttl, rfl, -⟩
      · obtain ⟨g', hpost, hinv'⟩ := sound_get hs hinv hi hpre' hex
        exact hdone hpost hinv'
      · obtain ⟨g', hpost, hinv'⟩ := sound_commit hs hinv hi hpre' hg hex
        exact hdone hpost hinv'
    | won =>
      simp only [Pre, hstage] at hpre
      rcases hpre with rfl | ⟨idx, ev, ho, howed, hcertain⟩ | ⟨h, -⟩
      · exact hbystands (.inl (by simp))
      · exact hpublish idx ev ho howed hcertain
      · cases h
    | lost =>
      simp only [Pre, hstage] at hpre
      rcases hpre with rfl | ⟨idx, ev, ho, howed, hcertain⟩ |
        ⟨-, reader, lo, hi, ts, limit, rfl, hhi⟩
      · exact hbystands (.inl (by simp))
      · exact hpublish idx ev ho howed hcertain
      · exact hkeep (sound_iter hs hinv hhi hex)
  env := by
    intro s gs ch s' _ hinv _ he
    rcases Leader.env_core he with ⟨c, kv, -, hkv, -⟩ | ⟨-, hcore⟩
    · cases hkv
    · have hkv : LeaderState.kv s' = LeaderState.kv s := congrArg CoreView.kv hcore
      have hevents : LeaderState.events s' = LeaderState.events s := congrArg CoreView.events hcore
      have hjournal : LeaderState.journal s' = LeaderState.journal s :=
        congrArg EventView.journal hevents
      have hdeal : LeaderState.dealRevision s' = LeaderState.dealRevision s :=
        congrArg EventView.deal hevents
      have hcommitted : LeaderState.committedRevision s' = LeaderState.committedRevision s :=
        congrArg EventView.committed hevents
      have hsubs : LeaderState.subs s' = LeaderState.subs s :=
        congrArg HubView.subs (Leader.env_hub he)
      refine ⟨hinv.bystander_iff, ?_, ?_, ?_, ?_, ?_⟩
      · rw [hkv]
        exact hinv.verdict
      · rw [hjournal]
        exact hinv.owed
      · rw [hjournal]
        exact hinv.certain
      · rw [hdeal, hcommitted]
        exact hinv.room
      · rw [hsubs]
        exact hinv.subs

/-- Ghosts of a fresh leader. -/
def initial (i : ℕ) : Ghost := ⟨if i < 4 then .bystander else .ready, none⟩

private theorem post_bystands {g g' : Ghost}
    (ho : o.kind ∈ [.revision, .tso, .slot, .queuePush, .cacheAdd, .chanSend])
    (hpost : Post e start g o r g') : g' = g := by
  cases o with
  | getRevision => exact hpost.1
  | deal _ | queueHead | hubRLock => simp at ho
  | ringStore idx ev =>
    cases ev with
    | none => exact hpost
    | some ev => simp at ho
  | kv o => exact absurd (.inl ho) not_bystands_kv
  | _ => exact hpost

theorem good_init : (outline cfg a key e start base).Good
    (Leader.init cfg (optimistic a) start (Optimistic.init base)) initial where
  inv := by
    refine ⟨fun i => ?_, .inl ⟨rfl, fun i => ?_⟩, nofun, nofun, ?_, rfl⟩
    · simp [initial]
    · by_cases hi : i < 4 <;> simp [initial, hi]
    · exact Nat.lt_add_of_pos_right (by decide)
  safe := by
    have hloop {f : Outcome → M Outcome} {a₀ : Outcome}
        (hf : ∀ b, (spec key e start).Safe (fun g' _ => g' = ⟨.bystander, none⟩)
          ⟨.bystander, none⟩ (f b)) :
        (spec key e start).ThreadSafe ⟨.bystander, none⟩ ⟨.ret a₀, some f⟩ := by
      refine ⟨fun g _ => g = ⟨.bystander, none⟩, ?_, rfl, ?_⟩
      · rintro g' b rfl
        trivial
      · rintro g' b rfl
        exact hf b
    intro i t ht
    refine Leader.forall_start (P := fun i t => (spec key e start).ThreadSafe (initial i) t)
      ?_ ?_ ?_ ?_ ht
    · refine hloop fun b => ?_
      cases b with
      | batch evs =>
        refine Spec.Safe.bind (Q := fun (g' : Ghost) _ => g' = ⟨.bystander, none⟩) ?_
          fun g' _ h => h
        exact Spec.safe_of_still (O := spec key e start)
          (fun _ ho => ⟨.inl ho.1, fun _ _ hpost => post_bystands ho.1 hpost⟩)
          (within_collectStorageWriteEvents evs)
      | _ => rfl
    · refine hloop fun _ => ?_
      refine ⟨.inr (by simp), fun r g' hpost => ?_⟩
      obtain ⟨hg', rfl⟩ := hpost
      exact hg'
    · refine hloop fun _ => ?_
      refine ⟨.inr (by simp), fun r g' hpost => ?_⟩
      obtain rfl : g' = ⟨.bystander, none⟩ := hpost
      refine ⟨.inr (by simp), fun r g' hpost => ?_⟩
      obtain ⟨hg', rfl⟩ := hpost
      obtain rfl : g' = ⟨.bystander, none⟩ := hg'
      exact ⟨.inr (by simp), fun r g' hpost => hpost⟩
    · exact hloop fun _ => ⟨.inr (by simp), fun r g' hpost => hpost⟩
  idle := by
    intro i hi
    have hi : 4 ≤ i := hi
    simp [initial, Nat.not_lt.mpr hi]

/-- The ledger accompanies every run. -/
theorem holds_known : Outline.Holds (Racing cfg a key e)
    (Accounts.outline cfg (optimistic a) ⟨start, True, False⟩).Known
    (Leader.init cfg (optimistic a) start (Optimistic.init base)) :=
  Outline.Good.known (Accounts.sound (G := Racing cfg a key e) False.elim)
    (fun _ _ _ _ _ _ _ _ => trivial)
    (Accounts.good_init (K := optimistic a) ⟨start, True, False⟩ trivial (Optimistic.init base))

theorem good_of_reach (hs : Scene key e start base)
    {c : Interleaving.Config (leader cfg (optimistic a))} (hr : Config.Reach (Racing cfg a key e)
      (Leader.init cfg (optimistic a) start (Optimistic.init base)) c) :
    ∃ gs, (outline cfg a key e start base).Good c gs :=
  good_init.reach (sound hs) holds_known hr

end Soundness

end Race
end KubeBrain

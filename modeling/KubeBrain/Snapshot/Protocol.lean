import KubeBrain.Compaction.Record
import KubeBrain.Snapshot.Published
import KubeBrain.Snapshot.Worker

/-! What a reader may rely on while other goroutines write and compact: the contents at its
timestamp stay as they were, and a worker that it starts keeps to them. -/
namespace KubeBrain

open Interleaving Coder

/-- Partitions are the regions of the placement driver, cut at internal keys of plain user keys. -/
def Regional (cfg : Config) (p : Engine.Policy) : Guard (leader cfg (engine p)) := fun _ mv =>
  ∀ start stop ps, mv = .op (.kv (.getPartitions start stop)) (.kv (.partitions ps)) →
    ∃ regs, ps = Tikv.getPartitions regs start stop ∧ Tikv.Covers regs start stop ∧
      ∀ c ∈ Tikv.borders regs, PlainInternal c

/-- Runs on a storage with timestamps in which no commit is uncertain, the compact record is never
lowered and ranges are cut into regions. -/
def DecidedRegional (cfg : Config) : Guard (leader cfg (engine .atTimestamp)) := fun s mv =>
  Decided cfg .atTimestamp s mv ∧ RecordRises cfg .atTimestamp s mv ∧ Regional cfg .atTimestamp s mv

namespace Snapshot

/-- A state that a run comes to. -/
def Reached (cfg : Config) (start : ℕ) (base : Store) (s : LeaderState (engine .atTimestamp)) :
    Prop :=
  ∃ c, Config.Reach (DecidedRegional cfg)
    (Leader.init cfg (engine .atTimestamp) start (Engine.init base))
    c ∧ c.state = s

structure HistoryGrows (s s' : LeaderState (engine .atTimestamp)) : Prop where
  kv : Engine.PastGrows s.kv s'.kv
  committed : s.committedRevision ≤ s'.committedRevision
  notified : s.journal.notified <+: s'.journal.notified

theorem HistoryGrows.refl (s : LeaderState (engine .atTimestamp)) : HistoryGrows s s :=
  ⟨.refl _, le_rfl, List.prefix_refl _⟩

theorem HistoryGrows.trans {s₁ s₂ s₃ : LeaderState (engine .atTimestamp)} (h₁ : HistoryGrows s₁ s₂)
    (h₂ : HistoryGrows s₂ s₃) : HistoryGrows s₁ s₃ :=
  ⟨h₁.kv.trans h₂.kv, h₁.committed.trans h₂.committed, h₁.notified.trans h₂.notified⟩

/-- What the answers that a reader looks at say. -/
def Fact (o : Op) (r : o.Res) (s' : LeaderState (engine .atTimestamp)) : Prop :=
  match o, r with
  | .getRevision, r => r = s'.committedRevision
  | .kv .getTimestampOracle, r => ∀ ts, r = .ok ts → ts = Engine.State.timestamp s'.kv
  | .kv (.get key), r => (∀ v, r = .ok v → (Engine.State.now s'.kv).get key = some v) ∧
      (r = .error .keyNotFound → (Engine.State.now s'.kv).get key = none)
  | .kv (.getPartitions start stop), r => ∀ ps, r = .ok ps →
      ∃ regs, ps = Tikv.getPartitions regs start stop ∧ Tikv.Covers regs start stop ∧
        ∀ c ∈ Tikv.borders regs, PlainInternal c
  | .kv (.iter _ start stop ts limit), r => ∀ it, r = .ok it →
      it.items <+: Engine.items (Engine.State.snapshot s'.kv ts) start stop limit ∧
      (it.err = none → it.items = Engine.items (Engine.State.snapshot s'.kv ts) start stop limit)
  | _, _ => True

/-- What a worker that lists the contents at its timestamp hands over. -/
def Delivers (ttl : Bool) (w : WorkerConfig) (r₀ : Receiver) (st : Store) (a : Outcome) : Prop :=
  ∀ r res, a = .scanned r res →
    Worker.Found ttl w r₀ (Engine.items st w.partition.start w.partition.stop 0) r res

/-- List workers promise to keep to their timestamp. -/
def Promise (cfg : Config) (s : LeaderState (engine .atTimestamp)) : Op → Outcome → Prop
  | .spawn (.worker w r₀), a => Worker.Lists w → r₀.Local → 0 < w.tso →
      w.tso ≤ Engine.State.timestamp s.kv →
      Worker.WellFormed cfg.supportTTL w (Engine.State.snapshot s.kv w.tso) →
      Delivers cfg.supportTTL w r₀ (Engine.State.snapshot s.kv w.tso) a
  | _, _ => True

abbrev protocol (cfg : Config) (start : ℕ) (base : Store) :
    Protocol (leader cfg (engine .atTimestamp)) where
  Inv := Reached cfg start base
  Rely := HistoryGrows
  Ok := fun _ _ => True
  Fact := fun _ o r s' => Fact o r s'
  Promise := Promise cfg
  started := fun o r => match o, r with
    | .spawn _, r => some r
    | _, _ => none
  joined := fun o r => match o, r with
    | .join id, r => some (id, .scanned r.1 r.2)
    | _, _ => none
  origin := (Leader.init cfg (engine .atTimestamp) start (Engine.init base)).state
  refl := HistoryGrows.refl
  trans := fun _ _ _ => HistoryGrows.trans
  origin_inv := ⟨_, .refl, rfl⟩

/-- What is known of every step of a run. -/
abbrev Known (cfg : Config) (start : ℕ) (base : Store) :
    Outline.Facts (leader cfg (engine .atTimestamp)) := fun s _ s' =>
  Reached cfg start base s ∧ Reached cfg start base s' ∧ HistoryGrows s s'

section Steps

variable {cfg : Config} {start : ℕ} {base : Store} {s s' : LeaderState (engine .atTimestamp)}
  {outs : List (Option Outcome)} {i : ℕ} {o : Op} {ch : LeaderChoice (engine .atTimestamp)}
  {r : o.Res} {sp : Option Leader.Goroutine}

theorem kv_of_exec (h : Leader.exec cfg s outs i o ch = some (s', r, sp)) :
    Engine.PastGrows s.kv s'.kv := by
  by_cases ho : ∃ o', o = .kv o'
  · obtain ⟨o', rfl⟩ := ho
    obtain ⟨c, kv, rfl, hkv, rfl, -⟩ := Leader.exec_kv (K := engine .atTimestamp) h
    exact Engine.exec_later hkv
  · have hkv := Leader.exec_storage (K := engine .atTimestamp) (fun o' heq => ho ⟨o', heq⟩) h
    rw [hkv]
    exact .refl _

theorem kv_of_env (h : Leader.env s ch = some s') : Engine.PastGrows s.kv s'.kv := by
  rcases Leader.env_core (K := engine .atTimestamp) h with ⟨c, kv, -, hkv, rfl⟩ | ⟨-, hcore⟩
  · exact Engine.env_later hkv
  · have hkv : s'.kv = s.kv := congrArg CoreView.kv hcore
    rw [hkv]
    exact .refl _

/-- A run moves on. -/
theorem later_of_reach {c c' : Interleaving.Config (leader cfg (engine .atTimestamp))}
    (h : Config.Reach (DecidedRegional cfg)
      (Leader.init cfg (engine .atTimestamp) start (Engine.init base)) c)
    (h' : Config.Reach (DecidedRegional cfg) c c') : HistoryGrows c.state c'.state := by
  refine ⟨?_, committed_le_of_reach h h', (journal_of_reach h').1⟩
  exact h'.state (R := fun s s' : LeaderState (engine .atTimestamp) => Engine.PastGrows s.kv s'.kv)
    (fun _ => .refl _) .trans kv_of_exec kv_of_env

theorem holds_known : Outline.Holds (DecidedRegional cfg) (Known cfg start base)
      (Leader.init cfg (engine .atTimestamp) start (Engine.init base)) := by
  intro d d' l x hr hl hG _
  have hstep : Config.Reach (DecidedRegional cfg) d d' := .single ⟨l, hl, hG⟩
  exact ⟨⟨d, hr, rfl⟩, ⟨d', hr.trans hstep, rfl⟩, later_of_reach hr hstep⟩

/-- The answers say what they are taken to say. -/
theorem fact_of_exec (hG : Regional cfg .atTimestamp s (.op o ch))
    (h : Leader.exec cfg s outs i o ch = some (s', r, sp)) : Fact o r s' := by
  cases o with
  | getRevision =>
    obtain ⟨rfl, rfl, -⟩ := answer_inj h
    rfl
  | kv o =>
    obtain ⟨c, kv, rfl, hkv, rfl, -⟩ := Leader.exec_kv (K := engine .atTimestamp) h
    cases o with
    | getTimestampOracle =>
      obtain ⟨rfl, hts⟩ := Engine.exec_getTimestampOracle hkv
      exact hts
    | get key =>
      obtain ⟨rfl, hget⟩ := Engine.exec_get hkv
      exact hget
    | getPartitions a b =>
      obtain ⟨-, hps⟩ := Engine.exec_getPartitions hkv
      intro ps hr
      exact hG a b ps (by rw [hps ps hr])
    | iter reader a b ts limit =>
      obtain ⟨rfl, -, hit⟩ := Engine.exec_iter hkv
      intro it hr
      exact ⟨(hit it hr).1, (hit it hr).2.2⟩
    | _ => trivial
  | _ => trivial

end Steps

section Programs

variable {cfg : Config} {start : ℕ} {base : Store} {g : (protocol cfg start base).Ghost}

/-- The ghost of a thread at a later step; nothing that was promised to it is lost. -/
structure Onward (g g' : (protocol cfg start base).Ghost) : Prop where
  later : g.Later g'
  kids : ∀ id a, g'.kids id a → g.kids id a

theorem Onward.refl (g : (protocol cfg start base).Ghost) : Onward g g :=
  ⟨.refl g, fun _ _ h => h⟩

theorem Onward.trans {g₁ g₂ g₃ : (protocol cfg start base).Ghost} (h₁ : Onward g₁ g₂)
    (h₂ : Onward g₂ g₃) : Onward g₁ g₃ :=
  ⟨h₁.later.trans h₂.later, fun id a h => h₁.kids id a (h₂.kids id a h)⟩

theorem onward_of_post {g g' : (protocol cfg start base).Ghost} {o : Op} {r : o.Res}
    (h : (protocol cfg start base).spec.Post g o r g') : Onward g g' :=
  ⟨Protocol.later_of_post h, fun _ _ => Protocol.kids_of_post h⟩

theorem fact_of_post {g g' : (protocol cfg start base).Ghost} {o : Op} {r : o.Res}
    (h : (protocol cfg start base).spec.Post g o r g') : Fact o r g'.last := by
  obtain ⟨s, -, -, -, hfact⟩ := Protocol.fact_of_post h
  exact hfact

theorem safe_call (o : Op) : (protocol cfg start base).spec.Safe
    (fun g' r => Onward g g' ∧ Fact o r g'.last) g (call o) :=
  Spec.safe_call.mpr ⟨fun _ _ _ => trivial, fun _ _ h => ⟨onward_of_post h, fact_of_post h⟩⟩

theorem safe_panics {α : Type} {Q : (protocol cfg start base).Ghost → α → Prop} :
    (protocol cfg start base).spec.Safe Q g (panics : M α) :=
  ⟨fun _ _ _ => trivial, fun r => r.elim⟩

/-- Programs of which nothing is to be known. -/
theorem safe_any {α : Type} (q : M α) :
    (protocol cfg start base).spec.Safe (fun g' _ => Onward g g') g q := by
  induction q generalizing g with
  | ret a => exact Onward.refl g
  | op o k ih =>
    refine ⟨fun _ _ _ => trivial, fun r g' hpost => ?_⟩
    exact (ih r).mono fun _ _ h => (onward_of_post hpost).trans h

theorem threadSafe_any (t : Leader.Goroutine) (hg : ∀ a, g.post a) :
    (protocol cfg start base).spec.ThreadSafe g t := by
  obtain ⟨q, again⟩ := t
  have hany (g' : (protocol cfg start base).Ghost) (hpost : g'.post = g.post) (q : M Outcome) :
      (protocol cfg start base).spec.Safe (fun g'' _ => g''.post = g.post) g' q :=
    (safe_any q).mono fun _ _ h => h.later.2.trans hpost
  have hfin (g' : (protocol cfg start base).Ghost) (a : Outcome) (hpost : g'.post = g.post) :
      g'.post a := by
    rw [hpost]
    exact hg a
  cases again with
  | none => exact (hany g rfl q).mono hfin
  | some f => exact ⟨fun g' _ => g'.post = g.post, hfin, hany g rfl q,
      fun g' a hpost => hany g' hpost (f a)⟩

/-- What is kept of the contents that a timestamp named. -/
def Keeps (s : LeaderState (engine .atTimestamp)) (ts : ℕ) (st : Store) : Prop :=
  0 < ts ∧ ts ≤ Engine.State.timestamp s.kv ∧ Engine.State.snapshot s.kv ts = st

theorem Keeps.later {s s' : LeaderState (engine .atTimestamp)} {ts : ℕ} {st : Store}
    (h : Keeps s ts st) (hlater : HistoryGrows s s') : Keeps s' ts st := by
  obtain ⟨hpos, hle, hst⟩ := h
  obtain ⟨hle', hsnap⟩ := Sweep.snapshot_of_past hlater.kv.past hpos hle
  exact ⟨hpos, hle', hsnap.trans hst⟩

/-- A reader at a timestamp reads the contents of that time. -/
theorem reads_of_keeps {w : WorkerConfig} {st : Store} (g₀ : (protocol cfg start base).Ghost) :
    Worker.Reads (protocol cfg start base).spec w
      (Engine.items st w.partition.start w.partition.stop 0)
      (fun g => Onward g₀ g ∧ Keeps g.last w.tso st) where
  done := by
    intro g hg
    refine ⟨fun _ _ _ => trivial, fun r g' hpost => ?_⟩
    have honward := onward_of_post hpost
    exact ⟨hg.1.trans honward, hg.2.later honward.later.1⟩
  iter := by
    intro g reader hg
    refine ⟨fun _ _ _ => trivial, fun r g' hpost => ?_⟩
    have honward := onward_of_post hpost
    have hkeeps := hg.2.later honward.later.1
    refine ⟨⟨hg.1.trans honward, hkeeps⟩, fun it hr => ?_⟩
    have hfact := fact_of_post hpost it hr
    rwa [hkeeps.2.2] at hfact

/-- The goroutine of a list worker keeps its promise. -/
theorem threadSafe_worker {w : WorkerConfig} {r₀ : Receiver}
    (hpost : ∀ a, Promise cfg g.last (.spawn (.worker w r₀)) a → g.post a) :
    (protocol cfg start base).spec.ThreadSafe g (Leader.goroutine cfg (.worker w r₀)) := by
  by_cases hlist : Worker.Lists w ∧ r₀.Local ∧ 0 < w.tso ∧
      w.tso ≤ Engine.State.timestamp g.last.kv ∧
      Worker.WellFormed cfg.supportTTL w (Engine.State.snapshot g.last.kv w.tso)
  · obtain ⟨hw, hr, hts, hle, hview⟩ := hlist
    apply (Worker.safe_attempts (reads_of_keeps g) hw hr hview _ _ _
      ⟨Onward.refl g, hts, hle, rfl⟩).bind
    intro g' a hg'
    obtain ⟨⟨honward, -⟩, hfound⟩ := hg'
    show g'.post _
    rw [honward.later.2]
    apply hpost
    intro _ _ _ _ _ r res hres
    obtain ⟨rfl, rfl⟩ := Outcome.scanned.inj hres
    exact hfound
  · apply threadSafe_any
    intro a
    apply hpost
    intro hw hr hts hle hview
    exact absurd ⟨hw, hr, hts, hle, hview⟩ hlist

theorem sound : (protocol cfg start base).Sound (DecidedRegional cfg) (Known cfg start base) where
  op := by
    intro s outs i o ch s' r sp hA hG _ _ hex
    exact ⟨hA.2.1, hA.2.2, fact_of_exec hG.2.2 hex⟩
  start := by
    intro s outs i o ch s' r t _ _ _ hex hinv
    obtain ⟨task, rfl, rfl | ⟨rfl, req, -, rfl⟩⟩ :=
      Leader.exec_spawned (K := engine .atTimestamp) hex rfl
    · cases task with
      | worker w r₀ => exact threadSafe_worker fun _ h => h
      | _ => exact threadSafe_any _ fun _ => trivial
    · exact threadSafe_any _ fun _ => trivial
  started := by
    intro s outs i o ch s' r sp id hex hid
    cases o with
    | spawn t =>
      have hout : Leader.exec cfg s outs i (.spawn t) ch = some (s', r, sp) := hex
      obtain ⟨-, hr, hsp⟩ := Leader.exec_spawn_task hout
      exact ⟨(Option.some.inj hid).symm.trans hr, by rw [hsp]; rfl⟩
    | _ => cases hid
  joined := by
    intro s outs i o ch s' r sp id a hex hid
    cases o with
    | join thread =>
      obtain ⟨rfl, rfl⟩ := Prod.mk.inj (Option.some.inj hid)
      have hout : Leader.exec cfg s outs i (.join thread) ch = some (s', r, sp) := hex
      exact Leader.exec_join hout
    | _ => cases hid
  env := by
    intro s ch s' hA _ _ _
    exact ⟨hA.2.1, hA.2.2⟩

theorem good_init : (protocol cfg start base).outline.Good
    (Leader.init cfg (engine .atTimestamp) start (Engine.init base))
    fun _ => (protocol cfg start base).spec.idle :=
  Protocol.good_origin rfl fun _ t _ => threadSafe_any t fun _ => trivial

end Programs
end Snapshot
end KubeBrain

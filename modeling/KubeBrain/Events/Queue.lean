import KubeBrain.Events.Publication
import KubeBrain.Lib.Linked

/-! The retry queue of uncertain operations as its source lays it out, and the revision that
`Compact` chooses next to it. -/
namespace KubeBrain

open Interleaving Linked

/-- Nodes on a heap, with pointers to the first and to the last one of the queue. -/
structure EventQueue where
  nodes : Heap (WatchEvent × ℕ)
  queueSize : ℤ
  head : Option ℕ
  tail : Option ℕ

namespace EventQueue

def new : EventQueue := ⟨[], 0, none, none⟩

def push (q : EventQueue) (event : WatchEvent) (time : ℕ) : EventQueue :=
  let node := q.nodes.length
  let linked := match q.tail with
    | some tail => q.nodes.modify tail fun last => { last with next := some node }
    | none => q.nodes
  { nodes := linked ++ [⟨(event, time), none⟩]
    queueSize := q.queueSize + 1
    head := if q.head = none then some node else q.head
    tail := some node }

/-- `none` where the source reads through a nil pointer. -/
def pop (q : EventQueue) : Option EventQueue :=
  if q.queueSize - 1 = 0 then
    some { q with queueSize := q.queueSize - 1, head := none, tail := none }
  else
    match q.head.bind fun head => q.nodes[head]? with
    | none => none
    | some node => some { q with queueSize := q.queueSize - 1, head := node.next }

def getHead (q : EventQueue) : Option (WatchEvent × ℕ) :=
  (q.head.bind fun head => q.nodes[head]?).map Node.value

/-- The queue holds the entries `xs`, the oldest first. -/
structure Represents (q : EventQueue) (xs : List (WatchEvent × ℕ)) : Prop where
  chain : ∃ as : List ℕ, Chain q.nodes q.head as xs ∧ as.Nodup ∧ q.tail = as.getLast?
  size : q.queueSize = xs.length

theorem represents_new : new.Represents [] := ⟨⟨[], .nil, List.nodup_nil, rfl⟩, rfl⟩

namespace Represents

variable {q : EventQueue} {xs : List (WatchEvent × ℕ)}

theorem head_eq_none_iff (h : q.Represents xs) : q.head = none ↔ xs = [] := by
  obtain ⟨as, hchain, -, -⟩ := h.chain
  exact hchain.head_eq_none_iff

theorem getHead_eq (h : q.Represents xs) : q.getHead = xs.head? := by
  obtain ⟨as, hchain, -, -⟩ := h.chain
  unfold getHead
  generalize q.head = head at hchain
  cases hchain with
  | nil => rfl
  | cons read _ => simp [read]

theorem push (h : q.Represents xs) (event : WatchEvent) (time : ℕ) :
    (q.push event time).Represents (xs ++ [(event, time)]) := by
  obtain ⟨as, hchain, hnodup, htail⟩ := h.chain
  refine ⟨⟨as ++ [q.nodes.length], ?_, ?_, by simp [EventQueue.push]⟩, ?_⟩
  · cases hlast : as.getLast? with
    | none =>
      -- the first entry: the new node becomes head and tail
      obtain rfl : as = [] := List.getLast?_eq_none_iff.mp hlast
      obtain rfl : xs = [] := List.length_eq_zero_iff.mp hchain.length_eq.symm
      have hhead : q.head = none := hchain.head_eq
      simp only [EventQueue.push, htail, hlast, hhead]
      exact .cons (by simp) .nil
    | some last =>
      have hhead : q.head ≠ none := by
        rw [hchain.head_eq]
        rintro hnone
        rw [List.head?_eq_none_iff.mp hnone] at hlast
        cases hlast
      simp only [EventQueue.push, htail, hlast, if_neg hhead]
      exact hchain.snoc hnodup hlast _
  · exact List.nodup_snoc.mpr ⟨hnodup, fun hmem => lt_irrefl _ (hchain.lt_of_mem hmem)⟩
  · simp [EventQueue.push, h.size]

/-- Popping never reads through a nil pointer while the queue has an entry. -/
theorem pop {x : WatchEvent × ℕ} (h : q.Represents (x :: xs)) :
    ∃ q', q.pop = some q' ∧ q'.Represents xs := by
  obtain ⟨as, hchain, hnodup, htail⟩ := h.chain
  have hsize : q.queueSize - 1 = xs.length := by
    rw [h.size]
    simp
  unfold EventQueue.pop
  rw [hsize]
  generalize hq : q.head = head at hchain
  cases hchain with
  | @cons a _ next as _ read rest =>
    cases xs with
    | nil => exact ⟨_, if_pos rfl, ⟨[], .nil, List.nodup_nil, rfl⟩, rfl⟩
    | cons y ys =>
      rw [if_neg (by simp; omega)]
      simp only [Option.bind_some, read]
      refine ⟨_, rfl, ⟨as, rest, (List.nodup_cons.mp hnodup).2, ?_⟩, rfl⟩
      cases rest with
      | cons _ _ => rw [htail, List.getLast?_cons_cons]

end Represents
end EventQueue

/-- The queue of a run, and the events that have left it. -/
structure Backlog where
  queue : EventQueue
  popped : List WatchEvent

namespace Backlog

variable {b : Backlog}

def new : Backlog := ⟨.new, []⟩

/-- The operation works on the linked queue. -/
def follow (b : Backlog) (clock : ℕ) : Op → Option Backlog
  | .queuePush ev => some { b with queue := b.queue.push ev clock }
  | .queuePop => b.queue.pop.map fun queue =>
      ⟨queue, b.popped ++ (b.queue.getHead.map Prod.fst).toList⟩
  | _ => some b

variable {cfg : Config} {K : KvStorage}

variable {c : Interleaving.Config (leader cfg K)}

/-- What a step of the leader does to the linked queue. -/
def along (b : Backlog) (c : Interleaving.Config (leader cfg K)) (l : Label (leader cfg K)) :
    Option Backlog :=
  match c.actor l with
  | some (some (_, o)) => b.follow (LeaderState.clock c.state) o
  | _ => some b

/-- The runs of a leader, with the linked queue that its goroutines work on. -/
inductive Tracks (c₀ : Interleaving.Config (leader cfg K)) :
    Interleaving.Config (leader cfg K) → Backlog → Prop
  | start : Tracks c₀ c₀ new
  | step {c c' : Interleaving.Config (leader cfg K)} {b b' : Backlog} {l : Label (leader cfg K)}
      (h : Tracks c₀ c b) (hl : c.step l = some c') (hb : b.along c l = some b') : Tracks c₀ c' b'

theorem Tracks.reach {c₀ : Interleaving.Config (leader cfg K)} (h : Tracks c₀ c b) :
    Config.Reach (fun _ _ => True) c₀ c := by
  induction h with
  | start => exact .refl
  | step _ hl _ ih => exact ih.tail ⟨_, hl, fun _ _ => trivial⟩

/-- The linked queue holds the leader's queue, and entries leave it in the order in which they
entered. -/
def Matches (b : Backlog) (s : LeaderState K) : Prop :=
  b.queue.Represents s.queue ∧ b.popped ++ s.queue.map Prod.fst = s.journal.appended

theorem Matches.follow {s s' : LeaderState K} {outs : List (Option Outcome)} {i : ℕ} {o : Op}
    {ch : LeaderChoice K} {r : o.Res} {sp : Option Leader.Goroutine} (h : b.Matches s)
    (hex : Leader.exec cfg s outs i o ch = some (s', r, sp)) :
    ∃ b', b.follow s.clock o = some b' ∧ b'.Matches s' := by
  obtain ⟨hq, happ⟩ := h
  rcases Leader.exec_queue hex with ⟨ev, rfl, hs, ha⟩ | ⟨rfl, hne, hs, ha⟩ | ⟨hpush, hpop, hs, ha⟩
  · refine ⟨_, rfl, ?_, ?_⟩
    · rw [hs]
      exact hq.push ev s.clock
    · rw [hs, ha, ← happ]
      simp
  · obtain ⟨x, xs, hxs⟩ := List.exists_cons_of_ne_nil hne
    rw [hxs] at hq
    obtain ⟨q', hq', hrep⟩ := hq.pop
    refine ⟨⟨q', b.popped ++ [x.1]⟩, ?_, ?_, ?_⟩
    · simp only [Backlog.follow, hq', hq.getHead_eq]
      rfl
    · rw [hs, hxs]
      exact hrep
    · rw [hs, ha, ← happ, hxs]
      simp
  · refine ⟨b, ?_, ?_, ?_⟩
    · cases o with
      | queuePush ev => exact absurd rfl (hpush ev)
      | queuePop => exact absurd rfl hpop
      | _ => rfl
    · rw [hs]
      exact hq
    · rw [hs, ha]
      exact happ

theorem Matches.along {c' : Interleaving.Config (leader cfg K)} {l : Label (leader cfg K)}
    (h : b.Matches (K := K) c.state) (hl : c.step l = some c') :
    ∃ b', b.along c l = some b' ∧ b'.Matches (K := K) c'.state := by
  rcases Config.step_cases hl with ⟨i, ch, o, k, again, s, r, sp, rfl, ht, hex, rfl⟩ |
    ⟨i, a, f, rfl, ht, rfl⟩ | ⟨ch, s, rfl, he, rfl⟩
  · unfold Backlog.along
    rw [Config.actor_thread ht]
    exact h.follow hex
  · exact ⟨b, rfl, h⟩
  · refine ⟨b, rfl, ?_⟩
    have hqueue : LeaderState.queue s = LeaderState.queue c.state := Leader.env_queue he
    have hjournal : LeaderState.journal s = LeaderState.journal c.state :=
      congrArg EventView.journal (Leader.env_events he)
    unfold Matches
    rw [hqueue, hjournal]
    exact h

theorem Tracks.matches {start : ℕ} {kv : K.State} (h : Tracks (Leader.init cfg K start kv) c b) :
    b.Matches (K := K) c.state := by
  induction h with
  | start => exact ⟨EventQueue.represents_new, rfl⟩
  | step _ hl hb ih =>
    obtain ⟨b', hb', hm⟩ := ih.along hl
    obtain rfl := Option.some.inj (hb.symm.trans hb')
    exact hm

/-- No operation reads through a nil pointer, so every run has its linked queue. -/
theorem exists_tracks {start : ℕ} {kv : K.State}
    (h : Config.Reach (fun _ _ => True) (Leader.init cfg K start kv) c) :
    ∃ b, Tracks (Leader.init cfg K start kv) c b := by
  induction h with
  | refl => exact ⟨new, .start⟩
  | tail _ hs ih =>
    obtain ⟨b, hb⟩ := ih
    obtain ⟨l, hl, -⟩ := hs
    obtain ⟨b', hb', -⟩ := hb.matches.along hl
    exact ⟨b', hb.step hl hb'⟩

end Backlog

/-! The retry worker alone pops, and only after it has seen a head. -/
namespace Popper

variable {cfg : Config} {K : KvStorage}

/-- Whether the goroutine is the retry worker, and whether it has a head in hand. -/
structure Ghost where
  worker : Bool
  held : Bool

def Pre (g : Ghost) (o : Op) : Prop := o = .queuePop → g.worker = true ∧ g.held = true

def Post (g : Ghost) (o : Op) (r : o.Res) (g' : Ghost) : Prop :=
  match o, r with
  | .queueHead, r => g' = { g with held := g.worker && r.isSome }
  | .queuePop, _ => g' = { g with held := false }
  | _, _ => g' = g

structure Inv (s : LeaderState K) (gs : ℕ → Ghost) : Prop where
  worker : ∀ i, (gs i).worker = true → i = 1
  held : ∀ i, (gs i).held = true → (gs i).worker = true ∧ s.queue ≠ []

abbrev spec : Spec sig Outcome where
  Ghost := Ghost
  idle := ⟨false, false⟩
  Pre := Pre
  Post := Post
  Fin := fun _ _ => True

abbrev outline (cfg : Config) (K : KvStorage) : Outline (leader cfg K) where
  toSpec := spec
  Inv := Inv

/-- Programs that do not pop are safe whoever runs them. -/
theorem safe_of_within {α : Type} {ks : List OpKind} (hks : .queuePop ∉ ks) {p : M α}
    (h : Within ks p) (g : Ghost) : spec.Safe (fun g' _ => g'.worker = g.worker) g p := by
  refine Spec.safe_of_only (O := spec) (I := fun g' : Ghost => g'.worker = g.worker) ?_ ?_ h rfl
  · rintro g' o - ho rfl
    exact absurd ho.1 hks
  · intro g' o r g'' hI ho hpost
    cases o with
    | queueHead =>
      obtain rfl : g'' = { g' with held := g'.worker && r.isSome } := hpost
      exact hI
    | queuePop => exact absurd ho.1 hks
    | _ =>
      obtain rfl : g'' = g' := hpost
      exact hI

theorem safe_retry {g : Ghost} (hw : g.worker = true) :
    spec.Safe (fun g' _ => g'.worker = true) g retry := by
  have hkeep {α : Type} {ks : List OpKind} (hks : .queueHead ∉ ks ∧ .queuePop ∉ ks) {p : M α}
      (h : Within ks p) {g : Ghost} (hg : g.worker = true ∧ g.held = true) :
      spec.Safe (fun g' _ => g'.worker = true ∧ g'.held = true) g p := by
    refine Spec.safe_of_only (O := spec)
      (I := fun g' : Ghost => g'.worker = true ∧ g'.held = true) ?_ ?_ h hg
    · intro g' o hI ho _
      exact hI
    · intro g' o r g'' hI ho hpost
      cases o with
      | queueHead => exact absurd ho.1 hks.1
      | queuePop => exact absurd ho.1 hks.2
      | _ =>
        obtain rfl : g'' = g' := hpost
        exact hI
  have hpop {g : Ghost} (hg : g.worker = true ∧ g.held = true) :
      spec.Safe (fun g' _ => g'.worker = true) g (do call .queuePop; pure false) := by
    refine Spec.Safe.call_bind (fun _ => hg) fun _ g' hpost => ?_
    obtain rfl : g' = { g with held := false } := hpost
    exact hg.1
  unfold retry
  refine Spec.Safe.call_bind nofun fun (head : Option (WatchEvent × ℕ)) g₁ hpost => ?_
  obtain rfl : g₁ = { g with held := g.worker && head.isSome } := hpost
  cases head with
  | none => exact hw
  | some node =>
    obtain ⟨event, time⟩ := node
    have hg : g.worker = true ∧ (g.worker && (some (event, time)).isSome) = true :=
      ⟨hw, by simp [hw]⟩
    refine Spec.Safe.call_bind nofun fun (now : ℕ) g₂ hpost => ?_
    obtain rfl := hpost
    dsimp only
    split
    · exact hw
    refine (hkeep (by decide) (within_overwrite _ _) (by exact hg)).bind fun g₃ a hg₃ => ?_
    obtain ⟨rev, err⟩ := a
    dsimp only
    split
    · cases err with
      | some e => exact hg₃.1
      | none => exact hpop hg₃
    · exact (hkeep (by decide) (within_notify _ _ _ _ _ _ _) hg₃).bind fun g₄ _ hg₄ => hpop hg₄

theorem threadSafe_of_within {ks : List OpKind} (hks : .queuePop ∉ ks) {t : Leader.Goroutine}
    (h : Confined ks t) (g : Ghost) : spec.ThreadSafe g t :=
  Spec.threadSafe_of_keeps (O := spec) (I := fun _ => True) (fun _ _ _ => trivial)
    ((safe_of_within hks h.1 g).mono fun _ _ _ => trivial)
    fun f hf g' a _ => (safe_of_within hks (h.2 f hf a) g').mono fun _ _ _ => trivial

theorem sound (G : Guard (leader cfg K)) : (outline cfg K).Sound G fun _ _ _ => True where
  op := by
    intro s gs outs i o ch s' r sp _ hinv hpre _ hlt hidle _ hex
    have hexec : Leader.exec cfg s outs i o ch = some (s', r, sp) := hex
    have hmove {g' : Ghost} (hpost : Post (gs i) o r g')
      (hinv' : Inv s' (Function.update gs i g')) :
        ∃ g', Post (gs i) o r g' ∧
          (outline cfg K).Spawned s' (Function.update gs i g') outs.length sp := by
      refine ⟨g', hpost, Outline.spawned_of_idle hinv' hlt (hidle _ (le_refl _)) fun t ht => ?_⟩
      obtain ⟨task, rfl, -⟩ := Leader.exec_spawned hexec ht
      exact threadSafe_of_within (by decide) (confined_goroutine cfg task) _
    have hsole {g' : Ghost} (hw : g'.worker = (gs i).worker) :
        ∀ j, (Function.update gs i g' j).worker = true → j = 1 :=
      forall_update (P := fun j (g : Ghost) => g.worker = true → j = 1) hinv.worker
        (hw ▸ hinv.worker i)
    have hsame (hinv' : Inv s' gs) : Inv s' (Function.update gs i (gs i)) := by
      rwa [Function.update_eq_self]
    rcases Leader.exec_queue hexec with ⟨ev, rfl, hq, -⟩ | ⟨rfl, -, hq, -⟩ | ⟨hpush, hpop, hq, -⟩
    · refine hmove rfl (hsame ⟨hinv.worker, fun j hj => ⟨(hinv.held j hj).1, ?_⟩⟩)
      rw [hq]
      simp
    · obtain ⟨hworker, hheld⟩ := hpre rfl
      refine hmove rfl ⟨hsole rfl, fun j hj => ?_⟩
      -- no other goroutine has a head in hand
      rcases update_cases (P := fun g : Ghost => g.held = true) hj with ⟨-, hj⟩ | ⟨hji, hj⟩
      · cases hj
      · exact absurd ((hinv.worker j (hinv.held j hj).1).trans (hinv.worker i hworker).symm) hji
    · have hinv' : Inv s' gs := ⟨hinv.worker, fun j hj => hq ▸ hinv.held j hj⟩
      cases o with
      | queuePush ev => exact absurd rfl (hpush ev)
      | queuePop => exact absurd rfl hpop
      | queueHead =>
        have hanswer : some (s, s.queue.head?, none) = some (s', r, sp) := hexec
        cases hanswer
        refine hmove rfl ⟨hsole rfl, forall_update
          (P := fun _ (g : Ghost) => g.held = true → g.worker = true ∧ s.queue ≠ []) hinv.held ?_⟩
        intro hheld
        obtain ⟨hw, hsome⟩ := Bool.and_eq_true_iff.mp hheld
        refine ⟨hw, fun hnil => ?_⟩
        rw [hnil] at hsome
        cases hsome
      | _ => exact hmove rfl (hsame hinv')
  env := by
    intro s gs ch s' _ hinv _ he
    have hqueue : LeaderState.queue s' = LeaderState.queue s := Leader.env_queue he
    exact ⟨hinv.worker, fun i hi => ⟨(hinv.held i hi).1, hqueue ▸ (hinv.held i hi).2⟩⟩

/-- Ghosts of a fresh leader. -/
def start (i : ℕ) : Ghost := ⟨i == 1, false⟩

theorem good_init (n : ℕ) (kv : K.State) : (outline cfg K).Good (Leader.init cfg K n kv) start where
  inv := ⟨fun i hi => by simpa [start] using hi, nofun⟩
  safe := by
    have hretry : spec.ThreadSafe (start 1) Leader.retryWorker :=
      ⟨fun g _ => g.worker = true, fun _ _ _ => trivial, rfl,
        fun _ _ hg => (safe_retry hg).bind fun _ _ h => h⟩
    intro i t ht
    exact Leader.forall_start (P := fun i t => spec.ThreadSafe (start i) t)
      (threadSafe_of_within (by decide) Leader.confined_consumer _) hretry
      (threadSafe_of_within (by decide) Leader.confined_hub _)
      (threadSafe_of_within (by decide) Leader.confined_server _) ht
  idle := by
    intro i hi
    have : i ≠ 1 := by
      rintro rfl
      simp [Leader.init] at hi
    simp [start, this]

/-- The queue has an entry whenever a goroutine is about to pop. -/
theorem queue_ne_nil {n : ℕ} {kv : K.State} {G : Guard (leader cfg K)}
    {c : Interleaving.Config (leader cfg K)} (h : Config.Reach G (Leader.init cfg K n kv) c) {i : ℕ}
    {k : Unit → M Outcome} {again : Option (Outcome → M Outcome)}
    (ht : c.threads[i]? = some ⟨.op .queuePop k, again⟩) : LeaderState.queue c.state ≠ [] := by
  obtain ⟨gs, hgood⟩ := (good_init n kv).reach (sound G) (fun _ _ _ _ _ _ _ _ => trivial) h
  have hpre : Pre (gs i) .queuePop := hgood.pre ht
  exact (hgood.inv.held i (hpre rfl).2).2

end Popper

section Compact

variable {cfg : Config} {K : KvStorage}

/-- `Compact` once it has chosen its revision. -/
def compactAt (cfg : Config) (revision : ℕ) : Leader.Goroutine where
  prog := do
    let err ← compact cfg revision
    pure (.compacted revision err)

theorem goroutine_compact (cfg : Config) (revision : ℕ) :
    Leader.goroutine cfg (.request (.compact revision)) =
      ⟨.op .getRevision fun cur => .op .queueHead fun head =>
        (compactAt cfg (compactRevision revision cur head)).prog, none⟩ := by
  have hprog {p q : M Outcome} (h : p = q) : (⟨p, none⟩ : Leader.Goroutine) = ⟨q, none⟩ := h ▸ rfl
  have hhandle : Leader.handle cfg (.compact revision) =
      handleCompact cfg revision >>= fun a => pure (.compacted a.1 a.2) := rfl
  apply hprog
  rw [hhandle, handleCompact_eq]
  apply congrArg (Prog.op (S := sig) Op.getRevision)
  funext cur
  apply congrArg (Prog.op (S := sig) Op.queueHead)
  funext head
  exact Prog.bind_assoc (compact cfg (compactRevision revision cur head)) _ _

theorem compactRevision_le (revision cur : ℕ) (head : Option (WatchEvent × ℕ)) :
    compactRevision revision cur head ≤ cur := by
  have hcut : (if revision = 0 ∨ cur < revision then cur else revision) ≤ cur := by
    split <;> omega
  cases head with
  | none => exact hcut
  | some node =>
    simp only [compactRevision]
    split
    · exact (min_le_right _ _).trans hcut
    · exact hcut

theorem compactRevision_lt {event : WatchEvent} (hpos : 0 < event.revision)
    (revision cur time : ℕ) :
    compactRevision revision cur (some (event, time)) < event.revision := by
  have hne : event.revision ≠ 0 := Nat.ne_of_gt hpos
  have hle := min_le_left (event.revision - 1)
    (if revision = 0 ∨ cur < revision then cur else revision)
  simp only [compactRevision, if_pos hne]
  omega

/-- Revisions increase strictly along the queue, and they are positive. -/
theorem queue_sorted {start : ℕ} {s : LeaderState K} (h : Sequenced start s) :
    s.queue.Pairwise (fun a b => a.1.revision < b.1.revision) ∧
      ∀ a ∈ s.queue, 0 < a.1.revision := by
  obtain ⟨_, _, _, hl⟩ := h
  obtain ⟨n, hn⟩ := hl.queue
  have hn : s.queue.map Prod.fst = s.journal.appended.drop n := hn
  constructor
  · have hsorted : (s.queue.map Prod.fst).Pairwise fun a b => a.revision < b.revision := by
      rw [hn]
      exact hl.appended_sorted.sublist (List.drop_sublist _ _)
    rwa [List.pairwise_map] at hsorted
  · intro a ha
    have hmem : a.1 ∈ s.journal.appended :=
      List.mem_of_mem_drop (hn ▸ List.mem_map_of_mem ha)
    have := hl.above a.1 ((hl.mem_appended a.1).mp hmem).1
    omega

/-- An uncertain operation is in the queue, or it was, by the time its revision is committed. -/
theorem appended_of_committed {start : ℕ} {s : LeaderState K} (h : Sequenced start s)
    {ev : WatchEvent} (hev : ev ∈ s.journal.notified) (hv : ev.valid = false)
    (hu : ev.isUncertain = true) (hle : ev.revision ≤ s.committedRevision) :
    ev ∈ s.journal.appended := by
  obtain ⟨_, _, phase, hl⟩ := h
  refine (hl.mem_appended ev).mpr ⟨hev, hv, hu, hle.trans ?_⟩
  have hheld := hl.held
  cases phase with
  | queued e =>
    have hrev : e.revision = s.committedRevision + 1 := hheld.1.2
    show s.committedRevision ≤ e.revision
    omega
  | _ => exact le_refl _

/-- In every interleaving of the consumer, the retry worker and any requests, the linked queue is
the list of the uncertain events that have not been popped, in strictly increasing order of
revision. A goroutine that runs `Compact` and has read the committed revision at `c₀` and the head
of the queue at `c` goes on to compact at a revision below every uncertain operation that is
committed by then and not popped. -/
theorem compact_below_uncertain (start : ℕ) (kv : K.State)
    {c : Interleaving.Config (leader cfg K)} {b : Backlog}
    (h : Backlog.Tracks (Leader.init cfg K start kv) c b) :
    (b.queue.Represents (LeaderState.queue c.state) ∧
      b.popped ++ (LeaderState.queue c.state).map Prod.fst =
        (LeaderState.journal c.state).appended ∧
      b.queue.queueSize = (LeaderState.queue c.state).length ∧
      (b.queue.head = none ↔ LeaderState.queue c.state = []) ∧
      (LeaderState.queue c.state).Pairwise (fun x y => x.1.revision < y.1.revision) ∧
      (∀ x, b.queue.getHead = some x →
        ∀ y ∈ LeaderState.queue c.state, x.1.revision ≤ y.1.revision) ∧
      (∀ l c', c.step l = some c' → (b.along c l).isSome) ∧
      (∀ (i : ℕ) (k : Unit → M Outcome) (again : Option (Outcome → M Outcome)),
        c.threads[i]? = some ⟨.op .queuePop k, again⟩ → b.queue.pop.isSome)) ∧
    ∀ (c₀ c₁ c' : Interleaving.Config (leader cfg K)) (i : ℕ) (ch ch' : LeaderChoice K)
      (revision : ℕ),
      Config.Reach (fun _ _ => True) (Leader.init cfg K start kv) c₀ →
      c₀.threads[i]? = some (Leader.goroutine cfg (.request (.compact revision))) →
      c₀.step (.thread i ch) = some c₁ → Config.Reach (fun _ _ => True) c₁ c →
      c.threads[i]? = c₁.threads[i]? → c.step (.thread i ch') = some c' →
      ∃ rev, c'.threads[i]? = some (compactAt cfg rev) ∧
        rev ≤ LeaderState.committedRevision c₀.state ∧
        LeaderState.committedRevision c₀.state ≤ LeaderState.committedRevision c.state ∧
        ∀ ev ∈ (LeaderState.journal c.state).notified, ev.valid = false → ev.isUncertain = true →
          ev.revision ≤ LeaderState.committedRevision c.state → ev ∉ b.popped →
          rev < ev.revision := by
  have hreach := h.reach
  have hseq := sequenced_of_reach hreach
  obtain ⟨hrep, happ⟩ := h.matches
  obtain ⟨hsorted, hpos⟩ := queue_sorted hseq
  have hmin {x : WatchEvent × ℕ} (hx : (LeaderState.queue c.state).head? = some x)
      (y : WatchEvent × ℕ) (hy : y ∈ LeaderState.queue c.state) : x.1.revision ≤ y.1.revision := by
    obtain ⟨rest, hrest⟩ := List.head?_eq_some_iff.mp hx
    rw [hrest] at hsorted hy
    rcases List.mem_cons.mp hy with rfl | hy
    · exact le_refl _
    · exact le_of_lt (List.rel_of_pairwise_cons hsorted hy)
  refine ⟨⟨hrep, happ, hrep.size, hrep.head_eq_none_iff, hsorted, ?_, ?_, ?_⟩, ?_⟩
  · intro x hx
    exact hmin (hrep.getHead_eq ▸ hx)
  · intro l c' hl
    obtain ⟨b', hb', -⟩ := h.matches.along hl
    exact hb' ▸ rfl
  · intro i k again ht
    obtain ⟨x, xs, hxs⟩ := List.exists_cons_of_ne_nil (Popper.queue_ne_nil hreach ht)
    rw [hxs] at hrep
    obtain ⟨q', hq', -⟩ := hrep.pop
    exact hq' ▸ rfl
  · intro c₀ c₁ c' i ch ch' revision hr₀ ht₀ hl₀ hr₁ hwaits hl
    rw [goroutine_compact] at ht₀
    obtain ⟨s₁, cur, sp₁, hex₁, rfl⟩ := Config.exec_of_step ht₀ hl₀
    have hanswer₁ : some (c₀.state, LeaderState.committedRevision c₀.state, none) =
      some (s₁, cur, sp₁) := hex₁
    cases hanswer₁
    have hi₀ : i < c₀.threads.length := (List.getElem?_eq_some_iff.mp ht₀).1
    rw [Option.toList_none, List.append_nil, List.getElem?_set_self hi₀] at hwaits
    obtain ⟨s', head, sp, hex, rfl⟩ := Config.exec_of_step hwaits hl
    have hanswer : some (c.state, (LeaderState.queue c.state).head?, none) = some (s', head, sp) :=
      hex
    cases hanswer
    have hi : i < c.threads.length := (List.getElem?_eq_some_iff.mp hwaits).1
    refine ⟨compactRevision revision (LeaderState.committedRevision c₀.state)
      (LeaderState.queue c.state).head?, ?_, compactRevision_le _ _ _,
      committed_le_of_reach hr₀ (.head ⟨_, hl₀, fun _ _ => trivial⟩ hr₁), ?_⟩
    · rw [Option.toList_none, List.append_nil, List.getElem?_set_self hi]
      rfl
    · intro ev hev hv hu hle hnot
      have hin : ev ∈ (LeaderState.queue c.state).map Prod.fst := by
        have := appended_of_committed hseq hev hv hu hle
        rw [← happ] at this
        exact (List.mem_append.mp this).resolve_left hnot
      obtain ⟨y, hy, rfl⟩ := List.mem_map.mp hin
      cases hhead : (LeaderState.queue c.state).head? with
      | none =>
        rw [List.head?_eq_none_iff.mp hhead] at hy
        cases hy
      | some x =>
        have hxpos := hpos x (List.mem_of_mem_head? hhead)
        exact (compactRevision_lt hxpos _ _ _).trans_le (hmin hhead y hy)

/-- A creation whose outcome is uncertain goes through the consumer, then a client asks for a
compaction at the current revision, which reads it. -/
def uncertainCreate : List (Label (leader sampleConfig (engine .atTimestamp))) :=
  [.restart 3, .thread 3 (.request (.create ⟨[97], [98], 0⟩)), .thread 4 .none,
    .thread 4 (.kv (.pend 0)), .thread 4 .none, .thread 4 .none,
    .restart 0, .thread 0 .none, .thread 0 .none, .thread 0 .none, .thread 0 .none, .thread 0 .none,
    .restart 3, .thread 3 (.request (.compact 0))]

theorem compact_below_uncertain_create :
    ∃ c c' b rev, Backlog.Tracks sampleInit c b ∧ LeaderState.committedRevision c.state = 1 ∧
      (LeaderState.queue c.state).map (fun x => x.1.revision) = [1] ∧
      c.step (.thread 5 .none) = some c' ∧
      c'.threads[5]? = some (compactAt sampleConfig rev) ∧ rev < 1 := by
  let ev : WatchEvent := ⟨1, 0, .create, false, [97], [98], some (.uncertain 0)⟩
  have hrun : (sampleInit.run (fun _ _ => true) uncertainCreate).map (fun c =>
      (c.threads[5]?, LeaderState.committedRevision c.state, LeaderState.queue c.state,
        (LeaderState.journal c.state).notified, (LeaderState.journal c.state).appended)) =
      some (some (Leader.goroutine sampleConfig (.request (.compact 0))), 1, [(ev, 0)], [ev],
        [ev]) := by
    rfl
  obtain ⟨c₀, hc₀, hval⟩ := Option.map_eq_some_iff.mp hrun
  simp only [Prod.mk.injEq] at hval
  obtain ⟨ht₀, hcommitted, hqueue, hnotified, happended⟩ := hval
  have hr₀ := Config.reach_of_run (G := fun _ _ => True) (fun _ _ _ => trivial) uncertainCreate hc₀
  have ht := ht₀
  rw [goroutine_compact] at ht
  have hi : 5 < c₀.threads.length := (List.getElem?_eq_some_iff.mp ht).1
  obtain ⟨c₁, hl₀⟩ : ∃ c₁, c₀.step (.thread 5 .none) = some c₁ := ⟨_, Config.step_thread ht rfl⟩
  obtain ⟨s₁, r₁, sp₁, hex₁, rfl⟩ := Config.exec_of_step ht hl₀
  have hanswer : some (c₀.state, LeaderState.committedRevision c₀.state, none) =
    some (s₁, r₁, sp₁) := hex₁
  cases hanswer
  rw [Option.toList_none, List.append_nil] at hl₀
  let waiting : Leader.Goroutine := ⟨.op .queueHead fun head => (compactAt sampleConfig
    (compactRevision 0 (LeaderState.committedRevision c₀.state) head)).prog, none⟩
  let c : Interleaving.Config (leader sampleConfig (engine .atTimestamp)) :=
    ⟨c₀.state, c₀.threads.set 5 waiting⟩
  have ht₁ : c.threads[5]? = some waiting := List.getElem?_set_self hi
  obtain ⟨c', hl⟩ : ∃ c', c.step (.thread 5 .none) = some c' := ⟨_, Config.step_thread ht₁ rfl⟩
  obtain ⟨b, hb⟩ := Backlog.exists_tracks (hr₀.tail ⟨_, hl₀, fun _ _ => trivial⟩)
  obtain ⟨⟨-, hpopped, -⟩, hcompact⟩ := compact_below_uncertain 0 _ hb
  obtain ⟨rev, hrev, -, -, hbelow⟩ := hcompact c₀ _ c' 5 .none .none 0 hr₀ ht₀ hl₀ .refl rfl hl
  refine ⟨c, c', b, rev, hb, hcommitted, ?_, hl, hrev, hbelow ev ?_ rfl rfl ?_ ?_⟩
  · show (LeaderState.queue c₀.state).map _ = _
    rw [hqueue]
    rfl
  · show ev ∈ (LeaderState.journal c₀.state).notified
    simp [hnotified]
  · show 1 ≤ LeaderState.committedRevision c₀.state
    omega
  · have hlen : b.popped ++ (LeaderState.queue c₀.state).map Prod.fst =
      (LeaderState.journal c₀.state).appended := hpopped
    rw [hqueue, happended] at hlen
    have hnil : b.popped = [] := by simpa using hlen
    simp [hnil]

end Compact
end KubeBrain

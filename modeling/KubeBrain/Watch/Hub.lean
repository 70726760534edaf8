import KubeBrain.Events.Publication
import KubeBrain.Lib.Observed

/-! The hub (`pkg/backend/watcherhub.go`): what a subscriber receives of the batches that are
streamed while it is registered. -/
namespace KubeBrain

open Interleaving

/-- What the hub and its subscribers have done so far. -/
structure HubLog where
  /-- The batch that `Stream` has taken from its input last. -/
  item : List Event
  streamed : List (List Event)
  /-- How many batches had been streamed when the subscriber was added. -/
  since : ℕ → ℕ
  received : ℕ → List (List Event)
  /-- Position, among the batches since its registration, of the first one that did not fit
  into the channel of the subscriber. -/
  refused : ℕ → Option ℕ

namespace HubLog

def start : HubLog := ⟨[], [], fun _ => 0, fun _ => [], fun _ => none⟩

def refuse (h : HubLog) (sub : ℕ) : HubLog :=
  match h.refused sub with
  | some _ => h
  | none =>
    { h with refused := Function.update h.refused sub (some (h.streamed.length - 1 - h.since sub)) }

def note (h : HubLog) : (o : Op) → o.Res → HubLog
  | .addSub, sub => { h with since := Function.update h.since sub h.streamed.length }
  | .chanRecv, item => { h with item }
  | .hubRLock, _ => { h with streamed := h.streamed ++ [h.item] }
  | .subSend sub _, false => h.refuse sub
  | .subRecv sub, some item =>
    { h with received := Function.update h.received sub (h.received sub ++ [item]) }
  | _, _ => h

theorem note_of_kind (h : HubLog) {o : Op} (ho : o.kind ∉ Leader.hubKinds) (r : o.Res) :
    h.note o r = h := by
  cases o <;> first | rfl | exact absurd (by simp [Leader.hubKinds]) ho

/-- The batches that were streamed since the subscriber was added. -/
def offered (h : HubLog) (sub : ℕ) : List (List Event) := h.streamed.drop (h.since sub)

end HubLog

/-- The leader with the log of its hub. -/
abbrev watchedLeader (cfg : Config) (K : KvStorage) : Machine sig Outcome :=
  (leader cfg K).observed HubLog.note

namespace Hub

/-- Whose turn it is in `Stream`; other goroutines have no turn. -/
inductive Turn where
  | other
  | rest
  | holds (item : List Event)
  | sends (item : List Event) (todo : List ℕ)

namespace Turn

def todo : Turn → List ℕ
  | sends _ todo => todo
  | _ => []

/-- The batch that is neither in the input nor streamed yet. -/
def held : Turn → List (List Event)
  | holds item => [item]
  | _ => []

def isSends : Turn → Bool
  | sends .. => true
  | _ => false

end Turn

/-- A subscriber has got what it was offered, up to the batch that was refused. A batch is due
when it is being streamed and the subscriber has yet to be served. -/
structure Channel (offered received : List (List Event)) (refused : Option ℕ) (due : Bool)
    (x : Sub) : Prop where
  taken : received ++ x.buf <+: offered
  full : x.registered = true → refused = none →
    (received ++ x.buf).length + due.toNat = offered.length
  stopped : ∀ n, refused = some n → (received ++ x.buf).length ≤ n
  serve : due = true → x.registered = true ∧ refused = none

namespace Channel

variable {offered received : List (List Event)} {refused : Option ℕ} {due : Bool} {x : Sub}
  {item : List Event}

theorem new : Channel [] [] none false ⟨[], true⟩ :=
  ⟨List.prefix_refl _, fun _ _ => rfl, nofun, nofun⟩

/-- The next batch is streamed; registered subscribers are to be served. -/
theorem stream (h : Channel offered received refused false x)
    (hr : x.registered = true → refused = none) :
    Channel (offered ++ [item]) received refused x.registered x := by
  constructor
  · exact h.taken.trans (List.prefix_append _ _)
  · intro hreg hnone
    have := h.full hreg hnone
    simp only [hreg, Bool.toNat_true, List.length_append, List.length_singleton] at this ⊢
    simpa using this
  · exact h.stopped
  · exact fun hreg => ⟨hreg, hr hreg⟩

theorem accept (h : Channel offered received refused true x)
    (hlast : offered.getLast? = some item) :
    Channel offered received refused false (Leader.pushItem item x) := by
  obtain ⟨hreg, hnone⟩ := h.serve rfl
  have hlen := h.full hreg hnone
  -- everything but the last batch has been taken
  have heq : received ++ (x.buf ++ [item]) = offered := by
    obtain ⟨rest, hrest⟩ := h.taken
    have hone : rest.length = 1 := by
      have := congrArg List.length hrest
      simp only [List.length_append, Bool.toNat_true] at this hlen
      omega
    obtain ⟨a, rfl⟩ := List.length_eq_one_iff.mp hone
    rw [← hrest] at hlast
    simp only [List.getLast?_append, List.getLast?_singleton, Option.some_or,
      Option.some.injEq] at hlast
    rw [← hrest, hlast, List.append_assoc]
  constructor
  · exact heq ▸ List.prefix_refl _
  · exact fun _ _ => congrArg List.length heq
  · intro n hn
    rw [hnone] at hn
    cases hn
  · nofun

theorem refuse (h : Channel offered received refused true x) :
    Channel offered received (some (offered.length - 1)) false x := by
  obtain ⟨hreg, hnone⟩ := h.serve rfl
  have hlen := h.full hreg hnone
  refine ⟨h.taken, nofun, fun n hn => ?_, nofun⟩
  obtain rfl := Option.some.inj hn
  simp only [Bool.toNat_true] at hlen
  omega

theorem recv {rest : List (List Event)} {reg : Bool}
    (h : Channel offered received refused due ⟨item :: rest, reg⟩) :
    Channel offered (received ++ [item]) refused due ⟨rest, reg⟩ := by
  have heq : received ++ [item] ++ rest = received ++ item :: rest := by simp
  constructor
  · exact heq ▸ h.taken
  · intro hreg hnone
    rw [heq]
    exact h.full hreg hnone
  · intro n hn
    rw [heq]
    exact h.stopped n hn
  · exact h.serve

theorem remove (h : Channel offered received refused false x) :
    Channel offered received refused false { x with registered := false } :=
  ⟨h.taken, nofun, h.stopped, nofun⟩

end Channel

structure Inv (input : List (List Event)) (v : HubView) (h : HubLog) (turn : Turn) : Prop where
  since : ∀ sub, h.since sub ≤ h.streamed.length
  channels : ∀ (sub : ℕ) (x : Sub), v.subs[sub]? = some x →
    Channel (h.offered sub) (h.received sub) (h.refused sub) (decide (sub ∈ turn.todo)) x
  fresh : ∀ sub, v.subs.length ≤ sub → h.received sub = [] ∧ h.refused sub = none
  nodup : turn.todo.Nodup
  known : ∀ sub ∈ turn.todo, sub < v.subs.length
  locked : v.streaming = turn.isSends
  current : ∀ item todo, turn = .sends item todo → h.streamed.getLast? = some item
  item : ∀ item, turn = .holds item → h.item = item
  flow : input ++ v.sent = h.streamed ++ turn.held ++ v.watchChan

namespace Inv

variable {input : List (List Event)} {v : HubView} {h : HubLog} {turn : Turn}

variable {item : List Event} {sub : ℕ}

theorem push (hi : Inv input v h turn) (batch : List Event) : Inv input (v.push batch) h turn := by
  refine ⟨hi.since, hi.channels, hi.fresh, hi.nodup, hi.known, hi.locked, hi.current, hi.item, ?_⟩
  simp only [HubView.push, ← List.append_assoc, hi.flow]

theorem chanRecv (hi : Inv input v h .rest) {rest : List (List Event)}
    (hchan : v.watchChan = item :: rest) :
    Inv input { v with watchChan := rest } { h with item := item } (.holds item) := by
  refine ⟨hi.since, hi.channels, hi.fresh, List.nodup_nil, hi.known, hi.locked, nofun, ?_, ?_⟩
  · intro i hholds
    exact Turn.holds.inj hholds
  · have := hi.flow
    rw [hchan] at this
    simpa [Turn.held] using this

theorem addSub (hi : Inv input v h turn) (hs : v.streaming = false) :
    Inv input { v with subs := v.subs ++ [⟨[], true⟩] }
      { h with since := Function.update h.since v.subs.length h.streamed.length } turn := by
  have hturn : turn.isSends = false := hi.locked ▸ hs
  have htodo : turn.todo = [] := by
    cases turn <;> first | rfl | cases hturn
  obtain ⟨hnil, hnone⟩ := hi.fresh v.subs.length (le_refl _)
  refine ⟨fun sub => ?_, fun sub x hx => ?_, fun sub hsub => ?_, hi.nodup, by simp [htodo],
    hi.locked, hi.current, hi.item, hi.flow⟩
  · by_cases hsub : sub = v.subs.length
    · subst hsub
      simp
    · simp only [Function.update_of_ne hsub]
      exact hi.since sub
  · rw [List.getElem?_append] at hx
    split at hx
    · next hlt =>
      have := hi.channels sub x hx
      simpa only [HubLog.offered, Function.update_of_ne (Nat.ne_of_lt hlt)] using this
    · next hge =>
      have hsub : sub = v.subs.length := by
        have := (List.getElem?_eq_some_iff.mp hx).1
        simp only [List.length_singleton] at this
        omega
      subst hsub
      simp only [Nat.sub_self, List.getElem?_cons_zero, Option.some.injEq] at hx
      subst hx
      simp only [HubLog.offered, Function.update_self, List.drop_length, hnil, hnone, htodo,
        List.not_mem_nil, decide_false]
      exact .new
  · simp only [List.length_append, List.length_singleton] at hsub
    exact hi.fresh sub (by omega)

theorem deleteSub (hi : Inv input v h turn) (hs : v.streaming = false) (sub : ℕ) :
    Inv input { v with subs := v.subs.modify sub fun x => { x with registered := false } } h
      turn := by
  have hturn : turn.isSends = false := hi.locked ▸ hs
  have htodo : turn.todo = [] := by
    cases turn <;> first | rfl | cases hturn
  refine ⟨hi.since, fun j x hx => ?_, fun j hj => ?_, hi.nodup, by simp [htodo], hi.locked,
    hi.current, hi.item, hi.flow⟩
  · by_cases hj : sub = j
    · subst hj
      simp only [List.getElem?_modify_eq, Option.map_eq_map, Option.map_eq_some_iff] at hx
      obtain ⟨x₀, hx₀, rfl⟩ := hx
      have := hi.channels sub x₀ hx₀
      simp only [htodo, List.not_mem_nil, decide_false] at this ⊢
      exact this.remove
    · exact hi.channels j x (by simpa [hj] using hx)
  · simp only [List.length_modify] at hj
    exact hi.fresh j hj

theorem mem_registered {subs : List Sub} :
    sub ∈ Leader.registered subs ↔ ∃ x : Sub, subs[sub]? = some x ∧ x.registered = true := by
  simp only [Leader.registered, List.mem_filter, List.mem_range, Option.any_eq_true]
  constructor
  · exact fun hx => hx.2
  · exact fun ⟨x, hx, hreg⟩ => ⟨(List.getElem?_eq_some_iff.mp hx).1, x, hx, hreg⟩

/-- The read lock is taken for a batch; no subscriber that missed one is left. -/
theorem hubRLock (hi : Inv input v h (.holds item)) {subs : List ℕ}
    (hperm : subs.Perm (Leader.registered v.subs))
    (hgone : ∀ (sub : ℕ) (x : Sub), v.subs[sub]? = some x → h.refused sub ≠ none →
      x.registered = false) :
    Inv input { v with streaming := true } { h with streamed := h.streamed ++ [h.item] }
      (.sends item subs) := by
  have hitem : h.item = item := hi.item item rfl
  have hoffered (sub : ℕ) : HubLog.offered { h with streamed := h.streamed ++ [h.item] } sub =
      h.offered sub ++ [h.item] := List.drop_append_of_le_length (hi.since sub)
  refine ⟨fun sub => ?_, fun sub x hx => ?_, hi.fresh, ?_, ?_, rfl, ?_, nofun, ?_⟩
  · simp only [List.length_append, List.length_singleton]
    exact Nat.le_succ_of_le (hi.since sub)
  · have hdue : decide (sub ∈ subs) = x.registered := by
      have hmem : sub ∈ subs ↔ x.registered = true := by
        rw [hperm.mem_iff, mem_registered]
        constructor
        · rintro ⟨x', hx', hreg⟩
          rwa [Option.some.inj (hx.symm.trans hx')]
        · exact fun hreg => ⟨x, hx, hreg⟩
      cases hreg : x.registered <;> simp [hmem, hreg]
    show Channel _ _ _ (decide (sub ∈ subs)) x
    rw [hoffered, hdue]
    refine (hi.channels sub x hx).stream fun hreg => ?_
    by_contra hne
    rw [hgone sub x hx hne] at hreg
    cases hreg
  · exact hperm.nodup_iff.mpr (List.nodup_range.filter _)
  · intro sub hsub
    obtain ⟨x, hx, -⟩ := mem_registered.mp (hperm.mem_iff.mp hsub)
    exact (List.getElem?_eq_some_iff.mp hx).1
  · intro i todo hsends
    obtain ⟨rfl, -⟩ := Turn.sends.inj hsends
    simp [hitem]
  · simp only [Turn.held, List.append_nil, hi.flow, hitem]

theorem hubRUnlock (hi : Inv input v h (.sends item [])) :
    Inv input { v with streaming := false } h .rest :=
  ⟨hi.since, hi.channels, hi.fresh, List.nodup_nil, nofun, rfl, nofun, nofun, hi.flow⟩

section Sends

variable {todo : List ℕ} {x : Sub} (hi : Inv input v h (.sends item (sub :: todo)))

include hi

/-- The subscriber that is served next has what it needs to take the batch. -/
private theorem next (hx : v.subs[sub]? = some x) :
    Channel (h.offered sub) (h.received sub) (h.refused sub) true x := by
  have hc := hi.channels sub x hx
  simpa [Turn.todo] using hc

/-- The other subscribers do not notice. -/
private theorem rest {j : ℕ} (hj : j ≠ sub) (hx : v.subs[j]? = some x) :
    Channel (h.offered j) (h.received j) (h.refused j) (decide (j ∈ todo)) x := by
  have hc := hi.channels j x hx
  simpa [Turn.todo, hj] using hc

theorem accept :
    Inv input { v with subs := v.subs.modify sub (Leader.pushItem item) } h (.sends item todo) := by
  have hnodup := List.nodup_cons.mp hi.nodup
  have hknown (j : ℕ) (hj : j ∈ todo) := hi.known j (List.mem_cons_of_mem _ hj)
  refine ⟨hi.since, fun j x hx => ?_, fun j hj => ?_, hnodup.2, by simpa [Turn.todo] using hknown,
    hi.locked, ?_,
    nofun, hi.flow⟩
  · by_cases hj : sub = j
    · subst hj
      simp only [List.getElem?_modify_eq, Option.map_eq_map, Option.map_eq_some_iff] at hx
      obtain ⟨x₀, hx₀, rfl⟩ := hx
      have hc := hi.next hx₀
      show Channel _ _ _ (decide (sub ∈ todo)) _
      rw [decide_eq_false hnodup.1]
      apply hc.accept
      -- the batch is the last one of those that were offered
      obtain ⟨hreg, hnone⟩ := hc.serve rfl
      have hlen := hc.full hreg hnone
      have hpos : 0 < (h.offered sub).length := by
        simp only [Bool.toNat_true] at hlen
        omega
      have hlast := hi.current item _ rfl
      rw [HubLog.offered, List.getLast?_drop]
      simp only [HubLog.offered, List.length_drop] at hpos
      rw [if_neg (by omega)]
      exact hlast
    · exact hi.rest (Ne.symm hj) (by simpa [hj] using hx)
  · simp only [List.length_modify] at hj
    exact hi.fresh j hj
  · intro i todo' hsends
    obtain ⟨rfl, -⟩ := Turn.sends.inj hsends
    exact hi.current item _ rfl

theorem refuse : Inv input v (h.refuse sub) (.sends item todo) := by
  have hsub : sub < v.subs.length := hi.known sub List.mem_cons_self
  have hnodup := List.nodup_cons.mp hi.nodup
  have hc := hi.next (List.getElem?_eq_getElem hsub)
  have hnone := (hc.serve rfl).2
  have hpos : h.streamed.length - 1 - h.since sub = (h.offered sub).length - 1 := by
    simp only [HubLog.offered, List.length_drop]
    omega
  have hrefuse : h.refuse sub =
      { h with refused := Function.update h.refused sub (some ((h.offered sub).length - 1)) } := by
    simp only [HubLog.refuse, hnone, hpos]
  rw [hrefuse]
  refine ⟨hi.since, fun j x hx => ?_, fun j hj => ?_, hnodup.2,
    fun j hj => hi.known j (List.mem_cons_of_mem _ hj), hi.locked, ?_, nofun, hi.flow⟩
  · by_cases hj : j = sub
    · subst hj
      obtain rfl := Option.some.inj ((List.getElem?_eq_getElem hsub).symm.trans hx)
      show Channel (h.offered j) (h.received j) (Function.update h.refused j _ j)
        (decide (j ∈ todo)) _
      rw [Function.update_self, decide_eq_false hnodup.1]
      exact hc.refuse
    · show Channel (h.offered j) (h.received j) (Function.update h.refused sub _ j)
        (decide (j ∈ todo)) _
      rw [Function.update_of_ne hj]
      exact hi.rest hj hx
  · obtain ⟨hr, hn⟩ := hi.fresh j hj
    refine ⟨hr, ?_⟩
    show Function.update h.refused sub _ j = none
    rw [Function.update_of_ne (by omega)]
    exact hn
  · intro i todo' hsends
    obtain ⟨rfl, -⟩ := Turn.sends.inj hsends
    exact hi.current item _ rfl

end Sends

theorem subRecv (hi : Inv input v h turn) {rest : List (List Event)} {reg : Bool}
    (hx : v.subs[sub]? = some ⟨item :: rest, reg⟩) :
    Inv input { v with subs := v.subs.set sub ⟨rest, reg⟩ }
      { h with received := Function.update h.received sub (h.received sub ++ [item]) } turn := by
  have hsub := (List.getElem?_eq_some_iff.mp hx).1
  refine ⟨hi.since, fun j x hj => ?_, fun j hj => ?_, hi.nodup, by simpa using hi.known, hi.locked,
    hi.current, hi.item, hi.flow⟩
  · by_cases hjs : j = sub
    · subst hjs
      rw [List.getElem?_set_self hsub] at hj
      obtain rfl := Option.some.inj hj
      show Channel (h.offered j) (Function.update h.received j _ j) (h.refused j) _ _
      rw [Function.update_self]
      exact (hi.channels j _ hx).recv
    · rw [List.getElem?_set_ne (Ne.symm hjs)] at hj
      show Channel (h.offered j) (Function.update h.received sub _ j) (h.refused j) _ _
      rw [Function.update_of_ne hjs]
      exact hi.channels j x hj
  · simp only [List.length_set] at hj
    obtain ⟨hr, hn⟩ := hi.fresh j hj
    refine ⟨?_, hn⟩
    show Function.update h.received sub _ j = []
    rw [Function.update_of_ne (by omega)]
    exact hr

end Inv

def spec : Spec sig Outcome where
  Ghost := Turn
  idle := .other
  Pre := fun g o => match o with
    | .chanRecv => g = .rest
    | .hubRLock => ∃ item, g = .holds item
    | .subSend sub item => ∃ todo, g = .sends item (sub :: todo)
    | .hubRUnlock => ∃ item, g = .sends item []
    | _ => True
  Post := fun g o r g' => match o, r with
    | .chanRecv, item => g' = .holds item
    | .hubRLock, subs => ∃ item, g = .holds item ∧ g' = .sends item subs
    | .subSend _ item, _ => ∃ sub todo, g = .sends item (sub :: todo) ∧ g' = .sends item todo
    | .hubRUnlock, _ => g' = .rest
    | _, _ => g' = g
  Fin := fun g _ => g = .other ∨ g = .rest

abbrev outline (cfg : Config) (K : KvStorage) (input : List (List Event)) :
    Outline (watchedLeader cfg K) where
  toSpec := spec
  Inv := fun s gs => (∀ i, i ≠ 2 → gs i = .other) ∧ Inv input (LeaderState.hub s.1) s.2 (gs 2)

section Programs

theorem safe_sendAll (item : List Event) (subs : List ℕ) :
    spec.Safe (fun g _ => g = .sends item []) (.sends item subs) (sendAll item subs) := by
  induction subs with
  | nil => exact rfl
  | cons sub subs ih =>
    refine ⟨⟨subs, rfl⟩, fun accepted g' hpost => ?_⟩
    obtain ⟨sub', todo, hg, rfl⟩ := hpost
    obtain ⟨-, hcons⟩ := Turn.sends.inj hg
    obtain ⟨-, rfl⟩ := List.cons.inj hcons
    cases accepted with
    | true => exact ih
    | false =>
      refine ⟨trivial, fun _ g' hpost => ?_⟩
      obtain rfl : g' = .sends item subs := hpost
      exact ih

theorem safe_stream : spec.Safe (fun g _ => g = .rest) .rest stream := by
  refine ⟨rfl, fun item g' hpost => ?_⟩
  obtain rfl : g' = .holds item := hpost
  refine ⟨⟨item, rfl⟩, fun subs g' hpost => ?_⟩
  obtain ⟨item', hg, rfl⟩ := hpost
  obtain rfl := Turn.holds.inj hg
  apply (safe_sendAll item subs).bind
  intro g _ hg
  subst hg
  exact ⟨⟨item, rfl⟩, fun _ g' hpost => hpost⟩

theorem threadSafe_hub : spec.ThreadSafe .rest Leader.hub :=
  ⟨fun g _ => g = .rest, fun _ _ hg => .inr hg, rfl, fun g _ hg => by
    subst hg
    exact safe_stream.bind fun _ _ h => h⟩

/-- Programs that leave the operations of `Stream` to it. -/
theorem safe_other {α : Type} {ks : List OpKind} (hks : .hub ∉ ks) {p : M α} (hp : Within ks p) :
    spec.Safe (fun g _ => g = .other) .other p := by
  apply Spec.safe_of_still (O := spec) _ hp
  intro o ho
  cases o <;> first | exact absurd ho.1 hks | exact ⟨trivial, fun _ _ hpost => hpost⟩

theorem threadSafe_other {ks : List OpKind} (hks : .hub ∉ ks) {t : Leader.Goroutine}
    (ht : Confined ks t) : spec.ThreadSafe .other t := by
  apply Spec.threadSafe_of_keeps (O := spec) (I := fun g => g = .other) (fun _ _ hg => .inl hg)
  · exact safe_other hks ht.1
  · intro f hf g a hg
    subst hg
    exact safe_other hks (ht.2 f hf a)

end Programs

/-- When the hub takes its lock for a batch, the subscribers that have missed one are removed
already. -/
def Removed (cfg : Config) (K : KvStorage) : Guard (watchedLeader cfg K) := fun s mv =>
  ∀ ch, mv = .op .hubRLock ch → ∀ (sub : ℕ) (x : Sub), (LeaderState.subs s.1)[sub]? = some x →
    HubLog.refused s.2 sub ≠ none → x.registered = false

section Soundness

variable {cfg : Config} {K : KvStorage} {input : List (List Event)} {s s' : LeaderState K}
  {h : HubLog} {gs : ℕ → Turn} {outs : List (Option Outcome)} {i : ℕ} {ch : LeaderChoice K}
  {sp : Option (Thread sig Outcome)}

/-- The state and log after an answer, and the turn of the goroutine that got it. -/
def Steps (input : List (List Event)) (s' : LeaderState K) (h : HubLog) (gs : ℕ → Turn) (i : ℕ)
    (o : Op) (r : o.Res) : Prop :=
  ∃ g', spec.Post (gs i) o r g' ∧ (∀ j, j ≠ 2 → Function.update gs i g' j = .other) ∧
    Inv input s'.hub (h.note o r) (Function.update gs i g' 2)

section

variable (hothers : ∀ j, j ≠ 2 → gs j = .other)

include hothers

/-- Operations that leave the turn alone. -/
theorem steps_of_same {o : Op} {r : o.Res}
    (hpost : spec.Post (gs i) o r (gs i)) (hinv : Inv input s'.hub (h.note o r) (gs 2)) :
    Steps input s' h gs i o r := by
  refine ⟨gs i, hpost, ?_⟩
  rw [Function.update_eq_self]
  exact ⟨hothers, hinv⟩

/-- Operations of `Stream` itself. -/
theorem steps_of_own {o : Op} {r : o.Res} {g g' : Turn}
    (hg : gs i = g) (hne : g ≠ .other) (hpost : spec.Post g o r g')
    (hinv : gs 2 = g → Inv input s'.hub (h.note o r) g') : Steps input s' h gs i o r := by
  have hi : i = 2 := by
    by_contra hi
    exact hne (hg.symm.trans (hothers i hi))
  subst hi
  refine ⟨g', hg ▸ hpost, fun j hj => ?_, ?_⟩
  · rw [Function.update_of_ne hj]
    exact hothers j hj
  · rw [Function.update_self]
    exact hinv hg

theorem op_step {o : Op} {r : o.Res} (hinv : Inv input s.hub h (gs 2)) (hpre : spec.Pre (gs i) o)
    (hG : Removed cfg K (s, h) (.op o ch))
    (hex : Leader.exec cfg s outs i o ch = some (s', r, sp)) :
    Steps input s' h gs i o r := by
  by_cases ho : o.kind ∈ Leader.hubKinds
  · cases o with
    | chanRecv =>
      have hg : gs i = .rest := hpre
      obtain ⟨rest, hchan, rfl⟩ := Leader.exec_chanRecv hex
      refine steps_of_own hothers hg nofun rfl fun hrest => ?_
      rw [hrest] at hinv
      exact hinv.chanRecv hchan
    | hubRLock =>
      obtain ⟨item, hg⟩ := hpre
      cases ch with
      | order subs =>
        obtain ⟨hperm, rfl, rfl, -⟩ := answer_ite hex
        refine steps_of_own hothers hg nofun ⟨item, rfl, rfl⟩ fun hholds => ?_
        rw [hholds] at hinv
        exact hinv.hubRLock (List.isPerm_iff.mp hperm) (hG _ rfl)
      | _ => cases hex
    | hubRUnlock =>
      obtain ⟨item, hg⟩ := hpre
      obtain ⟨rfl, -⟩ := answer_inj hex
      refine steps_of_own hothers hg nofun rfl fun hsends => ?_
      rw [hsends] at hinv
      exact hinv.hubRUnlock
    | subSend sub item =>
      obtain ⟨todo, hg⟩ := hpre
      unfold Leader.exec at hex
      dsimp only at hex
      split at hex
      · obtain ⟨rfl, rfl, -⟩ := answer_inj hex
        refine steps_of_own hothers hg nofun ⟨sub, todo, rfl, rfl⟩ fun hsends => ?_
        rw [hsends] at hinv
        exact hinv.accept
      · obtain ⟨rfl, rfl, -⟩ := answer_inj hex
        refine steps_of_own hothers hg nofun ⟨sub, todo, rfl, rfl⟩ fun hsends => ?_
        rw [hsends] at hinv
        exact hinv.refuse
    | addSub =>
      obtain ⟨hs, rfl, rfl, -⟩ := answer_unless hex
      have hs : s.hub.streaming = false := Bool.eq_false_iff.mpr hs
      exact steps_of_same hothers rfl (hinv.addSub hs)
    | deleteSub sub =>
      obtain ⟨hs, rfl, -⟩ := answer_unless hex
      have hs : s.hub.streaming = false := Bool.eq_false_iff.mpr hs
      exact steps_of_same hothers rfl (hinv.deleteSub hs sub)
    | subRecv sub =>
      rcases Leader.exec_subRecv hex with ⟨item, rest, reg, hx, rfl, rfl⟩ | ⟨-, rfl, rfl⟩
      · exact steps_of_same hothers rfl (hinv.subRecv hx)
      · exact steps_of_same hothers rfl hinv
    | ringStore idx ev => cases ev <;> cases (List.mem_pair.mp ho) <;> contradiction
    | kv o =>
      have hkv : ∀ k ∈ [OpKind.read, .retryRead, .commit, .record, .gc], k ∉ Leader.hubKinds := by
        decide
      exact absurd ho (hkv _ o.kind_mem)
    | spawn t =>
      have hspawn : ∀ k ∈ [OpKind.fork, .forkWriter, .forkWatch], k ∉ Leader.hubKinds := by decide
      exact absurd ho (hspawn _ t.kind_mem)
    | _ => simp [Leader.hubKinds] at ho
  · have hpost : spec.Post (gs i) o r (gs i) := by
      cases o <;> first | rfl | exact absurd (by simp [Leader.hubKinds]) ho
    refine steps_of_same hothers hpost ?_
    rw [HubLog.note_of_kind h ho r]
    rcases Leader.exec_hub ho hex with hsame | ⟨batch, -, hpush⟩
    · rw [hsame]
      exact hinv
    · rw [hpush]
      exact hinv.push batch

end

theorem sound (input : List (List Event)) {G : Guard (watchedLeader cfg K)}
    (hG : ∀ s mv, G s mv → Removed cfg K s mv) :
    (outline cfg K input).Sound G fun _ _ _ => True where
  op := by
    intro s gs outs i o ch s' r sp _ hinv hpre hg hlt hidle _ hex
    obtain ⟨hexec, hnote⟩ := exec_observed.mp hex
    obtain ⟨g', hpost, hothers, hinv'⟩ := op_step hinv.1 hinv.2 hpre (hG _ _ hg) hexec
    refine ⟨g', hpost, Outline.spawned_of_idle ⟨hothers, hnote ▸ hinv'⟩ hlt
      (hidle _ (le_refl _)) fun t ht => ?_⟩
    obtain ⟨task, rfl, -⟩ := Leader.exec_spawned hexec ht
    exact threadSafe_other (by decide) (confined_goroutine cfg task)
  env := by
    intro s gs ch s' _ hinv _ he
    obtain ⟨henv, hlog⟩ := env_observed.mp he
    refine ⟨hinv.1, ?_⟩
    rw [Leader.env_hub henv, hlog]
    exact hinv.2

/-- A leader whose hub finds some batches in its input. -/
def init (cfg : Config) (K : KvStorage) (start : ℕ) (kv : K.State) (input : List (List Event)) :
    Interleaving.Config (watchedLeader cfg K) :=
  ⟨({ Leader.initState cfg K start kv with watchChan := input }, .start),
    [Leader.consumer, Leader.retryWorker, Leader.hub, Leader.server]⟩

def turns (i : ℕ) : Turn := if i = 2 then .rest else .other

theorem good_init (start : ℕ) (kv : K.State) (input : List (List Event)) :
    (outline cfg K input).Good (init cfg K start kv input) turns where
  inv := by
    refine ⟨fun i hi => if_neg hi, ?_⟩
    constructor <;> simp [init, turns, LeaderState.hub, Leader.initState, HubLog.start, Turn.todo,
      Turn.isSends, Turn.held]
  safe := by
    intro i t ht
    exact Leader.forall_start (P := fun i t => spec.ThreadSafe (turns i) t)
      (threadSafe_other (by decide) Leader.confined_consumer)
      (threadSafe_other (by decide) Leader.confined_retryWorker) threadSafe_hub
      (threadSafe_other (by decide) Leader.confined_server) ht
  idle := by
    intro i hi
    have : i ≠ 2 := by
      rintro rfl
      simp [init] at hi
    exact if_neg this

/-- In runs where a subscriber that missed a batch is removed before the next one is streamed,
each subscriber receives a contiguous initial segment of what is streamed since its
registration, and nothing after the first batch that was dropped. -/
theorem subscriber_sees_no_gap {start : ℕ} {kv : K.State} {input : List (List Event)}
    {c : Interleaving.Config (watchedLeader cfg K)}
    (hr : Config.Reach (Removed cfg K) (init cfg K start kv input) c) {sub : ℕ}
    (hsub : sub < (LeaderState.subs c.state.1).length) :
    c.state.2.received sub <+: c.state.2.offered sub ∧
      ∀ n, c.state.2.refused sub = some n → (c.state.2.received sub).length ≤ n := by
  obtain ⟨gs, hgood⟩ := (good_init start kv input).reach (sound input fun _ _ h => h)
    (fun _ _ _ _ _ _ _ _ => trivial) hr
  have hchan := hgood.inv.2.channels sub _ (List.getElem?_eq_getElem hsub)
  constructor
  · exact (List.prefix_append _ _).trans hchan.taken
  · intro n hn
    have hlen := hchan.stopped n hn
    rw [List.length_append] at hlen
    omega

end Soundness

section Runs

abbrev sampleLeader : Machine sig Outcome := watchedLeader sampleConfig (engine .atTimestamp)

abbrev sampleHub (input : List (List Event)) : Interleaving.Config sampleLeader :=
  init sampleConfig (engine .atTimestamp) 0 (Engine.init SortedMap.empty) input

def removedCheck (s : LeaderState (engine .atTimestamp) × HubLog) : Move sampleLeader → Bool
  | .op .hubRLock _ => (List.range s.1.subs.length).all fun sub =>
      (s.2.refused sub).isNone || (s.1.subs[sub]?).all fun x => !x.registered
  | _ => true

theorem removed_of_check (s : LeaderState (engine .atTimestamp) × HubLog) (mv : Move sampleLeader)
    (h : removedCheck s mv = true) : Removed sampleConfig (engine .atTimestamp) s mv := by
  intro ch hmv sub x hx hne
  subst hmv
  have hall := List.all_eq_true.mp h sub (List.mem_range.mpr (List.getElem?_eq_some_iff.mp hx).1)
  simpa [hx, hne] using hall

/-- A batch with one event, under a key that the watch of these runs does not match. -/
def batch (n : ℕ) : List Event := [⟨.put, n + 1, ⟨[2], [], n + 1⟩⟩]

/-- A client watches the prefix `[1]`. -/
def subscribe : List (Label sampleLeader) :=
  [.restart 3, .thread 3 (.request (.watch [1] 0)), .thread 4 .none, .thread 4 .none,
    .thread 4 .none, .thread 4 .none, .thread 4 .none]

def streamOne : List (Label sampleLeader) :=
  [.restart 2, .thread 2 .none, .thread 2 (.order [0]), .thread 2 .none, .thread 2 .none]

def receiveOne : List (Label sampleLeader) := [.restart 6, .thread 6 .none]

theorem subscriber_sees_no_gap_two : ∃ c,
    Config.Reach (Removed sampleConfig (engine .atTimestamp)) (sampleHub [batch 0, batch 1]) c ∧
      c.state.2.received 0 = [batch 0] ∧ c.state.2.received 0 <+: c.state.2.offered 0 := by
  obtain ⟨c, hreach, hlen, hrec⟩ : ∃ c, Config.Reach (Removed sampleConfig (engine .atTimestamp))
      (sampleHub [batch 0, batch 1]) c ∧ (LeaderState.subs c.state.1).length = 1 ∧
      c.state.2.received 0 = [batch 0] :=
    Config.exists_of_run removed_of_check (subscribe ++ streamOne ++ streamOne ++ receiveOne)
      (by rfl)
  exact ⟨c, hreach, hrec, (subscriber_sees_no_gap hreach (by omega)).1⟩

/-- The goroutines once a client watches; the last one removes a client that missed a batch. -/
def goroutines (hub : Prog sig Outcome) (missed : Bool) : List (Thread sig Outcome) :=
  [Leader.consumer, Leader.retryWorker, { Leader.hub with prog := hub }, Leader.server,
    ⟨.ret (.watching (.ok 0)), none⟩, Leader.goroutine sampleConfig (.deleteWatcherOnDone 0 0),
    Leader.goroutine sampleConfig (.processEvents 0 0 0 [1] 0)] ++
  if missed then [Leader.goroutine sampleConfig (.deleteWatcher 0)] else []

/-- One subscriber that has `buf` in its channel, and `rest` in the input of the hub. -/
def stateOf (buf rest : List (List Event)) (streaming : Bool) : LeaderState (engine .atTimestamp) :=
  { Leader.initState sampleConfig (engine .atTimestamp) 0 (Engine.init SortedMap.empty) with
    watchChan := rest
    subs := [⟨buf, true⟩]
    streaming := streaming
    contexts := [false]
    results := [⟨[], false, []⟩] }

/-- The log of a single subscriber. -/
def logOf (item : List Event) (streamed received : List (List Event))
    (refused : Option ℕ) : HubLog :=
  ⟨item, streamed, Function.update (fun _ => 0) 0 0, Function.update (fun _ => []) 0 received,
    Function.update (fun _ => none) 0 refused⟩

def between (h : HubLog) (buf rest : List (List Event)) (missed : Bool) :
    Interleaving.Config sampleLeader :=
  ⟨(stateOf buf rest false, h), goroutines (.ret .none) missed⟩

/-- The hub holds its lock and has the subscriber to serve. -/
def locked (h : HubLog) (b : List Event) (buf rest : List (List Event)) (missed : Bool) :
    Interleaving.Config sampleLeader :=
  ⟨(stateOf buf rest true, h),
    goroutines ((do sendAll b [0]; call .hubRUnlock : M Unit) >>= fun _ => pure .none) missed⟩

abbrev Runs : Interleaving.Config sampleLeader → Interleaving.Config sampleLeader → Prop :=
  Config.Reach fun _ _ => True

theorem runs_of_step {c c' : Interleaving.Config sampleLeader} (l : Label sampleLeader)
    (h : c.step l = some c') : Runs c c' := .single ⟨l, h, fun _ _ => trivial⟩

theorem runs_of_run {c c' : Interleaving.Config sampleLeader} (ls : List (Label sampleLeader))
    (h : c.run (fun _ _ => true) ls = some c') : Runs c c' :=
  Config.reach_of_run (fun _ _ _ => trivial) ls h

theorem runs_subscribe (input : List (List Event)) :
    Runs (sampleHub input) (between (logOf [] [] [] none) [] input false) := by
  have hlog : HubLog.note .start .addSub 0 = logOf [] [] [] none := by
    simp [HubLog.note, HubLog.start, logOf]
  rw [← hlog]
  exact runs_of_run subscribe (by rfl)

variable {item b : List Event} {streamed received buf rest : List (List Event)}
  {refused : Option ℕ} {missed : Bool}

theorem runs_lock : Runs (between (logOf item streamed received refused) buf (b :: rest) missed)
    (locked (logOf b (streamed ++ [b]) received refused) b buf rest missed) := by
  cases missed <;> exact runs_of_run [.restart 2, .thread 2 .none, .thread 2 (.order [0])] rfl

/-- The hub serves the subscriber and releases its lock. -/
theorem runs_accept (h : HubLog) (hlen : buf.length < watchBuffer) :
    Runs (locked h b buf rest missed) (between h (buf ++ [b]) rest missed) := by
  have hexec (outs) : Leader.exec sampleConfig (stateOf buf rest true) outs 2 (.subSend 0 b) .none =
      some (stateOf (buf ++ [b]) rest true, true, none) := by
    unfold Leader.exec
    simp [stateOf, hlen, Leader.pushItem]
  have hobserved (outs) : sampleLeader.exec (stateOf buf rest true, h) outs 2 (.subSend 0 b) .none =
      some ((stateOf (buf ++ [b]) rest true, h), true, none) := exec_observed.mpr ⟨hexec outs, rfl⟩
  have hstep := Config.step_thread (c := locked h b buf rest missed) rfl (hobserved _)
  refine .trans (runs_of_step _ hstep) ?_
  cases missed <;> exact runs_of_run [.thread 2 .none] rfl

/-- The channel is full; the hub starts a goroutine that is to remove the subscriber. -/
theorem runs_refuse (h : HubLog) (hlen : buf.length = watchBuffer) :
    Runs (locked h b buf rest false) (between (h.refuse 0) buf rest true) := by
  have hexec (outs) : Leader.exec sampleConfig (stateOf buf rest true) outs 2 (.subSend 0 b) .none =
      some (stateOf buf rest true, false, none) := by
    unfold Leader.exec
    simp [stateOf, hlen]
  have hobserved (outs) : sampleLeader.exec (stateOf buf rest true, h) outs 2 (.subSend 0 b) .none =
      some ((stateOf buf rest true, h.refuse 0), false, none) := exec_observed.mpr ⟨hexec outs, rfl⟩
  have hstep := Config.step_thread (c := locked h b buf rest false) rfl (hobserved _)
  refine .trans (runs_of_step _ hstep) ?_
  exact runs_of_run [.thread 2 .none, .thread 2 .none] rfl

/-- The watch does not match the batch. -/
def Skipped (b : List Event) : Prop := filterByPrefix (filterByRevision b 0) [1] = []

theorem runs_receive (hb : Skipped b) :
    Runs (between (logOf item streamed received refused) (b :: buf) rest missed)
      (between (logOf item streamed (received ++ [b]) refused) buf rest missed) := by
  have hlog : (logOf item streamed received refused).note (.subRecv 0) (some b) =
      logOf item streamed (received ++ [b]) refused := by
    simp [HubLog.note, logOf]
  rw [← hlog]
  -- what is left of the pass of `processEvents` after the batch was received
  let pass : M Unit :=
    if filterByPrefix (filterByRevision b 0) [1] = [] then pure ()
    else call (.resultSend 0 (filterByPrefix (filterByRevision b 0) [1]))
  let after (p : Prog sig Outcome) : Option (Interleaving.Config sampleLeader) :=
    some ⟨(stateOf buf rest false, (logOf item streamed received refused).note
      (.subRecv 0) (some b)),
      (goroutines (.ret .none) missed).set 6
        ⟨p, (Leader.goroutine sampleConfig (.processEvents 0 0 0 [1] 0)).again⟩⟩
  have hpass : (pass >>= fun _ => pure .none) = (.ret .none : Prog sig Outcome) := by
    simp only [pass, if_pos (show filterByPrefix (filterByRevision b 0) [1] = [] from hb)]
    rfl
  apply runs_of_run receiveOne
  cases missed
  · exact (rfl : _ = after (pass >>= fun _ => pure .none)).trans (congrArg after hpass)
  · exact (rfl : _ = after (pass >>= fun _ => pure .none)).trans (congrArg after hpass)

theorem runs_fill (xs : List (List Event)) (hlen : buf.length + xs.length ≤ watchBuffer) :
    ∃ item', Runs (between (logOf item streamed received refused) buf (xs ++ rest) missed)
      (between (logOf item' (streamed ++ xs) received refused) (buf ++ xs) rest missed) := by
  induction xs generalizing item streamed buf with
  | nil =>
    refine ⟨item, ?_⟩
    simp only [List.nil_append, List.append_nil]
    exact .refl
  | cons b xs ih =>
    simp only [List.length_cons] at hlen
    have hlen' : (buf ++ [b]).length + xs.length ≤ watchBuffer := by
      rw [List.length_append, List.length_singleton]
      omega
    obtain ⟨item', hmore⟩ := @ih b (streamed ++ [b]) (buf ++ [b]) hlen'
    simp only [List.append_assoc, List.singleton_append] at hmore
    exact ⟨item', (runs_lock.trans (runs_accept _ (by omega))).trans hmore⟩

theorem runs_drain (xs : List (List Event)) (hxs : ∀ b ∈ xs, Skipped b) :
    Runs (between (logOf item streamed received refused) (xs ++ buf) rest missed)
      (between (logOf item streamed (received ++ xs) refused) buf rest missed) := by
  induction xs generalizing received with
  | nil =>
    simp only [List.nil_append, List.append_nil]
    exact .refl
  | cons b xs ih =>
    have hrest := @ih (received ++ [b]) fun b' hb' => hxs b' (List.mem_cons_of_mem _ hb')
    rw [List.append_assoc] at hrest
    exact (runs_receive (hxs b List.mem_cons_self)).trans hrest

/-- The buffer is full when a batch arrives, which is dropped. One receive makes room before the
subscriber is removed, and the next batch is delivered. -/
theorem runs_gap (x : List Event) (xs : List (List Event)) (b₁ b₂ : List Event)
    (hlen : (x :: xs).length = watchBuffer) (hskip : ∀ b ∈ x :: xs, Skipped b) (h₂ : Skipped b₂) :
    Runs (sampleHub (x :: xs ++ [b₁, b₂])) (between
      (logOf b₂ (x :: xs ++ [b₁, b₂]) (x :: xs ++ [b₂]) (some watchBuffer)) [] [] true) := by
  have hrefused : (logOf b₁ (x :: xs ++ [b₁]) [] none).refuse 0 =
      logOf b₁ (x :: xs ++ [b₁]) [] (some watchBuffer) := by
    have hlast : (x :: xs ++ [b₁]).length - 1 - 0 = watchBuffer := by
      rw [List.length_append, hlen]
      rfl
    simp only [HubLog.refuse, logOf, Function.update_self, Function.update_idem, hlast]
  obtain ⟨item, hfill⟩ := @runs_fill [] [] [] [] [b₁, b₂] none false (x :: xs) (by simp [← hlen])
  apply ((runs_subscribe _).trans hfill).trans
  -- the first of the two batches does not fit
  apply (runs_lock.trans (runs_refuse _ hlen)).trans
  rw [List.nil_append, hrefused]
  apply (runs_receive (hskip x List.mem_cons_self)).trans
  have hroom : xs.length < watchBuffer := by
    rw [← hlen]
    exact Nat.lt_succ_self _
  apply (runs_lock.trans (runs_accept _ hroom)).trans
  have hall : ∀ b ∈ xs ++ [b₂], Skipped b := List.forall_mem_append.mpr
    ⟨fun b hb => hskip b (List.mem_cons_of_mem _ hb), List.forall_mem_singleton.mpr h₂⟩
  have hdrain := @runs_drain b₂ (x :: xs ++ [b₁] ++ [b₂]) [x] [] [] (some watchBuffer) true
    (xs ++ [b₂]) hall
  rw [List.append_nil, List.append_assoc] at hdrain
  rwa [List.append_assoc]

/-- A subscriber misses a batch and receives the next one. -/
theorem subscriber_sees_gap : ∃ input, ∃ c : Interleaving.Config sampleLeader,
    Config.Reach (fun _ _ => True) (sampleHub input) c ∧ 0 < (LeaderState.subs c.state.1).length ∧
      ¬ c.state.2.received 0 <+: c.state.2.offered 0 := by
  have hskip (n : ℕ) : Skipped (batch n) := by
    simp [Skipped, batch, filterByPrefix, filterByRevision, List.isPrefixOf]
  let xs := (List.range (watchBuffer - 1)).map fun n => batch (n + 1)
  have hlen : (batch 0 :: xs).length = watchBuffer := by
    rw [List.length_cons, List.length_map, List.length_range]
    rfl
  have hall : ∀ b ∈ batch 0 :: xs, Skipped b := by
    intro b hb
    rcases List.mem_cons.mp hb with rfl | hb
    · exact hskip 0
    · obtain ⟨n, -, rfl⟩ := List.mem_map.mp hb
      exact hskip (n + 1)
  refine ⟨_, _, runs_gap (batch 0) xs (batch 10000) (batch 10001) hlen hall (hskip 10001),
    Nat.one_pos, ?_⟩
  show ¬ batch 0 :: xs ++ [batch 10001] <+: (batch 0 :: xs ++ [batch 10000, batch 10001]).drop 0
  rw [List.drop_zero, List.prefix_append_right_inj]
  simp [batch]

end Runs

end Hub
end KubeBrain

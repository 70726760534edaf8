import KubeBrain.Watch.Roles

/-! Who sends on the result channel of a watch, and what: the request that made the channel and
the goroutine it starts, and events of the prefix that was asked for. This needs no assumption
on the hub, whose subscribers may be dropped at any time. -/
namespace KubeBrain

open Interleaving
open Watch (Unrelated)

namespace Channels

/-- What a goroutine does with result channels. -/
inductive Use where
  | other
  | asked (pre : Bytes)
  | holds (pre : Bytes) (out : ℕ)
  | forwards (pre : Bytes) (out : ℕ)

def Use.channel : Use → Option (Bytes × ℕ)
  | holds pre out | forwards pre out => some (pre, out)
  | _ => none

def Matches (pre : Bytes) (evs : List Event) : Prop := ∀ e ∈ evs, pre.isPrefixOf e.kv.key = true

def Pre (g : Use) : Op → Prop
  | .makeResult => ∃ pre, g = .asked pre
  | .resultSend out evs => ∃ pre, g.channel = some (pre, out) ∧ Matches pre evs
  | .spawn (.processEvents _ out _ pre _) => g = .holds pre out
  | _ => True

def Post (g : Use) (o : Op) (r : o.Res) (g' : Use) : Prop :=
  match o, r with
  | .makeResult, out => ∃ pre, g = .asked pre ∧ g' = .holds pre out
  | _, _ => g' = g

/-- Only the request that has made a channel returns it. -/
def Fin (g : Use) (a : Outcome) : Prop := ∀ out, a = .watching (.ok out) → ∃ pre, g = .holds pre out

structure Inv (results : List ResultChan) (gs : ℕ → Use) : Prop where
  carries : ∀ i pre out, (gs i).channel = some (pre, out) →
    ∃ x : ResultChan, results[out]? = some x ∧ Matches pre (x.delivered ++ x.buf).flatten
  agree : ∀ i j pre pre' out, (gs i).channel = some (pre, out) →
    (gs j).channel = some (pre', out) → pre = pre'
  single : ∀ i j pre pre' out, gs i = .holds pre out → gs j = .holds pre' out → i = j

abbrev spec : Spec sig Outcome where
  Ghost := Use
  idle := .other
  Pre := Pre
  Post := Post
  Fin := Fin

abbrev outline (cfg : Config) (K : KvStorage) : Outline (leader cfg K) where
  toSpec := spec
  Inv := fun s gs => Inv s.results gs

theorem matches_filterByPrefix (evs : List Event) (pre : Bytes) :
    Matches pre (filterByPrefix evs pre) :=
  fun _ he => (List.mem_filter.mp he).2

section Programs

variable {α : Type} {g : Use}

variable {p : M α}

/-- Operations that do not concern result channels. -/
def Apart : Op → Prop
  | .makeResult | .resultSend .. | .spawn (.processEvents ..) => False
  | _ => True

theorem apart_of_kind {o : Op} (hclient : o.kind ≠ .client) (hfork : o.kind ≠ .forkWatch) :
    Apart o := by
  cases o with
  | makeResult | resultSend _ _ => exact absurd rfl hclient
  | spawn t =>
    cases t with
    | processEvents _ _ _ _ _ => exact absurd rfl hfork
    | _ => trivial
  | _ => trivial

theorem safe_apart (h : p.Only Apart) : spec.Safe (fun g' _ => g' = g) g p := by
  apply Spec.safe_of_still (O := spec) _ h
  intro o ho
  cases o with
  | makeResult | resultSend _ _ => exact ho.elim
  | spawn t =>
    cases t with
    | processEvents _ _ _ _ _ => exact ho.elim
    | _ => exact ⟨trivial, fun _ _ hpost => hpost⟩
  | _ => exact ⟨trivial, fun _ _ hpost => hpost⟩

theorem only_within {ks : List OpKind} (h : Within ks p) (hclient : .client ∉ ks)
    (hfork : .forkWatch ∉ ks) : p.Only Apart :=
  Prog.Only.mono (fun _ ho => apart_of_kind (fun he => hclient (he ▸ ho.1))
    fun he => hfork (he ▸ ho.1)) h

theorem only_sendAll (item : List Event) (subs : List ℕ) : (sendAll item subs).Only Apart := by
  induction subs with
  | nil => exact Prog.only_pure _
  | cons sub subs ih =>
    refine ⟨trivial, fun accepted => ?_⟩
    cases accepted with
    | false => exact ⟨trivial, fun _ => ih⟩
    | true => exact ih

theorem only_stream : stream.Only Apart :=
  ⟨trivial, fun item => ⟨trivial, fun subs => (only_sendAll item subs).bind fun _ =>
    ⟨trivial, fun _ => trivial⟩⟩⟩

theorem safe_sendBatches {pre : Bytes} {out : ℕ} (hg : g.channel = some (pre, out))
    (size fuel : ℕ) {evs : List Event} (hevs : Matches pre evs) :
    spec.Safe (fun g' _ => g' = g) g (sendBatches out size fuel evs) := by
  induction fuel generalizing evs with
  | zero => exact rfl
  | succ fuel ih =>
    unfold sendBatches
    split
    · refine ⟨⟨pre, hg, fun e he => hevs e (List.mem_of_mem_take he)⟩, fun _ g' hpost => ?_⟩
      obtain rfl : g' = g := hpost
      exact ih fun e he => hevs e (List.mem_of_mem_drop he)
    · exact ⟨⟨pre, hg, hevs⟩, fun _ _ hpost => hpost⟩

theorem safe_processEvents {pre : Bytes} {out : ℕ} (hg : g.channel = some (pre, out))
    (ctx sub revision : ℕ) :
    spec.Safe (fun g' _ => g' = g) g (processEvents ctx out sub pre revision) := by
  refine ⟨trivial, fun received g' hpost => ?_⟩
  obtain rfl : g' = g := hpost
  cases received with
  | some evs =>
    show spec.Safe _ _ (if _ then _ else _ : M Unit)
    split
    · exact rfl
    · exact ⟨⟨pre, hg, matches_filterByPrefix _ _⟩, fun _ _ hpost => hpost⟩
  | none =>
    refine ⟨trivial, fun _ g₁ h₁ => ⟨trivial, fun _ g₂ h₂ => ⟨trivial, nofun⟩⟩⟩

theorem safe_handleWatch (pre : Bytes) (revision : ℕ) :
    spec.Safe (fun g' a => ∀ out, a = .ok out → g' = .holds pre out) (.asked pre)
      (handleWatch pre revision) := by
  -- the last steps of a request that is served
  have hlive (ctx out sub start : ℕ) : spec.Safe
      (fun g' a => ∀ out, a = .ok out → g' = .holds pre out) (.holds pre out)
      (do let _ ← call (.spawn (.processEvents ctx out sub pre start))
          pure (.ok out) : M (Except Err ℕ)) := by
    refine ⟨rfl, fun _ g' hpost => ?_⟩
    obtain rfl : g' = .holds pre out := hpost
    intro out' h
    rw [Except.ok.inj h]
  -- and of one that is not
  have hrefuse (ctx : ℕ) (g : Use) (err : Err) : spec.Safe
      (fun g' a => ∀ out, a = .ok out → g' = .holds pre out) g
      (do call (.cancel ctx); pure (.error err) : M (Except Err ℕ)) :=
    ⟨trivial, fun _ _ _ => nofun⟩
  refine ⟨trivial, fun ctx g' hpost => ?_⟩
  obtain rfl : g' = .asked pre := hpost
  refine ⟨trivial, fun sub g' hpost => ?_⟩
  obtain rfl : g' = .asked pre := hpost
  refine ⟨trivial, fun _ g' hpost => ?_⟩
  obtain rfl : g' = .asked pre := hpost
  refine ⟨⟨pre, rfl⟩, fun out g' hpost => ?_⟩
  obtain ⟨pre', hg, rfl⟩ := hpost
  obtain rfl := Use.asked.inj hg
  show spec.Safe _ _ (if _ then _ else _ : M (Except Err ℕ))
  split
  · exact hlive ctx out sub revision
  refine ⟨trivial, fun found g' hpost => ?_⟩
  obtain rfl : g' = .holds pre out := hpost
  cases found with
  | empty =>
    refine ⟨trivial, fun cur g' hpost => ?_⟩
    obtain rfl : g' = .holds pre out := hpost
    show spec.Safe _ _ (if _ then _ else _ : M (Except Err ℕ))
    split
    · exact hlive ctx out sub revision
    · exact ⟨trivial, fun _ g' _ => hrefuse ctx g' _⟩
  | high => exact hlive ctx out sub revision
  | low oldest => exact hrefuse ctx _ _
  | found newest events =>
    show spec.Safe _ _ (if _ then _ else _ : M (Except Err ℕ))
    split
    · exact hlive ctx out sub revision
    · apply (safe_sendBatches (g := .holds pre out)
        rfl _ _ (matches_filterByPrefix events pre)).bind
      intro g' _ hg
      subst hg
      exact hlive ctx out sub (newest.revision + 1)

/-- What a new goroutine does with result channels. -/
def useOf : Task → Use
  | .request (.watch pre _) => .asked pre
  | .processEvents _ out _ pre _ => .forwards pre out
  | _ => .other

theorem useOf_ne_holds (t : Task) (pre : Bytes) (out : ℕ) : useOf t ≠ .holds pre out := by
  cases t with
  | request r => cases r <;> nofun
  | _ => nofun

theorem channel_useOf_request (r : Request) : (useOf (.request r)).channel = none := by
  cases r <;> rfl

theorem fin_of_unrelated {a : Outcome} (h : Unrelated a) : Fin g a := fun _ ha => absurd ha (h _)

theorem safe_unrelated {f : α → Outcome} (hp : p.Only Apart) (hf : ∀ a, Unrelated (f a)) :
    spec.Safe (fun g' a => g' = g ∧ Unrelated a) g (p >>= fun a => pure (f a)) :=
  (safe_apart hp).bind fun _ a hg => ⟨hg, hf a⟩

/-- Goroutines that have nothing to do with watches. -/
theorem threadSafe_once {f : α → Outcome} (hp : p.Only Apart) (hf : ∀ a, Unrelated (f a)) :
    spec.ThreadSafe g ⟨p >>= fun a => pure (f a), none⟩ :=
  (safe_unrelated hp hf).mono fun _ _ h => fin_of_unrelated h.2

theorem threadSafe_loop {f : Outcome → Prog sig Outcome} {a : Outcome} (ha : Unrelated a)
    (hf : ∀ a, Unrelated a → spec.Safe (fun g' a => g' = g ∧ Unrelated a) g (f a)) :
    spec.ThreadSafe g ⟨.ret a, some f⟩ := by
  refine ⟨fun g' a => g' = g ∧ Unrelated a, fun g' a h => fin_of_unrelated h.2, ⟨rfl, ha⟩, ?_⟩
  rintro g' a ⟨rfl, ha⟩
  exact hf a ha

theorem threadSafe_goroutine (cfg : Config) (t : Task) :
    spec.ThreadSafe (useOf t) (Leader.goroutine cfg t) := by
  have honce {t : Task} (ht : Watch.Unwatched t) :
      spec.ThreadSafe .other (Leader.goroutine cfg t) := by
    obtain ⟨α, p, f, hgo, hp, hf⟩ := Watch.exists_once cfg ht
    rw [hgo]
    exact threadSafe_once (only_within hp (by decide) (by decide)) hf
  cases t with
  | request r =>
    cases r with
    | watch pre revision =>
      apply (safe_handleWatch pre revision).bind
      intro g' a h out ha
      exact ⟨pre, h out (Outcome.watching.inj ha)⟩
    | _ => exact honce trivial
  | worker w receiver => exact honce trivial
  | rangeStream start stop rev id => exact honce trivial
  | processEvents ctx out sub pre start =>
    refine threadSafe_loop nofun fun a _ => ?_
    exact (safe_processEvents rfl ctx sub start).bind fun _ _ hg => ⟨hg, nofun⟩
  | deleteWatcherOnDone ctx sub =>
    exact threadSafe_once (p := do call (.waitDone ctx); call (.deleteSub sub))
      ⟨trivial, fun _ => ⟨trivial, fun _ => trivial⟩⟩ nofun
  | deleteWatcher sub =>
    exact threadSafe_once (p := call (.deleteSub sub)) ⟨trivial, fun _ => trivial⟩ nofun

end Programs

section Soundness

variable {cfg : Config} {K : KvStorage} {results : List ResultChan} {gs : ℕ → Use}

variable {i out : ℕ}

section

variable (h : Inv results gs)

include h

/-- A goroutine that is added without a channel of its own. -/
theorem Inv.update {g : Use}
    (hchannel : ∀ pre out, g.channel = some (pre, out) → ∃ j, (gs j).channel = some (pre, out))
    (hholds : ∀ pre out, g = .holds pre out → gs i = .holds pre out) :
    Inv results (Function.update gs i g) := by
  have hold {j : ℕ} {pre : Bytes} {out : ℕ}
      (hj : (Function.update gs i g j).channel = some (pre, out)) :
      ∃ k, (gs k).channel = some (pre, out) := by
    rcases update_cases (P := fun g : Use => g.channel = some (pre, out)) hj with ⟨-, h⟩ | ⟨-, h⟩
    · exact hchannel pre out h
    · exact ⟨j, h⟩
  have hheld {j : ℕ} {pre : Bytes} {out : ℕ} (hj : Function.update gs i g j = .holds pre out) :
      gs j = .holds pre out := by
    rcases update_cases (P := (· = Use.holds pre out)) hj with ⟨rfl, h⟩ | ⟨-, h⟩
    · exact hholds pre out h
    · exact h
  constructor
  · intro j pre out hj
    obtain ⟨k, hk⟩ := hold hj
    exact h.carries k pre out hk
  · intro j k pre pre' out hj hk
    obtain ⟨j', hj'⟩ := hold hj
    obtain ⟨k', hk'⟩ := hold hk
    exact h.agree j' k' pre pre' out hj' hk'
  · intro j k pre pre' out hj hk
    exact h.single j k pre pre' out (hheld hj) (hheld hk)

/-- What was sent on the channels changes, and it still is of the prefix. -/
theorem Inv.move {results' : List ResultChan}
    (hkeep : ∀ i pre out (x : ResultChan), (gs i).channel = some (pre, out) →
      results[out]? = some x → Matches pre (x.delivered ++ x.buf).flatten →
      ∃ x' : ResultChan, results'[out]? = some x' ∧
        Matches pre (x'.delivered ++ x'.buf).flatten) : Inv results' gs := by
  refine ⟨fun i pre out hi => ?_, h.agree, h.single⟩
  obtain ⟨x, hx, hmatch⟩ := h.carries i pre out hi
  exact hkeep i pre out x hi hx hmatch

theorem Inv.make {pre : Bytes} :
    Inv (results ++ [⟨[], false, []⟩]) (Function.update gs i (.holds pre results.length)) := by
  have hknown {j : ℕ} {pre' : Bytes} {out : ℕ} (hj : (gs j).channel = some (pre', out)) :
      out < results.length := by
    obtain ⟨x, hx, -⟩ := h.carries j pre' out hj
    exact (List.getElem?_eq_some_iff.mp hx).1
  -- a channel is the new one, or an old one
  have hcases {j : ℕ} {pre' : Bytes} {out : ℕ}
      (hj : (Function.update gs i (.holds pre results.length) j).channel = some (pre', out)) :
      j = i ∧ pre' = pre ∧ out = results.length ∨
        j ≠ i ∧ (gs j).channel = some (pre', out) ∧ out < results.length := by
    rcases update_cases (P := fun g : Use => g.channel = some (pre', out)) hj with
      ⟨hji, h⟩ | ⟨hji, h⟩
    · obtain ⟨hpre, hout⟩ := Prod.mk.inj (Option.some.inj h)
      exact .inl ⟨hji, hpre.symm, hout.symm⟩
    · exact .inr ⟨hji, h, hknown h⟩
  constructor
  · intro j pre' out hj
    rcases hcases hj with ⟨-, -, rfl⟩ | ⟨-, hold, hlt⟩
    · exact ⟨_, List.getElem?_concat_length, by simp [Matches]⟩
    · rw [List.getElem?_append_left hlt]
      exact h.carries j pre' out hold
  · intro j k p₁ p₂ out hj hk
    rcases hcases hj with ⟨-, rfl, rfl⟩ | ⟨-, hold, hlt⟩ <;>
      rcases hcases hk with ⟨-, rfl, hout⟩ | ⟨-, hold', hlt'⟩
    · rfl
    · exact absurd hlt' (lt_irrefl _)
    · omega
    · exact h.agree j k p₁ p₂ out hold hold'
  · intro j k p₁ p₂ out hj hk
    have hj' := congrArg Use.channel hj
    have hk' := congrArg Use.channel hk
    rcases hcases hj' with ⟨rfl, -, rfl⟩ | ⟨hji, -, hlt⟩ <;>
      rcases hcases hk' with ⟨rfl, -, hout⟩ | ⟨hki, -, hlt'⟩
    · rfl
    · exact absurd hlt' (lt_irrefl _)
    · omega
    · rw [Function.update_of_ne hji] at hj
      rw [Function.update_of_ne hki] at hk
      exact h.single j k p₁ p₂ out hj hk

theorem Inv.send {pre : Bytes} {evs : List Event} {x : ResultChan}
    (hi : (gs i).channel = some (pre, out)) (hevs : Matches pre evs) (hx : results[out]? = some x) :
    Inv (results.set out { x with buf := x.buf ++ [evs] }) gs := by
  refine h.move fun j pre' out' x' hj hx' hmatch => ?_
  by_cases hout : out = out'
  · subst hout
    obtain rfl := h.agree i j pre pre' out hi hj
    obtain rfl := Option.some.inj (hx.symm.trans hx')
    refine ⟨_, List.getElem?_set_self (List.getElem?_eq_some_iff.mp hx).1, fun e he => ?_⟩
    simp only [List.flatten_append, List.mem_append, List.flatten_cons, List.flatten_nil,
      List.append_nil] at he hmatch
    rcases he with he | he | he
    · exact hmatch e (by simp [he])
    · exact hmatch e (by simp [he])
    · exact hevs e he
  · rw [List.getElem?_set_ne hout]
    exact ⟨x', hx', hmatch⟩

theorem Inv.close (out : ℕ) : Inv (results.modify out fun x => { x with closed := true }) gs := by
  refine h.move fun j pre' out' x' hj hx' hmatch => ?_
  rw [List.getElem?_modify, hx']
  refine ⟨_, rfl, ?_⟩
  split <;> exact hmatch

theorem Inv.receive {evs : List Event} {rest delivered : List (List Event)}
    {closed : Bool} (hx : results[out]? = some ⟨evs :: rest, closed, delivered⟩) :
    Inv (results.set out ⟨rest, closed, delivered ++ [evs]⟩) gs := by
  refine h.move fun j pre' out' x' hj hx' hmatch => ?_
  by_cases hout : out = out'
  · subst hout
    obtain rfl := Option.some.inj (hx.symm.trans hx')
    refine ⟨_, List.getElem?_set_self (List.getElem?_eq_some_iff.mp hx).1, ?_⟩
    simpa using hmatch
  · rw [List.getElem?_set_ne hout]
    exact ⟨x', hx', hmatch⟩

end

theorem sound : (outline cfg K).Sound (fun _ _ => True) fun _ _ _ => True where
  op := by
    intro s gs outs i o ch s' r sp _ hinv hpre _ _ _ _ hex
    have hex : Leader.exec cfg s outs i o ch = some (s', r, sp) := hex
    have hnone (hspawn : ∀ t, o ≠ .spawn t) (hacc : o ≠ .accept) : sp = none :=
      Leader.exec_no_spawn hspawn hacc hex
    have hspawned (t : Task) (hsp : sp = some (Leader.goroutine cfg t))
        (hsame : Inv s'.results (Function.update gs outs.length (useOf t))) :
        (outline cfg K).Spawned s' (Function.update gs i (gs i)) outs.length sp := by
      rw [hsp, Function.update_eq_self]
      exact ⟨useOf t, threadSafe_goroutine cfg t, hsame⟩
    have hquiet (hmake : o ≠ .makeResult) (hsend : ∀ out evs, o ≠ .resultSend out evs)
        (hclose : ∀ out, o ≠ .resultClose out) (hspawn : ∀ t, o ≠ .spawn t) (hacc : o ≠ .accept) :
        (outline cfg K).Spawned s' (Function.update gs i (gs i)) outs.length sp := by
      rw [hnone hspawn hacc, Function.update_eq_self]
      show Inv s'.results gs
      rwa [Leader.exec_results hmake hsend hclose hex]
    cases o with
    | makeResult =>
      obtain ⟨pre, hg⟩ := hpre
      obtain ⟨hres, rfl⟩ := Leader.exec_makeResult hex
      refine ⟨.holds pre s.results.length, ⟨pre, hg, rfl⟩, ?_⟩
      rw [hnone (by simp) (by simp)]
      show Inv s'.results _
      rw [hres]
      exact hinv.make
    | resultSend out evs =>
      obtain ⟨pre, hg, hevs⟩ := hpre
      obtain ⟨x, hx, hres⟩ := Leader.exec_resultSend hex
      refine ⟨gs i, rfl, ?_⟩
      rw [hnone (by simp) (by simp), Function.update_eq_self]
      show Inv s'.results gs
      rw [hres]
      exact hinv.send hg hevs hx
    | resultClose out =>
      refine ⟨gs i, rfl, ?_⟩
      rw [hnone (by simp) (by simp), Function.update_eq_self]
      show Inv s'.results gs
      rw [Leader.exec_resultClose hex]
      exact hinv.close out
    | spawn t =>
      obtain ⟨rfl, -, hsp⟩ := Leader.exec_spawn_task hex
      refine ⟨gs i, rfl, hspawned t hsp (hinv.update ?_ ?_)⟩
      · intro pre out hchannel
        cases t with
        | processEvents ctx out' sub pre' start =>
          obtain ⟨rfl, rfl⟩ := Prod.mk.inj (Option.some.inj hchannel)
          have hg : gs i = .holds pre' out' := hpre
          exact ⟨i, by rw [hg]; rfl⟩
        | request r =>
          rw [channel_useOf_request] at hchannel
          cases hchannel
        | _ => cases hchannel
      · exact fun pre out hholds => absurd hholds (useOf_ne_holds t pre out)
    | accept =>
      obtain ⟨req, -, rfl, hsp⟩ := Leader.exec_accept hex
      refine ⟨gs i, rfl, hspawned (.request req) hsp (hinv.update ?_ ?_)⟩
      · intro pre out hchannel
        rw [channel_useOf_request] at hchannel
        cases hchannel
      · exact fun pre out hholds => absurd hholds (useOf_ne_holds _ pre out)
    | _ => exact ⟨gs i, rfl, hquiet (by simp) (by simp) (by simp) (by simp) (by simp)⟩
  env := by
    intro s gs ch s' _ hinv _ he
    have he : Leader.env s ch = some s' := he
    show Inv s'.results gs
    cases ch with
    | receive out =>
      simp only [Leader.env] at he
      split at he
      · next hx =>
        rw [← Option.some.inj he]
        exact hinv.receive hx
      · cases he
    | cancel ctx =>
      obtain rfl := Option.some.inj he
      exact hinv
    | _ =>
      have hwatch : s'.watch = s.watch := by
        refine Leader.env_watch ?_ ?_ he <;> simp
      rwa [show s'.results = s.results from congrArg WatchView.results hwatch]

theorem good_init (start : ℕ) (kv : K.State) :
    (outline cfg K).Good (Leader.init cfg K start kv) fun _ => .other where
  inv := ⟨nofun, nofun, nofun⟩
  safe := by
    intro i t ht
    apply Leader.forall_start (P := fun _ t => spec.ThreadSafe .other t) ?_ ?_ ?_ ?_ ht
    · refine threadSafe_loop nofun fun a ha => ?_
      cases a with
      | batch evs =>
        exact safe_unrelated (only_within (within_collectStorageWriteEvents evs) (by decide)
          (by decide)) nofun
      | _ => exact ⟨rfl, ha⟩
    · refine threadSafe_loop nofun fun a _ => ?_
      exact safe_unrelated (only_within within_retry (by decide) (by decide)) nofun
    · exact threadSafe_loop nofun fun a _ => safe_unrelated only_stream nofun
    · refine threadSafe_loop nofun fun a _ => ?_
      exact safe_unrelated (p := call .accept) ⟨trivial, fun _ => trivial⟩ nofun
  idle := fun _ _ => rfl

variable {start : ℕ} {kv : K.State} {c₀ c : Interleaving.Config (leader cfg K)}

theorem good_of_reach (hr : Config.Reach (fun _ _ => True) (Leader.init cfg K start kv) c) :
    ∃ gs, (outline cfg K).Good c gs :=
  (good_init start kv).reach sound (fun _ _ _ _ _ _ _ _ => trivial) hr

/-- Requests do not share a channel. -/
theorem eq_of_returned (hr : Config.Reach (fun _ _ => True) (Leader.init cfg K start kv) c) {j : ℕ}
    (hi : c.Returned i (.watching (.ok out))) (hj : c.Returned j (.watching (.ok out))) :
    i = j := by
  obtain ⟨gs, hgood⟩ := good_of_reach hr
  obtain ⟨pre, hpre⟩ : ∃ pre, gs i = .holds pre out := hgood.returned hi out rfl
  obtain ⟨pre', hpre'⟩ : ∃ pre, gs j = .holds pre out := hgood.returned hj out rfl
  exact hgood.inv.single i j pre pre' out hpre hpre'

/-- The channel that a request for a watch has returned carries events of its prefix. -/
theorem matches_of_returned (h₀ : Config.Reach (fun _ _ => True) (Leader.init cfg K start kv) c₀)
    {pre : Bytes} {revision : ℕ}
    (hi : c₀.threads[i]? = some (Leader.goroutine cfg (.request (.watch pre revision))))
    (hr : Config.Reach (fun _ _ => True) c₀ c) (hout : c.Returned i (.watching (.ok out))) :
    ∃ x : ResultChan, (LeaderState.results c.state)[out]? = some x ∧
      Matches pre (x.delivered ++ x.buf).flatten := by
  obtain ⟨gs₀, hgood₀⟩ := good_of_reach h₀
  -- whatever the ghost of the request was, it has asked for its prefix
  have hgood₁ : (outline cfg K).Good c₀ (Function.update gs₀ i (.asked pre)) :=
    hgood₀.regard hi (threadSafe_goroutine cfg (.request (.watch pre revision)))
      (hgood₀.inv.update nofun nofun)
  obtain ⟨gs, hgood, hfollow⟩ := hgood₁.run sound (fun _ _ _ _ _ _ _ _ => trivial) hr
  have hsafe : spec.Safe (fun g a => ∀ out, a = .watching (.ok out) → g = .holds pre out)
      (Function.update gs₀ i (.asked pre) i) (Leader.handle cfg (.watch pre revision)) := by
    rw [Function.update_self]
    exact (safe_handleWatch pre revision).bind fun _ _ h out ha => h out (Outcome.watching.inj ha)
  have hholds : gs i = .holds pre out := hfollow.returned hi hsafe hout out rfl
  exact hgood.inv.carries i pre out (by rw [hholds]; rfl)

end Soundness
end Channels
end KubeBrain

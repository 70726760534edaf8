import KubeBrain.Watch.Custody

/-! What a watch delivers: the published events that match it, each of them once, whatever the
interleaving of its registration with the consumer and the hub. -/
namespace KubeBrain

open Interleaving

namespace Watch

/-- The hub drops no subscriber, and clients do not hang up. -/
def NoDropNoHangup (cfg : Config) (K : KvStorage) : Guard (watchedLeader cfg K) := fun s mv =>
  match mv with
  | .op (.subSend sub _) _ =>
    ((LeaderState.subs s.1)[sub]?).any fun x => decide (x.buf.length < watchBuffer)
  | .env (.cancel _) => False
  | _ => True

/-- Every watch that is served has a goroutine that forwards its batches, and a channel of its
own. -/
structure Forwarded (gs : ℕ → Role) : Prop where
  forwarder : ∀ i w, gs i = .served w → ∃ j held, gs j = .forwards w held
  single : ∀ i j w w', gs i = .served w → gs j = .served w' → w.out = w'.out → i = j

abbrev outline (cfg : Config) (K : KvStorage) : Outline (watchedLeader cfg K) where
  toSpec := spec
  Inv := fun s gs => Core (LeaderState.watch s.1) s.2 gs ∧ Forwarded gs

theorem Forwarded.update {gs : ℕ → Role} (hf : Forwarded gs) {i : ℕ} {g' : Role}
    (hserved : ∀ w, g' = .served w → gs i = .served w)
    (hforwards : ∀ w held, gs i = .forwards w held → ∃ held', g' = .forwards w held') :
    Forwarded (Function.update gs i g') := by
  have hold {k : ℕ} {w : Live} (hk : Function.update gs i g' k = .served w) : gs k = .served w := by
    rcases update_cases (P := (· = Role.served w)) hk with ⟨rfl, h⟩ | ⟨-, h⟩
    · exact hserved w h
    · exact h
  constructor
  · intro k w hk
    obtain ⟨j, held, hj⟩ := hf.forwarder k w (hold hk)
    by_cases hji : j = i
    · subst hji
      obtain ⟨held', hg⟩ := hforwards w held hj
      refine ⟨j, held', ?_⟩
      rw [Function.update_self, hg]
    · refine ⟨j, held, ?_⟩
      rw [Function.update_of_ne hji, hj]
  · intro j k w w' hj hk
    exact hf.single j k w w' (hold hj) (hold hk)

section Soundness

variable {cfg : Config} {K : KvStorage} {s s' : LeaderState K} {h : HubLog} {gs : ℕ → Role}
  {outs : List (Option Outcome)} {i : ℕ} {ch : LeaderChoice K} {sp : Option (Thread sig Outcome)}

variable {v : WatchView} {o : Op} {sub : ℕ} {item : List Event} {out : ℕ} {r : o.Res}

/-- The state and log after an answer, and the parts of the goroutines. -/
def Steps (s' : LeaderState K) (h : HubLog) (gs : ℕ → Role) (i : ℕ) (o : Op) (r : o.Res) : Prop :=
  ∃ g', Post (gs i) o r g' ∧ Core s'.watch (h.note o r) (Function.update gs i g') ∧
    Forwarded (Function.update gs i g')

theorem Moves.of_eq {v' : WatchView} {h' : HubLog} (hadded : v'.added = v.added)
    (hstreamed : h'.streamed = h.streamed) (hctx : v'.contexts = v.contexts)
    (hsubs : v'.hub.subs = v.hub.subs) : Moves v h v' h' := by
  constructor
  · simp [hadded]
  · simp [hstreamed]
  · rw [hctx]
    exact fun _ => id
  · rw [hsubs]

theorem Asset.same_of_eq {v' : WatchView} {h' : HubLog} (hctx : v'.contexts = v.contexts)
    (hsubs : v'.hub.subs = v.hub.subs) (hres : v'.results = v.results)
    (hrec : h'.received = h.received) (hsince : h'.since = h.since) (a : Asset) :
    a.Same v h v' h' := by
  cases a with
  | ctx c => exact fun hc => by rwa [Open, hctx]
  | sub s => exact ⟨fun hs => by rwa [Registered, hsubs], by rw [hrec], by rw [hsince]⟩
  | out o => exact fun evs ho => by rwa [Carries, hres]

theorem Core.others (hc : Core v h gs) {j : ℕ} (hj : j ≠ i) {a : Asset} (ha : a ∈ (gs j).owns) :
    a ∉ (gs i).owns ∧ a.Known v :=
  ⟨fun hi => hc.apart j i a hj ha hi, (hc.roles j).known a ha⟩

/-- A goroutine sends on a channel that it owns. -/
theorem Carries.send {sent evs : List Event} {r : ResultChan} (hr : s.results[out]? = some r)
    (hsent : Carries s.watch out sent) :
    Carries ({ s with results := s.results.set out { r with buf := r.buf ++ [evs] } } :
      LeaderState K).watch out (sent ++ evs) := by
  obtain ⟨r', hr', hopen, hflat⟩ := hsent
  obtain rfl := Option.some.inj (hr.symm.trans hr')
  refine ⟨{ r with buf := r.buf ++ [evs] },
    List.getElem?_set_self (List.getElem?_eq_some_iff.mp hr).1, hopen, ?_⟩
  show (r.delivered ++ (r.buf ++ [evs])).flatten = _
  rw [← List.append_assoc, List.flatten_append, hflat, List.flatten_singleton]

/-- The batch in a channel is in order. -/
theorem Feed.sorted_item (hf : Feed v h) {rest : List (List Event)} {reg : Bool}
    (hx : v.hub.subs[sub]? = some ⟨item :: rest, reg⟩) :
    item.Pairwise fun a b => a.revision < b.revision := by
  obtain ⟨turn, hinv⟩ := hf.hub
  obtain ⟨more, hmore⟩ := (hinv.channels sub _ hx).taken
  refine List.Pairwise.sublist ?_ hf.sorted
  have hitem : item.Sublist (h.offered sub).flatten := by
    rw [← hmore]
    apply List.sublist_flatten_of_mem
    simp
  exact hitem.trans ((hf.offered_initial sub).sublist.trans (List.drop_sublist _ _))

section Step

variable (hc : Core s.watch h gs) (hw : Forwarded gs) (hf : Feed s.watch h)

include hc hw

/-- Operations that no watch sees. -/
theorem steps_of_unseen (hpost : Post (gs i) o r (gs i)) (hv : s'.watch = s.watch)
    (hh : h.note o r = h) : Steps s' h gs i o r := by
  refine ⟨gs i, hpost, ?_⟩
  rw [Function.update_eq_self, hv, hh]
  exact ⟨hc, hw⟩

include hf

/-- Operations that change no part. -/
theorem steps_of_same (hf' : Feed s'.watch (h.note o r)) (hpost : Post (gs i) o r (gs i))
    (hm : Moves s.watch h s'.watch (h.note o r)) (hcache : s'.watch.cache.Holds s'.watch.added)
    (hsame : ∀ a : Asset, a.Same s.watch h s'.watch (h.note o r)) : Steps s' h gs i o r := by
  refine ⟨gs i, hpost, ?_⟩
  rw [Function.update_eq_self]
  exact ⟨hc.move hf hf' hm hcache fun _ a _ => hsame a, hw⟩

theorem step_addSub (hs : s' = { s with subs := s.subs ++ [⟨[], true⟩] })
    (hf' : Feed s'.watch (h.note .addSub s.subs.length)) (hpre : Pre (gs i) .addSub) :
    Steps s' h gs i .addSub s.subs.length := by
  subst hs
  obtain ⟨pre, revision, ctx, hg⟩ := hpre
  refine ⟨.subscribed pre revision ctx s.subs.length, ⟨pre, revision, ctx, hg, rfl⟩,
    hc.step hf hf' ⟨List.prefix_refl _, List.prefix_refl _, fun _ => id, ?_⟩ hc.cache ?_ ?_ ?_ ?_
      (by rintro _ _ ⟨⟩), hw.update (by simp) ?_⟩
  · simp [LeaderState.watch, LeaderState.hub]
  · intro j hj a ha
    obtain ⟨-, hknown⟩ := hc.others hj ha
    cases a with
    | ctx c => exact id
    | sub x =>
      have hx : x < s.subs.length := hknown
      refine ⟨?_, rfl, Function.update_of_ne (Nat.ne_of_lt hx) _ _⟩
      rintro ⟨y, hy, hreg⟩
      exact ⟨y, (List.getElem?_append_left hx).trans hy, hreg⟩
    | out o => exact fun _ => id
  · obtain ⟨turn, hinv⟩ := hf.hub
    refine ⟨hc.role hg, ⟨⟨[], true⟩, List.getElem?_concat_length, rfl⟩, ?_⟩
    exact (hinv.fresh _ (le_refl _)).1
  · rw [hg]
    rintro a (_ | ⟨_, _ | ⟨_, ⟨⟩⟩⟩)
    · exact .inl (by simp [Role.owns])
    · exact .inr (lt_irrefl _)
  · rw [hg]
    intro c x hx
    simp [Role.owns] at hx
  · rw [hg]
    simp

theorem step_deleteSub
    (hs : s' = { s with subs := s.subs.modify sub fun x => { x with registered := false } })
    (hf' : Feed s'.watch h) (hpre : Pre (gs i) (.deleteSub sub)) :
    Steps s' h gs i (.deleteSub sub) () := by
  subst hs
  obtain ⟨ctx, hg⟩ := hpre
  refine ⟨.bystander, rfl, hc.step hf hf' ⟨List.prefix_refl _, List.prefix_refl _, fun _ => id, ?_⟩
    hc.cache ?_ trivial (by rintro _ ⟨⟩) (by rintro _ _ _ ⟨⟩) (by rintro _ _ ⟨⟩),
    hw.update (by simp) ?_⟩
  · simp [LeaderState.watch, LeaderState.hub]
  · intro j hj a ha
    cases a with
    | ctx c => exact id
    | sub x =>
      -- the owner of the subscriber would have its context open
      have hne : sub ≠ x := by
        intro hx
        subst hx
        have hown := hc.linked i j ctx sub (by rw [hg]; rfl) ha
        have hopen : s.contexts[ctx]? = some false := (hc.roles j).open_of_owns hown
        have hdone : s.contexts[ctx]? = some true := (hc.role hg).1
        rw [hdone] at hopen
        cases hopen
      refine ⟨?_, rfl, rfl⟩
      rintro ⟨y, hy, hreg⟩
      exact ⟨y, (List.getElem?_modify_ne _ _ hne).trans hy, hreg⟩
    | out o => exact fun _ => id
  · rw [hg]
    simp

theorem step_subSend (hs : s' = { s with subs := s.subs.modify sub (Leader.pushItem item) })
    (hf' : Feed s'.watch h) : Steps s' h gs i (.subSend sub item) true := by
  subst hs
  refine steps_of_same (s := s) hc hw hf hf' ⟨rfl, rfl⟩ ?_ ?_ ?_
  · refine ⟨List.prefix_refl _, List.prefix_refl _, fun _ => id, ?_⟩
    simp [LeaderState.watch, LeaderState.hub]
  · exact hc.cache
  · intro a
    cases a with
    | ctx c => exact id
    | sub x =>
      refine ⟨?_, rfl, rfl⟩
      rintro ⟨y, hy, hreg⟩
      have hy : s.subs[x]? = some y := hy
      by_cases hx : sub = x
      · subst hx
        refine ⟨Leader.pushItem item y, ?_, hreg⟩
        simp [LeaderState.watch, LeaderState.hub, hy]
      · exact ⟨y, (List.getElem?_modify_ne _ _ hx).trans hy, hreg⟩
    | out o => exact fun _ => id

theorem step_subRecv {rest : List (List Event)} {reg : Bool}
    (hs : s' = { s with subs := s.subs.set sub ⟨rest, reg⟩ })
    (hf' : Feed s'.watch (h.note (.subRecv sub) (some item))) (hpre : Pre (gs i) (.subRecv sub))
    (hx : s.subs[sub]? = some ⟨item :: rest, reg⟩) :
    Steps s' h gs i (.subRecv sub) (some item) := by
  obtain ⟨w, hg, rfl⟩ := hpre
  obtain ⟨hctx, ⟨y, hy, hreg⟩, ⟨sent, hsent, hheld⟩, hw0⟩ := hc.role hg
  obtain rfl := Option.some.inj (hx.symm.trans hy)
  have hlt := (List.getElem?_eq_some_iff.mp hx).1
  have hm : Moves s.watch h s'.watch (h.note (.subRecv w.sub) (some item)) := by
    subst hs
    refine ⟨List.prefix_refl _, List.prefix_refl _, fun _ => id, ?_⟩
    simp [LeaderState.watch, LeaderState.hub]
  subst hs
  refine ⟨.forwards w (filterByPrefix (filterByRevision item w.start) w.pre), ⟨w, hg, rfl⟩,
    hc.step hf hf' hm hc.cache ?_ ⟨hctx, ?_, ⟨sent, hsent, ?_⟩, fun h0 => ?_⟩ ?_ ?_
      (by rintro _ _ ⟨⟩),
    hw.update (by simp) ?_⟩
  · intro j hj a ha
    obtain ⟨hnot, -⟩ := hc.others hj ha
    cases a with
    | ctx c => exact id
    | sub x =>
      have hne : x ≠ w.sub := by
        rintro rfl
        exact hnot (by simp [hg, Role.owns])
      refine ⟨?_, Function.update_of_ne hne _ _, rfl⟩
      rintro ⟨z, hz, hzreg⟩
      exact ⟨z, (List.getElem?_set_ne (Ne.symm hne)).trans hz, hzreg⟩
    | out o => exact fun _ => id
  · exact ⟨⟨rest, reg⟩, List.getElem?_set_self hlt, hreg⟩
  · show sent ++ _ = w.caught ++ matching w.pre w.start
      (Function.update h.received w.sub (h.received w.sub ++ [item]) w.sub).flatten
    rw [List.append_nil] at hheld
    rw [Function.update_self, List.flatten_append, matching_append, List.flatten_singleton,
      ← List.append_assoc, ← hheld, filter_eq_matching (hf.sorted_item hx)]
  · exact (hw0 h0).move hf hf' hm.added rfl
  · rw [hg]
    exact fun a ha => .inl ha
  · rw [hg]
    exact fun _ _ _ _ hctx => hctx
  · rw [hg]
    intro w' held' heq
    obtain ⟨rfl, -⟩ := Role.forwards.inj heq
    exact ⟨_, rfl⟩

theorem step_withCancel (hs : s' = { s with contexts := s.contexts ++ [false] })
    (hf' : Feed s'.watch h) (hpre : Pre (gs i) .withCancel) :
    Steps s' h gs i .withCancel s.contexts.length := by
  subst hs
  obtain ⟨pre, revision, hg⟩ := hpre
  refine ⟨.opened pre revision s.contexts.length, ⟨pre, revision, hg, rfl⟩,
    hc.step hf hf' ⟨List.prefix_refl _, List.prefix_refl _, fun c hdone => ?_, le_refl _⟩ hc.cache
      ?_ List.getElem?_concat_length ?_ ?_ nofun, hw.update nofun ?_⟩
  · have hdone : s.contexts[c]? = some true := hdone
    exact (List.getElem?_append_left (List.getElem?_eq_some_iff.mp hdone).1).trans hdone
  · intro j hj a ha
    obtain ⟨-, hknown⟩ := hc.others hj ha
    cases a with
    | ctx c => exact fun hopen => (List.getElem?_append_left hknown).trans hopen
    | sub x => exact ⟨id, rfl, rfl⟩
    | out o => exact fun _ => id
  · rintro a (_ | ⟨_, ⟨⟩⟩)
    exact .inr (lt_irrefl _)
  · rw [hg]
    nofun
  · rw [hg]
    nofun

theorem step_cancel {ctx : ℕ} (hs : s' = { s with contexts := s.contexts.set ctx true })
    (hf' : Feed s'.watch h) (hpre : Pre (gs i) (.cancel ctx)) :
    Steps s' h gs i (.cancel ctx) () := by
  subst hs
  have hreq : (gs i).requestCtx = some ctx := hpre
  have hown : .ctx ctx ∈ (gs i).owns := by
    cases hg : gs i <;> rw [hg] at hreq <;> simp_all [Role.requestCtx, Role.owns]
  refine ⟨.rejected, rfl,
    hc.step hf hf' ⟨List.prefix_refl _, List.prefix_refl _, fun c hdone => ?_, le_refl _⟩ hc.cache
      ?_ trivial (by rintro _ ⟨⟩) (by rintro _ _ _ ⟨⟩) (by rintro _ _ ⟨⟩), hw.update (by simp) ?_⟩
  · have hdone : s.contexts[c]? = some true := hdone
    show (s.contexts.set ctx true)[c]? = some true
    rw [List.getElem?_set]
    have hlt := (List.getElem?_eq_some_iff.mp hdone).1
    split
    · next hcc => rw [if_pos (by omega)]
    · exact hdone
  · intro j hj a ha
    obtain ⟨hnot, -⟩ := hc.others hj ha
    cases a with
    | ctx c =>
      have hne : ctx ≠ c := by
        rintro rfl
        exact hnot hown
      exact fun hopen => (List.getElem?_set_ne hne).trans hopen
    | sub x => exact ⟨id, rfl, rfl⟩
    | out o => exact fun _ => id
  · intro w held heq
    rw [heq] at hreq
    cases hreq

theorem step_waitDone {ctx : ℕ} (hpre : Pre (gs i) (.waitDone ctx))
    (hdone : s.contexts[ctx]? = some true) : Steps s h gs i (.waitDone ctx) () := by
  obtain ⟨sub, hg⟩ := hpre
  refine ⟨.cleared ctx sub, ⟨sub, hg, rfl⟩, hc.step hf hf (.of_eq rfl rfl rfl rfl) hc.cache
    (fun _ _ a _ => Asset.same_of_eq rfl rfl rfl rfl rfl a) ⟨hdone, hc.role hg⟩ nofun nofun ?_,
    hw.update nofun ?_⟩
  · rw [hg]
    exact fun _ _ => id
  · rw [hg]
    nofun

theorem step_makeResult (hs : s' = { s with results := s.results ++ [⟨[], false, []⟩] })
    (hf' : Feed s'.watch h) (hpre : Pre (gs i) .makeResult) :
    Steps s' h gs i .makeResult s.results.length := by
  obtain ⟨pre, revision, ctx, sub, hg⟩ := hpre
  obtain ⟨hctx, hsub, hrec⟩ := hc.role hg
  have hnew : Carries s'.watch s.results.length [] := by
    subst hs
    exact ⟨⟨[], false, []⟩, List.getElem?_concat_length, rfl, rfl⟩
  subst hs
  let g' : Role := if revision = 0 then .catching ⟨pre, 0, ctx, sub, s.results.length, 0, []⟩ []
    else .ready pre revision ctx sub s.results.length
  have howns : g'.owns = [.ctx ctx, .sub sub, .out s.results.length] := by
    simp only [g']
    split <;> rfl
  refine ⟨g', ⟨pre, revision, ctx, sub, hg, rfl⟩,
    hc.step hf hf' ⟨List.prefix_refl _, List.prefix_refl _, fun _ => id, le_refl _⟩ hc.cache
      ?_ ?_ ?_ ?_ ?_, hw.update ?_ ?_⟩
  · intro j hj a ha
    obtain ⟨-, hknown⟩ := hc.others hj ha
    cases a with
    | ctx c => exact id
    | sub x => exact ⟨id, rfl, rfl⟩
    | out o =>
      rintro evs ⟨r, hr, hrest⟩
      exact ⟨r, (List.getElem?_append_left hknown).trans hr, hrest⟩
  · simp only [g']
    split
    · exact ⟨hctx, hsub, hrec, ⟨[], hnew, rfl⟩, fun h0 => absurd h0 (lt_irrefl 0)⟩
    · exact ⟨hctx, hsub, hrec, hnew⟩
  · rw [howns, hg]
    rintro a (_ | ⟨_, _ | ⟨_, _ | ⟨_, ⟨⟩⟩⟩⟩)
    · exact .inl (by simp [Role.owns])
    · exact .inl (by simp [Role.owns])
    · exact .inr (lt_irrefl _)
  · rw [howns, hg]
    intro c x _ _ hcc
    simpa [Role.owns] using hcc
  · simp only [g']
    split <;> rintro _ _ ⟨⟩
  · simp only [g']
    split <;> simp
  · rw [hg]
    simp

theorem step_resultSend {evs : List Event} {r : ResultChan}
    (hs : s' = { s with results := s.results.set out { r with buf := r.buf ++ [evs] } })
    (hf' : Feed s'.watch h) (hpre : Pre (gs i) (.resultSend out evs))
    (hr : s.results[out]? = some r) : Steps s' h gs i (.resultSend out evs) () := by
  obtain ⟨w, rfl, hg⟩ := hpre
  have hm : Moves s.watch h s'.watch h := by
    subst hs
    exact .of_eq rfl rfl rfl rfl
  have hsame (hown : .out w.out ∈ (gs i).owns) (j : ℕ) (hj : j ≠ i) : ∀ a ∈ (gs j).owns,
      a.Same s.watch h s'.watch h := by
    subst hs
    intro a ha
    obtain ⟨hnot, -⟩ := hc.others hj ha
    cases a with
    | ctx c => exact id
    | sub x => exact ⟨id, rfl, rfl⟩
    | out o =>
      have hne : w.out ≠ o := by
        rintro rfl
        exact hnot hown
      rintro evs ⟨r', hr', hrest⟩
      exact ⟨r', (List.getElem?_set_ne hne).trans hr', hrest⟩
  subst hs
  rcases hg with ⟨todo, hg⟩ | hg
  · obtain ⟨hctx, hsub, hrec, ⟨sent, hsent, htodo⟩, hw0⟩ := hc.role hg
    refine ⟨.catching w todo, ⟨w, .inl ⟨todo, hg, rfl⟩⟩,
      hc.step hf hf' hm hc.cache (hsame (by simp [hg, Role.owns]))
        ⟨hctx, hsub, hrec, ⟨sent ++ evs, hsent.send hr, ?_⟩, fun h0 =>
          (hw0 h0).move hf hf' hm.added rfl⟩
        ?_ ?_ (by rintro _ _ ⟨⟩), hw.update (by simp) ?_⟩
    · rw [List.append_assoc]
      exact htodo
    · rw [hg]
      exact fun a ha => .inl ha
    · rw [hg]
      exact fun _ _ _ _ hctx => hctx
    · rw [hg]
      simp
  · obtain ⟨hctx, hsub, ⟨sent, hsent, hheld⟩, hw0⟩ := hc.role hg
    refine ⟨.forwards w [], ⟨w, .inr ⟨hg, rfl⟩⟩,
      hc.step hf hf' hm hc.cache (hsame (by simp [hg, Role.owns]))
        ⟨hctx, hsub, ⟨sent ++ evs, hsent.send hr, ?_⟩, fun h0 => (hw0 h0).move hf hf' hm.added rfl⟩
        ?_ ?_ (by rintro _ _ ⟨⟩), hw.update (by simp) ?_⟩
    · rw [List.append_nil]
      exact hheld
    · rw [hg]
      exact fun a ha => .inl ha
    · rw [hg]
      exact fun _ _ _ _ hctx => hctx
    · rw [hg]
      intro w' held' heq
      obtain ⟨rfl, -⟩ := Role.forwards.inj heq
      exact ⟨_, rfl⟩

theorem step_cacheFind {revision : ℕ} (hpre : Pre (gs i) (.cacheFind revision)) :
    Steps s h gs i (.cacheFind revision) (s.cache.findEvents revision) := by
  obtain ⟨pre, ctx, sub, out, hg⟩ := hpre
  obtain ⟨hctx, hsub, hrec, hout⟩ := hc.role hg
  have hfound := Ring.findEvents_spec hc.cache hf.sorted revision
  have hcases := decide_cases hf pre revision ctx sub out hfound
  refine ⟨_, ⟨pre, revision, ctx, sub, out, hg, rfl⟩, ?_⟩
  have hsame (j : ℕ) (_ : j ≠ i) (a : Asset) (_ : a ∈ (gs j).owns) :
      a.Same s.watch h s.watch h := Asset.same_of_eq rfl rfl rfl rfl rfl a
  rcases hcases with hdec | ⟨start, caught, hdec, hsplit⟩
  · rw [show s.cache.findEvents revision = s.watch.cache.findEvents revision from rfl, hdec]
    refine ⟨hc.step hf hf (.of_eq rfl rfl rfl rfl) hc.cache hsame hctx ?_ ?_ (by rintro _ _ ⟨⟩),
      hw.update (by simp) ?_⟩
    · rw [hg]
      rintro a (_ | ⟨_, ⟨⟩⟩)
      exact .inl (by simp [Role.owns])
    · intro c x _ hx
      simp [Role.owns] at hx
    · rw [hg]
      simp
  · rw [show s.cache.findEvents revision = s.watch.cache.findEvents revision from rfl, hdec]
    refine ⟨hc.step hf hf (.of_eq rfl rfl rfl rfl) hc.cache hsame
      ⟨hctx, hsub, hrec, ⟨[], hout, rfl⟩, fun _ => hsplit⟩ ?_ ?_ (by rintro _ _ ⟨⟩),
        hw.update (by simp) ?_⟩
    · rw [hg]
      exact fun a ha => .inl ha
    · rw [hg]
      exact fun _ _ _ _ hctx => hctx
    · rw [hg]
      simp

theorem op_step (hf' : Feed s'.watch (h.note o r)) (hpre : Pre (gs i) o)
    (hG : NoDropNoHangup cfg K (s, h) (.op o ch)) (hspawn : ∀ t, o ≠ .spawn t)
    (hex : Leader.exec cfg s outs i o ch = some (s', r, sp)) : Steps s' h gs i o r := by
  by_cases ho : o.kind ∈ Leader.watchKinds
  · cases o with
    | addSub =>
      obtain ⟨-, rfl, rfl, -⟩ := answer_unless hex
      exact step_addSub hc hw hf rfl hf' hpre
    | deleteSub sub =>
      obtain ⟨-, rfl, -⟩ := answer_unless hex
      exact step_deleteSub hc hw hf rfl hf' hpre
    | subSend sub item =>
      have hroom : (s.subs[sub]?).any fun x => decide (x.buf.length < watchBuffer) := hG
      unfold Leader.exec at hex
      simp only [hroom, if_true, Option.some.injEq, Prod.mk.injEq] at hex
      obtain ⟨rfl, rfl, -⟩ := hex
      exact step_subSend hc hw hf rfl hf'
    | subRecv sub =>
      rcases Leader.exec_subRecv hex with ⟨item, rest, reg, hx, rfl, rfl⟩ | ⟨hx, -, -⟩
      · exact step_subRecv hc hw hf rfl hf' hpre hx
      · -- a subscriber that is registered is not closed
        obtain ⟨w, hg, rfl⟩ := hpre
        obtain ⟨-, ⟨y, hy, hreg⟩, -⟩ := hc.role hg
        obtain rfl := Option.some.inj (hx.symm.trans hy)
        cases hreg
    | chanRecv =>
      obtain ⟨rest, -, rfl⟩ := Leader.exec_chanRecv hex
      exact steps_of_same hc hw hf hf' rfl (.of_eq rfl rfl rfl rfl) hc.cache
        (Asset.same_of_eq rfl rfl rfl rfl rfl)
    | hubRLock =>
      cases ch with
      | order subs =>
        obtain ⟨-, rfl, rfl, -⟩ := answer_ite hex
        exact steps_of_same hc hw hf hf' rfl
          ⟨List.prefix_refl _, List.prefix_append _ _, fun _ => id, le_refl _⟩ hc.cache
          (Asset.same_of_eq rfl rfl rfl rfl rfl)
      | _ => cases hex
    | hubRUnlock =>
      obtain ⟨rfl, -⟩ := answer_inj hex
      exact steps_of_same hc hw hf hf' rfl (.of_eq rfl rfl rfl rfl) hc.cache
        (Asset.same_of_eq rfl rfl rfl rfl rfl)
    | cacheAdd e =>
      obtain ⟨rfl, -⟩ := answer_inj hex
      exact steps_of_same hc hw hf hf' rfl
        ⟨List.prefix_append _ _, List.prefix_refl _, fun _ => id, le_refl _⟩ (hc.cache.add e)
        (Asset.same_of_eq rfl rfl rfl rfl rfl)
    | chanSend batch =>
      obtain ⟨-, rfl, -⟩ := answer_ite hex
      exact steps_of_same hc hw hf hf' rfl (.of_eq rfl rfl rfl rfl) hc.cache
        (Asset.same_of_eq rfl rfl rfl rfl rfl)
    | withCancel =>
      obtain ⟨rfl, rfl, -⟩ := answer_inj hex
      exact step_withCancel hc hw hf rfl hf' hpre
    | cancel ctx =>
      obtain ⟨rfl, -⟩ := answer_inj hex
      exact step_cancel hc hw hf rfl hf' hpre
    | waitDone ctx =>
      unfold Leader.exec at hex
      dsimp only at hex
      split at hex
      · next hdone =>
        obtain ⟨rfl, -⟩ := answer_inj hex
        exact step_waitDone hc hw hf hpre hdone
      · cases hex
    | makeResult =>
      obtain ⟨rfl, rfl, -⟩ := answer_inj hex
      exact step_makeResult hc hw hf rfl hf' hpre
    | resultSend out evs =>
      unfold Leader.exec at hex
      simp only [Option.map_eq_some_iff, Prod.mk.injEq] at hex
      obtain ⟨s₁, hs, rfl, -⟩ := hex
      unfold Leader.execResult at hs
      split at hs
      · cases hs
      · next r hr =>
        split at hs
        · cases hs
        · obtain rfl := Option.some.inj hs
          exact step_resultSend hc hw hf rfl hf' hpre hr
    | resultClose out => exact hpre.elim
    | spawn t => exact absurd rfl (hspawn t)
    | ringStore idx ev => cases ev <;> simp [Leader.watchKinds] at ho
    | kv o =>
      have hkv : ∀ k ∈ [OpKind.read, .retryRead, .commit, .record, .gc], k ∉ Leader.watchKinds := by
        decide
      exact absurd ho (hkv _ o.kind_mem)
    | _ => simp [Leader.watchKinds] at ho
  · have hv : s'.watch = s.watch := Leader.exec_watch ho hex
    have hsub : Leader.hubKinds ⊆ Leader.watchKinds := by decide
    have hh : h.note o r = h := h.note_of_kind (fun hkind => ho (hsub hkind)) r
    by_cases hfind : ∃ revision, o = .cacheFind revision
    · obtain ⟨revision, rfl⟩ := hfind
      obtain ⟨rfl, rfl, -⟩ := answer_inj hex
      exact step_cacheFind hc hw hf hpre
    · refine steps_of_unseen hc hw ?_ hv hh
      cases o with
      | withCancel | addSub | makeResult | resultSend _ _ | cancel _ | subRecv _ | waitDone _
      | deleteSub _ | subSend _ _ => simp [Leader.watchKinds] at ho
      | cacheFind revision => exact absurd ⟨revision, rfl⟩ hfind
      | spawn t => exact absurd rfl (hspawn t)
      | _ => rfl

end Step

/-- A request that is served hands what it owns to the goroutine that forwards. -/
theorem spawn_forwarder {w : Live} {n : ℕ} (hc : Core v h gs) (hw : Forwarded gs)
    (hg : gs i = .catching w []) (hn : gs n = .bystander) (hin : n ≠ i) :
    Core v h (Function.update (Function.update gs i (.served w)) n (.forwards w [])) ∧
      Forwarded (Function.update (Function.update gs i (.served w)) n (.forwards w [])) := by
  obtain ⟨hctx, hsub, hrec, ⟨sent, hsent, hcaught⟩, hw0⟩ := hc.role hg
  have hserved : Core v h (Function.update gs i (.served w)) := by
    refine hc.set ?_ ?_ ?_ ?_
    · exact trivial
    all_goals nofun
  have howns : (Role.forwards w []).owns = (gs i).owns := by rw [hg]; rfl
  constructor
  · apply hserved.set
    · refine ⟨hctx, hsub, ⟨sent, hsent, ?_⟩, hw0⟩
      rw [hrec]
      simpa [matching] using hcaught
    · intro j hj a ha
      by_cases hji : j = i
      · subst hji
        rw [Function.update_self]
        nofun
      · rw [Function.update_of_ne hji]
        exact hc.apart i j a (Ne.symm hji) (howns ▸ ha)
    · nofun
    · intro j c x hj hcl hx
      rw [howns] at hx ⊢
      have hji : j ≠ i := by
        rintro rfl
        rw [Function.update_self] at hcl
        cases hcl
      rw [Function.update_of_ne hji] at hcl
      exact hc.linked j i c x hcl hx
  · have hold {k : ℕ} {w' : Live}
        (hk : Function.update (Function.update gs i (.served w)) n (.forwards w []) k =
          .served w') :
        k = i ∧ w' = w ∨ k ≠ i ∧ gs k = .served w' := by
      have hkn : k ≠ n := by
        rintro rfl
        rw [Function.update_self] at hk
        cases hk
      rw [Function.update_of_ne hkn] at hk
      exact (update_cases (P := (· = Role.served _)) hk).imp_left fun h =>
        ⟨h.1, (Role.served.inj h.2).symm⟩
    -- the channel of another request belongs to the goroutine that forwards it
    have hother {k : ℕ} {w' : Live} (hk : gs k = .served w') (hout : w'.out = w.out) : False := by
      obtain ⟨j, held, hj⟩ := hw.forwarder k w' hk
      have hji : j ≠ i := by
        rintro rfl
        rw [hg] at hj
        cases hj
      apply hc.apart j i (.out w'.out) hji
      · simp [hj, Role.owns]
      · simp [hg, Role.owns, hout]
    constructor
    · intro k w' hk
      rcases hold hk with ⟨rfl, rfl⟩ | ⟨hki, hk⟩
      · exact ⟨n, [], Function.update_self _ _ _⟩
      · obtain ⟨j, held, hj⟩ := hw.forwarder k w' hk
        have hjn : j ≠ n := by
          rintro rfl
          rw [hn] at hj
          cases hj
        have hji : j ≠ i := by
          rintro rfl
          rw [hg] at hj
          cases hj
        exact ⟨j, held, by rw [Function.update_of_ne hjn, Function.update_of_ne hji, hj]⟩
    · intro j k w₁ w₂ hj hk hout
      rcases hold hj with ⟨hji, hw₁⟩ | ⟨-, hj'⟩ <;> rcases hold hk with ⟨hki, hw₂⟩ | ⟨-, hk'⟩
      · rw [hji, hki]
      · rw [hw₁] at hout
        exact (hother hk' hout.symm).elim
      · rw [hw₂] at hout
        exact (hother hj' hout).elim
      · exact hw.single j k w₁ w₂ hj' hk' hout

/-- A request gets a goroutine that removes its subscriber. -/
theorem spawn_cleaner {pre : Bytes} {revision ctx n : ℕ} (hc : Core v h gs) (hw : Forwarded gs)
    (hg : gs i = .subscribed pre revision ctx sub) (hn : gs n = .bystander) :
    Core v h (Function.update gs n (.cleaner ctx sub)) ∧
      Forwarded (Function.update gs n (.cleaner ctx sub)) := by
  constructor
  · apply hc.set
    · exact (hc.role hg).2.1.known
    · rintro _ _ _ ⟨⟩
    · intro j c x hj hcl hx
      obtain ⟨rfl, rfl⟩ := Prod.mk.inj (Option.some.inj hcl)
      by_cases hji : j = i
      · subst hji
        rw [hg]
        simp [Role.owns]
      · exact absurd hx (hc.apart i j _ (Ne.symm hji) (by rw [hg]; simp [Role.owns]))
    · rintro _ _ _ _ _ ⟨⟩
  · refine hw.update ?_ ?_
    · simp
    · rw [hn]
      simp

/-- Goroutines that own nothing may be started at any time. -/
theorem spawn_free {g : Role} {n : ℕ} (hc : Core v h gs) (hw : Forwarded gs)
    (hn : gs n = .bystander) (hg : g.Holds v h) (howns : g.owns = []) (hcl : g.cleans = none)
    (hserved : ∀ w, g ≠ .served w) :
    Core v h (Function.update gs n g) ∧ Forwarded (Function.update gs n g) := by
  constructor
  · apply hc.set hg
    · rw [howns]
      nofun
    · rw [hcl]
      nofun
    · rw [howns]
      nofun
  · apply hw.update fun w hw' => absurd hw' (hserved w)
    rw [hn]
    nofun

theorem spawn_task {g' : Role} {t : Task} {n : ℕ} (hc : Core v h gs) (hw : Forwarded gs)
    (hpre : PreSpawn (gs i) t) (hn : gs n = .bystander) (hin : n ≠ i)
    (hpost : Post (gs i) (.spawn t) n g') :
    Core v h (Function.update (Function.update gs i g') n (roleOf (gs i) t)) ∧
      Forwarded (Function.update (Function.update gs i g') n (roleOf (gs i) t)) := by
  cases t with
  | processEvents ctx out sub pre start =>
    obtain ⟨w, hg, -⟩ := hpre
    obtain ⟨w', hg', rfl⟩ := hpost
    obtain ⟨rfl, -⟩ := Role.catching.inj (hg.symm.trans hg')
    have hrole : roleOf (gs i) (.processEvents ctx out sub pre start) = .forwards w [] := by
      rw [hg]
      rfl
    rw [hrole]
    exact spawn_forwarder hc hw hg hn hin
  | deleteWatcherOnDone ctx sub =>
    obtain ⟨pre, revision, hg⟩ := hpre
    obtain rfl : g' = gs i := hpost
    rw [Function.update_eq_self]
    exact spawn_cleaner hc hw hg hn
  | deleteWatcher sub => exact hpre.elim
  | request r =>
    obtain rfl : g' = gs i := hpost
    rw [Function.update_eq_self]
    cases r <;> exact spawn_free hc hw hn trivial rfl rfl nofun
  | worker w receiver | rangeStream _ _ _ _ =>
    obtain rfl : g' = gs i := hpost
    rw [Function.update_eq_self]
    exact spawn_free hc hw hn trivial rfl rfl nofun

theorem sound : (outline cfg K).Sound (NoDropNoHangup cfg K) fun s _ s' =>
    Feed (LeaderState.watch s.1) s.2 ∧ Feed (LeaderState.watch s'.1) s'.2 where
  op := by
    intro s gs outs i o ch s' r sp hA hinv hpre hG hlt hidle _ hex
    obtain ⟨hexec, hnote⟩ := exec_observed.mp hex
    obtain ⟨st, log⟩ := s
    obtain ⟨st', log'⟩ := s'
    obtain rfl : log' = HubLog.note log o r := hnote
    have hexec : Leader.exec cfg st outs i o ch = some (st', r, sp) := hexec
    have hn : gs outs.length = .bystander := hidle _ (le_refl _)
    have hin : outs.length ≠ i := Nat.ne_of_gt hlt
    by_cases hspawn : ∃ t, o = .spawn t
    · obtain ⟨t, rfl⟩ := hspawn
      obtain ⟨rfl, rfl, rfl⟩ := Leader.exec_spawn_task hexec
      obtain ⟨g', hpost⟩ : ∃ g', Post (gs i) (.spawn t) outs.length g' := by
        cases t with
        | processEvents ctx out sub pre start =>
          obtain ⟨w, hg, -⟩ := hpre
          exact ⟨.served w, w, hg, rfl⟩
        | _ => exact ⟨gs i, rfl⟩
      exact ⟨g', hpost, roleOf (gs i) t, threadSafe_goroutine cfg (.inl hpre),
        spawn_task hinv.1 hinv.2 hpre hn hin hpost⟩
    · have hspawn (t : Task) (ho : o = .spawn t) : False := hspawn ⟨t, ho⟩
      obtain ⟨g', hpost, hc, hw⟩ := op_step hinv.1 hinv.2 hA.1 hA.2 hpre hG hspawn hexec
      refine ⟨g', hpost, ?_⟩
      have hn' : Function.update gs i g' outs.length = .bystander := by
        rw [Function.update_of_ne hin]
        exact hn
      rcases (Leader.exec_frame hexec).2 with rfl | ⟨t, rfl, ho | ⟨rfl, req, -, rfl⟩⟩
      · exact ⟨hc, hw⟩
      · exact (hspawn t ho).elim
      · refine ⟨roleOf (gs i) (.request req), threadSafe_goroutine cfg (.inr ⟨req, rfl⟩), ?_⟩
        cases req <;> exact spawn_free hc hw hn' trivial rfl rfl (by rintro _ ⟨⟩)
  env := by
    intro s gs ch s' hA hinv hG he
    obtain ⟨henv, hlog⟩ := env_observed.mp he
    obtain ⟨st, log⟩ := s
    obtain ⟨st', log'⟩ := s'
    obtain rfl : log' = log := hlog
    have henv : Leader.env st ch = some st' := henv
    refine ⟨?_, hinv.2⟩
    cases ch with
    | cancel ctx => exact hG.elim
    | receive out =>
      simp only [Leader.env] at henv
      split at henv
      · next evs rest closed delivered hr =>
        obtain rfl := Option.some.inj henv
        refine hinv.1.move hA.1 hA.2 (.of_eq rfl rfl rfl rfl) hinv.1.cache fun _ a _ => ?_
        cases a with
        | ctx c => exact id
        | sub x => exact ⟨id, rfl, rfl⟩
        | out o =>
          rintro evs' ⟨r, hr', hopen, hflat⟩
          have hr' : st.results[o]? = some r := hr'
          by_cases ho : out = o
          · subst ho
            obtain rfl := Option.some.inj (hr.symm.trans hr')
            refine ⟨⟨rest, closed, delivered ++ [evs]⟩,
              List.getElem?_set_self (List.getElem?_eq_some_iff.mp hr).1, hopen, ?_⟩
            simpa using hflat
          · exact ⟨r, (List.getElem?_set_ne ho).trans hr', hopen, hflat⟩
      · cases henv
    | _ =>
      have hv : st'.watch = st.watch := by
        refine Leader.env_watch ?_ ?_ henv <;> simp
      show Core st'.watch log' gs
      rw [hv]
      exact hinv.1

theorem refused_note (ho : ∀ sub item, o = .subSend sub item → HEq r true) :
    (h.note o r).refused = h.refused := by
  cases o with
  | subSend sub item =>
    obtain rfl : r = true := eq_of_heq (ho sub item rfl)
    rfl
  | subRecv sub => cases r <;> rfl
  | _ => rfl

theorem accepted_of_room {r : Bool}
    (hroom : (s.subs[sub]?).any fun x => decide (x.buf.length < watchBuffer))
    (hex : Leader.exec cfg s outs i (.subSend sub item) ch = some (s', r, sp)) : r = true := by
  unfold Leader.exec at hex
  dsimp only at hex
  rw [if_pos hroom] at hex
  simp only [Option.some.injEq, Prod.mk.injEq] at hex
  exact hex.2.1.symm

abbrev init (cfg : Config) (K : KvStorage) (start : ℕ) (kv : K.State) :
    Interleaving.Config (watchedLeader cfg K) := Hub.init cfg K start kv []

variable {start : ℕ} {kv : K.State} {c : Interleaving.Config (watchedLeader cfg K)}

section

variable (hr : Config.Reach (NoDropNoHangup cfg K) (init cfg K start kv) c)

include hr

theorem kept_of_reach (sub : ℕ) : c.state.2.refused sub = none := by
  induction hr with
  | refl => rfl
  | @tail d _ _ hs ih =>
    obtain ⟨l, hl, hG⟩ := hs
    rcases Config.step_cases hl with ⟨i, ch, o, k, again, s, r, sp, rfl, ht, hex, rfl⟩ |
      ⟨i, a, f, rfl, ht, rfl⟩ | ⟨ch, s, rfl, he, rfl⟩
    · obtain ⟨hexec, hnote⟩ := exec_observed.mp hex
      show HubLog.refused s.2 sub = none
      rw [hnote, refused_note, ih]
      rintro x item rfl
      have hroom : _ = true := hG _ (Config.move_thread ht)
      have hexec : Leader.exec cfg d.state.1 d.outcomes i (.subSend x item) ch =
        some (s.1, r, sp) :=
        hexec
      have htrue : r = true := accepted_of_room hroom hexec
      rw [htrue]
    · exact ih
    · show HubLog.refused s.2 sub = none
      rw [(env_observed.mp he).2, ih]

theorem hub_of_reach : ∃ turns, (Hub.outline cfg K []).Good c turns := by
  let kept (s : LeaderState K × HubLog) : Prop := ∀ sub, s.2.refused sub = none
  have hkept := hr.given (I := kept) fun _ hd => kept_of_reach hd
  refine (Hub.good_init start kv []).reach (Hub.sound [] ?_) (fun _ _ _ _ _ _ _ _ => trivial) hkept
  rintro s mv ⟨-, hkept⟩ ch - sub x - hne
  exact absurd (hkept sub) hne

theorem leader_of_reach : Config.Reach (fun _ _ => True) (Leader.init cfg K start kv) c.forget :=
  hr.forget fun _ _ _ => trivial

theorem feed_of_reach : Feed (LeaderState.watch c.state.1) c.state.2 := by
  obtain ⟨turns, hgood⟩ := hub_of_reach hr
  obtain ⟨owed, batch, phase, hledger⟩ := sequenced_of_reach (leader_of_reach hr)
  refine ⟨⟨turns 2, hgood.inv.2⟩, kept_of_reach hr, hledger.added_sorted, ?_⟩
  exact ⟨batch, hledger.sent⟩

end

theorem good_init (start : ℕ) (kv : K.State) :
    (outline cfg K).Good (init cfg K start kv) fun _ => .bystander where
  inv := ⟨⟨Ring.holds_new cfg.cacheSize_pos, fun _ => trivial, nofun, nofun⟩, nofun, nofun⟩
  safe := by
    intro i t ht
    apply Leader.forall_start (P := fun _ t => spec.ThreadSafe .bystander t) ?_ ?_ ?_ ?_ ht
    · refine threadSafe_loop nofun fun a ha => ?_
      cases a with
      | batch evs =>
        exact (safe_bystander ((within_collectStorageWriteEvents evs).mono (by decide))).bind
          fun _ _ hg => ⟨hg, nofun⟩
      | _ => exact ⟨rfl, ha⟩
    · refine threadSafe_loop nofun fun a _ => ?_
      exact (safe_bystander (within_retry.mono (by decide))).bind fun _ _ hg => ⟨hg, nofun⟩
    · exact threadSafe_loop nofun fun a _ => safe_stream.bind fun _ _ hg => ⟨hg, nofun⟩
    · exact threadSafe_loop nofun fun a _ => ⟨rfl, fun _ g' hpost => ⟨hpost, nofun⟩⟩
  idle := fun _ _ => rfl

theorem holds_feed (hr : Config.Reach (NoDropNoHangup cfg K) (init cfg K start kv) c) :
    Outline.Holds (NoDropNoHangup cfg K)
      (fun s _ s' => Feed (LeaderState.watch s.1) s.2 ∧ Feed (LeaderState.watch s'.1) s'.2) c :=
  .of_states fun _ hd => feed_of_reach (hr.trans hd)

/-- Nothing is on its way to the client of the channel. -/
structure Drained (out : ℕ) (c : Interleaving.Config (watchedLeader cfg K)) : Prop where
  received : ∀ r : ResultChan, (LeaderState.results c.state.1)[out]? = some r → r.buf = []
  forwarded : ∀ (j : ℕ) (evs : List Event) (k : Unit → Prog sig Outcome)
    (again : Option (Outcome → Prog sig Outcome)),
    c.threads[j]? ≠ some ⟨.op (.resultSend out evs) k, again⟩
  subs : ∀ (sub : ℕ) (x : Sub), (LeaderState.subs c.state.1)[sub]? = some x → x.buf = []
  hub : ∃ a, c.Returned 2 a
  watchChan : LeaderState.watchChan c.state.1 = []
  consumer : c.Returned 0 (.batch [])

/-- A request for a watch that has not begun yet has the part of one. -/
theorem good_of_request {p : Bytes} {v : ℕ} (hgood : (outline cfg K).Good c gs)
    (hi : c.threads[i]? = some (Leader.goroutine cfg (.request (.watch p v)))) :
    (outline cfg K).Good c (Function.update gs i (.asked p v)) := by
  obtain ⟨p', v', hg⟩ : ∃ p' v', gs i = .asked p' v' := hgood.pre hi
  have hsafe : spec.ThreadSafe (.asked p v) (Leader.goroutine cfg (.request (.watch p v))) :=
    threadSafe_goroutine cfg (g := .bystander) (t := .request (.watch p v)) (.inr ⟨_, rfl⟩)
  refine hgood.regard hi hsafe ?_
  refine ⟨hgood.inv.1.set trivial nofun nofun nofun, hgood.inv.2.update nofun ?_⟩
  rw [hg]
  nofun

/-- The goroutine that forwards a watch has nothing in its hands when it is not sending. -/
theorem held_eq_nil {w : Live} {held : List Event} {j : ℕ} (hgood : (outline cfg K).Good c gs)
    (hj : gs j = .forwards w held) (hd : Drained w.out c) : held = [] := by
  have hlt : j < c.threads.length := by
    by_contra hge
    have hidle : gs j = .bystander := hgood.idle j (by omega)
    rw [hj] at hidle
    cases hidle
  obtain ⟨⟨p, again⟩, ht⟩ : ∃ t, c.threads[j]? = some t := ⟨_, List.getElem?_eq_getElem hlt⟩
  cases p with
  | ret a =>
    have hfin : Fin (gs j) a := hgood.returned ⟨_, ht, rfl⟩
    rw [hj] at hfin
    exact hfin.1
  | op o k =>
    have hpre : Pre (gs j) o := hgood.pre ht
    rw [hj] at hpre
    cases o with
    | resultSend out evs =>
      obtain ⟨w', rfl, ⟨todo, hg⟩ | hg⟩ := hpre
      · cases hg
      · obtain ⟨rfl, -⟩ := Role.forwards.inj hg
        exact absurd ht (hd.forwarded j evs k again)
    | subRecv sub =>
      obtain ⟨w', hg, -⟩ := hpre
      exact (Role.forwards.inj hg).2
    | spawn t =>
      cases t with
      | processEvents ctx out sub pre start =>
        obtain ⟨w', hg, -⟩ := hpre
        cases hg
      | deleteWatcherOnDone ctx sub =>
        obtain ⟨pre, revision, hg⟩ := hpre
        cases hg
      | deleteWatcher sub => exact hpre.elim
      | _ => cases hpre
    | withCancel | addSub | makeResult | cacheFind _ | waitDone _ | deleteSub _ =>
      simp [Pre] at hpre
    | cancel ctx => cases hpre
    | resultClose out => exact hpre.elim
    | getRevision => rcases hpre with hg | hg <;> cases hg
    | _ => cases hpre

/-- What a subscriber has received when nothing is on its way. -/
theorem received_of_drained (hr : Config.Reach (NoDropNoHangup cfg K) (init cfg K start kv) c)
    (hd : Drained out c) (hreg : Registered (LeaderState.watch c.state.1) sub) :
    (c.state.2.received sub).flatten =
      (LeaderState.journal c.state.1).added.drop (before c.state.2 sub).length := by
  obtain ⟨turns, hgood⟩ := hub_of_reach hr
  obtain ⟨x, hx, hxreg⟩ := hreg
  have hchan := hgood.inv.2.channels sub x hx
  have hflow := hgood.inv.2.flow
  obtain ⟨a, ha⟩ := hd.hub
  have hturn : (turns 2).todo = [] ∧ (turns 2).held = [] := by
    have hfin : turns 2 = .other ∨ turns 2 = .rest := hgood.returned ha
    rcases hfin with hfin | hfin <;> rw [hfin] <;> exact ⟨rfl, rfl⟩
  have hwatch : (LeaderState.hub c.state.1).watchChan = [] := hd.watchChan
  obtain ⟨owed, hledger⟩ := ledger_of_returned (leader_of_reach hr) hd.consumer
  have hsent := hledger.sent
  rw [List.append_nil] at hsent
  rw [hturn.2, hwatch, List.append_nil, List.append_nil, List.nil_append] at hflow
  -- the subscriber has taken everything it was offered
  have htaken : c.state.2.received sub = c.state.2.offered sub := by
    have hbuf : x.buf = [] := hd.subs sub x hx
    have hfull := hchan.full hxreg (kept_of_reach hr sub)
    have hinitial := hchan.taken
    simp only [hbuf, List.append_nil, hturn.1, List.not_mem_nil, decide_false, Bool.toNat_false,
      Nat.add_zero] at hfull hinitial
    exact hinitial.eq_of_length hfull
  have hadded : (LeaderState.journal c.state.1).added = c.state.2.streamed.flatten := by
    rw [← hflow]
    exact hsent.symm
  rw [htaken, hadded, ← Feed.before_append sub, List.drop_left]

theorem Feed.received_initial (hf : Feed v h) (hreg : Registered v sub) :
    (h.received sub).flatten <+: v.added.drop (before h sub).length := by
  obtain ⟨x, hx, -⟩ := hreg
  obtain ⟨turn, hinv⟩ := hf.hub
  obtain ⟨more, hmore⟩ := (hinv.channels sub x hx).taken
  refine List.IsPrefix.trans ?_ (hf.offered_initial sub)
  rw [← hmore, List.append_assoc, List.flatten_append]
  exact List.prefix_append _ _

/-- What the client of a watch that is served has received. -/
theorem delivered_of_served {w : Live} (hw0 : 0 < w.revision)
    (hr : Config.Reach (NoDropNoHangup cfg K) (init cfg K start kv) c)
    (hgood : (outline cfg K).Good c gs) (hi : gs i = .served w) :
    ∃ r : ResultChan, (LeaderState.results c.state.1)[w.out]? = some r ∧
      r.delivered.flatten <+: matching w.pre w.revision (LeaderState.journal c.state.1).added ∧
      (Drained w.out c → r.delivered.flatten =
        matching w.pre w.revision (LeaderState.journal c.state.1).added) := by
  obtain ⟨j, held, hj⟩ := hgood.inv.2.forwarder i w hi
  obtain ⟨-, hreg, ⟨sent, ⟨r, hres, -, hflat⟩, hheld⟩, hsplit⟩ := hgood.inv.1.role hj
  have hevents : matching w.pre w.revision (LeaderState.journal c.state.1).added =
      w.caught ++ matching w.pre w.start
        ((LeaderState.journal c.state.1).added.drop (before c.state.2 w.sub).length) :=
    (hsplit hw0).events
  rw [List.flatten_append] at hflat
  refine ⟨r, hres, ?_, fun hd => ?_⟩
  · rw [hevents]
    have hpart : r.delivered.flatten <+:
        w.caught ++ matching w.pre w.start (c.state.2.received w.sub).flatten := by
      rw [← hheld, ← hflat, List.append_assoc]
      exact List.prefix_append _ _
    refine hpart.trans ((List.prefix_append_right_inj _).mpr (matching_mono ?_))
    exact (feed_of_reach hr).received_initial hreg
  · rw [hevents, ← received_of_drained hr hd hreg, ← hheld, held_eq_nil hgood hj hd, ← hflat,
      hd.received r hres]
    simp

/-- What the client of a watch has received, in terms of the request. -/
theorem delivered_of_returned {c₀ : Interleaving.Config (watchedLeader cfg K)}
    (h₀ : Config.Reach (NoDropNoHangup cfg K) (init cfg K start kv) c₀) {p : Bytes} {v : ℕ}
    (hv : 0 < v) (hi : c₀.threads[i]? = some (Leader.goroutine cfg (.request (.watch p v))))
    (hr : Config.Reach (NoDropNoHangup cfg K) c₀ c) (hout : c.Returned i (.watching (.ok out))) :
    ∃ r : ResultChan, (LeaderState.results c.state.1)[out]? = some r ∧
      r.delivered.flatten <+: matching p v (LeaderState.journal c.state.1).added ∧
      (Drained out c →
        r.delivered.flatten = matching p v (LeaderState.journal c.state.1).added) := by
  obtain ⟨gs₀, hgood₀⟩ := (good_init start kv).reach sound (holds_feed .refl) h₀
  obtain ⟨gs, hgood, hfollow⟩ := (good_of_request hgood₀ hi).run sound (holds_feed h₀) hr
  have hsafe : spec.Safe (fun g a => ∃ a', a = .watching a' ∧ Answered p v g a')
      (Function.update gs₀ i (.asked p v) i) (Leader.handle cfg (.watch p v)) := by
    rw [Function.update_self]
    exact (safe_handleWatch p v).bind fun _ a' h => ⟨a', rfl, h⟩
  obtain ⟨a', ha', hans⟩ := hfollow.returned hi hsafe hout
  obtain rfl := Outcome.watching.inj ha'
  rcases hans with ⟨w, hserved, rfl, rfl, hok⟩ | ⟨-, err, herr⟩
  · obtain rfl := Except.ok.inj hok
    exact delivered_of_served hv (h₀.trans hr) hgood hserved
  · cases herr

/-- Parts of a request that is going to be rejected. -/
def Role.Declining (g : Role) : Prop := (∃ ctx, g = .declined ctx) ∨ g = .rejected

theorem Role.Declining.keeps {g : Role} {g' : Role} (hg : g.Declining) (hpre : Pre g o)
    (hpost : Post g o r g') : g'.Declining := by
  rcases hg with ⟨ctx, rfl⟩ | rfl
  · cases o with
    | cancel ctx' => exact .inr hpost
    | getRevision => exact .inl ⟨ctx, hpost⟩
    | spawn t =>
      cases t <;> simp [Pre, PreSpawn] at hpre
    | resultSend out evs =>
      obtain ⟨w, -, ⟨todo, hg⟩ | hg⟩ := hpre <;> cases hg
    | _ => simp [Pre] at hpre
  · cases o with
    | cancel ctx' => cases hpre
    | getRevision => exact .inr hpost
    | spawn t =>
      cases t <;> simp [Pre, PreSpawn] at hpre
    | resultSend out evs =>
      obtain ⟨w, -, ⟨todo, hg⟩ | hg⟩ := hpre <;> cases hg
    | _ => simp [Pre] at hpre

/-- What a watch has delivered in a run in which the hub drops no subscriber. A watch that
returns a channel delivers the published events of its prefix and from its revision on, in order
and each of them once; it is refused when one of them has left the cache. -/
theorem watch_delivers_matching {c₀ : Interleaving.Config (watchedLeader cfg K)}
    (h₀ : Config.Reach (NoDropNoHangup cfg K) (init cfg K start kv) c₀) {i : ℕ} {p : Bytes} {v : ℕ}
    (hv : 0 < v) (hi : c₀.threads[i]? = some (Leader.goroutine cfg (.request (.watch p v)))) :
    (∀ c out, Config.Reach (NoDropNoHangup cfg K) c₀ c → c.Returned i (.watching (.ok out)) →
      ∃ r : ResultChan, (LeaderState.results c.state.1)[out]? = some r ∧
        r.delivered.flatten <+: matching p v (LeaderState.journal c.state.1).added ∧
        r.delivered.flatten.Pairwise (fun a b => a.revision < b.revision) ∧
        (Drained out c →
          r.delivered.flatten = matching p v (LeaderState.journal c.state.1).added)) ∧
    ∀ (c₁ c₂ c : Interleaving.Config (watchedLeader cfg K)) (ch : LeaderChoice K)
      (k : Ring.FindRet → Prog sig Outcome) (e : Event) (a : Outcome),
      Config.Reach (NoDropNoHangup cfg K) c₀ c₁ →
        c₁.threads[i]? = some ⟨.op (.cacheFind v) k, none⟩ →
      e ∈ (LeaderState.journal c₁.state.1).added → v ≤ e.revision →
      ¬ (LeaderState.cache c₁.state.1).Caches e →
      c₁.step (.thread i ch) = some c₂ → Config.Reach (NoDropNoHangup cfg K) c₂ c →
      c.Returned i a → ∃ err, a = .watching (.error err) := by
  constructor
  · intro c out hr hout
    obtain ⟨r, hres, hinitial, hall⟩ := delivered_of_returned h₀ hv hi hr hout
    refine ⟨r, hres, hinitial, ?_, hall⟩
    exact List.Pairwise.sublist (hinitial.sublist.trans List.filter_sublist)
      (feed_of_reach (h₀.trans hr)).sorted
  · intro c₁ c₂ c ch k e a hr₁ ht he hve hgone hstep hr ha
    have hreach₁ := h₀.trans hr₁
    obtain ⟨gs₁, hgood₁⟩ := (good_init start kv).reach sound (holds_feed .refl) hreach₁
    obtain ⟨s, r, sp, hex, rfl⟩ := Config.exec_of_step ht hstep
    have hguard (m : Move (watchedLeader cfg K)) (hm : c₁.move (.thread i ch) = some m) :
        NoDropNoHangup cfg K c₁.state m := by
      obtain rfl := Option.some.inj ((Config.move_thread ht).symm.trans hm)
      trivial
    have hreach₂ := hreach₁.tail ⟨_, hstep, hguard⟩
    obtain ⟨gs₂, hgood₂, -, hpost⟩ := hgood₁.thread_step sound ht hex trivial
      ⟨feed_of_reach hreach₁, feed_of_reach hreach₂⟩
    -- the cache answers that the revision is too old
    obtain ⟨oldest, hlow⟩ := Ring.low_of_evicted hgood₁.inv.1.cache (feed_of_reach hreach₁).sorted
      he hve hgone
    have hanswer : r = .low oldest := by
      have hexec := (exec_observed.mp hex).1
      have hfind : r = (LeaderState.cache c₁.state.1).findEvents v :=
        (Prod.mk.inj (Prod.mk.inj (Option.some.inj hexec)).2).1.symm
      exact hfind.trans hlow
    have hdeclining : (gs₂ i).Declining := by
      obtain ⟨pre, revision, ctx, sub, out, -, hg₂⟩ := hpost
      rw [hg₂, hanswer]
      exact .inl ⟨ctx, rfl⟩
    obtain ⟨gs, hgood, hfollow⟩ := hgood₂.run sound (holds_feed hreach₂) hr
    have hself := List.getElem?_set_self (a := (⟨k r, none⟩ : Thread sig Outcome))
      (List.getElem?_eq_some_iff.mp ht).1
    have hi₂ : (c₁.threads.set i ⟨k r, none⟩ ++ sp.toList)[i]? = some ⟨k r, none⟩ := by
      rw [List.getElem?_append_left, hself]
      exact (List.getElem?_eq_some_iff.mp hself).1
    have hsafe : spec.Safe Fin (gs₂ i) (k r) := hgood₂.safe i _ hi₂
    obtain ⟨hfin, hdecl⟩ := hfollow.returned hi₂
      (hsafe.keeps (fun _ _ _ _ hg hp hq => hg.keeps hp hq) hdeclining) ha
    rcases hdecl with ⟨ctx, hg⟩ | hg
    · rw [hg] at hfin
      exact hfin.elim
    · rw [hg] at hfin
      exact hfin

end Soundness

section Runs

open Hub (sampleLeader sampleHub)

def noDropCheck (s : LeaderState (engine .atTimestamp) × HubLog) : Move sampleLeader → Bool
  | .op (.subSend sub _) _ => (s.1.subs[sub]?).any fun x => decide (x.buf.length < watchBuffer)
  | .env (.cancel _) => false
  | _ => true

theorem noDrop_of_check (s : LeaderState (engine .atTimestamp) × HubLog) (mv : Move sampleLeader)
    (h : noDropCheck s mv = true) : NoDropNoHangup sampleConfig (engine .atTimestamp) s mv := by
  unfold noDropCheck at h
  unfold NoDropNoHangup
  split at h
  · exact h
  · cases h
  · next hsend hcancel =>
    split
    · exact absurd rfl (hsend _ _ _)
    · exact absurd rfl (hcancel _)
    · trivial

/-- A key is created, the event is published and streamed, and then a watch arrives. -/
def createThenWatch : List (Label sampleLeader) :=
  [.restart 3, .thread 3 (.request (.create ⟨[97], [98], 0⟩)), .thread 4 .none,
    .thread 4 (.kv .ok), .thread 4 .none, .thread 4 .none] ++
  [.restart 0, .thread 0 .none, .thread 0 .none, .thread 0 .none, .thread 0 .none, .thread 0 .none,
    .thread 0 .none, .restart 0, .thread 0 .none, .thread 0 .none, .thread 0 .none] ++
  [.restart 2, .thread 2 .none, .thread 2 (.order []), .thread 2 .none] ++
  [.restart 3, .thread 3 (.request (.watch [97] 1))]

/-- The watch is served from the cache, and its client receives. -/
def serveFromCache : List (Label sampleLeader) :=
  [.thread 5 .none, .thread 5 .none, .thread 5 .none, .thread 5 .none, .thread 5 .none,
    .thread 5 .none, .thread 5 .none, .env (.receive 0)]

/-- No goroutine is about to send to a client. -/
def notSending (c : Interleaving.Config sampleLeader) : Bool :=
  c.threads.all fun t => match t.prog with
    | .op (.resultSend _ _) _ => false
    | _ => true

/-- The consumer and the hub wait, and nothing is on its way. -/
def drainedCheck (c : Interleaving.Config sampleLeader) : Bool :=
  notSending c && (LeaderState.results c.state.1).all (fun r => r.buf.isEmpty) &&
    (LeaderState.subs c.state.1).all (fun x => x.buf.isEmpty) &&
    (LeaderState.watchChan c.state.1).isEmpty &&
    decide (c.Returned 2 .none ∧ c.Returned 0 (.batch []))

theorem drained_of_check {c : Interleaving.Config sampleLeader} (h : drainedCheck c = true)
    (out : ℕ) : Drained out c := by
  simp only [drainedCheck, Bool.and_eq_true, decide_eq_true_eq] at h
  obtain ⟨⟨⟨⟨hsending, hresults⟩, hsubs⟩, hchan⟩, hhub, hconsumer⟩ := h
  refine ⟨fun r hr => ?_, fun j evs k again hj => ?_, fun sub x hx => ?_, ⟨_, hhub⟩,
    List.isEmpty_iff.mp hchan, hconsumer⟩
  · exact List.isEmpty_iff.mp (List.all_eq_true.mp hresults r (List.mem_of_getElem? hr))
  · cases List.all_eq_true.mp hsending _ (List.mem_of_getElem? hj)
  · exact List.isEmpty_iff.mp (List.all_eq_true.mp hsubs x (List.mem_of_getElem? hx))

theorem watch_delivers_matching_cached : ∃ (c₀ c : Interleaving.Config sampleLeader)
    (r : ResultChan),
    Config.Reach (NoDropNoHangup sampleConfig (engine .atTimestamp)) (sampleHub []) c₀ ∧
    Config.Reach (NoDropNoHangup sampleConfig (engine .atTimestamp)) c₀ c ∧
    c.Returned 5 (.watching (.ok 0)) ∧ (LeaderState.results c.state.1)[0]? = some r ∧
    (LeaderState.journal c.state.1).added = [⟨.create, 1, ⟨[97], [98], 1⟩⟩] ∧
    r.delivered.flatten = matching [97] 1 (LeaderState.journal c.state.1).added := by
  obtain ⟨c₀, c, hc₀, hreach₀, hreach, hret, hadded, hdrained⟩ := Config.exists_of_runs
    noDrop_of_check createThenWatch serveFromCache (c := sampleHub []) (P := fun _ c =>
      c.Returned 5 (.watching (.ok 0)) ∧
      (LeaderState.journal c.state.1).added = [⟨.create, 1, ⟨[97], [98], 1⟩⟩] ∧
      drainedCheck c = true) (by rfl)
  have hrequest : c₀.threads[5]? = some (Leader.goroutine sampleConfig
      (.request (.watch [97] 1))) := Config.thread_of_run hc₀ (by rfl)
  obtain ⟨r, hr, -, -, hall⟩ :=
    (watch_delivers_matching hreach₀ (by decide) hrequest).1 c 0 hreach hret
  exact ⟨c₀, c, r, hreach₀, hreach, hret, hr, hadded, hall (drained_of_check hdrained 0)⟩

end Runs

end Watch
end KubeBrain

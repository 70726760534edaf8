import KubeBrain.Watch.Cache
import KubeBrain.Watch.Hub
import KubeBrain.Watch.Roles

/-! What the goroutines of a watch own, and what holds of it: the context, the subscription and
the result channel of a watch have one owner at a time. -/
namespace KubeBrain

open Interleaving

namespace Watch

/-- The events that a watch of `pre` from `revision` on is to deliver. -/
def matching (pre : Bytes) (revision : ℕ) (evs : List Event) : List Event :=
  evs.filter fun e => decide (revision ≤ e.revision) && pre.isPrefixOf e.kv.key

section Matching

variable {pre : Bytes} {revision : ℕ} {evs : List Event}

theorem matching_append (xs ys : List Event) :
    matching pre revision (xs ++ ys) = matching pre revision xs ++ matching pre revision ys :=
  List.filter_append _ _

theorem matching_mono {xs ys : List Event} (h : xs <+: ys) :
    matching pre revision xs <+: matching pre revision ys := by
  obtain ⟨zs, rfl⟩ := h
  exact matching_append xs zs ▸ List.prefix_append _ _

theorem matching_eq_nil (h : ∀ e ∈ evs, e.revision < revision) :
    matching pre revision evs = [] := by
  apply List.filter_eq_nil_iff.mpr
  intro e he
  simp [h e he]

theorem matching_congr {revision' : ℕ}
    (h : ∀ e ∈ evs, revision ≤ e.revision ↔ revision' ≤ e.revision) :
    matching pre revision evs = matching pre revision' evs := by
  apply List.filter_congr
  intro e he
  simp only [h e he]

/-- In order, the events from a revision on are a suffix. -/
theorem filterByRevision_eq (h : evs.Pairwise fun a b => a.revision < b.revision) :
    filterByRevision evs revision = evs.filter fun e => decide (revision ≤ e.revision) := by
  unfold filterByRevision
  induction evs with
  | nil => rfl
  | cons e evs ih =>
    obtain ⟨hlt, htail⟩ := List.pairwise_cons.mp h
    by_cases he : e.revision < revision
    · rw [List.dropWhile_cons_of_pos (by simpa using he),
        List.filter_cons_of_neg (by simpa using he)]
      exact ih htail
    · rw [List.dropWhile_cons_of_neg (by simpa using he), eq_comm, List.filter_eq_self]
      intro e' he'
      rcases List.mem_cons.mp he' with rfl | hmem
      · simpa using he
      · have := hlt e' hmem
        simp only [decide_eq_true_eq]
        omega

theorem filter_eq_matching (h : evs.Pairwise fun a b => a.revision < b.revision) :
    filterByPrefix (filterByRevision evs revision) pre = matching pre revision evs := by
  rw [filterByRevision_eq h, filterByPrefix, List.filter_filter]
  apply List.filter_congr
  intro e _
  exact Bool.and_comm _ _

end Matching

/-- The events that were streamed before the subscriber was added. -/
def before (h : HubLog) (sub : ℕ) : List Event := (h.streamed.take (h.since sub)).flatten

/-- What is known of the hub and of the events that it is given. -/
structure Feed (v : WatchView) (h : HubLog) : Prop where
  hub : ∃ turn, Hub.Inv [] v.hub h turn
  kept : ∀ s, h.refused s = none
  sorted : v.added.Pairwise fun a b => a.revision < b.revision
  sent : v.hub.sent.flatten <+: v.added

namespace Feed

variable {v v' : WatchView} {h h' : HubLog}

theorem streamed (hf : Feed v h) : h.streamed.flatten <+: v.added := by
  obtain ⟨turn, hinv⟩ := hf.hub
  have hflow := hinv.flow
  refine List.IsPrefix.trans ?_ hf.sent
  rw [List.nil_append, List.append_assoc] at hflow
  rw [hflow, List.flatten_append]
  exact List.prefix_append _ _

theorem since_le (hf : Feed v h) (sub : ℕ) : h.since sub ≤ h.streamed.length := by
  obtain ⟨turn, hinv⟩ := hf.hub
  exact hinv.since sub

theorem before_append (sub : ℕ) : before h sub ++ (h.offered sub).flatten = h.streamed.flatten := by
  rw [before, HubLog.offered, ← List.flatten_append, List.take_append_drop]

theorem before_eq (hf : Feed v h) (hs : h.streamed <+: h'.streamed) {sub : ℕ}
    (hsince : h'.since sub = h.since sub) : before h' sub = before h sub := by
  obtain ⟨more, hmore⟩ := hs
  rw [before, before, hsince, ← hmore, List.take_append_of_le_length (hf.since_le sub)]

theorem length_before_le (hf : Feed v h) (sub : ℕ) : (before h sub).length ≤ v.added.length := by
  have hle := hf.streamed.length_le
  rw [← before_append sub, List.length_append] at hle
  omega

/-- What was streamed to a subscriber comes right after what was streamed before. -/
theorem offered_initial (hf : Feed v h) (sub : ℕ) :
    (h.offered sub).flatten <+: v.added.drop (before h sub).length := by
  obtain ⟨rest, hrest⟩ := hf.streamed
  rw [← hrest, ← before_append sub, List.append_assoc, List.drop_left]
  exact List.prefix_append _ _

end Feed

/-- The events that a watch has caught up, and those from its start on that are streamed to it,
are the ones to deliver. -/
structure Split (v : WatchView) (h : HubLog) (w : Live) : Prop where
  events : matching w.pre w.revision v.added =
    w.caught ++ matching w.pre w.start (v.added.drop (before h w.sub).length)
  start : w.start = w.revision ∨ w.revision ≤ w.start ∧ ∃ e ∈ v.added, w.start = e.revision + 1

/-- Later events are above the start. -/
theorem Split.move {v v' : WatchView} {h h' : HubLog} {w : Live} (hs : Split v h w)
    (hf : Feed v h) (hf' : Feed v' h') (hadd : v.added <+: v'.added)
    (hbefore : before h' w.sub = before h w.sub) : Split v' h' w := by
  obtain ⟨more, hmore⟩ := hadd
  have hsorted := hf'.sorted
  rw [← hmore, List.pairwise_append] at hsorted
  constructor
  · rw [hbefore, ← hmore, matching_append, List.drop_append_of_le_length (hf.length_before_le _),
      matching_append, hs.events, List.append_assoc]
    congr 2
    apply matching_congr
    intro e he
    rcases hs.start with heq | ⟨hle, old, hold, heq⟩
    · rw [heq]
    · have := hsorted.2.2 old hold e he
      omega
  · rcases hs.start with heq | ⟨hle, old, hold, heq⟩
    · exact .inl heq
    · exact .inr ⟨hle, old, hmore ▸ List.mem_append_left _ hold, heq⟩

/-- A watch that looks into the cache is declined, or it starts with what is there. -/
theorem decide_cases {v : WatchView} {h : HubLog} (hf : Feed v h) (pre : Bytes)
    (revision ctx sub out : ℕ) {found : Ring.FindRet}
    (hfound : Ring.Answers v.added revision found) :
    Role.decide pre revision ctx sub out found = .declined ctx ∨
      ∃ start caught, Role.decide pre revision ctx sub out found =
        .catching ⟨pre, revision, ctx, sub, out, start, caught⟩ caught ∧
        Split v h ⟨pre, revision, ctx, sub, out, start, caught⟩ := by
  -- nothing that was added matches
  have hnone (hnil : matching pre revision v.added = []) :
      Split v h ⟨pre, revision, ctx, sub, out, revision, []⟩ := by
    refine ⟨?_, .inl rfl⟩
    have hdrop : matching pre revision (v.added.drop (before h sub).length) = [] := by
      have hsplit := @matching_append pre revision
        (v.added.take (before h sub).length) (v.added.drop (before h sub).length)
      rw [List.take_append_drop, hnil] at hsplit
      exact (List.append_eq_nil_iff.mp hsplit.symm).2
    rw [hnil, hdrop, List.append_nil]
  cases found with
  | empty =>
    refine .inr ⟨revision, [], rfl, hnone ?_⟩
    rw [show v.added = [] from hfound]
    rfl
  | high => exact .inr ⟨revision, [], rfl, hnone (matching_eq_nil hfound)⟩
  | low oldest => exact .inl rfl
  | found newest events =>
    obtain ⟨hlast, hle, rfl⟩ := hfound
    have hevents : filterByPrefix (v.added.filter fun ev => decide (revision ≤ ev.revision)) pre =
        matching pre revision v.added := by
      rw [← filterByRevision_eq hf.sorted, filter_eq_matching hf.sorted]
    simp only [Role.decide, hevents]
    split
    · next hnil => exact .inr ⟨revision, [], rfl, hnone hnil⟩
    · refine .inr ⟨newest.revision + 1, _, rfl, ?_, ?_⟩
      · have hlate : matching pre (newest.revision + 1)
          (v.added.drop (before h sub).length) = [] := by
          apply matching_eq_nil
          intro e he
          obtain ⟨init, hinit⟩ := List.getLast?_eq_some_iff.mp hlast
          have hsorted := hf.sorted
          rw [hinit, List.pairwise_append] at hsorted
          rcases List.mem_snoc.mp (hinit ▸ List.mem_of_mem_drop he) with hmem | rfl
          · have := hsorted.2.2 e hmem newest (List.mem_singleton_self _)
            omega
          · omega
        rw [hlate, List.append_nil]
      · exact .inr ⟨Nat.le_succ_of_le hle, newest, List.mem_of_getLast? hlast, rfl⟩

inductive Asset where
  | ctx (c : ℕ)
  | sub (s : ℕ)
  | out (o : ℕ)

def Role.owns : Role → List Asset
  | opened _ _ c | declined c => [.ctx c]
  | subscribed _ _ c s => [.ctx c, .sub s]
  | ready _ _ c s o => [.ctx c, .sub s, .out o]
  | catching w _ | forwards w _ => [.ctx w.ctx, .sub w.sub, .out w.out]
  | _ => []

/-- The subscriber that a goroutine removes once a context is done. -/
def Role.cleans : Role → Option (ℕ × ℕ)
  | cleaner c s | cleared c s => some (c, s)
  | _ => none

def Open (v : WatchView) (c : ℕ) : Prop := v.contexts[c]? = some false

def Registered (v : WatchView) (s : ℕ) : Prop :=
  ∃ x : Sub, v.hub.subs[s]? = some x ∧ x.registered = true

/-- The events that were sent on a channel, received or not. -/
def Carries (v : WatchView) (out : ℕ) (evs : List Event) : Prop :=
  ∃ r : ResultChan, v.results[out]? = some r ∧ r.closed = false ∧
    (r.delivered ++ r.buf).flatten = evs

def Asset.Known (v : WatchView) : Asset → Prop
  | ctx c => c < v.contexts.length
  | sub s => s < v.hub.subs.length
  | out o => o < v.results.length

/-- What holds of a goroutine that plays a part. -/
def Role.Holds (v : WatchView) (h : HubLog) : Role → Prop
  | opened _ _ c | declined c => Open v c
  | subscribed _ _ c s => Open v c ∧ Registered v s ∧ h.received s = []
  | ready _ _ c s o => Open v c ∧ Registered v s ∧ h.received s = [] ∧ Carries v o []
  | catching w todo => Open v w.ctx ∧ Registered v w.sub ∧ h.received w.sub = [] ∧
      (∃ sent, Carries v w.out sent ∧ sent ++ todo = w.caught) ∧ (0 < w.revision → Split v h w)
  | forwards w held => Open v w.ctx ∧ Registered v w.sub ∧
      (∃ sent, Carries v w.out sent ∧
        sent ++ held = w.caught ++ matching w.pre w.start (h.received w.sub).flatten) ∧
      (0 < w.revision → Split v h w)
  | cleaner _ s => s < v.hub.subs.length
  | cleared c s => v.contexts[c]? = some true ∧ s < v.hub.subs.length
  | _ => True

/-- What no step undoes. -/
structure Moves (v : WatchView) (h : HubLog) (v' : WatchView) (h' : HubLog) : Prop where
  added : v.added <+: v'.added
  streamed : h.streamed <+: h'.streamed
  done : ∀ c : ℕ, v.contexts[c]? = some true → v'.contexts[c]? = some true
  subs : v.hub.subs.length ≤ v'.hub.subs.length

/-- An owner does not notice a step that leaves its assets alone. -/
def Asset.Same (v : WatchView) (h : HubLog) (v' : WatchView) (h' : HubLog) : Asset → Prop
  | ctx c => Open v c → Open v' c
  | sub s => (Registered v s → Registered v' s) ∧ h'.received s = h.received s ∧
      h'.since s = h.since s
  | out o => ∀ evs, Carries v o evs → Carries v' o evs

section Frame

variable {v v' : WatchView} {h h' : HubLog} {g g' : Role}

theorem Open.known {c : ℕ} (hc : Open v c) : c < v.contexts.length :=
  (List.getElem?_eq_some_iff.mp hc).1

theorem Registered.known {s : ℕ} (hs : Registered v s) : s < v.hub.subs.length := by
  obtain ⟨x, hx, -⟩ := hs
  exact (List.getElem?_eq_some_iff.mp hx).1

theorem Carries.known {o : ℕ} {evs : List Event} (ho : Carries v o evs) : o < v.results.length := by
  obtain ⟨r, hr, -⟩ := ho
  exact (List.getElem?_eq_some_iff.mp hr).1

theorem Role.Holds.known (hg : g.Holds v h) : ∀ a ∈ g.owns, a.Known v := by
  cases g with
  | opened _ _ c | declined c =>
    rintro a (_ | ⟨_, ⟨⟩⟩)
    exact hg.known
  | subscribed _ _ c s =>
    rintro a (_ | ⟨_, _ | ⟨_, ⟨⟩⟩⟩)
    · exact hg.1.known
    · exact hg.2.1.known
  | ready _ _ c s o =>
    rintro a (_ | ⟨_, _ | ⟨_, _ | ⟨_, ⟨⟩⟩⟩⟩)
    · exact hg.1.known
    · exact hg.2.1.known
    · exact hg.2.2.2.known
  | catching w todo =>
    obtain ⟨hc, hs, -, ⟨sent, ho, -⟩, -⟩ := hg
    rintro a (_ | ⟨_, _ | ⟨_, _ | ⟨_, ⟨⟩⟩⟩⟩)
    · exact hc.known
    · exact hs.known
    · exact ho.known
  | forwards w held =>
    obtain ⟨hc, hs, ⟨sent, ho, -⟩, -⟩ := hg
    rintro a (_ | ⟨_, _ | ⟨_, _ | ⟨_, ⟨⟩⟩⟩⟩)
    · exact hc.known
    · exact hs.known
    · exact ho.known
  | _ => nofun

theorem Role.Holds.cleans_known (hg : g.Holds v h) {c s : ℕ} (hc : g.cleans = some (c, s)) :
    s < v.hub.subs.length := by
  cases g with
  | cleaner c' s' =>
    obtain ⟨rfl, rfl⟩ := Prod.mk.inj (Option.some.inj hc)
    exact hg
  | cleared c' s' =>
    obtain ⟨rfl, rfl⟩ := Prod.mk.inj (Option.some.inj hc)
    exact hg.2
  | _ => cases hc

/-- What an owner has open is not done. -/
theorem Role.Holds.open_of_owns (hg : g.Holds v h) {c : ℕ} (hc : .ctx c ∈ g.owns) : Open v c := by
  cases g with
  | opened _ _ c' | declined c' =>
    obtain rfl : c = c' := by simpa [Role.owns] using hc
    exact hg
  | subscribed _ _ c' _ | ready _ _ c' _ _ =>
    obtain rfl : c = c' := by simpa [Role.owns] using hc
    exact hg.1
  | catching w _ | forwards w _ =>
    obtain rfl : c = w.ctx := by simpa [Role.owns] using hc
    exact hg.1
  | _ => cases hc

/-- Frame rule of a part: it holds after a step that leaves what it owns alone. -/
theorem Role.Holds.move (hg : g.Holds v h) (hf : Feed v h) (hf' : Feed v' h')
    (hm : Moves v h v' h') (hsame : ∀ a ∈ g.owns, a.Same v h v' h') : g.Holds v' h' := by
  have hsplit {w : Live} (hs : Split v h w) (hsub : (Asset.sub w.sub).Same v h v' h') :
      Split v' h' w :=
    hs.move hf hf' hm.added (hf.before_eq hm.streamed hsub.2.2)
  cases g with
  | opened _ _ c | declined c => exact hsame (.ctx c) (by simp [Role.owns]) hg
  | subscribed _ _ c s =>
    have hc := hsame (.ctx c) (by simp [Role.owns])
    obtain ⟨hreg, hrec, -⟩ := hsame (.sub s) (by simp [Role.owns])
    exact ⟨hc hg.1, hreg hg.2.1, hrec.trans hg.2.2⟩
  | ready _ _ c s o =>
    have hc := hsame (.ctx c) (by simp [Role.owns])
    obtain ⟨hreg, hrec, -⟩ := hsame (.sub s) (by simp [Role.owns])
    have ho := hsame (.out o) (by simp [Role.owns])
    exact ⟨hc hg.1, hreg hg.2.1, hrec.trans hg.2.2.1, ho _ hg.2.2.2⟩
  | catching w todo =>
    have hc := hsame (.ctx w.ctx) (by simp [Role.owns])
    have hs := hsame (.sub w.sub) (by simp [Role.owns])
    have ho := hsame (.out w.out) (by simp [Role.owns])
    obtain ⟨hctx, hsub, hrec, ⟨sent, hsent, htodo⟩, hw⟩ := hg
    exact ⟨hc hctx, hs.1 hsub, hs.2.1.trans hrec, ⟨sent, ho _ hsent, htodo⟩,
      fun h0 => hsplit (hw h0) hs⟩
  | forwards w held =>
    have hc := hsame (.ctx w.ctx) (by simp [Role.owns])
    have hs := hsame (.sub w.sub) (by simp [Role.owns])
    have ho := hsame (.out w.out) (by simp [Role.owns])
    obtain ⟨hctx, hsub, ⟨sent, hsent, hheld⟩, hw⟩ := hg
    refine ⟨hc hctx, hs.1 hsub, ⟨sent, ho _ hsent, ?_⟩, fun h0 => hsplit (hw h0) hs⟩
    rw [hs.2.1]
    exact hheld
  | cleaner c s => exact hg.trans_le hm.subs
  | cleared c s => exact ⟨hm.done c hg.1, hg.2.trans_le hm.subs⟩
  | bystander | asked _ _ | served _ | rejected => trivial

end Frame

/-- The parts of all goroutines: every asset has one owner, and a subscriber is removed by the
goroutine that waits for the context of its owner. -/
structure Core (v : WatchView) (h : HubLog) (gs : ℕ → Role) : Prop where
  cache : v.cache.Holds v.added
  roles : ∀ i, (gs i).Holds v h
  apart : ∀ i j a, i ≠ j → a ∈ (gs i).owns → a ∉ (gs j).owns
  linked : ∀ i j c s, (gs i).cleans = some (c, s) → .sub s ∈ (gs j).owns → .ctx c ∈ (gs j).owns

namespace Core

variable {v v' : WatchView} {h h' : HubLog} {gs : ℕ → Role} {i : ℕ} {g' : Role}

theorem role (hc : Core v h gs) (hg : gs i = g') : g'.Holds v h := hg ▸ hc.roles i

/-- A goroutine takes another part. -/
theorem set (hc : Core v h gs) (hg : g'.Holds v h)
    (hapart : ∀ j, j ≠ i → ∀ a ∈ g'.owns, a ∉ (gs j).owns)
    (hcleans : ∀ j c s, j ≠ i → g'.cleans = some (c, s) → .sub s ∈ (gs j).owns →
      .ctx c ∈ (gs j).owns)
    (howns : ∀ j c s, j ≠ i → (gs j).cleans = some (c, s) → .sub s ∈ g'.owns → .ctx c ∈ g'.owns) :
    Core v h (Function.update gs i g') := by
  refine ⟨hc.cache, fun j => ?_, fun j k a hjk => ?_, fun j k c s => ?_⟩
  · exact forall_update (P := fun _ (g : Role) => g.Holds v h) hc.roles hg j
  · simp only [Function.update_apply]
    split_ifs with hj hk hk
    · exact absurd (hj.trans hk.symm) hjk
    · exact hapart k hk a
    · exact fun ha ha' => hapart j hj a ha' ha
    · exact hc.apart j k a hjk
  · simp only [Function.update_apply]
    split_ifs with hj hk hk
    · cases g' <;> simp [Role.cleans, Role.owns]
    · exact hcleans k c s hk
    · exact howns j c s hj
    · exact hc.linked j k c s

/-- The state moves and leaves all assets alone. -/
theorem move (hc : Core v h gs) (hf : Feed v h) (hf' : Feed v' h') (hm : Moves v h v' h')
    (hcache : v'.cache.Holds v'.added)
    (hsame : ∀ j, ∀ a ∈ (gs j).owns, a.Same v h v' h') : Core v' h' gs :=
  ⟨hcache, fun j => (hc.roles j).move hf hf' hm (hsame j), hc.apart, hc.linked⟩

/-- A step of a goroutine: it touches its own assets only, and gets new ones. -/
theorem step (hc : Core v h gs) (hf : Feed v h) (hf' : Feed v' h') (hm : Moves v h v' h')
    (hcache : v'.cache.Holds v'.added)
    (hsame : ∀ j, j ≠ i → ∀ a ∈ (gs j).owns, a.Same v h v' h') (hg : g'.Holds v' h')
    (hnew : ∀ a ∈ g'.owns, a ∈ (gs i).owns ∨ ¬ a.Known v)
    (hctx : ∀ c s, .sub s ∈ (gs i).owns → .sub s ∈ g'.owns → .ctx c ∈ (gs i).owns →
      .ctx c ∈ g'.owns)
    (hcleans : ∀ c s, g'.cleans = some (c, s) → (gs i).cleans = some (c, s)) :
    Core v' h' (Function.update gs i g') := by
  -- the goroutine steps aside while the state moves
  have haside : Core v h (Function.update gs i .bystander) := by
    refine hc.set ?_ ?_ ?_ ?_
    · exact trivial
    all_goals nofun
  have hmoved : Core v' h' (Function.update gs i .bystander) := by
    apply haside.move hf hf' hm hcache
    intro j a ha
    rcases update_cases (P := fun g : Role => a ∈ g.owns) ha with ⟨-, ha⟩ | ⟨hj, ha⟩
    · cases ha
    · exact hsame j hj a ha
  rw [← Function.update_idem (f := gs) (a := i) Role.bystander g']
  apply hmoved.set hg
  · intro j hj a ha
    rw [Function.update_of_ne hj]
    rcases hnew a ha with hold | hfresh
    · exact hc.apart i j a (Ne.symm hj) hold
    · exact fun hown => hfresh ((hc.roles j).known a hown)
  · intro j c s hj hcl hs
    rw [Function.update_of_ne hj] at hs ⊢
    exact hc.linked i j c s (hcleans c s hcl) hs
  · intro j c s hj hcl hs
    rw [Function.update_of_ne hj] at hcl
    rcases hnew _ hs with hold | hfresh
    · exact hctx c s hold hs (hc.linked j i c s hcl hold)
    · exact absurd ((hc.roles j).cleans_known hcl) hfresh

end Core

end Watch
end KubeBrain

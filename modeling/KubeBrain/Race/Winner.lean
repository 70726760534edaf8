import KubeBrain.Race.Soundness

/-! A race ends: every request runs to its end by its own steps, exactly one of them succeeds
and the others are told that they did not. -/
namespace KubeBrain

open Interleaving Coder

namespace Race

section Progress

variable {cfg : Config} {a : TxnEngine} {key : Bytes} {e : Expected} {start : ℕ} {base : Store}
  {gs : ℕ → Ghost} {i : ℕ}

/-- A batch whose transaction begins now is not aborted by the engine. -/
private theorem commit_now (kv : Optimistic.State) (ops : List BatchOp) (ha : a = .badger) :
    (a.commit kv kv.commits.length ops).2 ≠ some a.conflictError := by
  subst ha
  cases hrun : TxnEngine.badger.runList TxnEngine.badger.firstIdx
      (kv.snapshot kv.commits.length) ops with
  | error err =>
    rw [Optimistic.commit_error hrun]
    cases err <;> exact nofun
  | ok st =>
    rw [Optimistic.commit_passed ⟨st, hrun⟩, Optimistic.not_conflicts_now, if_neg (by simp)]
    exact nofun

/-- Revisions that the next operation of a goroutine deals. -/
def Ghost.deals (g : Ghost) : ℕ := if g.stage = .ready then 1 else 0

/-- No goroutine of the race is ever stuck. -/
private theorem enabled {s : LeaderState (optimistic a)} (outs : List (Option Outcome)) {o : Op}
    (hinv : Inv key e start base s gs) (hi : ¬ i < 4) (hpre : Pre key e start (gs i) o)
    (hcap : s.dealRevision + (gs i).deals < s.committedRevision + watchersChanCapacity)
    (hlt : s.dealRevision + (gs i).deals < 2 ^ 63) :
    ∃ (ch : LeaderChoice (optimistic a)) (s' : LeaderState (optimistic a)) (r : o.Res),
      Leader.exec cfg s outs i o ch = some (s', r, none) ∧ Racing cfg a key e s (.op o ch) ∧
      s'.committedRevision = s.committedRevision ∧
      s'.dealRevision = s.dealRevision + (gs i).deals := by
  have hfree {g : Ghost} (hg : g.stage ≠ .ready) : g.deals = 0 := by simp [Ghost.deals, hg]
  have hcommit (w : Writer) (ops : List BatchOp) (hg : (gs i).stage ≠ .ready) :
      ∃ (ch : LeaderChoice (optimistic a)) (s' : LeaderState (optimistic a)) (r : Option Err),
        Leader.exec cfg s outs i (.kv (.commit w ops)) ch = some (s', r, none) ∧
        Racing cfg a key e s (.op (.kv (.commit w ops)) ch) ∧
        s'.committedRevision = s.committedRevision ∧
        s'.dealRevision = s.dealRevision + (gs i).deals := by
    refine ⟨.kv (.beganAt (Optimistic.State.commits s.kv).length),
      { s with kv := (a.commit s.kv (Optimistic.State.commits s.kv).length ops).1 },
      (a.commit s.kv (Optimistic.State.commits s.kv).length ops).2, ?_, ?_, rfl, ?_⟩
    · unfold Leader.exec
      simp [optimistic, Optimistic.exec]
    · refine ⟨⟨by rintro _ ⟨⟩, by rintro _ _ ⟨⟩⟩, ?_⟩
      intro w' ops' ts h ha
      injection h with h₁ h₂
      obtain ⟨rfl, rfl⟩ := KvOp.commit.inj (Op.kv.inj h₁)
      obtain rfl := Optimistic.Choice.beganAt.inj (LeaderChoice.kv.inj h₂)
      exact commit_now s.kv ops ha
    · rw [hfree hg]
      rfl
  cases hstage : (gs i).stage with
  | bystander => exact absurd ((hinv.bystander_iff i).mp hstage) hi
  | ready =>
    have hone : (gs i).deals = 1 := by simp [Ghost.deals, hstage]
    rw [hone] at hcap hlt ⊢
    simp only [Pre, hstage] at hpre
    obtain ⟨site, rfl, -⟩ := hpre
    refine ⟨.none, _, _, if_pos hlt, ⟨⟨by rintro _ ⟨⟩, ?_⟩, by rintro _ _ _ ⟨⟩⟩, rfl, rfl⟩
    intro _ _ _
    exact hcap
  | trying =>
    simp only [Pre, hstage] at hpre
    obtain ⟨w, rev, val, ttl, rfl, -⟩ := hpre
    exact hcommit w _ (by simp [hstage])
  | seen =>
    simp only [Pre, hstage] at hpre
    rcases hpre with ⟨rfl, -⟩ | ⟨w, p, rev, val, ttl, rfl, -⟩
    · refine ⟨.kv .ok, s, _, rfl, ⟨⟨by rintro _ ⟨⟩, by rintro _ _ ⟨⟩⟩, by rintro _ _ _ ⟨⟩⟩, rfl, ?_⟩
      rw [hfree (by simp [hstage])]
      rfl
    · exact hcommit w _ (by simp [hstage])
  | won =>
    rw [hfree (by simp [hstage])]
    simp only [Pre, hstage] at hpre
    rcases hpre with rfl | ⟨idx, ev, rfl, -⟩ | ⟨h, -⟩
    · exact ⟨.none, s, _, rfl, ⟨⟨by rintro _ ⟨⟩, by rintro _ _ ⟨⟩⟩, by rintro _ _ _ ⟨⟩⟩, rfl, rfl⟩
    · exact ⟨.none, _, _, rfl, ⟨⟨by rintro _ ⟨⟩, by rintro _ _ ⟨⟩⟩, by rintro _ _ _ ⟨⟩⟩, rfl, rfl⟩
    · cases h
  | lost =>
    rw [hfree (by simp [hstage])]
    simp only [Pre, hstage] at hpre
    rcases hpre with rfl | ⟨idx, ev, rfl, -⟩ | ⟨-, reader, lo, hi, ts, limit, rfl, -⟩
    · exact ⟨.none, s, _, rfl, ⟨⟨by rintro _ ⟨⟩, by rintro _ _ ⟨⟩⟩, by rintro _ _ _ ⟨⟩⟩, rfl, rfl⟩
    · exact ⟨.none, _, _, rfl, ⟨⟨by rintro _ ⟨⟩, by rintro _ _ ⟨⟩⟩, by rintro _ _ _ ⟨⟩⟩, rfl, rfl⟩
    · exact ⟨.kv .ok, s, _, rfl, ⟨⟨by rintro _ ⟨⟩, by rintro _ _ ⟨⟩⟩, by rintro _ _ _ ⟨⟩⟩, rfl, rfl⟩

private theorem Judged.stage_ne {v : Bytes} {g g' : Ghost} (h : Judged e v g g') :
    g'.stage ≠ .ready := by
  rcases h with ⟨p, -, -, rfl⟩ | ⟨n, -, -, rfl⟩ <;> simp

private theorem StageAfter.stage_ne {r : Option Err} {g g' : Ghost} (h : StageAfter r g g') :
    g'.stage ≠ .ready := by
  cases r with
  | none =>
    obtain rfl : g' = { g with stage := .won } := h
    simp
  | some err =>
    obtain rfl : g' = { g with stage := .lost } := h.2
    simp

private theorem Tried.stage_ne {r : Option Err} {g g' : Ghost} (h : Tried e r g g') :
    g'.stage ≠ .ready := by
  cases r with
  | none =>
    obtain rfl : g' = { g with stage := .won } := h
    simp
  | some err =>
    rcases h with ⟨x, v, -, hj⟩ | ⟨-, -, rfl⟩
    · exact hj.stage_ne
    · simp

/-- A goroutine deals once. -/
private theorem deals_of_post {o : Op} {r : o.Res} {g g' : Ghost} (hpre : Pre key e start g o)
    (hpost : Post e start g o r g') (hg : g.stage ≠ .bystander) : g'.deals = 0 := by
  rw [Ghost.deals, if_neg]
  cases hstage : g.stage with
  | bystander => exact absurd hstage hg
  | ready =>
    simp only [Pre, hstage] at hpre
    obtain ⟨site, rfl, -⟩ := hpre
    obtain ⟨-, -, rfl⟩ := hpost
    simp
  | trying =>
    simp only [Pre, hstage] at hpre
    obtain ⟨w, rev, val, ttl, rfl, -⟩ := hpre
    simp only [Post, hstage] at hpost
    cases e with
    | live p => exact StageAfter.stage_ne hpost
    | _ => exact Tried.stage_ne hpost
  | seen =>
    simp only [Pre, hstage] at hpre
    rcases hpre with ⟨rfl, -⟩ | ⟨w, p, rev, val, ttl, rfl, -⟩
    · obtain ⟨v, -, hj⟩ := hpost
      exact hj.stage_ne
    · simp only [Post, hstage] at hpost
      exact StageAfter.stage_ne hpost
  | won =>
    simp only [Pre, hstage] at hpre
    rcases hpre with rfl | ⟨idx, ev, rfl, -⟩ | ⟨h, -⟩
    · rw [hpost.1, hstage]
      simp
    · obtain rfl : g' = { g with owed := none } := hpost
      simp [hstage]
    · cases h
  | lost =>
    simp only [Pre, hstage] at hpre
    rcases hpre with rfl | ⟨idx, ev, rfl, -⟩ | ⟨-, reader, lo, hi, ts, limit, rfl, -⟩
    · rw [hpost.1, hstage]
      simp
    · obtain rfl : g' = { g with owed := none } := hpost
      simp [hstage]
    · rw [hpost.1, hstage]
      simp

variable {c : Interleaving.Config (leader cfg (optimistic a))}

/-- A goroutine of the race runs to its end by its own steps. -/
private theorem finish (hs : Scene key e start base) (hi : ¬ i < 4) {p : M Outcome}
    {again : Option (Outcome → M Outcome)} {B : ℕ} (hA : Outline.Holds (Racing cfg a key e)
      (Accounts.outline cfg (optimistic a) ⟨start, True, False⟩).Known c)
    (hgood : (outline cfg a key e start base).Good c gs) (ht : c.threads[i]? = some ⟨p, again⟩)
    (hB : LeaderState.dealRevision c.state + (gs i).deals ≤ B)
    (hcap : B < LeaderState.committedRevision c.state + watchersChanCapacity) (hlt : B < 2 ^ 63) :
    ∃ c', Config.Reach (Racing cfg a key e) c c' ∧ (∃ out, c'.Returned i out) ∧
      (∀ j, j ≠ i → c'.threads[j]? = c.threads[j]?) ∧ c'.threads.length = c.threads.length ∧
      LeaderState.committedRevision c'.state = LeaderState.committedRevision c.state ∧
      LeaderState.dealRevision c'.state ≤ B := by
  induction p generalizing c gs with
  | ret out =>
    exact ⟨c, .refl, ⟨out, _, ht, rfl⟩, fun _ _ => rfl, rfl, rfl, by omega⟩
  | op o k ih =>
    have hinv : Inv key e start base c.state gs := hgood.inv
    have hpre : Pre key e start (gs i) o := hgood.pre ht
    obtain ⟨ch, s', r, hex, hguard, hcommitted, hdeal⟩ :=
      enabled c.outcomes hinv hi hpre (by omega) (by omega)
    have hstep : c.step (.thread i ch) = some ⟨s', c.threads.set i ⟨k r, again⟩ ++ []⟩ :=
      Config.step_thread ht hex
    have hmove : ∀ m, c.move (.thread i ch) = some m → Racing cfg a key e c.state m := by
      intro m hm
      obtain rfl := Option.some.inj ((Config.move_thread ht).symm.trans hm)
      exact hguard
    obtain ⟨gs', hgood', -, hpost⟩ := hgood.thread_step (sound hs) ht hex hguard
      (hA c _ _ _ .refl hstep hmove (Config.actor_thread ht))
    have hone : Config.Reach (Racing cfg a key e) c ⟨s', c.threads.set i ⟨k r, again⟩ ++ []⟩ :=
      .single ⟨_, hstep, hmove⟩
    have hil : i < c.threads.length := (List.getElem?_eq_some_iff.mp ht).1
    have hnext : (c.threads.set i ⟨k r, again⟩ ++ [])[i]? = some ⟨k r, again⟩ := by
      rw [List.append_nil, List.getElem?_set_self hil]
    have hnone : (gs' i).deals = 0 :=
      deals_of_post hpre hpost fun h => hi ((hinv.bystander_iff i).mp h)
    obtain ⟨c', hreach, hret, hothers, hlen, hcom', hdeal'⟩ :=
      ih r (hA.of_reach hone) hgood' hnext
        (show LeaderState.dealRevision s' + (gs' i).deals ≤ B by omega)
        (show B < LeaderState.committedRevision s' + watchersChanCapacity by omega)
    refine ⟨c', hone.trans hreach, hret, fun j hj => ?_, ?_, hcom'.trans hcommitted, hdeal'⟩
    · rw [hothers j hj, List.append_nil, List.getElem?_set_ne (Ne.symm hj)]
    · rw [hlen, List.append_nil, List.length_set]

/-- All goroutines of the race run to their ends, one after the other. -/
private theorem finish_all (hs : Scene key e start base) (hr : Config.Reach (Racing cfg a key e)
      (Leader.init cfg (optimistic a) start (Optimistic.init base)) c)
    (n : ℕ) (hn : n ≤ c.threads.length) (hcap : LeaderState.dealRevision c.state + n <
      LeaderState.committedRevision c.state + watchersChanCapacity)
    (hlt : LeaderState.dealRevision c.state + n < 2 ^ 63) :
    ∃ c', Config.Reach (Racing cfg a key e) c c' ∧ c'.threads.length = c.threads.length ∧
      LeaderState.committedRevision c'.state = LeaderState.committedRevision c.state ∧
      LeaderState.dealRevision c'.state ≤ LeaderState.dealRevision c.state + n ∧
      ∀ i, 4 ≤ i → i < n → ∃ out, c'.Returned i out := by
  induction n with
  | zero => exact ⟨c, .refl, rfl, rfl, le_refl _, fun i _ hi => absurd hi (Nat.not_lt_zero i)⟩
  | succ n ih =>
    obtain ⟨c₁, hreach, hlen, hcom, hdeal, hdone⟩ := ih (by omega) (by omega) (by omega)
    by_cases hi : n < 4
    · exact ⟨c₁, hreach, hlen, hcom, by omega, fun i hi₁ hi₂ => by omega⟩
    obtain ⟨gs, hgood⟩ := good_of_reach hs (hr.trans hreach)
    have hnl : n < c₁.threads.length := by omega
    have hdeals : (gs n).deals ≤ 1 := by
      unfold Ghost.deals
      split <;> omega
    obtain ⟨c₂, hreach₂, hret, hothers, hlen₂, hcom₂, hdeal₂⟩ :=
      finish hs hi (B := LeaderState.dealRevision c.state + (n + 1))
        (holds_known.of_reach (hr.trans hreach)) hgood (List.getElem?_eq_getElem hnl)
        (by omega) (by omega) hlt
    refine ⟨c₂, hreach.trans hreach₂, hlen₂.trans hlen, hcom₂.trans hcom, hdeal₂, ?_⟩
    intro i hi₁ hi₂
    by_cases hin : i = n
    · exact hin ▸ hret
    · obtain ⟨out, t, ht, hout⟩ := hdone i hi₁ (by omega)
      exact ⟨out, t, (hothers i hin).trans ht, hout⟩

end Progress
end Race

open Race

section Results

variable {cfg : Config} {a : TxnEngine} {key : Bytes} {e : Expected} {start : ℕ} {base : Store}
  {c : Interleaving.Config (leader cfg (optimistic a))}

/-- Creations and updates that race for a key in the state they expect, in any number and any
interleaving. Goroutines from the fifth on are the requests. A request that returns gives a
response without error; at most one of them succeeded; when all have returned, one has
succeeded; and they all can return. -/
theorem race_has_one_winner (hs : Scene key e start base) (hr : Config.Reach (Racing cfg a key e)
      (Leader.init cfg (optimistic a) start (Optimistic.init base)) c) :
    (∀ i out, 4 ≤ i → c.Returned i out → ∃ b, out.answered = some b) ∧
    (∀ i j out out', c.Returned i out → c.Returned j out' → out.answered = some true →
      out'.answered = some true → 4 ≤ i → 4 ≤ j → i = j) ∧
    (4 < c.threads.length →
      (∀ i, 4 ≤ i → i < c.threads.length → ∃ out, c.Returned i out) →
      ∃ i out, 4 ≤ i ∧ c.Returned i out ∧ out.answered = some true) ∧
    (LeaderState.dealRevision c.state + c.threads.length <
        LeaderState.committedRevision c.state + watchersChanCapacity →
      LeaderState.dealRevision c.state + c.threads.length < 2 ^ 63 →
      ∃ c', Config.Reach (Racing cfg a key e) c c' ∧ c'.threads.length = c.threads.length ∧
        ∀ i, 4 ≤ i → i < c.threads.length → ∃ out, c'.Returned i out) := by
  obtain ⟨gs, hgood⟩ := good_of_reach hs hr
  have hinv : Inv key e start base c.state gs := hgood.inv
  -- a request that has returned has won or lost
  have hfin {i : ℕ} {out : Outcome} (hi : 4 ≤ i) (hret : c.Returned i out) :
      (gs i).stage = .won ∧ out.answered = some true ∨
        (gs i).stage = .lost ∧ out.answered = some false := by
    have hfin : Race.Fin (gs i) out := hgood.returned hret
    cases hstage : (gs i).stage with
    | bystander => exact absurd ((hinv.bystander_iff i).mp hstage) (Nat.not_lt.mpr hi)
    | won =>
      simp only [Race.Fin, hstage] at hfin
      exact .inl ⟨rfl, hfin⟩
    | lost =>
      simp only [Race.Fin, hstage] at hfin
      exact .inr ⟨rfl, hfin⟩
    | _ => simp [Race.Fin, hstage] at hfin
  have hwon {i : ℕ} {out : Outcome} (hi : 4 ≤ i) (hret : c.Returned i out)
      (hout : out.answered = some true) : (gs i).stage = .won := by
    rcases hfin hi hret with ⟨hstage, -⟩ | ⟨-, hfalse⟩
    · exact hstage
    · rw [hout] at hfalse
      cases hfalse
  refine ⟨?_, ?_, ?_, ?_⟩
  · intro i out hi hret
    rcases hfin hi hret with ⟨-, h⟩ | ⟨-, h⟩
    · exact ⟨true, h⟩
    · exact ⟨false, h⟩
  · intro i j out out' hret hret' hout hout' hi hj
    rcases hinv.verdict with ⟨-, hnone⟩ | ⟨n, w, -, -, huniq⟩
    · exact absurd (hwon hi hret hout) (hnone i).1
    · exact (huniq i (hwon hi hret hout)).trans (huniq j (hwon hj hret' hout')).symm
  · intro hlen hall
    obtain ⟨out, hret⟩ := hall 4 (le_refl _) hlen
    rcases hinv.verdict with ⟨-, hnone⟩ | ⟨n, w, -, hw, -⟩
    · rcases hfin (le_refl _) hret with ⟨h, -⟩ | ⟨h, -⟩
      · exact absurd h (hnone 4).1
      · exact absurd h (hnone 4).2.1
    · have hw : (gs w).stage = .won := hw
      have hw4 : 4 ≤ w := by
        by_contra h
        rw [(hinv.bystander_iff w).mpr (not_le.mp h)] at hw
        cases hw
      have hwl : w < c.threads.length := by
        by_contra h
        have hidle : gs w = ⟨.ready, none⟩ := hgood.idle w (not_lt.mp h)
        rw [hidle] at hw
        cases hw
      obtain ⟨out, hret⟩ := hall w hw4 hwl
      rcases hfin hw4 hret with ⟨-, h⟩ | ⟨h, -⟩
      · exact ⟨w, out, hw4, hret, h⟩
      · rw [h] at hw
        cases hw
  · intro hcap hlt
    obtain ⟨c', hreach, hlen, -, -, hdone⟩ := finish_all hs hr _ (le_refl _) hcap hlt
    exact ⟨c', hreach, hlen, hdone⟩

end Results

section Sample

/-- Two creations of a key whose transactions begin before either commits. -/
def createBoth (a : TxnEngine) : List (Label (leader sampleConfig (optimistic a))) :=
  [.restart 3, .thread 3 (.request (.create ⟨[97], [98], 0⟩)),
    .restart 3, .thread 3 (.request (.create ⟨[97], [99], 0⟩)),
    .thread 4 .none, .thread 5 .none,
    .thread 4 (.kv (.beganAt 0)), .thread 5 (.kv (.beganAt 0)),
    .thread 4 .none, .thread 4 .none]

abbrev raceInit (a : TxnEngine) : Interleaving.Config (leader sampleConfig (optimistic a)) :=
  Leader.init sampleConfig (optimistic a) 0 (Optimistic.init SortedMap.empty)

theorem scene_empty : Scene [97] .absent 0 SortedMap.empty where
  start_lt := by norm_num
  index := rfl
  revision_le := le_refl _
  decodes := nofun

def arrivingCheck {a : TxnEngine} (s : LeaderState (optimistic a))
    (mv : Move (leader sampleConfig (optimistic a))) : Bool :=
  match mv with
  | .op .accept (.request (.create r)) => decide (r.key = [97])
  | .op .accept (.request _) => false
  | .op (.deal _) _ => decide (s.dealRevision + 1 < s.committedRevision + watchersChanCapacity)
  | _ => true

theorem arriving_of_check {a : TxnEngine} (s : LeaderState (optimistic a))
    (mv : Move (leader sampleConfig (optimistic a))) (h : arrivingCheck s mv = true) :
    Arriving sampleConfig a [97] .absent s mv := by
  refine ⟨?_, ?_⟩
  · rintro r rfl
    cases r with
    | create r => exact ⟨of_decide_eq_true h, nofun⟩
    | _ => cases h
  · rintro site ch rfl
    exact of_decide_eq_true h

/-- On `tikv` the loser reads the index again, and answers that it did not succeed. -/
theorem race_has_one_winner_tikv :
    ∃ c, Config.Reach (Racing sampleConfig .tikv [97] .absent) (raceInit .tikv) c ∧
      c.outcomes.map (Option.map Outcome.answered) =
        [none, none, none, none, some (some true), some (some false)] ∧
      ∃ i out, 4 ≤ i ∧ c.Returned i out ∧ out.answered = some true := by
  obtain ⟨c, hreach, houts, hlen, hrest⟩ : ∃ c,
      Config.Reach (Racing sampleConfig .tikv [97] .absent) (raceInit .tikv) c ∧
      c.outcomes.map (Option.map Outcome.answered) =
        [none, none, none, none, some (some true), some (some false)] ∧
      c.threads.length = 6 ∧ ∀ i, i < c.threads.length → ∃ a, c.Returned i a :=
    Config.exists_of_run (fun s mv h => ⟨arriving_of_check s mv h, nofun⟩)
      (createBoth .tikv ++ [.thread 5 (.kv .ok), .thread 5 .none, .thread 5 .none])
      (by decide +kernel)
  exact ⟨c, hreach, houts,
    (race_has_one_winner scene_empty hreach).2.2.1 (by omega) fun i _ hi => hrest i hi⟩

/-- On `badger` the engine aborts the later creation, and its error reaches the client. -/
theorem badger_conflict_is_an_error :
    ∃ c, Config.Reach (Arriving sampleConfig .badger [97] .absent) (raceInit .badger) c ∧
      c.Returned 4 (.created (.ok ⟨1, true⟩)) ∧
      c.Returned 5 (.created (.error TxnEngine.badger.conflictError)) :=
  Config.exists_of_run arriving_of_check
    (createBoth .badger ++ [.thread 5 .none, .thread 5 .none]) (by rfl)

end Sample
end KubeBrain

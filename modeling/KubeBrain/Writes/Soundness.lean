import KubeBrain.Writes.Invariant
import Mathlib.Data.List.Perm.Basic

/-! Every operation of a leader keeps the history of versions. -/
namespace KubeBrain

open Interleaving Coder

namespace Writes

variable {m : WriteMode} {w w' : View} {gs : ℕ → Ghost} {debt : ℕ → Option Debt} {i : ℕ}

/-- One debt is replaced. -/
private theorem debt_cases {o : Option Debt} {j : ℕ} {d : Debt}
    (h : Function.update debt i o j = some d) :
    (j = i ∧ o = some d) ∨ (j ≠ i ∧ debt j = some d) :=
  update_cases (P := (· = some d)) h

namespace Debts

variable (h : Debts m w debt)

include h

/-- Revisions that are still owed have not been committed. -/
theorem committed_lt (hord : Ordered m.start w) {d : Debt}
    (hd : debt i = some d) : w.committed < d.rev := by
  obtain ⟨hstart, -, hfresh⟩ := h.dealt i d hd
  by_contra hle
  obtain ⟨ev, hev, hrev⟩ := hord.filled d.rev hstart (not_lt.mp hle)
  exact hfresh ev hev hrev

theorem deal (hv : History m w) (hord : Ordered m.start w) (hi : debt i = none) :
    Debts m { w with deal := w.deal + 1 } (Function.update debt i (some ⟨w.deal + 1, .fresh⟩)) := by
  have hstart := hord.start_le
  have hcommitted := hord.le_deal
  constructor
  · intro j d hd
    rcases debt_cases hd with ⟨-, hd⟩ | ⟨-, hd⟩
    · obtain rfl := Option.some.inj hd
      refine ⟨by show m.start < w.deal + 1; omega, le_refl _, ?_⟩
      intro ev hev heq
      have hle := hord.notified_le ev hev
      have heq : ev.revision = w.deal + 1 := heq
      omega
    · obtain ⟨h₁, h₂, h₃⟩ := h.dealt j d hd
      exact ⟨h₁, h₂.trans (Nat.le_succ _), h₃⟩
  · intro j k d d' hd hd' heq
    rcases debt_cases hd with ⟨hj, hd⟩ | ⟨-, hd⟩ <;> rcases debt_cases hd' with ⟨hk, hd'⟩ | ⟨-, hd'⟩
    · exact hj.trans hk.symm
    · obtain rfl := Option.some.inj hd
      have hle := (h.dealt k d' hd').2.1
      have heq : w.deal + 1 = d'.rev := heq
      omega
    · obtain rfl := Option.some.inj hd'
      have hle := (h.dealt j d hd).2.1
      have heq : d.rev = w.deal + 1 := heq
      omega
    · exact h.single j k d d' hd hd' heq
  · intro j d hd
    rcases debt_cases hd with ⟨-, hd⟩ | ⟨-, hd⟩
    · obtain rfl := Option.some.inj hd
      intro x hx heq
      have hle := (hv.mem_facts hx).2.1
      have heq : x.rev = w.deal + 1 := heq
      omega
    · exact h.fits j d hd
  · intro x hx
    rcases h.told x hx with ⟨j, d, hd, hfate⟩ | hev
    · have hji : j ≠ i := by
        rintro rfl
        rw [hi] at hd
        cases hd
      exact .inl ⟨j, d, (Function.update_of_ne hji _ _).trans hd, hfate⟩
    · exact .inr hev
  · exact h.valid
  · exact h.keys

/-- A commit was answered: its version is written or undecided, or was so for a moment. -/
theorem commit {x : Version} {fate : Fate} {e : Engine.State} (hi : debt i = some ⟨x.rev, .fresh⟩)
    (hmem : ∀ y ∈ written e ++ undecided e, y ∈ written w.kv ++ undecided w.kv ∨ y = x)
    (hsub : ∀ y ∈ written w.kv, y ∈ written e)
    (hfate : fate = .landed x ∧ x ∈ written e ∨ fate = .doubt x) :
    Debts m { w with kv := e } (Function.update debt i (some ⟨x.rev, fate⟩)) := by
  have hold {j : ℕ} {d : Debt}
      (hd : Function.update debt i (some ⟨x.rev, fate⟩) j = some d) :
      ∃ d', debt j = some d' ∧ d'.rev = d.rev := by
    rcases debt_cases hd with ⟨rfl, hnew⟩ | ⟨-, hkept⟩
    · obtain rfl := Option.some.inj hnew
      exact ⟨_, hi, rfl⟩
    · exact ⟨d, hkept, rfl⟩
  constructor
  · intro j d hd
    obtain ⟨d', hd', hrev⟩ := hold hd
    exact hrev ▸ h.dealt j d' hd'
  · intro j k d d' hd hd' heq
    obtain ⟨c, hc, hrev⟩ := hold hd
    obtain ⟨c', hc', hrev'⟩ := hold hd'
    exact h.single j k c c' hc hc' (hrev.trans (heq.trans hrev'.symm))
  · intro j d hd
    rcases debt_cases hd with ⟨rfl, hnew⟩ | ⟨hji, hkept⟩
    · obtain rfl := Option.some.inj hnew
      rcases hfate with ⟨rfl, hx⟩ | rfl
      · exact ⟨hx, rfl⟩
      · exact rfl
    · have hfits := h.fits j d hkept
      obtain ⟨rev, f⟩ := d
      cases f with
      | fresh =>
        intro y hy heq
        rcases hmem y hy with hy | rfl
        · exact hfits y hy heq
        · exact hji (h.single j i _ _ hkept hi heq.symm)
      | landed y => exact ⟨hsub y hfits.1, hfits.2⟩
      | doubt y => exact hfits
  · intro y hy
    rcases hmem y hy with hy | rfl
    · rcases h.told y hy with ⟨j, d, hd, hf⟩ | hev
      · have hji : j ≠ i := by
          rintro rfl
          obtain rfl := Option.some.inj (hi.symm.trans hd)
          rcases hf with hf | hf <;> cases hf
        exact .inl ⟨j, d, (Function.update_of_ne hji _ _).trans hd, hf⟩
      · exact .inr hev
    · refine .inl ⟨i, _, Function.update_self _ _ _, ?_⟩
      rcases hfate with ⟨rfl, -⟩ | rfl
      · exact .inl rfl
      · exact .inr rfl
  · intro ev hev hval
    obtain ⟨y, hy, hrest⟩ := h.valid ev hev hval
    exact ⟨y, hsub y hy, hrest⟩
  · exact h.keys

/-- Batches that were undecided take effect or are dropped. -/
theorem move {e : Engine.State}
    (hmem : ∀ y ∈ written e ++ undecided e, y ∈ written w.kv ++ undecided w.kv)
    (hsub : ∀ y ∈ written w.kv, y ∈ written e) : Debts m { w with kv := e } debt := by
  constructor
  · exact h.dealt
  · exact h.single
  · intro j d hd
    have hfits := h.fits j d hd
    obtain ⟨rev, f⟩ := d
    cases f with
    | fresh => exact fun y hy => hfits y (hmem y hy)
    | landed y => exact ⟨hsub y hfits.1, hfits.2⟩
    | doubt y => exact hfits
  · exact fun y hy => h.told y (hmem y hy)
  · intro ev hev hval
    obtain ⟨y, hy, hrest⟩ := h.valid ev hev hval
    exact ⟨y, hsub y hy, hrest⟩
  · exact h.keys

theorem publish {ev : WatchEvent} {fate : Fate}
    (hi : debt i = some ⟨ev.revision, fate⟩) (hann : Announces m ev fate)
    (hkey : m.restricted → m.key ev.key) :
    Debts m { w with notified := w.notified ++ [ev] } (Function.update debt i none) := by
  have hfits := h.fits i _ hi
  have hold {j : ℕ} {d : Debt} (hd : Function.update debt i none j = some d) :
      j ≠ i ∧ debt j = some d := by
    rcases debt_cases hd with ⟨-, hd⟩ | hd
    · cases hd
    · exact hd
  constructor
  · intro j d hd
    obtain ⟨hji, hd⟩ := hold hd
    obtain ⟨h₁, h₂, h₃⟩ := h.dealt j d hd
    exact ⟨h₁, h₂, List.forall_mem_snoc.mpr ⟨h₃, fun heq => hji (h.single j i _ _ hd hi heq.symm)⟩⟩
  · intro j k d d' hd hd'
    exact h.single j k d d' (hold hd).2 (hold hd').2
  · exact fun j d hd => h.fits j d (hold hd).2
  · intro y hy
    rcases h.told y hy with ⟨j, d, hd, hf⟩ | ⟨ev', hev', hrest⟩
    · by_cases hji : j = i
      · subst hji
        obtain rfl := Option.some.inj (hi.symm.trans hd)
        refine .inr ⟨ev, List.mem_snoc.mpr (.inr rfl), ?_⟩
        rcases hf with hf | hf
        · obtain rfl : fate = .landed y := hf
          exact ⟨hfits.2.symm, hann.2, .inl hann.1⟩
        · obtain rfl : fate = .doubt y := hf
          have hrev : y.rev = ev.revision := hfits
          exact ⟨hrev.symm, hann.2, .inr hann.1.2⟩
      · exact .inl ⟨j, d, (Function.update_of_ne hji _ _).trans hd, hf⟩
    · exact .inr ⟨ev', List.mem_append_left _ hev', hrest⟩
  · intro ev' hev' hval
    rcases List.mem_snoc.mp hev' with hev' | rfl
    · exact h.valid ev' hev' hval
    · cases fate with
      | fresh => exact absurd (hval.symm.trans hann) (by simp)
      | landed y => exact ⟨y, hfits.1, hfits.2, hann.2⟩
      | doubt y => exact absurd (hval.symm.trans hann.1.1) (by simp)
  · exact fun ho => List.forall_mem_snoc.mpr ⟨h.keys ho, hkey ho⟩

theorem congr (hkv : w'.kv = w.kv) (hdeal : w.deal ≤ w'.deal)
    (hnotified : w'.notified = w.notified) : Debts m w' debt := by
  constructor
  · intro j d hd
    obtain ⟨h₁, h₂, h₃⟩ := h.dealt j d hd
    exact ⟨h₁, h₂.trans hdeal, hnotified ▸ h₃⟩
  · exact h.single
  · exact hkv ▸ h.fits
  · rw [hkv, hnotified]
    exact h.told
  · rw [hkv, hnotified]
    exact h.valid
  · exact hnotified ▸ h.keys

end Debts

namespace Limits

variable (h : Limits w gs)

include h

/-- The account of one goroutine changes. -/
theorem set {g : Ghost} (hseen : g.seen ≤ w.committed) (hlimit : Below w g.limit)
    (hretrier : g.retrier = true → i = 1)
    (hhead : ∀ ev, g.head = some ev → g.retrier = true ∧ w.queue.head? = some ev)
    (hsettled : ∀ ev, g.settled = true → g.head = some ev →
      ∀ x ∈ undecided w.kv, x.rev ≠ ev.revision) :
    Limits w (Function.update gs i g) := by
  constructor
  · exact h.queued
  · exact forall_update (P := fun _ (g : Ghost) => g.seen ≤ w.committed) h.seen hseen
  · exact forall_update (P := fun _ (g : Ghost) => Below w g.limit) h.limit hlimit
  · exact h.histories
  · exact h.gcRev
  · exact forall_update (P := fun j (g : Ghost) => g.retrier = true → j = 1) h.turn hretrier
  · exact forall_update (P := fun _ (g : Ghost) => ∀ ev, g.head = some ev →
      g.retrier = true ∧ w.queue.head? = some ev) h.head hhead
  · exact forall_update (P := fun _ (g : Ghost) => ∀ ev, g.settled = true → g.head = some ev →
      ∀ x ∈ undecided w.kv, x.rev ≠ ev.revision) h.settled hsettled

theorem setDebt (d : Option Debt) : Limits w (Function.update gs i { gs i with debt := d }) :=
  h.set (h.seen i) (h.limit i) (h.turn i) (h.head i) (h.settled i)

/-- The storage or the counter moves; batches that become undecided are new. -/
theorem move (hcommitted : w.committed ≤ w'.committed)
    (hnew : ∀ x ∈ undecided w'.kv, x ∈ undecided w.kv ∨
      w.committed < x.rev ∧ ∀ ev ∈ w.appended, ev.revision ≠ x.rev)
    (hmem : ∀ ev ∈ w.queue, ev ∈ w.appended) (happended : w'.appended = w.appended)
    (hqueue : w'.queue = w.queue) (hhistories : w'.histories = w.histories)
    (hgc : w'.kv.gcRev = w.kv.gcRev ∨ ∃ C, Below w C ∧ w'.kv.gcRev = Max.max w.kv.gcRev C) :
    Limits w' gs := by
  have hbelow {C : ℕ} (hC : Below w C) : Below w' C := by
    refine ⟨hC.1.trans hcommitted, fun x hx => ?_⟩
    rcases hnew x hx with hx | ⟨hlt, -⟩
    · exact hC.2 x hx
    · exact lt_of_le_of_lt hC.1 hlt
  constructor
  · intro x hx ev hev heq
    rw [happended] at hev
    rw [hqueue]
    rcases hnew x hx with hx | ⟨-, hne⟩
    · exact h.queued x hx ev hev heq
    · exact absurd heq (hne ev hev)
  · exact fun j => (h.seen j).trans hcommitted
  · exact fun j => hbelow (h.limit j)
  · rw [hhistories]
    exact fun r hr => hbelow (h.histories r hr)
  · rcases hgc with hgc | ⟨C, hC, hgc⟩
    · exact hgc ▸ hbelow h.gcRev
    · exact hgc ▸ hbelow (h.gcRev.max hC)
  · exact h.turn
  · exact hqueue ▸ h.head
  · intro j ev hs hev x hx
    rcases hnew x hx with hx | ⟨-, hne⟩
    · exact h.settled j ev hs hev x hx
    · obtain ⟨rest, hrest⟩ := List.head?_eq_some_iff.mp (h.head j ev hev).2
      exact (hne ev (hmem ev (hrest ▸ List.mem_cons_self))).symm

theorem push (ev : WatchEvent) :
    Limits { w with appended := w.appended ++ [ev], queue := w.queue ++ [ev] } gs := by
  constructor
  · intro x hx ev' hev' heq
    rcases List.mem_append.mp hev' with hev' | hev'
    · exact List.mem_append_left _ (h.queued x hx ev' hev' heq)
    · exact List.mem_append_right _ hev'
  · exact h.seen
  · exact h.limit
  · exact h.histories
  · exact h.gcRev
  · exact h.turn
  · intro j ev' hev'
    obtain ⟨hr, hhead⟩ := h.head j ev' hev'
    obtain ⟨rest, hrest⟩ := List.head?_eq_some_iff.mp hhead
    exact ⟨hr, by simp [hrest]⟩
  · exact h.settled

/-- The retry worker removes the event whose batch is decided. -/
theorem pop (hretrier : (gs i).retrier = true) (hhead : (gs i).head ≠ none)
    (hsettled : (gs i).settled = true) :
    Limits { w with queue := w.queue.tail }
      (Function.update gs i { gs i with head := none, settled := false }) := by
  obtain ⟨ev, hev⟩ := Option.ne_none_iff_exists'.mp hhead
  obtain ⟨rest, hrest⟩ := List.head?_eq_some_iff.mp (h.head i ev hev).2
  have hother (j : ℕ) (hji : j ≠ i) (ev' : WatchEvent) (hev' : (gs j).head = some ev') : False :=
    hji ((h.turn j (h.head j ev' hev').1).trans (h.turn i hretrier).symm)
  have hghost (j : ℕ) (ev' : WatchEvent)
      (hev' : (Function.update gs i { gs i with head := none, settled := false } j).head =
        some ev') : False := by
    rcases update_cases (P := fun g : Ghost => g.head = some ev') hev' with ⟨-, h⟩ | ⟨hji, h⟩
    · cases h
    · exact hother j hji ev' h
  have hset : Limits w (Function.update gs i { gs i with head := none, settled := false }) :=
    h.set (h.seen i) (h.limit i) (h.turn i) nofun nofun
  constructor
  · intro x hx ev' hev' heq
    have hmem := h.queued x hx ev' hev' heq
    rw [hrest] at hmem
    rcases List.mem_cons.mp hmem with rfl | hmem
    · exact absurd heq.symm (h.settled i ev' hsettled hev x hx)
    · show ev' ∈ w.queue.tail
      rw [hrest]
      exact hmem
  · exact hset.seen
  · exact hset.limit
  · exact h.histories
  · exact h.gcRev
  · exact hset.turn
  · exact fun j ev' hev' => (hghost j ev' hev').elim
  · exact fun j ev' _ hev' => (hghost j ev' hev').elim

theorem setHistories {hs : List (ℕ × ℕ)} (hhs : ∀ r ∈ hs, Below w r.1) :
    Limits { w with histories := hs } gs :=
  ⟨h.queued, h.seen, h.limit, hhs, h.gcRev, h.turn, h.head, h.settled⟩

end Limits

/-- Whatever may still land is above the horizon of the retry queue. -/
theorem below_horizon (hord : Ordered m.start w) (hv : History m w) (hd : Debts m w debt)
    (hl : Limits w gs) {head : Option (WatchEvent × ℕ)}
    (hhead : head.map Prod.fst = w.queue.head?) (i : ℕ) : Below w (horizon (gs i).seen head) := by
  have hseen := hl.seen i
  have hle : horizon (gs i).seen head ≤ (gs i).seen := by
    unfold horizon
    split
    · exact le_refl _
    · exact min_le_left _ _
  refine ⟨hle.trans hseen, fun x hx => ?_⟩
  by_contra hlt
  have hrev : x.rev ≤ horizon (gs i).seen head := not_lt.mp hlt
  have hcommitted : x.rev ≤ w.committed := hrev.trans (hle.trans hseen)
  have hx' : x ∈ written w.kv ++ undecided w.kv := List.mem_append_right _ hx
  -- the batch of a committed revision has been published as uncertain, so it is queued
  have hqueued : ∃ ev ∈ w.queue, ev.revision = x.rev := by
    rcases hd.told x hx' with ⟨j, d, hj, hfate⟩ | ⟨ev, hev, heq, -, hvu⟩
    · have hlt := hd.committed_lt hord hj
      have hfits := hd.fits j d hj
      obtain ⟨rev, f⟩ := d
      have heq : x.rev = rev := by
        rcases hfate with hf | hf
        · obtain rfl : f = .landed x := hf
          exact hfits.2
        · obtain rfl : f = .doubt x := hf
          exact hfits
      have hlt : w.committed < rev := hlt
      omega
    · have hinvalid : ev.valid = false := by
        by_contra hvalid
        obtain ⟨y, hy, hyrev, -⟩ := hd.valid ev hev (by simpa using hvalid)
        have hnodup := hv.nodup
        rw [List.map_append] at hnodup
        exact (List.nodup_append.mp hnodup).2.2 _ (List.mem_map_of_mem hy) _
          (List.mem_map_of_mem hx) (hyrev.trans heq)
      have hu : ev.isUncertain = true := by
        rcases hvu with hvalid | hu
        · rw [hinvalid] at hvalid
          cases hvalid
        · exact hu
      have happ := hord.appended ev hev hinvalid hu (heq.symm ▸ hcommitted)
      exact ⟨ev, hl.queued x hx ev happ heq, heq⟩
  obtain ⟨ev, hev, heq⟩ := hqueued
  cases hq : w.queue with
  | nil =>
    rw [hq] at hev
    cases hev
  | cons first rest =>
    rw [hq] at hhead
    obtain ⟨node, rfl, hfst⟩ := Option.map_eq_some_iff.mp hhead
    obtain ⟨ev₀, t⟩ := node
    obtain rfl : ev₀ = first := hfst
    have hsorted := hord.queue_sorted
    rw [hq] at hsorted hev
    have hfirst : ev₀.revision ≤ ev.revision := by
      rcases List.mem_cons.mp hev with rfl | hev
      · exact le_refl _
      · exact (List.rel_of_pairwise_cons hsorted hev).le
    have hpos : m.start < x.rev := (hv.mem_facts hx').1
    have hmin : x.rev ≤ ev₀.revision - 1 := hrev.trans (min_le_right _ _)
    omega

private theorem debt_update (gs : ℕ → Ghost) (i : ℕ) (g : Ghost) :
    (fun j => (Function.update gs i g j).debt) = Function.update (fun j => (gs j).debt) i g.debt :=
  funext (Function.apply_update (fun _ => Ghost.debt) gs i g)

namespace Inv

variable {b : Batch} {e : Engine.State}

variable (h : Inv m w gs)

include h

/-- The account of a goroutine changes, but not its debt. -/
theorem set {g : Ghost} (hdebt : g.debt = (gs i).debt)
    (hl : Limits w (Function.update gs i g)) : Inv m w (Function.update gs i g) := by
  refine ⟨h.history, ?_, hl⟩
  rw [debt_update, hdebt]
  simpa only [Function.update_eq_self] using h.debts

/-- The bounds change, but no batch and no event that was published. -/
theorem relimit (hl : Limits w' gs) (hkv : w'.kv = w.kv)
    (hdeal : w.deal ≤ w'.deal) (hcommitted : w.committed ≤ w'.committed)
    (hnotified : w'.notified = w.notified) : Inv m w' gs :=
  ⟨h.history.congr_deal hkv hdeal hcommitted, h.debts.congr hkv hdeal hnotified, hl⟩

variable (hord : Ordered m.start w)

include hord

theorem landRecord {ps : List Batch}
    (hps : ps.Sublist w.kv.pending) (hnone : b.writer.target = none)
    (hkeys : ∀ o ∈ b.ops, ¬ Internal o.key) (hl : w.kv.land b = some e) :
    Inv m { w with kv := { e with pending := ps } } gs := by
  have hwritten : written { e with pending := ps } = written w.kv :=
    (written_land_record (Batch.version_of_target hnone) hl :)
  have hund : ∀ x ∈ versions ps, x ∈ undecided w.kv := fun x hx => (hps.filterMap _).subset hx
  obtain ⟨-, -, -, -, hgc⟩ := Engine.land_fields hl
  refine ⟨h.history.landRecord hps hnone hkeys hl, ?_, ?_⟩
  · apply h.debts.move
    · intro y hy
      rw [hwritten] at hy
      exact List.mem_append.mpr ((List.mem_append.mp hy).imp id (hund y))
    · exact fun y hy => hwritten ▸ hy
  · exact h.limits.move (le_refl _) (fun x hx => .inl (hund x hx)) hord.mem_queue rfl rfl rfl
      (.inl hgc)

/-- Undecided batches are dropped, or one without a version is added. -/
theorem setPending {ps : List Batch}
    (hformed : ∀ b ∈ ps, Formed m w.deal b) (hund : (versions ps).Sublist (undecided w.kv)) :
    Inv m { w with kv := { w.kv with pending := ps } } gs := by
  have hnodup : ((written w.kv ++ versions ps).map Version.rev).Nodup :=
    (((List.Sublist.refl _).append hund).map Version.rev).nodup h.history.nodup
  refine ⟨h.history.setPending hformed hnodup fun C hC x hx => hC.2 x (hund.subset hx), ?_, ?_⟩
  · apply h.debts.move
    · intro y hy
      exact List.mem_append.mpr ((List.mem_append.mp hy).imp id fun hy => hund.subset hy)
    · exact fun y hy => hy
  · exact h.limits.move (le_refl _) (fun x hx => .inl (hund.subset hx)) hord.mem_queue rfl rfl rfl
      (.inl rfl)

/-- A commit takes effect, whatever it answers. -/
theorem commitLand {x : Version} {fate : Fate}
    (hw : Wrote b x) (hdebt : (gs i).debt = some ⟨x.rev, .fresh⟩) (hallow : Allows m x)
    (hl : w.kv.land b = some e) (hfate : fate = .landed x ∨ fate = .doubt x) :
    Inv m { w with kv := e } (Function.update gs i { gs i with debt := some ⟨x.rev, fate⟩ }) := by
  obtain ⟨hstart, hdealt, -⟩ := h.debts.dealt i _ hdebt
  have hfits := h.debts.fits i _ hdebt
  have hwritten := written_land hw.version hl
  obtain ⟨-, -, -, hpending, hgc⟩ := Engine.land_fields hl
  have hund : undecided e = undecided w.kv := by rw [undecided, hpending, undecided]
  have hlt := h.debts.committed_lt hord hdebt
  have hnodup : ((written e ++ versions w.kv.pending).map Version.rev).Nodup := by
    rw [hwritten, List.append_assoc]
    have hperm : (written w.kv ++ ([x] ++ versions w.kv.pending)).Perm
        (x :: (written w.kv ++ undecided w.kv)) := List.perm_middle
    rw [(hperm.map Version.rev).nodup_iff, List.map_cons, List.nodup_cons]
    refine ⟨?_, h.history.nodup⟩
    intro hmem
    obtain ⟨y, hy, hrev⟩ := List.mem_map.mp hmem
    exact hfits y hy hrev
  have hv := h.history.land (hord.deal_lt m.start_lt) (List.Sublist.refl _) hw hstart hdealt hallow
    (fun y hy => hfits y (List.mem_append_left _ hy)) (fun C hC => lt_of_le_of_lt hC.1 hlt) hl
    hnodup
  have hsame : { e with pending := w.kv.pending } = e := by
    rw [← hpending]
  rw [hsame] at hv
  refine ⟨hv, ?_, ?_⟩
  · rw [debt_update]
    apply h.debts.commit hdebt
    · intro y hy
      rw [hwritten, hund, List.append_assoc] at hy
      simp only [List.mem_append, List.mem_singleton] at hy ⊢
      tauto
    · intro y hy
      rw [hwritten]
      exact List.mem_append_left _ hy
    · refine hfate.imp (fun hf => ⟨hf, ?_⟩) id
      rw [hwritten]
      exact List.mem_snoc.mpr (.inr rfl)
  · have hmove : Limits { w with kv := e } gs :=
      h.limits.move (le_refl _) (fun y hy => .inl (hund ▸ hy)) hord.mem_queue rfl rfl rfl (.inl hgc)
    exact hmove.setDebt _

/-- A commit stays undecided. -/
theorem commitPend {x : Version} (hw : Wrote b x)
    (hdebt : (gs i).debt = some ⟨x.rev, .fresh⟩) (hallow : Allows m x) :
    Inv m { w with kv := { w.kv with pending := w.kv.pending ++ [b] } }
      (Function.update gs i { gs i with debt := some ⟨x.rev, .doubt x⟩ }) := by
  obtain ⟨hstart, hdealt, hnotified⟩ := h.debts.dealt i _ hdebt
  have hfits := h.debts.fits i _ hdebt
  have hlt : w.committed < x.rev := h.debts.committed_lt hord hdebt
  have hund : versions (w.kv.pending ++ [b]) = undecided w.kv ++ [x] := by
    simp [undecided, versions, hw.version]
  have hmem {y : Version} (hy : y ∈ undecided { w.kv with pending := w.kv.pending ++ [b] }) :
      y ∈ undecided w.kv ∨ y = x := by
    have hy : y ∈ undecided w.kv ++ [x] := hund ▸ hy
    exact (List.mem_append.mp hy).imp id List.mem_singleton.mp
  refine ⟨?_, ?_, ?_⟩
  · apply h.history.setPending
    · exact List.forall_mem_snoc.mpr ⟨(List.forall_mem_append.mp h.history.formed).2,
        .inr ⟨x, hw, hstart, hdealt, hallow⟩⟩
    · rw [hund, ← List.append_assoc, List.map_append]
      refine List.nodup_snoc.mpr ⟨h.history.nodup, fun hrev => ?_⟩
      obtain ⟨y, hy, heq⟩ := List.mem_map.mp hrev
      exact hfits y hy heq
    · intro C hC y hy
      rcases hmem hy with hy | rfl
      · exact hC.2 y hy
      · exact lt_of_le_of_lt hC.1 hlt
  · rw [debt_update]
    apply h.debts.commit hdebt
    · intro y hy
      rcases List.mem_append.mp hy with hy | hy
      · exact .inl (List.mem_append_left _ hy)
      · exact (hmem hy).imp (List.mem_append_right _) id
    · exact fun y hy => hy
    · exact .inr rfl
  · have hmove : Limits { w with kv := { w.kv with pending := w.kv.pending ++ [b] } } gs := by
      refine h.limits.move (le_refl _) ?_ hord.mem_queue rfl rfl rfl (.inl rfl)
      intro y hy
      refine (hmem hy).imp id ?_
      rintro rfl
      exact ⟨hlt, fun ev hev => hnotified ev (hord.mem_appended ev hev)⟩
    exact hmove.setDebt _

/-- An undecided batch takes effect. -/
theorem envLand {n : ℕ} (hb : w.kv.pending[n]? = some b) (hl : w.kv.land b = some e) :
    Inv m { w with kv := { e with pending := w.kv.pending.eraseIdx n } } gs := by
  have hbmem : b ∈ w.kv.pending := List.mem_of_getElem? hb
  have hps := List.eraseIdx_sublist w.kv.pending n
  rcases h.history.formed b (List.mem_append_right _ hbmem) with
    ⟨hnone, hkeys⟩ | ⟨x, hw, hstart, hdealt, hallow⟩
  · exact h.landRecord hord hps hnone hkeys hl
  · have hver := hw.version
    have hx : x ∈ undecided w.kv := mem_undecided.mpr ⟨b, hbmem, hver⟩
    have hwritten : written { e with pending := w.kv.pending.eraseIdx n } = written w.kv ++ [x] :=
      (written_land hver hl :)
    obtain ⟨-, -, -, -, hgc⟩ := Engine.land_fields hl
    have hperm : (written e ++ versions (w.kv.pending.eraseIdx n)).Perm
        (written w.kv ++ undecided w.kv) := by
      obtain ⟨hlt, hget⟩ := List.getElem?_eq_some_iff.mp hb
      have hp := (List.getElem_cons_eraseIdx_perm hlt).filterMap Batch.version
      rw [hget, List.filterMap_cons_some hver] at hp
      rw [written_land hver hl, List.append_assoc]
      exact hp.append_left _
    have hnodup : ((written e ++ versions (w.kv.pending.eraseIdx n)).map Version.rev).Nodup :=
      (hperm.map _).nodup_iff.mpr h.history.nodup
    have hfresh : ∀ y ∈ written w.kv, y.rev ≠ x.rev := by
      intro y hy
      have := h.history.nodup
      rw [List.map_append] at this
      exact (List.nodup_append.mp this).2.2 _ (List.mem_map_of_mem hy) _ (List.mem_map_of_mem hx)
    refine ⟨h.history.land (hord.deal_lt m.start_lt) hps hw hstart hdealt hallow hfresh
      (fun C hC => hC.2 x hx) hl hnodup, ?_, ?_⟩
    · apply h.debts.move
      · exact fun y hy => hperm.subset hy
      · intro y hy
        rw [hwritten]
        exact List.mem_append_left _ hy
    · exact h.limits.move (le_refl _) (fun y hy => .inl ((hps.filterMap _).subset hy))
        hord.mem_queue rfl rfl rfl (.inl hgc)

/-- The contents and the mark of the compactions change, but no batch. -/
theorem sweep {now : Store} {C : ℕ} (hC : Below w C)
    (hv : History m { w with kv := { w.kv.write now with gcRev := max w.kv.gcRev C } }) :
    Inv m { w with kv := { w.kv.write now with gcRev := max w.kv.gcRev C } } gs :=
  ⟨hv, h.debts.move (fun _ hy => hy) fun _ hy => hy,
    h.limits.move (le_refl _) (fun _ hy => .inl hy) hord.mem_queue rfl rfl rfl (.inr ⟨C, hC, rfl⟩)⟩

theorem callGc {C : ℕ} (hC : Below w C) :
    Inv m { w with kv := { w.kv with gcRev := max w.kv.gcRev C } } gs := by
  refine ⟨?_, h.debts.move (fun _ hy => hy) fun _ hy => hy,
    h.limits.move (le_refl _) (fun _ hy => .inl hy) hord.mem_queue rfl rfl rfl (.inr ⟨C, hC, rfl⟩)⟩
  exact ⟨h.history.formed, h.history.applied, h.history.nodup, h.history.chain,
    h.history.index, h.history.unindexed, h.history.shapes, h.history.objects⟩

end Inv

/-- When the retry worker reads the key of an uncertain write, the batch of that write is no
longer undecided. -/
def Settles (cfg : Config) (p : Engine.Policy) : Guard (leader cfg (engine p)) := fun s mv =>
  ∀ n start stop ts limit ch, mv = .op (.kv (.iter (.retry n) start stop ts limit)) ch →
    ∀ b ∈ Engine.State.pending (LeaderState.kv s), ∀ k, b.writer.target ≠ some (k, n)

/-- The requests that arrive keep to the allowed keys and values. -/
def Accepts (cfg : Config) (p : Engine.Policy) (m : WriteMode) : Guard (leader cfg (engine p)) :=
  fun _ mv => ∀ r, mv = .op .accept (.request r) → m.Accepts r

/-- Commits are not answered with an uncertain error. -/
def Certain (cfg : Config) (p : Engine.Policy) : Guard (leader cfg (engine p)) := fun _ mv =>
  ∀ w ops ch, mv = .op (.kv (.commit w ops)) (.kv ch) → ch = .ok ∨ ∃ e, ch = .fail e

section Soundness

variable {cfg : Config} {p : Engine.Policy}

variable {e : Engine.State} {r : Option Err} {s s' : LeaderState (engine p)}

theorem pending_of_certain {c c' : Interleaving.Config (leader cfg (engine p))}
    (hnil : Engine.State.pending c.state.kv = []) (h : Config.Step (Certain cfg p) c c') :
    Engine.State.pending c'.state.kv = [] := by
  obtain ⟨l, hl, hG⟩ := h
  rcases Config.step_cases hl with ⟨i, ch, o, k, again, s, r, sp, rfl, ht, hex, rfl⟩ |
    ⟨i, a, f, rfl, ht, rfl⟩ | ⟨ch, s, rfl, he, rfl⟩
  · by_cases ho : ∃ o', o = .kv o'
    · obtain ⟨o', rfl⟩ := ho
      obtain ⟨ch', kv, rfl, hkv, rfl, -⟩ := Leader.exec_kv (K := engine p) hex
      rcases Engine.exec_batches hkv with
        ⟨-, hsame⟩ | ⟨w, ops, rfl, ⟨-, hsame⟩ | ⟨-, -, n, rfl⟩⟩
      · exact hsame.trans hnil
      · exact hsame.trans hnil
      · rcases hG _ (Config.move_thread ht) w ops (.pend n) rfl with h | ⟨e, h⟩
        · cases h
        · cases h
    · have hkv := Leader.exec_storage (K := engine p) (fun o' h => ho ⟨o', h⟩) hex
      exact (congrArg Engine.State.pending hkv).trans hnil
  · exact hnil
  · rcases Leader.env_core (K := engine p) he with ⟨ch', kv, -, hkv, -⟩ | ⟨-, hcore⟩
    · obtain ⟨n, b, hb, -⟩ := Engine.env_cases hkv
      rw [hnil] at hb
      cases hb
    · have hkv := congrArg CoreView.kv hcore
      exact (congrArg Engine.State.pending hkv).trans hnil

/-- Where commits are certain, no batch is ever undecided. -/
theorem settles_of_certain {c c' : Interleaving.Config (leader cfg (engine p))}
    (hnil : Engine.State.pending c.state.kv = []) (h : Config.Reach (Certain cfg p) c c') :
    Config.Reach (Settles cfg p) c c' ∧ Engine.State.pending c'.state.kv = [] := by
  induction h with
  | refl => exact ⟨.refl, hnil⟩
  | tail _ hs ih =>
    refine ⟨ih.1.tail ?_, pending_of_certain ih.2 hs⟩
    obtain ⟨l, hl, -⟩ := hs
    refine ⟨l, hl, fun mv _ n start stop ts limit ch _ b hb => ?_⟩
    rw [ih.2] at hb
    cases hb

section

variable (hord : Ordered m.start w)

include hord

variable {c : Engine.Choice} (hinv : Inv m w gs)

include hinv

/-- What the iterator yields of revision keys and of the key of the retry worker's event. -/
private theorem sound_iter {reader : Reader} {start stop : Bytes} {ts limit : ℕ}
    {r : Except Err Iter} (hpre : PreKv m (gs i) (.iter reader start stop ts limit))
    (hsettle : ∀ n, reader = .retry n → ∀ x ∈ undecided w.kv, x.rev ≠ n)
    (hex : Engine.exec p w.kv (.iter reader start stop ts limit) c = some (e, r)) :
    ∃ g', PostKv m (gs i) (.iter reader start stop ts limit) r g' ∧
      Inv m { w with kv := e } (Function.update gs i g') := by
  obtain ⟨rfl, -, hitems⟩ := Engine.exec_iter hex
  have hget {it : Iter} (hit : r = .ok it) {key val : Bytes} (h : (key, val) ∈ it.items) :
      (Engine.seen p w.kv ts).get key = some val :=
    Engine.get_of_mem_items ((hitems it hit).1.subset h)
  refine ⟨(gs i).reads reader, ⟨rfl, fun it hit => ⟨fun k hk => ?_, ?_⟩⟩, ?_⟩
  · obtain ⟨q, d, hq⟩ := hinv.history.shape_now _ (Engine.seen_mem p w.kv ts) k _ (hget hit hk)
    exact indexValue_ne_tombStone q d hq.symm
  · intro n ev val hn hhead hmem ho
    subst hn
    obtain ⟨rfl, -, -⟩ := hpre
    have hseen : Engine.seen p w.kv 0 = w.kv.now := by cases p <;> rfl
    have hnow := hget hit hmem
    rw [hseen] at hnow
    obtain ⟨rest, hrest⟩ := List.head?_eq_some_iff.mp (hinv.limits.head i ev hhead).2
    have hnot := hord.mem_appended ev (hord.mem_queue ev (hrest ▸ List.mem_cons_self))
    have hdeal := hord.deal_lt m.start_lt
    have hle := hord.notified_le ev hnot
    obtain ⟨x, hx, hkey, hrev, rfl⟩ := hinv.history.objects ho ev.key ev.revision val
      (hord.above ev hnot) (by omega) hnow
    have hx' : x ∈ written w.kv ++ undecided w.kv := List.mem_append_left _ hx
    obtain ⟨-, -, hallow⟩ := hinv.history.mem_facts hx'
    refine ⟨?_, fun hne => ?_⟩
    · rcases hinv.debts.told x hx' with ⟨j, d, hd, hfate⟩ | ⟨ev', hev', heq, hdesc, -⟩
      · -- the event of this revision is published, so nobody owes it
        have hfits := hinv.debts.fits j d hd
        have hne := (hinv.debts.dealt j d hd).2.2 ev hnot
        obtain ⟨rev, f⟩ := d
        rcases hfate with hf | hf
        · obtain rfl : f = .landed x := hf
          exact absurd (hrev.symm.trans hfits.2) hne
        · obtain rfl : f = .doubt x := hf
          have hfits : x.rev = rev := hfits
          exact absurd (hrev.symm.trans hfits) hne
      · obtain rfl := hord.unique ev' hev' ev hnot (heq.trans hrev)
        exact hdesc.2 ho
    · have hallow := (hallow ho).2
      split at hallow
      · exact absurd hallow hne
      · exact hallow
  · cases reader with
    | retry n =>
      obtain ⟨-, hretrier, ev, hev, hrev⟩ := hpre
      refine hinv.set rfl (hinv.limits.set (hinv.limits.seen i) (hinv.limits.limit i)
        (hinv.limits.turn i) (hinv.limits.head i) ?_)
      intro ev' _ hev' x hx
      obtain rfl := Option.some.inj (hev.symm.trans hev')
      exact hrev ▸ hsettle n rfl x hx
    | _ =>
      show Inv m w (Function.update gs i (gs i))
      rw [Function.update_eq_self]
      exact hinv

private theorem sound_commit {wr : Writer} {ops : List BatchOp}
    (hpre : PreKv m (gs i) (.commit wr ops))
    (hex : Engine.execCommit w.kv ⟨wr, ops⟩ c = some (e, r)) :
    Inv m { w with kv := e } (Function.update gs i ((gs i).committed ⟨wr, ops⟩ r)) := by
  have hcases : (wr.target = none ∧ ∀ o ∈ ops, ¬ Internal o.key) ∨
      ∃ x, Wrote ⟨wr, ops⟩ x ∧ (gs i).debt = some ⟨x.rev, .fresh⟩ ∧ Allows m x := by
    cases wr with
    | record C => exact .inl ⟨rfl, hpre⟩
    | _ => exact .inr hpre
  have hexec := Engine.execCommit_cases hex
  rcases hcases with ⟨hnone, hkeys⟩ | ⟨x, hw, hdebt, hallow⟩
  · have hsame : (gs i).committed ⟨wr, ops⟩ r = gs i := by
      rw [Ghost.committed, Batch.version_of_target hnone]
    rw [hsame, Function.update_eq_self]
    have hland (hl : w.kv.land ⟨wr, ops⟩ = some e) : Inv m { w with kv := e } gs := by
      have h := hinv.landRecord hord (List.Sublist.refl _) hnone hkeys hl
      obtain ⟨-, -, -, hpending, -⟩ := Engine.land_fields hl
      rwa [← hpending] at h
    rcases hexec with ⟨-, hl, -⟩ | ⟨_, -, hl, -⟩ | ⟨_, -, rfl, -⟩ | ⟨n, -, rfl, -⟩
    · exact hland hl
    · exact hland hl
    · exact hinv
    · apply hinv.setPending hord
      · exact List.forall_mem_snoc.mpr ⟨(List.forall_mem_append.mp hinv.history.formed).2,
          .inl ⟨hnone, hkeys⟩⟩
      · simp [undecided, versions, Batch.version_of_target (b := ⟨wr, ops⟩) hnone]
  · have hnew : (gs i).committed ⟨wr, ops⟩ r = { gs i with debt := some ⟨x.rev, .after x r⟩ } := by
      rw [Ghost.committed, hw.version]
    rw [hnew]
    rcases hexec with ⟨-, hl, rfl⟩ | ⟨err, -, hl, rfl, hu⟩ | ⟨err, -, rfl, rfl, hu⟩ |
      ⟨n, -, rfl, rfl⟩
    · exact hinv.commitLand hord hw hdebt hallow hl (.inl rfl)
    · exact hinv.commitLand hord hw hdebt hallow hl (.inr (by simp [Fate.after, hu]))
    · have hsame : { gs i with debt := some ⟨x.rev, Fate.after x (some err)⟩ } = gs i := by
        simp only [Fate.after, hu]
        rw [if_neg (by simp), ← hdebt]
      rw [hsame, Function.update_eq_self]
      exact hinv
    · exact hinv.commitPend hord hw hdebt hallow

private theorem sound_del {C : ℕ} {key : Bytes} (hpre : PreKv m (gs i) (.del C key))
    (hex : Engine.execDel w.kv C key c = some (e, r)) : Inv m { w with kv := e } gs := by
  obtain ⟨hC, k, n, rfl, h0, hn⟩ := hpre
  have hbelow := (hinv.limits.limit i).le hC
  rcases (Engine.execDel_cases hex).2 with rfl | ⟨rfl, -⟩
  · exact hinv.sweep hord hbelow (hinv.history.eraseObject h0 hn)
  · exact hinv.callGc hord hbelow

private theorem sound_delCurrent {C : ℕ} {key val : Bytes}
    (hpre : PreKv m (gs i) (.delCurrent C key val))
    (hex : Engine.execDelCurrent w.kv C key val c = some (e, r)) : Inv m { w with kv := e } gs := by
  obtain ⟨hC, k, rfl, hval⟩ := hpre
  have hbelow := (hinv.limits.limit i).le hC
  rcases Engine.execDelCurrent_cases hex with ⟨hget, -, rfl | ⟨rfl, -⟩⟩ | ⟨-, rfl, -⟩
  · exact hinv.sweep hord hbelow (hinv.history.eraseIndex (hord.deal_lt m.start_lt) hget
      ((hinv.limits.limit i).le hval))
  · exact hinv.callGc hord hbelow
  · exact hinv.callGc hord hbelow

private theorem sound_kv {o : KvOp} {r : o.Res} (hpre : PreKv m (gs i) o)
    (hsettle : ∀ n start stop ts limit, o = .iter (.retry n) start stop ts limit →
      ∀ x ∈ undecided w.kv, x.rev ≠ n) (hex : Engine.exec p w.kv o c = some (e, r)) :
    ∃ g', PostKv m (gs i) o r g' ∧ Inv m { w with kv := e } (Function.update gs i g') := by
  have hsame {e' : Engine.State} (h : Inv m { w with kv := e' } gs) :
      Inv m { w with kv := e' } (Function.update gs i (gs i)) := by
    rwa [Function.update_eq_self]
  cases o with
  | getTimestampOracle =>
    obtain ⟨rfl, -⟩ := Engine.exec_getTimestampOracle hex
    exact ⟨_, rfl, hsame hinv⟩
  | getPartitions start stop =>
    obtain ⟨rfl, -⟩ := Engine.exec_getPartitions hex
    exact ⟨_, rfl, hsame hinv⟩
  | get key =>
    obtain ⟨rfl, -⟩ := Engine.exec_get hex
    exact ⟨_, rfl, hsame hinv⟩
  | iter reader start stop ts limit =>
    exact sound_iter hord hinv hpre (fun n hn => hsettle n _ _ _ _ (by rw [hn])) hex
  | commit wr ops => exact ⟨_, rfl, sound_commit hord hinv hpre hex⟩
  | del C key => exact ⟨_, rfl, hsame (sound_del hord hinv hpre hex)⟩
  | delCurrent C key val => exact ⟨_, rfl, hsame (sound_delCurrent hord hinv hpre hex)⟩

end

theorem view_of_core (h : s'.core = s.core) : view s' = view s :=
  congrArg (fun c : CoreView (engine p) => (⟨c.events.committed, c.events.deal,
    c.events.journal.notified, c.events.journal.appended, c.queue.map Prod.fst, c.kv,
    c.histories⟩ : View)) h

private theorem sound_op {outs : List (Option Outcome)} {o : Op} {ch : LeaderChoice (engine p)}
    {r : o.Res} {sp : Option Leader.Goroutine} (hseq : Sequenced m.start s ∧ Sequenced m.start s')
    (hinv : Inv m (view s) gs) (hpre : Pre m (gs i) o) (hsettle : Settles cfg p s (.op o ch))
    (haccept : m.restricted → Accepts cfg p m s (.op o ch)) (hidle : gs outs.length = idle)
    (hlt : i < outs.length) (hex : Leader.exec cfg s outs i o ch = some (s', r, sp)) :
    ∃ g', Post m (gs i) o r g' ∧
      (outline cfg p m).Spawned s' (Function.update gs i g') outs.length sp := by
  have hord := ordered_of_sequenced hseq.1
  have hord' := ordered_of_sequenced hseq.2
  have hsame {w : View} (h : Inv m w gs) : Inv m w (Function.update gs i (gs i)) := by
    rwa [Function.update_eq_self]
  have hcore (h : s'.core = s.core) : Inv m (view s') (Function.update gs i (gs i)) :=
    view_of_core h ▸ hsame hinv
  cases o with
  | kv o =>
    obtain ⟨c, kv, rfl, hkv, rfl, rfl⟩ := Leader.exec_kv hex
    refine sound_kv hord hinv hpre ?_ hkv
    intro n start stop ts limit ho x hx heq
    subst ho
    obtain ⟨b, hb, hver⟩ := mem_undecided.mp hx
    obtain ⟨hw, -⟩ := hinv.history.formed_version (List.mem_append_right _ hb) hver
    exact hsettle n start stop ts limit _ rfl b hb x.key (heq ▸ hw.target)
  | deal site =>
    obtain ⟨hlt63, rfl, rfl, rfl⟩ := answer_ite hex
    refine ⟨_, ⟨rfl, Nat.succ_pos _, hlt63, ?_⟩, ?_⟩
    · intro ev hev
      obtain ⟨rest, hrest⟩ := List.head?_eq_some_iff.mp (hinv.limits.head i ev hev).2
      have hnot := hord.mem_appended ev (hord.mem_queue ev (hrest ▸ List.mem_cons_self))
      exact Nat.lt_succ_of_le (hord.notified_le ev hnot)
    · refine ⟨hinv.history.congr_deal rfl (Nat.le_succ _) (le_refl _), ?_, ?_⟩
      · rw [debt_update]
        exact hinv.debts.deal hinv.history hord hpre
      · have hmove : Limits { view s with deal := s.dealRevision + 1 } gs :=
          hinv.limits.move (le_refl _) (fun _ hx => .inl hx) hord.mem_queue rfl rfl rfl (.inl rfl)
        exact hmove.setDebt _
  | getRevision =>
    obtain ⟨rfl, rfl, rfl⟩ := answer_inj hex
    exact ⟨_, rfl, hinv.set rfl (hinv.limits.set (le_refl _) (hinv.limits.limit i)
      (hinv.limits.turn i) (hinv.limits.head i) (hinv.limits.settled i))⟩
  | storeCommitted rev =>
    obtain ⟨rfl, -, rfl⟩ := answer_inj hex
    have hle : s.committedRevision ≤ rev := hseq.1.committed_le hseq.2 (List.prefix_append _ _)
    refine ⟨_, rfl, hsame (hinv.relimit ?_ rfl (le_refl _) hle rfl)⟩
    exact hinv.limits.move hle (fun _ hx => .inl hx) hord.mem_queue rfl rfl rfl (.inl rfl)
  | casDeal old new =>
    obtain ⟨rfl, -, rfl⟩ := answer_inj hex
    refine ⟨_, rfl, hsame ?_⟩
    -- the sequencer is never behind the counter, so nothing is stored
    have hle : s.dealRevision ≤ if s.dealRevision = old then new else s.dealRevision := by
      obtain ⟨owed, batch, phase, hl⟩ := hseq.1
      obtain ⟨owed', batch', phase', hl'⟩ := hseq.2
      obtain ⟨h₁, h₂, -⟩ := hl.dealt trivial
      obtain ⟨h₃, h₄, -⟩ := hl'.dealt trivial
      have hlen : (List.range' (m.start + 1) (s.dealRevision - m.start)).length =
        (List.range' (m.start + 1) ((if s.dealRevision = old then new else s.dealRevision) -
          m.start)).length := congrArg List.length (h₂.symm.trans h₄)
      simp only [List.length_range'] at hlen
      have h₁ : m.start ≤ s.dealRevision := h₁
      have h₃ : m.start ≤ if s.dealRevision = old then new else s.dealRevision := h₃
      omega
    exact hinv.relimit (hinv.limits.move (le_refl _) (fun _ hx => .inl hx) hord.mem_queue rfl rfl
      rfl (.inl rfl)) rfl hle (le_refl _) rfl
  | loadDeal | ringLoad _ | cacheAdd _ =>
    obtain ⟨rfl, -, rfl⟩ := answer_inj hex
    exact ⟨_, rfl, hsame hinv⟩
  | chanSend batch =>
    obtain ⟨-, rfl, -, rfl⟩ := answer_ite hex
    exact ⟨_, rfl, hsame hinv⟩
  | ringStore idx ev =>
    obtain ⟨rfl, -, rfl⟩ := answer_inj hex
    cases ev with
    | none => exact ⟨_, rfl, hsame hinv⟩
    | some ev =>
      obtain ⟨⟨fate, hdebt, hann⟩, hkey⟩ := hpre
      refine ⟨_, rfl, hinv.history.congr_deal rfl (le_refl _) (le_refl _), ?_, ?_⟩
      · rw [debt_update]
        exact hinv.debts.publish hdebt hann hkey
      · have hmove : Limits { view s with notified := s.journal.notified ++ [ev] } gs :=
          hinv.limits.move (le_refl _) (fun _ hx => .inl hx) hord.mem_queue rfl rfl rfl (.inl rfl)
        exact hmove.setDebt _
  | queuePush ev =>
    obtain ⟨rfl, -, rfl⟩ := answer_inj hex
    refine ⟨_, rfl, hsame ?_⟩
    have hview : view { s with
        queue := s.queue ++ [(ev, s.clock)]
        journal := { s.journal with appended := s.journal.appended ++ [ev] } } =
        { view s with
          appended := (view s).appended ++ [ev]
          queue := (view s).queue ++ [ev] } := by
      simp [view]
    rw [hview]
    exact hinv.relimit (hinv.limits.push ev) rfl (le_refl _) (le_refl _) rfl
  | queueHead =>
    obtain ⟨rfl, rfl, rfl⟩ := answer_inj hex
    have hhead : (s.queue.head?).map Prod.fst = (view s).queue.head? := by simp [view]
    refine ⟨_, ⟨rfl, ?_⟩, hinv.set rfl ?_⟩
    · intro ev t hev
      have hmem : ev ∈ (view s).queue :=
        List.mem_map.mpr ⟨(ev, t), List.mem_of_mem_head? hev, rfl⟩
      have hnot := hord.mem_appended ev (hord.mem_queue ev hmem)
      have hpos := hord.above ev hnot
      exact ⟨by omega, fun ho => hinv.debts.keys ho ev hnot⟩
    · refine hinv.limits.set (hinv.limits.seen i) ?_ (hinv.limits.turn i) ?_ (by rintro _ ⟨⟩)
      · exact (hinv.limits.limit i).max
          (below_horizon hord hinv.history hinv.debts hinv.limits hhead i)
      · intro ev hev
        simp only [Ghost.polled] at hev ⊢
        split at hev
        · next hr => exact ⟨hr, hhead ▸ hev⟩
        · cases hev
  | queuePop =>
    obtain ⟨-, rfl, -, rfl⟩ := answer_unless hex
    obtain ⟨hretrier, hhead, hsettled⟩ := hpre
    have hview : view { s with queue := s.queue.tail } =
        { view s with queue := (view s).queue.tail } := by
      simp [view, List.map_tail]
    refine ⟨_, rfl, ?_⟩
    show Inv m (view { s with queue := s.queue.tail }) _
    rw [hview]
    refine ⟨hinv.history.congr_deal rfl (le_refl _) (le_refl _), ?_,
      hinv.limits.pop hretrier hhead hsettled⟩
    rw [debt_update, Function.update_eq_self (f := fun j => (gs j).debt)]
    exact hinv.debts.congr rfl (le_refl _) rfl
  | historyPush C time =>
    obtain ⟨rfl, -, rfl⟩ := answer_inj hex
    refine ⟨_, rfl, hsame (hinv.relimit (hinv.limits.setHistories ?_) rfl (le_refl _) (le_refl _)
      rfl)⟩
    exact List.forall_mem_append.mpr ⟨hinv.limits.histories,
      List.forall_mem_singleton.mpr ((hinv.limits.limit i).le hpre)⟩
  | historyTimeout time =>
    obtain ⟨rfl, rfl, rfl⟩ := answer_inj hex
    obtain ⟨hfst, hsnd⟩ := Scanner.popExpired_cases time s.compactHistories 0
    have hset : Limits { view s with
        histories := (Scanner.popExpired time s.compactHistories 0).2 } gs :=
      hinv.limits.setHistories fun r hr => hinv.limits.histories r (hsnd r hr)
    have hbelow : Below (view s) (Scanner.popExpired time s.compactHistories 0).1 := by
      rcases hfst with h | ⟨r, hr, h, -⟩
      · rw [h]
        exact (hinv.limits.limit i).le (Nat.zero_le _)
      · rw [h]
        exact hinv.limits.histories r hr
    have hinv' := hinv.relimit hset rfl (le_refl _) (le_refl _) rfl
    exact ⟨_, rfl, hinv'.set rfl (hset.set (hset.seen i) ((hset.limit i).max hbelow) (hset.turn i)
      (hset.head i) (hset.settled i))⟩
  | spawn t =>
    obtain ⟨rfl, -, rfl⟩ := Leader.exec_spawn_task hex
    refine ⟨gs i, rfl, _, threadSafe_task hpre, ?_⟩
    refine (hsame hinv).set ?_ ((hsame hinv).limits.set (Nat.zero_le _) (hinv.limits.limit i)
      (by rintro ⟨⟩) (by rintro _ ⟨⟩) (by rintro _ ⟨⟩))
    rw [Function.update_of_ne (by omega), hidle]
  | accept =>
    obtain ⟨req, rfl, rfl, rfl⟩ := Leader.exec_accept hex
    refine ⟨gs i, rfl, Outline.spawned_of_idle (hsame hinv) hlt hidle fun t ht => ?_⟩
    obtain rfl := Option.some.inj ht
    exact threadSafe_request fun ho => haccept ho req rfl
  | _ =>
    obtain rfl := Leader.exec_no_spawn (by simp) (by simp) hex
    exact ⟨gs i, rfl, hcore (Leader.exec_core (by simp [Leader.coreKinds, Leader.eventKinds]) hex)⟩

private theorem sound_env {ch : LeaderChoice (engine p)} (hseq : Sequenced m.start s)
    (hinv : Inv m (view s) gs) (he : Leader.env s ch = some s') : Inv m (view s') gs := by
  have hord := ordered_of_sequenced hseq
  rcases Leader.env_core he with ⟨c, kv, rfl, hkv, rfl⟩ | ⟨-, hcore⟩
  · obtain ⟨n, b, hb, ⟨-, hl⟩ | ⟨-, rfl⟩⟩ := Engine.env_cases hkv
    · obtain ⟨e, hland, rfl⟩ := Engine.land_pending (s := s.kv) hl
      exact hinv.envLand hord hb hland
    · exact hinv.setPending hord
        (fun b' hb' =>
          hinv.history.formed b' (List.mem_append_right _ (List.mem_of_mem_eraseIdx hb')))
        ((List.eraseIdx_sublist _ _).filterMap _)
  · rw [view_of_core hcore]
    exact hinv

/-- Runs in which undecided batches are decided before the retry worker reads, and in which
the requests are the allowed ones if the mode asks for it. -/
theorem sound {G : Guard (leader cfg (engine p))} (hsettle : ∀ s mv, G s mv → Settles cfg p s mv)
    (haccept : m.restricted → ∀ s mv, G s mv → Accepts cfg p m s mv) :
    (outline cfg p m).Sound G
      (fun s _ s' => Sequenced m.start (K := engine p) s ∧
        Sequenced m.start (K := engine p) s') where
  op := fun hseq hinv hpre hg hlt hidle _ hex =>
    sound_op hseq hinv hpre (hsettle _ _ hg) (fun ho => haccept ho _ _ hg) (hidle _ (le_refl _))
      hlt hex
  env := fun hseq hinv _ he => sound_env hseq.1 hinv he

theorem good_init : (outline cfg p m).Good
    (Leader.init cfg (engine p) m.start (Engine.init m.base)) start where
  inv := by
    have hbelow : Below (view (Leader.initState cfg (engine p) m.start (Engine.init m.base))) 0 :=
      ⟨Nat.zero_le _, by simp [undecided, versions, view, Leader.initState, Engine.init]⟩
    have hghost (j : ℕ) : (start j).debt = none ∧ (start j).seen = 0 ∧ (start j).limit = 0 ∧
        (start j).head = none ∧ ((start j).retrier = true → j = 1) := by
      unfold start
      split
      · next h => exact ⟨rfl, rfl, rfl, rfl, fun _ => h⟩
      · exact ⟨rfl, rfl, rfl, rfl, by rintro ⟨⟩⟩
    refine ⟨⟨by rintro _ ⟨⟩, by rintro _ ⟨⟩, .nil, .nil, ?_, by rintro _ _ _ ⟨⟩,
        by rintro _ ⟨⟩, ?_⟩,
      ⟨?_, ?_, ?_, by rintro _ ⟨⟩, by rintro _ ⟨⟩, by rintro _ _ ⟨⟩⟩,
      ⟨by rintro _ ⟨⟩, ?_, ?_, by rintro _ ⟨⟩, hbelow, fun j => (hghost j).2.2.2.2, ?_, ?_⟩⟩
    · intro k val hval
      obtain ⟨q, d, hq, rfl⟩ := m.index k val hval
      exact ⟨q, d, rfl, by rintro _ ⟨⟩, .inr ⟨hq, hval⟩⟩
    · intro ho k r val hr hr' hval
      have hval : m.base.get (encodeObjectKey k r) = some val := hval
      rw [m.objects ho k r hr hr'] at hval
      cases hval
    · exact fun j d hd => absurd (hd.symm.trans (hghost j).1) (Option.some_ne_none d)
    · exact fun j k d d' hd => absurd (hd.symm.trans (hghost j).1) (Option.some_ne_none d)
    · exact fun j d hd => absurd (hd.symm.trans (hghost j).1) (Option.some_ne_none d)
    · exact fun j => (hghost j).2.1 ▸ Nat.zero_le _
    · exact fun j => (hghost j).2.2.1 ▸ hbelow
    · exact fun j ev hev => absurd (hev.symm.trans (hghost j).2.2.2.1) (Option.some_ne_none ev)
    · exact fun j ev _ hev => absurd (hev.symm.trans (hghost j).2.2.2.1) (Option.some_ne_none ev)
  safe := fun i t ht => threadSafe_start ht
  idle := by
    intro j hj
    have : j ≠ 1 := by
      rintro rfl
      simp [Leader.init] at hj
    simp [start, this]

theorem good_of_reach {G : Guard (leader cfg (engine p))}
    (hsettle : ∀ s mv, G s mv → Settles cfg p s mv)
    (haccept : m.restricted → ∀ s mv, G s mv → Accepts cfg p m s mv)
    {c : Interleaving.Config (leader cfg (engine p))}
    (hr : Config.Reach G (Leader.init cfg (engine p) m.start (Engine.init m.base)) c) :
    ∃ gs, (outline cfg p m).Good c gs :=
  good_init.reach (sound hsettle haccept) (.of_states fun _ hd => sequenced_of_reach hd) hr

end Soundness

end Writes
end KubeBrain

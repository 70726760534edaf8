import KubeBrain.Backend.Steps
import Mathlib.Data.List.Range

/-! The ledger of revisions: which revisions are owed by a goroutine, which have been
published, and how far the consumer of the event ring buffer has come. -/
namespace KubeBrain

/-- Where the consumer is in its pass, with the event it has in hand. -/
inductive Phase where
  | idle
  | loaded (ev : WatchEvent)
  | cleared (ev : WatchEvent)
  | queued (ev : WatchEvent)
  | stored (ev : WatchEvent)

namespace Phase

/-- The slots hold the published events above this revision. -/
def slotFloor (committed : ℕ) : Phase → ℕ
  | cleared ev | queued ev => ev.revision
  | _ => committed

/-- The valid events up to this revision are in the watch cache. -/
def addFloor (committed : ℕ) : Phase → ℕ
  | stored ev => ev.revision - 1
  | _ => committed

/-- The uncertain events up to this revision are in the retry queue. -/
def appendFloor (committed : ℕ) : Phase → ℕ
  | queued ev => ev.revision
  | _ => committed

/-- What is known of the event in hand. -/
def Held (v : EventView) : Phase → Prop
  | idle => True
  | loaded ev | cleared ev => ev ∈ v.journal.notified ∧ ev.revision = v.committed + 1
  | queued ev => (ev ∈ v.journal.notified ∧ ev.revision = v.committed + 1) ∧
      ev.valid = false ∧ ev.isUncertain = true
  | stored ev => (ev ∈ v.journal.notified ∧ ev.revision = v.committed) ∧ ev.valid = true

end Phase

/-- Which runs the ledger describes: where the sequencer starts, whether goroutines deal
revisions, and whether no request is ahead of the sequencer when it deals. -/
structure LedgerMode where
  start : ℕ
  dealing : Prop
  noDrift : Prop

/-- `owed i` is the revision that goroutine `i` has dealt and not yet published. -/
structure Ledger (m : LedgerMode) (v : EventView) (owed : ℕ → Option ℕ) (batch : List Event)
    (phase : Phase) : Prop where
  start_le : m.start ≤ v.committed
  nodup : (v.journal.notified.map WatchEvent.revision).Nodup
  above : ∀ ev ∈ v.journal.notified, m.start < ev.revision
  filled : ∀ r, m.start < r → r ≤ v.committed → ∃ ev ∈ v.journal.notified, ev.revision = r
  held : phase.Held v
  slots : ∀ idx ev, v.ring idx = some ev ↔ ev ∈ v.journal.notified ∧
    phase.slotFloor v.committed < ev.revision ∧ idx = ev.revision % watchersChanCapacity
  window : ∀ ev ∈ v.journal.notified, ev.revision < v.committed + watchersChanCapacity
  owed_fresh : ∀ i r, owed i = some r → m.start < r ∧ ∀ ev ∈ v.journal.notified, ev.revision ≠ r
  owed_inj : ∀ i j r, owed i = some r → owed j = some r → i = j
  added_sorted : v.journal.added.Pairwise fun a b => a.revision < b.revision
  mem_added : ∀ e, e ∈ v.journal.added ↔ ∃ ev ∈ v.journal.notified,
    ev.valid = true ∧ ev.revision ≤ phase.addFloor v.committed ∧ ev.toEvent = e
  sent : v.journal.sent.flatten ++ batch = v.journal.added
  appended_sorted : v.journal.appended.Pairwise fun a b => a.revision < b.revision
  mem_appended : ∀ ev, ev ∈ v.journal.appended ↔ ev ∈ v.journal.notified ∧
    ev.valid = false ∧ ev.isUncertain = true ∧ ev.revision ≤ phase.appendFloor v.committed
  commits : v.journal.commits = List.range' (m.start + 1) (v.committed - m.start)
  clobbered : v.journal.clobbered = []
  queue : ∃ n, v.queue = v.journal.appended.drop n
  dealt : m.dealing → m.start ≤ v.deal ∧
    v.journal.dealt.map Prod.snd = List.range' (m.start + 1) (v.deal - m.start) ∧
    (∀ ev ∈ v.journal.notified, ev.revision ≤ v.deal) ∧ ∀ i r, owed i = some r → r ≤ v.deal
  deal_lt : m.dealing → m.start < 2 ^ 63 → v.deal < 2 ^ 63
  paid : m.dealing → m.noDrift → ∀ i r, (i, r) ∈ v.journal.dealt →
    (∃ ev ∈ v.journal.notified, ev.revision = r) ∨ owed i = some r

namespace Ledger

variable {m : LedgerMode} {v : EventView} {owed : ℕ → Option ℕ} {batch : List Event}
  {phase : Phase}

variable {i : ℕ} {ev : WatchEvent}

section

variable (h : Ledger m v owed batch phase)

include h

/-- Events are determined by their revision. -/
theorem eq_of_revision {a b : WatchEvent}
    (ha : a ∈ v.journal.notified) (hb : b ∈ v.journal.notified)
    (hab : a.revision = b.revision) : a = b :=
  List.inj_on_of_nodup_map h.nodup ha hb hab

theorem committed_lt_owed {r : ℕ} (hi : owed i = some r) : v.committed < r := by
  obtain ⟨hstart, hfresh⟩ := h.owed_fresh i r hi
  by_contra hle
  obtain ⟨ev, hev, hr⟩ := h.filled r hstart (by omega)
  exact hfresh ev hev hr

/-- Revisions that nobody has published are above the slots' floor. -/
theorem slotFloor_lt_owed {r : ℕ} (hi : owed i = some r) : phase.slotFloor v.committed < r := by
  have hlt := h.committed_lt_owed hi
  have hfresh := (h.owed_fresh i r hi).2
  have hheld := h.held
  cases phase with
  | idle => exact hlt
  | loaded ev => exact hlt
  | stored ev => exact hlt
  | cleared ev =>
    have := hfresh ev hheld.1
    have hrev := hheld.2
    simp only [Phase.slotFloor]
    omega
  | queued ev =>
    have := hfresh ev hheld.1.1
    have hrev := hheld.1.2
    simp only [Phase.slotFloor]
    omega

theorem committed_le_slotFloor : v.committed ≤ phase.slotFloor v.committed := by
  have hheld := h.held
  cases phase with
  | idle => exact le_refl _
  | loaded ev => exact le_refl _
  | stored ev => exact le_refl _
  | cleared ev =>
    have := hheld.2
    simp only [Phase.slotFloor]
    omega
  | queued ev =>
    have := hheld.1.2
    simp only [Phase.slotFloor]
    omega

theorem committed_le_deal (hd : m.dealing) : v.committed ≤ v.deal := by
  obtain ⟨hstart, -, hnot, -⟩ := h.dealt hd
  rcases Nat.eq_or_lt_of_le h.start_le with heq | hlt
  · omega
  · obtain ⟨ev, hev, hrev⟩ := h.filled v.committed hlt (le_refl _)
    exact hrev ▸ hnot ev hev

/-- The slot of a revision that is still owed is empty. -/
theorem slot_empty {r : ℕ} (hi : owed i = some r)
    (hr : r < v.committed + watchersChanCapacity) : v.ring (r % watchersChanCapacity) = none := by
  by_contra hne
  obtain ⟨ev, hev⟩ := Option.ne_none_iff_exists'.mp hne
  obtain ⟨hmem, hlt, hmod⟩ := (h.slots _ ev).mp hev
  have hfloor := h.committed_le_slotFloor
  have hwin := h.window ev hmem
  have hlow := h.committed_lt_owed hi
  have hfresh := (h.owed_fresh i r hi).2 ev hmem
  unfold watchersChanCapacity at *
  omega

theorem dealRevision (hd : m.dealing) (hlt : v.deal + 1 < 2 ^ 63) (hi : owed i = none) :
    Ledger m { v with deal := v.deal + 1, journal := { v.journal with
      dealt := v.journal.dealt ++ [(i, v.deal + 1)] } }
      (Function.update owed i (some (v.deal + 1))) batch phase := by
  obtain ⟨hstart, hlist, hnot, howed⟩ := h.dealt hd
  have hcase {j r : ℕ} (hj : Function.update owed i (some (v.deal + 1)) j = some r) :
      (j = i ∧ r = v.deal + 1) ∨ (j ≠ i ∧ owed j = some r) :=
    (Interleaving.update_cases (P := (· = some r)) hj).imp_left fun h =>
      ⟨h.1, (Option.some.inj h.2).symm⟩
  refine { h with
    held := by cases phase <;> exact h.held
    owed_fresh := ?_, owed_inj := ?_, dealt := fun _ => ⟨?_, ?_, ?_, ?_⟩
    deal_lt := fun _ _ => hlt, paid := ?_ }
  · intro j r hj
    rcases hcase hj with ⟨-, rfl⟩ | ⟨-, hj⟩
    · refine ⟨by omega, fun ev hev heq => ?_⟩
      have := hnot ev hev
      omega
    · exact h.owed_fresh j r hj
  · intro j k r hj hk
    rcases hcase hj with ⟨rfl, rfl⟩ | ⟨-, hj'⟩ <;> rcases hcase hk with ⟨rfl, hr⟩ | ⟨-, hk'⟩
    · rfl
    · have := howed k _ hk'
      omega
    · subst hr
      have := howed j _ hj'
      omega
    · exact h.owed_inj j k r hj' hk'
  · show m.start ≤ v.deal + 1
    omega
  · show (v.journal.dealt ++ [(i, v.deal + 1)]).map Prod.snd =
      List.range' (m.start + 1) (v.deal + 1 - m.start)
    rw [List.map_append, hlist, show v.deal + 1 - m.start = v.deal - m.start + 1 by omega,
      List.range'_concat]
    simp
    omega
  · intro ev hev
    exact (hnot ev hev).trans (Nat.le_succ _)
  · intro j r hj
    show r ≤ v.deal + 1
    rcases hcase hj with ⟨-, rfl⟩ | ⟨-, hj⟩
    · exact le_refl _
    · exact (howed j r hj).trans (Nat.le_succ _)
  · intro _ hn j r hj
    rcases List.mem_append.mp hj with hj | hj
    · rcases h.paid hd hn j r hj with hp | hp
      · exact .inl hp
      · refine .inr ?_
        have hji : j ≠ i := by
          rintro rfl
          rw [hi] at hp
          cases hp
        rw [Function.update_of_ne hji]
        exact hp
    · obtain ⟨rfl, rfl⟩ : j = i ∧ r = v.deal + 1 := by simpa using hj
      exact .inr (Function.update_self _ _ _)

/-- A goroutine publishes the revision it owes. -/
theorem publish (hi : owed i = some ev.revision)
    (hr : ev.revision < v.committed + watchersChanCapacity) :
    Ledger m { v with
      ring := Function.update v.ring (ev.revision % watchersChanCapacity) (some ev)
      journal := { v.journal with
        notified := v.journal.notified ++ [ev]
        clobbered := v.journal.clobbered ++ (v.ring (ev.revision % watchersChanCapacity)).toList } }
      (Function.update owed i none) batch phase := by
  have hcommitted := h.committed_lt_owed hi
  have hfloor := h.slotFloor_lt_owed hi
  obtain ⟨hstart, hfresh⟩ := h.owed_fresh i _ hi
  have hempty := h.slot_empty hi hr
  have howed {j r : ℕ} (hj : Function.update owed i none j = some r) : j ≠ i ∧ owed j = some r :=
    (Interleaving.update_cases (P := (· = some r)) hj).resolve_left (by simp)
  have hmem {P : WatchEvent → Prop} (hP : ¬ P ev) :
      (∃ e ∈ v.journal.notified ++ [ev], P e) ↔ ∃ e ∈ v.journal.notified, P e := by
    constructor
    · rintro ⟨e, he, hPe⟩
      rcases List.mem_snoc.mp he with he | rfl
      · exact ⟨e, he, hPe⟩
      · exact absurd hPe hP
    · rintro ⟨e, he, hPe⟩
      exact ⟨e, List.mem_append_left _ he, hPe⟩
  have hadd : phase.addFloor v.committed < ev.revision := by
    have := h.held
    cases phase with
    | stored e =>
      have := this.1.2
      simp only [Phase.addFloor]
      omega
    | _ => exact hcommitted
  have happend : phase.appendFloor v.committed < ev.revision := by
    cases phase with
    | queued e => exact hfloor
    | _ => exact hcommitted
  refine { h with
    nodup := ?_, above := ?_, filled := ?_, held := ?_, slots := ?_, window := ?_
    owed_fresh := ?_, owed_inj := ?_, mem_added := ?_, mem_appended := ?_
    clobbered := ?_, dealt := ?_, paid := ?_ }
  · simp only [List.map_append, List.map_cons, List.map_nil]
    refine List.nodup_snoc.mpr ⟨h.nodup, fun hmem => ?_⟩
    obtain ⟨e, he, hrev⟩ := List.mem_map.mp hmem
    exact hfresh e he hrev
  · exact List.forall_mem_snoc.mpr ⟨h.above, hstart⟩
  · intro r hr₁ hr₂
    obtain ⟨e, he, hrev⟩ := h.filled r hr₁ hr₂
    exact ⟨e, List.mem_append_left _ he, hrev⟩
  · have hold := h.held
    cases phase with
    | idle => trivial
    | loaded e => exact ⟨List.mem_append_left _ hold.1, hold.2⟩
    | cleared e => exact ⟨List.mem_append_left _ hold.1, hold.2⟩
    | queued e => exact ⟨⟨List.mem_append_left _ hold.1.1, hold.1.2⟩, hold.2⟩
    | stored e => exact ⟨⟨List.mem_append_left _ hold.1.1, hold.1.2⟩, hold.2⟩
  · intro idx e
    show Function.update v.ring _ _ idx = some e ↔ e ∈ v.journal.notified ++ [ev] ∧ _
    by_cases hidx : idx = ev.revision % watchersChanCapacity
    · subst hidx
      rw [Function.update_self]
      constructor
      · intro he
        obtain rfl := Option.some.inj he
        exact ⟨List.mem_snoc.mpr (.inr rfl), hfloor, rfl⟩
      · rintro ⟨he, hlt, hmod⟩
        rcases List.mem_snoc.mp he with he | rfl
        · have := (h.slots _ e).mpr ⟨he, hlt, hmod⟩
          rw [hempty] at this
          cases this
        · rfl
    · rw [Function.update_of_ne hidx, h.slots]
      constructor
      · rintro ⟨he, hrest⟩
        exact ⟨List.mem_append_left _ he, hrest⟩
      · rintro ⟨he, hlt, hmod⟩
        rcases List.mem_snoc.mp he with he | rfl
        · exact ⟨he, hlt, hmod⟩
        · exact absurd hmod hidx
  · exact List.forall_mem_snoc.mpr ⟨h.window, hr⟩
  · intro j r hj
    obtain ⟨hji, hj⟩ := howed hj
    obtain ⟨h₁, h₂⟩ := h.owed_fresh j r hj
    refine ⟨h₁, List.forall_mem_snoc.mpr ⟨h₂, ?_⟩⟩
    rintro rfl
    exact hji (h.owed_inj j i _ hj hi)
  · intro j k r hj hk
    exact h.owed_inj j k r (howed hj).2 (howed hk).2
  · intro e
    refine (h.mem_added e).trans (hmem ?_).symm
    rintro ⟨-, hle, -⟩
    exact absurd hle (not_le.mpr hadd)
  · intro e
    refine (h.mem_appended e).trans ⟨fun he => ⟨List.mem_append_left _ he.1, he.2⟩, fun he => ?_⟩
    rcases List.mem_append.mp he.1 with hin | hin
    · exact ⟨hin, he.2⟩
    · have hle := he.2.2.2
      rw [List.mem_singleton.mp hin] at hle
      exact absurd hle (not_le.mpr happend)
  · show v.journal.clobbered ++ (v.ring _).toList = []
    rw [hempty, h.clobbered]
    rfl
  · intro hd
    obtain ⟨h₁, h₂, h₃, h₄⟩ := h.dealt hd
    exact ⟨h₁, h₂, List.forall_mem_snoc.mpr ⟨h₃, h₄ i _ hi⟩, fun j r hj => h₄ j r (howed hj).2⟩
  · intro hd hn j r hj
    rcases h.paid hd hn j r hj with ⟨e, he, hrev⟩ | hp
    · exact .inl ⟨e, List.mem_append_left _ he, hrev⟩
    · by_cases hji : j = i
      · subst hji
        rw [hi] at hp
        exact .inl ⟨ev, List.mem_snoc.mpr (.inr rfl), Option.some.inj hp⟩
      · refine .inr ?_
        rw [Function.update_of_ne hji]
        exact hp

end

/-- The event that the consumer finds is the next one. -/
theorem load (h : Ledger m v owed batch .idle)
    (hev : v.ring ((v.committed + 1) % watchersChanCapacity) = some ev) :
    Ledger m v owed batch (.loaded ev) := by
  obtain ⟨hmem, hlt, hmod⟩ := (h.slots _ ev).mp hev
  have hwin := h.window ev hmem
  have hrev : ev.revision = v.committed + 1 := by
    simp only [Phase.slotFloor] at hlt
    unfold watchersChanCapacity at *
    omega
  exact { h with held := ⟨hmem, hrev⟩ }

theorem clear (h : Ledger m v owed batch (.loaded ev)) :
    Ledger m { v with ring := Function.update v.ring (ev.revision % watchersChanCapacity) none }
      owed batch (.cleared ev) := by
  have hrev := h.held.2
  refine { h with slots := fun idx e => ?_ }
  have hslots := h.slots
  simp only [Phase.slotFloor] at hslots ⊢
  by_cases hidx : idx = ev.revision % watchersChanCapacity
  · subst hidx
    rw [Function.update_self]
    refine ⟨nofun, ?_⟩
    rintro ⟨he, hlt, hmod⟩
    have hwin := h.window e he
    unfold watchersChanCapacity at *
    omega
  · rw [Function.update_of_ne hidx, hslots]
    refine and_congr_right fun he => ?_
    constructor
    · rintro ⟨hlt, rfl⟩
      refine ⟨?_, rfl⟩
      rcases Nat.lt_or_ge ev.revision e.revision with hlt' | hge
      · exact hlt'
      · obtain rfl := h.eq_of_revision he h.held.1 (by omega)
        exact absurd rfl hidx
    · rintro ⟨hlt, rfl⟩
      exact ⟨by omega, rfl⟩

/-- An uncertain event enters the retry queue before the counter moves. -/
theorem enqueue (h : Ledger m v owed batch (.cleared ev)) (hv : ev.valid = false)
    (hu : ev.isUncertain = true) :
    Ledger m { v with queue := v.queue ++ [ev], journal := { v.journal with
      appended := v.journal.appended ++ [ev] } } owed batch (.queued ev) := by
  obtain ⟨hmem, hrev⟩ := h.held
  have happ := h.mem_appended
  simp only [Phase.appendFloor] at happ
  refine { h with held := ⟨h.held, hv, hu⟩, appended_sorted := ?_, mem_appended := ?_, queue := ?_ }
  · refine List.pairwise_snoc.mpr ⟨h.appended_sorted, fun a ha => ?_⟩
    have := ((happ a).mp ha).2.2.2
    omega
  · intro e
    show e ∈ v.journal.appended ++ [ev] ↔ _
    simp only [Phase.appendFloor]
    constructor
    · intro he
      rcases List.mem_snoc.mp he with he | rfl
      · obtain ⟨h₁, h₂, h₃, h₄⟩ := (happ e).mp he
        exact ⟨h₁, h₂, h₃, by omega⟩
      · exact ⟨hmem, hv, hu, le_refl _⟩
    · rintro ⟨h₁, h₂, h₃, h₄⟩
      rcases Nat.lt_or_ge v.committed e.revision with hlt | hge
      · obtain rfl := h.eq_of_revision h₁ hmem (by omega)
        exact List.mem_snoc.mpr (.inr rfl)
      · exact List.mem_append_left _ ((happ e).mpr ⟨h₁, h₂, h₃, hge⟩)
  · obtain ⟨n, hn⟩ := h.queue
    refine ⟨min n v.journal.appended.length, ?_⟩
    show v.queue ++ [ev] = (v.journal.appended ++ [ev]).drop _
    rw [List.drop_append_of_le_length (Nat.min_le_right _ _), hn]
    congr 1
    rcases Nat.le_total n v.journal.appended.length with hle | hle
    · rw [Nat.min_eq_left hle]
    · rw [Nat.min_eq_right hle, List.drop_length, List.drop_eq_nil_of_le hle]

/-- The counter moves past the event in hand, whatever becomes of it. -/
private theorem advance (hmem : ev ∈ v.journal.notified) (hrev : ev.revision = v.committed + 1)
    (h : Ledger m v owed batch phase) :
    m.start ≤ ev.revision ∧
      (∀ r, m.start < r → r ≤ ev.revision → ∃ e ∈ v.journal.notified, e.revision = r) ∧
      (∀ e ∈ v.journal.notified, e.revision < ev.revision + watchersChanCapacity) ∧
      v.journal.commits ++ [ev.revision] = List.range' (m.start + 1) (ev.revision - m.start) := by
  have hstart := h.start_le
  refine ⟨by omega, ?_, ?_, ?_⟩
  · intro r h₁ h₂
    rcases Nat.lt_or_ge v.committed r with hlt | hge
    · exact ⟨ev, hmem, by omega⟩
    · exact h.filled r h₁ hge
  · intro e he
    have := h.window e he
    omega
  · rw [h.commits, hrev, show v.committed + 1 - m.start = v.committed - m.start + 1 by omega,
      List.range'_concat]
    congr 2
    omega

/-- The valid event in hand is counted as committed before it reaches the cache. -/
theorem storeValid (h : Ledger m v owed batch (.cleared ev)) (hv : ev.valid = true) :
    Ledger m { v with committed := ev.revision, journal := { v.journal with
      commits := v.journal.commits ++ [ev.revision] } } owed batch (.stored ev) := by
  obtain ⟨hmem, hrev⟩ := h.held
  obtain ⟨h₁, h₂, h₃, h₄⟩ := advance hmem hrev h
  refine { h with
    start_le := h₁, filled := h₂, window := h₃, commits := h₄
    held := ⟨⟨hmem, rfl⟩, hv⟩, mem_added := ?_, mem_appended := ?_ }
  · intro e
    refine (h.mem_added e).trans ?_
    simp only [Phase.addFloor, hrev, Nat.add_sub_cancel]
  · intro e
    refine (h.mem_appended e).trans ?_
    simp only [Phase.appendFloor]
    refine and_congr_right fun he => and_congr_right fun hinv => and_congr_right fun _ => ?_
    constructor
    · intro hle
      omega
    · intro hle
      rcases Nat.lt_or_ge v.committed e.revision with hlt | hge
      · obtain rfl := h.eq_of_revision he hmem (by omega)
        rw [hv] at hinv
        cases hinv
      · exact hge

/-- An invalid event is passed over; an uncertain one is in the retry queue by then. -/
theorem storeInvalid (h : Ledger m v owed batch (.queued ev) ∨
      Ledger m v owed batch (.cleared ev) ∧ ev.valid = false ∧ ev.isUncertain = false) :
    Ledger m { v with committed := ev.revision, journal := { v.journal with
      commits := v.journal.commits ++ [ev.revision] } } owed batch .idle := by
  have hadded {phase : Phase} (h : Ledger m v owed batch phase) (hmem : ev ∈ v.journal.notified)
      (hrev : ev.revision = v.committed + 1) (hv : ev.valid = false)
      (hfloor : phase.addFloor v.committed = v.committed) (e : Event) :
      e ∈ v.journal.added ↔ ∃ e' ∈ v.journal.notified,
        e'.valid = true ∧ e'.revision ≤ ev.revision ∧ e'.toEvent = e := by
    rw [h.mem_added e, hfloor]
    refine exists_congr fun e' => and_congr_right fun he => and_congr_right fun hval =>
      and_congr_left fun _ => ⟨fun hle => by omega, fun hle => ?_⟩
    rcases Nat.lt_or_ge v.committed e'.revision with hlt | hge
    · obtain rfl := h.eq_of_revision he hmem (by omega)
      rw [hv] at hval
      cases hval
    · exact hge
  rcases h with h | ⟨h, hv, hu⟩
  · obtain ⟨⟨hmem, hrev⟩, hv, -⟩ := h.held
    obtain ⟨h₁, h₂, h₃, h₄⟩ := advance hmem hrev h
    exact { h with
      start_le := h₁, filled := h₂, window := h₃, commits := h₄
      held := trivial, mem_added := hadded h hmem hrev hv rfl }
  · obtain ⟨hmem, hrev⟩ := h.held
    obtain ⟨h₁, h₂, h₃, h₄⟩ := advance hmem hrev h
    refine { h with
      start_le := h₁, filled := h₂, window := h₃, commits := h₄
      held := trivial, mem_added := hadded h hmem hrev hv rfl, mem_appended := ?_ }
    intro e
    refine (h.mem_appended e).trans ?_
    simp only [Phase.appendFloor]
    refine and_congr_right fun he => and_congr_right fun _ => and_congr_right fun hunc => ?_
    refine ⟨fun hle => by omega, fun hle => ?_⟩
    rcases Nat.lt_or_ge v.committed e.revision with hlt | hge
    · obtain rfl := h.eq_of_revision he hmem (by omega)
      rw [hu] at hunc
      cases hunc
    · exact hge

theorem addToCache (h : Ledger m v owed batch (.stored ev)) :
    Ledger m { v with journal := { v.journal with added := v.journal.added ++ [ev.toEvent] } }
      owed (batch ++ [ev.toEvent]) .idle := by
  obtain ⟨⟨hmem, hrev⟩, hv⟩ := h.held
  have hadd := h.mem_added
  have habove := h.above ev hmem
  simp only [Phase.addFloor] at hadd
  refine { h with held := trivial, added_sorted := ?_, mem_added := ?_, sent := ?_ }
  · refine List.pairwise_snoc.mpr ⟨h.added_sorted, fun a ha => ?_⟩
    obtain ⟨e, -, -, hle, rfl⟩ := (hadd a).mp ha
    simp only [WatchEvent.toEvent]
    omega
  · intro e
    show e ∈ v.journal.added ++ [ev.toEvent] ↔ _
    simp only [Phase.addFloor]
    constructor
    · intro he
      rcases List.mem_snoc.mp he with he | rfl
      · obtain ⟨e', h₁, h₂, h₃, h₄⟩ := (hadd e).mp he
        exact ⟨e', h₁, h₂, by omega, h₄⟩
      · exact ⟨ev, hmem, hv, by omega, rfl⟩
    · rintro ⟨e', h₁, h₂, h₃, rfl⟩
      rcases Nat.lt_or_ge (ev.revision - 1) e'.revision with hlt | hge
      · obtain rfl := h.eq_of_revision h₁ hmem (by omega)
        exact List.mem_snoc.mpr (.inr rfl)
      · exact List.mem_append_left _ ((hadd _).mpr ⟨e', h₁, h₂, hge, rfl⟩)
  · show v.journal.sent.flatten ++ (batch ++ [ev.toEvent]) = v.journal.added ++ [ev.toEvent]
    rw [← List.append_assoc, h.sent]

theorem send (h : Ledger m v owed batch .idle) :
    Ledger m { v with journal := { v.journal with sent := v.journal.sent ++ [batch] } }
      owed [] .idle := by
  refine { h with sent := ?_ }
  show (v.journal.sent ++ [batch]).flatten ++ [] = v.journal.added
  rw [← h.sent]
  simp

theorem pop (h : Ledger m v owed batch phase) :
    Ledger m { v with queue := v.queue.tail } owed batch phase := by
  obtain ⟨n, hn⟩ := h.queue
  refine { h with held := by cases phase <;> exact h.held, queue := ⟨n + 1, ?_⟩ }
  show v.queue.tail = _
  rw [hn, List.tail_drop]

/-- The sequencer follows the counter only where nobody deals. -/
theorem raiseDeal (h : Ledger m v owed batch phase) (hd : ¬ m.dealing) (deal : ℕ) :
    Ledger m { v with deal } owed batch phase :=
  { h with
    held := by cases phase <;> exact h.held
    dealt := fun hd' => absurd hd' hd
    deal_lt := fun hd' => absurd hd' hd
    paid := fun hd' => absurd hd' hd }

end Ledger
end KubeBrain

import KubeBrain.Snapshot.Protocol

/-! Lists while other requests write and compact. A list that succeeds has the contents of one
moment, and these are what the events published up to its revision make of the first contents. -/
namespace KubeBrain

open Interleaving Coder

namespace Snapshot

variable {cfg : Config} {start : ℕ} {base : Store} {g : (protocol cfg start base).Ghost}

theorem safe_checkCompactRace (R : ℕ) : (protocol cfg start base).spec.Safe
    (fun g' e => Onward g g' ∧
      (e = none → compactRecord cfg (Engine.State.now g'.last.kv) ≤ R)) g
    (Scanner.checkCompactRace cfg R false) := by
  unfold Scanner.checkCompactRace
  rw [if_neg (by decide)]
  apply (safe_call (.kv (.get (getCompactKey cfg.keyPrefix)))).bind
  intro g₁ res hres
  obtain ⟨honward, hok, hnone⟩ := hres
  split
  · refine ⟨honward, fun _ => ?_⟩
    simp [compactRecord, hnone rfl]
  · exact ⟨honward, by simp⟩
  · next val =>
    split
    · exact safe_panics
    · dsimp only
      split
      · exact ⟨honward, by simp⟩
      · next hle =>
        refine ⟨honward, fun _ => ?_⟩
        simpa [compactRecord, hok val rfl] using hle

section Workers

variable {r₀ : Receiver} {ts : ℕ} {st : Store} {w : ℕ → Partition → WorkerConfig}
  {D : Partition → Outcome → Prop}

/-- Every worker that was started hands over what it finds at the timestamp. -/
theorem safe_spawnAll (hr : r₀.Local) (ps : List Partition)
    (hw : ∀ i, ∀ p ∈ ps, Worker.Lists (w i p) ∧ (w i p).tso = ts ∧
      Worker.WellFormed cfg.supportTTL (w i p) st)
    (hD : ∀ i p a, Delivers cfg.supportTTL (w i p) r₀ st a → D p a) (hk : Keeps g.last ts st) :
    (protocol cfg start base).spec.Safe
      (fun g' ids => Onward g g' ∧ List.Forall₂ (fun p id => ∀ a, g'.kids id a → D p a) ps ids) g
      (Scanner.spawnAll (ps.mapIdx fun i p => .worker (w i p) r₀)) := by
  induction ps generalizing g w with
  | nil => exact ⟨Onward.refl g, .nil⟩
  | cons p ps ih =>
    rw [List.mapIdx_cons, Scanner.spawnAll]
    apply Spec.Safe.call_bind fun _ _ _ => trivial
    intro id g₁ hpost
    have honward := onward_of_post hpost
    have hk₁ := hk.later honward.later.1
    have hchild (a : Outcome) (ha : g₁.kids id a) : D p a := by
      obtain ⟨hlists, hts, hform⟩ := hw 0 p List.mem_cons_self
      obtain ⟨hpos, hle, hst⟩ := hk₁
      rw [← hts] at hpos hle hst
      have hpromise := Protocol.promise_of_post hpost rfl ha hlists hr hpos hle
      rw [hst] at hpromise
      exact hD 0 p a (hpromise hform)
    apply (ih (w := fun i => w (i + 1)) (fun i q hq => hw (i + 1) q (List.mem_cons_of_mem _ hq))
      (fun i => hD (i + 1)) hk₁).bind
    intro g₂ ids hids
    obtain ⟨honward₂, hids⟩ := hids
    exact ⟨honward.trans honward₂, .cons (fun a ha => hchild a (honward₂.kids id a ha)) hids⟩

theorem safe_joinAll {ps : List Partition} {ids : List ℕ}
    (h : List.Forall₂ (fun p id => ∀ a, g.kids id a → D p a) ps ids) :
    (protocol cfg start base).spec.Safe
      (fun g' rs => Onward g g' ∧ List.Forall₂ (fun p x => D p (.scanned x.1 x.2)) ps rs) g
      (Scanner.joinAll ids) := by
  induction ids generalizing g ps with
  | nil =>
    cases h
    exact ⟨Onward.refl g, .nil⟩
  | cons id ids ih =>
    cases h with
    | cons hid hids =>
      unfold Scanner.joinAll
      apply Spec.Safe.call_bind fun _ _ _ => trivial
      intro x g₁ hpost
      have honward := onward_of_post hpost
      have hx := hid _ (Protocol.joined_of_post hpost rfl)
      apply (ih (hids.imp fun q j hq a ha => hq a (honward.kids j a ha))).bind
      intro g₂ rs hrs
      exact ⟨honward.trans hrs.1, .cons hx hrs.2⟩

/-- When no worker has failed, each has handed over all of its partition. -/
theorem eq_handed (hr : r₀.Unlimited) {w : Partition → WorkerConfig} {ps : List Partition}
    {rs : List (Receiver × Except Err ℕ)}
    (h : List.Forall₂ (fun p x => Delivers cfg.supportTTL (w p) r₀ st (.scanned x.1 x.2)) ps rs)
    (hnone : Scanner.firstError rs = none) :
    rs = ps.map fun p => Scanner.handed r₀ (Worker.tally cfg.supportTTL (w p) st) := by
  induction h with
  | nil => rfl
  | @cons p x ps rs hx _ ih =>
    obtain ⟨r, res⟩ := x
    cases res with
    | error e => cases hnone
    | ok n =>
      obtain ⟨hcut, hlen⟩ : Worker.Found _ _ _ _ r (.ok n) := hx r (.ok n) rfl
      have hhead : (r, Except.ok n) = Scanner.handed r₀ (Worker.tally cfg.supportTTL (w p) st) := by
        rw [hcut, hlen hr, Receiver.cut_of_unlimited hr]
        rfl
      rw [List.map_cons, ← ih hnone, hhead]

/-- The merged receiver holds what the workers found, in the order of the partitions. -/
theorem mergeAll_eq {r : Receiver} (hlocal : r.Local) (hr : r.Unlimited)
    (t : Partition → Worker.Tally) (ps : List Partition) (acc : List KeyValue) :
    Scanner.mergeAll (r.kept acc) acc.length (ps.map fun p => Scanner.handed r.fork (t p)) =
      pure (r.kept (acc ++ ps.flatMap fun p => (t p).all),
        .ok (acc ++ ps.flatMap fun p => (t p).all).length) := by
  induction ps generalizing acc with
  | nil => simp [Scanner.mergeAll]
  | cons p ps ih =>
    have hclose : (Scanner.handed r.fork (t p)).1.close = pure (Scanner.handed r.fork (t p)).1 := by
      cases r with
      | stream => exact hlocal.elim
      | _ => rfl
    have hrest := ih (acc ++ (t p).all)
    rw [← Scanner.merge_kept hr acc (t p), List.length_append, List.append_assoc] at hrest
    rw [List.map_cons, List.flatMap_cons]
    show ((Scanner.handed r.fork (t p)).1.close >>= _) = _
    rw [hclose]
    exact hrest

end Workers

/-- The worker of a list over a partition. -/
abbrev lister (ts R idx : ℕ) (p : Partition) : WorkerConfig := ⟨idx, p, ts, R, false, 0⟩

/-- The number of a worker does not matter. -/
theorem delivers_lister {ttl : Bool} {ts R i : ℕ} {p : Partition} {r₀ : Receiver} {st : Store}
    {a : Outcome} (h : Delivers ttl (lister ts R i p) r₀ st a) :
    Delivers ttl (lister ts R 0 p) r₀ st a := by
  intro r res ha
  have hfound := h r res ha
  cases res with
  | error e => exact hfound
  | ok n => exact hfound

/-- What one worker finds of a range. -/
def found (cfg : Config) (st : Store) (R : ℕ) (a b : Bytes) : List KeyValue :=
  (Worker.tally cfg.supportTTL (lister 0 R 0 ⟨encodeObjectKey a 0, encodeObjectKey b 0⟩) st).all

variable (cfg) in
theorem formed_whole {a b : Bytes} (R ts : ℕ) {st : Store}
    (hle : encodeObjectKey a 0 ≤ encodeObjectKey b 0) (hst : Spaced st) :
    Worker.WellFormed cfg.supportTTL
      (lister ts R 0 ⟨encodeObjectKey a 0, encodeObjectKey b 0⟩) st :=
  formedIn_of_spaced (f := ⟨st, fun _ _ => [], ts, 0, 0⟩) cfg R hle hst

variable (cfg) in
theorem listing_found {a b : Bytes} (ha : Plain a) (hb : Plain b) (hab : a ≤ b) (R : ℕ)
    {st : Store} (hst : Spaced st) : Listing st a b R (found cfg st R a b) :=
  listing_tallyOf cfg ⟨st, fun _ _ => [], 0, 0, 0⟩ R ha hb hab hst

/-- A moment between two states whose contents can be read at `R`. -/
structure Moment (cfg : Config) (start : ℕ) (base : Store) (R : ℕ)
    (s m s' : LeaderState (engine .atTimestamp)) : Prop where
  reached : Reached cfg start base m
  after : HistoryGrows s m
  before : HistoryGrows m s'
  gcRev : Engine.State.gcRev m.kv ≤ R

theorem safe_getTimestampOracle : (protocol cfg start base).spec.Safe
    (fun g' res => Onward g g' ∧ ∀ ts, res = .ok ts →
      Keeps g'.last ts (Engine.State.now g'.last.kv)) g (kvCall .getTimestampOracle) := by
  apply (safe_call (.kv .getTimestampOracle)).mono
  intro g' res hres
  obtain ⟨honward, hts⟩ := hres
  refine ⟨honward, fun ts hok => ?_⟩
  rw [hts ts hok]
  exact ⟨Nat.succ_pos _, le_rfl, Engine.snapshot_timestamp _⟩

section Scans

variable (h : Startable cfg start base) {R : ℕ} {s : LeaderState (engine .atTimestamp)}

include h

theorem gcRev_le (hs : Reached cfg start base s) :
    Engine.State.gcRev s.kv ≤ compactRecord cfg (Engine.State.now s.kv) := by
  obtain ⟨c, hr, rfl⟩ := hs
  obtain ⟨gs, hgood⟩ := (Record.good_init start base).reach (Record.sound h.start_lt)
    (.of_states fun d hd => sequenced_of_reach hd) (hr.mono fun _ _ hg => hg.2.1)
  exact hgood.inv.gcRev

/-- The compact record is read after the timestamp was taken, so nothing that a read at `R`
looks for was deleted before. -/
theorem moment_of_race {g₁ g₂ g' : (protocol cfg start base).Ghost} (h₁ : Onward g g₁)
    (h₂ : Onward g₁ g₂) (hrace : compactRecord cfg (Engine.State.now g₂.last.kv) ≤ R)
    (h' : Onward g₂ g') : Moment cfg start base R g.last g₁.last g'.last where
  reached := g₁.inv
  after := h₁.later.1
  before := (h₂.trans h').later.1
  gcRev := (h₂.later.1.kv.gcRev.trans (gcRev_le h g₂.inv)).trans hrace

variable (hrecord : ¬ magicBytes <+: getCompactKey cfg.keyPrefix)

include hrecord

theorem spaced_of_reached (hs : Reached cfg start base s) : Spaced (Engine.State.now s.kv) := by
  obtain ⟨c, hr, rfl⟩ := hs
  exact (h.inv_of_reach (hr.mono fun _ _ hg => hg.1.1)).toWellKept.spaced hrecord

variable {a b : Bytes} (ha : Plain a) (hb : Plain b) (hab : a < b)

include ha hb hab

/-- A scan over partitions finds what one worker finds at the moment of its timestamp. -/
theorem safe_scan {r : Receiver} (hlocal : r.Local) (hr : r.Unlimited) (hfresh : r.kept [] = r) :
    (protocol cfg start base).spec.Safe (fun g' x => Onward g g' ∧ ∀ n, x.2 = .ok n →
      ∃ m, Moment cfg start base R g.last m g'.last ∧
        x.1 = r.kept (found cfg (Engine.State.now m.kv) R a b) ∧
        n = (found cfg (Engine.State.now m.kv) R a b).length) g
      (Scanner.scan cfg (encodeObjectKey a 0) (encodeObjectKey b 0) R false r) := by
  have hlt := encodeObjectKey_lt ha hb hab
  unfold Scanner.scan
  apply safe_getTimestampOracle.bind
  intro g₁ res hres
  obtain ⟨honward₁, hts⟩ := hres
  split
  · exact ⟨honward₁, by simp⟩
  next ts =>
  apply (safe_checkCompactRace R).bind
  intro g₂ race hrace
  obtain ⟨honward₂, hrace⟩ := hrace
  split
  · exact ⟨honward₁.trans honward₂, by simp⟩
  apply (safe_call (.kv (.getPartitions (encodeObjectKey a 0) (encodeObjectKey b 0)))).bind
  intro g₃ parts hparts
  obtain ⟨honward₃, hparts⟩ := hparts
  split
  · exact ⟨honward₁.trans (honward₂.trans honward₃), by simp⟩
  next ps =>
  obtain ⟨regs, rfl, hcover, hborders⟩ := hparts ps rfl
  obtain ⟨bs, hadjust, hchain, hhi, hbs⟩ := Scanner.adjust_regions hlt.le
    (.of_plain ha hcover hborders)
  rw [hadjust]
  dsimp only
  -- the workers read the contents at the timestamp
  have hst := spaced_of_reached h hrecord g₁.inv
  have hwhole := formed_whole cfg R ts hlt.le hst
  have hfork : r.fork.Local := by
    cases r <;> exact hlocal
  have hkeeps := (hts ts rfl).later (honward₂.trans honward₃).later.1
  have hform (i : ℕ) (p : Partition) (hp : p ∈ Tikv.pieces (encodeObjectKey a 0) bs
      (encodeObjectKey b 0)) : Worker.WellFormed cfg.supportTTL (lister ts R i p)
        (Engine.State.now g₁.last.kv) := by
    intro e he
    have hmem := (Scanner.mem_items_pieces _ hchain hhi e).mpr ⟨p, hp, he⟩
    exact hwhole e hmem
  show (protocol cfg start base).spec.Safe _ g₃ (Scanner.spawnAll _ >>= _)
  apply (safe_spawnAll (w := lister ts R) hfork _
    (fun i p hp => ⟨⟨rfl, rfl⟩, rfl, hform i p hp⟩) (fun _ _ _ => delivers_lister) hkeeps).bind
  intro g₄ ids hids
  obtain ⟨honward₄, hids⟩ := hids
  apply (safe_joinAll hids).bind
  intro g₅ rs hrs
  obtain ⟨honward₅, hrs⟩ := hrs
  have honward := honward₃.trans (honward₄.trans honward₅)
  split
  · exact ⟨honward₁.trans (honward₂.trans honward), by simp⟩
  next hnone =>
  rw [eq_handed (Scanner.fork_unlimited hr) hrs hnone]
  have hmerge := mergeAll_eq hlocal hr (fun p => Worker.tally cfg.supportTTL (lister ts R 0 p)
    (Engine.State.now g₁.last.kv)) (Tikv.pieces (encodeObjectKey a 0) bs (encodeObjectKey b 0)) []
  have hall : found cfg (Engine.State.now g₁.last.kv) R a b =
      (Tikv.pieces (encodeObjectKey a 0) bs (encodeObjectKey b 0)).flatMap fun p =>
        (Worker.tally cfg.supportTTL (lister ts R 0 p) (Engine.State.now g₁.last.kv)).all :=
    (Scanner.tally_pieces cfg.supportTTL (lister ts R 0 ⟨encodeObjectKey a 0, encodeObjectKey b 0⟩)
      bs hchain hhi hbs (hst.keyed a b 0 0)).2 rfl
  rw [hfresh, List.nil_append, ← hall] at hmerge
  rw [show Scanner.mergeAll r 0 _ = _ from hmerge]
  refine ⟨honward₁.trans (honward₂.trans honward), fun n hn => ⟨g₁.last,
    moment_of_race h honward₁ honward₂ (hrace rfl) honward, rfl, ?_⟩⟩
  exact (Except.ok.inj hn).symm

/-- A list with a limit is one worker over the whole range. -/
theorem safe_rangeWithLimit (limit : ℤ) (hlimit : 0 < limit) :
    (protocol cfg start base).spec.Safe (fun g' x => Onward g g' ∧ ∀ kvs, x = .ok kvs →
      ∃ m, Moment cfg start base R g.last m g'.last ∧
        kvs = (found cfg (Engine.State.now m.kv) R a b).take limit.toNat) g
      (Scanner.rangeWithLimit cfg (encodeObjectKey a 0) (encodeObjectKey b 0) R limit) := by
  have hlt := encodeObjectKey_lt ha hb hab
  unfold Scanner.rangeWithLimit
  apply safe_getTimestampOracle.bind
  intro g₁ res hres
  obtain ⟨honward₁, hts⟩ := hres
  split
  · exact ⟨honward₁, by simp⟩
  next ts =>
  apply (safe_checkCompactRace R).bind
  intro g₂ race hrace
  obtain ⟨honward₂, hrace⟩ := hrace
  split
  · exact ⟨honward₁.trans honward₂, by simp⟩
  have hkeeps := (hts ts rfl).later honward₂.later.1
  have hform := formed_whole cfg R ts hlt.le (spaced_of_reached h hrecord g₁.inv)
  have hlocal : (Receiver.common [] limit).Local := trivial
  apply (Worker.safe_run (w := lister ts R 0 ⟨encodeObjectKey a 0, encodeObjectKey b 0⟩)
    (reads_of_keeps g₂) ⟨rfl, rfl⟩ hlocal hform []
    ⟨Onward.refl g₂, hkeeps⟩).bind
  intro g₃ x hx
  obtain ⟨⟨honward₃, -⟩, hfound⟩ := hx
  obtain ⟨r, failedKey, res⟩ := x
  cases res with
  | error e => exact ⟨honward₁.trans (honward₂.trans honward₃), by simp⟩
  | ok n =>
    refine ⟨honward₁.trans (honward₂.trans honward₃), fun kvs hkvs => ⟨g₁.last,
      moment_of_race h honward₁ honward₂ (hrace rfl) honward₃, ?_⟩⟩
    obtain rfl := Except.ok.inj hkvs
    have hr : r = _ := hfound.1
    rw [hr, Receiver.cut, if_pos hlimit]
    rfl

theorem safe_range (limit : ℤ) :
    (protocol cfg start base).spec.Safe (fun g' x => Onward g g' ∧ ∀ kvs, x = .ok kvs →
      ∃ m, Moment cfg start base R g.last m g'.last ∧
        kvs = if 0 < limit then (found cfg (Engine.State.now m.kv) R a b).take limit.toNat
          else found cfg (Engine.State.now m.kv) R a b) g
      (Scanner.range cfg (encodeObjectKey a 0) (encodeObjectKey b 0) R limit) := by
  unfold Scanner.range
  split
  · next hlimit =>
    exact safe_rangeWithLimit h hrecord ha hb hab limit hlimit
  · apply (safe_scan h hrecord ha hb hab (r := .common [] 0) trivial le_rfl rfl).bind
    intro g' x hx
    obtain ⟨r, res⟩ := x
    obtain ⟨honward, hok⟩ := hx
    cases res with
    | error e => exact ⟨honward, by simp⟩
    | ok n =>
      obtain ⟨m, hm, hr, -⟩ := hok n rfl
      refine ⟨honward, fun kvs hkvs => ⟨m, hm, ?_⟩⟩
      obtain rfl := Except.ok.inj hkvs
      exact congrArg Receiver.result hr

end Scans

/-- The answer of `List`, when its range holds `all`. -/
def page (header : ℕ) (all : List KeyValue) (limit : ℤ) : RangeResponse :=
  if 0 < limit then ⟨header, all.take limit.toNat, decide (limit < (all.length : ℤ))⟩
  else ⟨header, all, false⟩

/-- One pair more than the limit tells whether there are more. -/
theorem page_of_take (header : ℕ) (all : List KeyValue) {limit : ℤ} (h : 0 < limit) :
    (if limit < ((all.take (limit + 1).toNat).length : ℤ) then
      (⟨header, (all.take (limit + 1).toNat).take limit.toNat, true⟩ : RangeResponse)
    else ⟨header, all.take (limit + 1).toNat, false⟩) = page header all limit := by
  rw [page, if_pos h, List.length_take, List.take_take]
  by_cases hmore : limit < (all.length : ℤ)
  · rw [if_pos (by omega), decide_eq_true hmore, Nat.min_eq_left (by omega)]
  · rw [if_neg (by omega), decide_eq_false hmore, List.take_of_length_le (by omega),
      List.take_of_length_le (by omega)]

/-- The revision that a list reads at. -/
def readAt (r : RangeRequest) (header : ℕ) : ℕ := if r.revision = 0 then header else r.revision

/-- What a list that succeeds has seen: the committed revision of one state, and the contents of a
moment after it. -/
def Listed (cfg : Config) (start : ℕ) (base : Store) (r : RangeRequest) (resp : RangeResponse)
    (s s' : LeaderState (engine .atTimestamp)) : Prop :=
  ∃ s₁ m, HistoryGrows s s₁ ∧ Moment cfg start base (readAt r s₁.committedRevision) s₁ m s' ∧
    r.key < r.stop ∧ resp = page s₁.committedRevision
      (found cfg (Engine.State.now m.kv) (readAt r s₁.committedRevision) r.key r.stop) r.limit

theorem safe_handleList (h : Startable cfg start base)
    (hrecord : ¬ magicBytes <+: getCompactKey cfg.keyPrefix) {r : RangeRequest} (ha : Plain r.key)
    (hb : Plain r.stop) (hlimit : r.limit < 2 ^ 63 - 1) :
    (protocol cfg start base).spec.Safe (fun g' x => ∀ resp, x = .ok resp →
      Listed cfg start base r resp g.last g'.last) g (handleList cfg r) := by
  have hfail {g' : (protocol cfg start base).Ghost} (e : Err) (resp : RangeResponse)
      (hresp : Except.error e = Except.ok resp) :
      Listed cfg start base r resp g.last g'.last := by
    cases hresp
  unfold handleList
  split
  · exact hfail _
  · unfold getCurrentRevision
    apply (safe_call .getRevision).bind
    intro g₁ rev hrev
    obtain ⟨honward₁, rfl⟩ := hrev
    dsimp only
    split
    · exact hfail _
    · next hab =>
      apply (safe_range h hrecord ha hb (not_le.mp hab) _).bind
      intro g₂ res hres
      obtain ⟨-, hok⟩ := hres
      cases res with
      | error e => exact hfail e
      | ok kvs =>
        obtain ⟨m, hm, hkvs⟩ := hok kvs rfl
        have hanswer (resp : RangeResponse) (hresp : page g₁.last.committedRevision
            (found cfg (Engine.State.now m.kv) (readAt r g₁.last.committedRevision) r.key r.stop)
            r.limit = resp) : Listed cfg start base r resp g.last g₂.last :=
          ⟨g₁.last, m, honward₁.later.1, hm, not_le.mp hab, hresp.symm⟩
        dsimp only
        by_cases hpos : 0 < r.limit
        · rw [if_pos hpos, incInt64_of_lt (by omega) hlimit] at hkvs ⊢
          rw [if_pos (by omega)] at hkvs
          have hpage := page_of_take g₁.last.committedRevision
            (found cfg (Engine.State.now m.kv) (readAt r g₁.last.committedRevision) r.key r.stop)
            hpos
          have hkvs : kvs = (found cfg (Engine.State.now m.kv)
            (readAt r g₁.last.committedRevision) r.key r.stop).take (r.limit + 1).toNat := hkvs
          rw [← hkvs] at hpage
          split
          · next hmore =>
            rw [if_pos hmore.2] at hpage
            intro resp hresp
            exact hanswer resp (hpage.symm.trans (Except.ok.inj hresp))
          · next hmore =>
            rw [if_neg fun hlt => hmore ⟨by omega, hlt⟩] at hpage
            intro resp hresp
            exact hanswer resp (hpage.symm.trans (Except.ok.inj hresp))
        · rw [if_neg hpos] at hkvs ⊢
          rw [if_neg hpos] at hkvs
          rw [if_neg fun h => hpos h.1]
          intro resp hresp
          apply hanswer
          rw [page, if_neg hpos, ← Except.ok.inj hresp]
          exact congrArg (RangeResponse.mk _ · false) hkvs.symm

/-- What the events up to a revision make of the first contents. -/
def told (base : Store) (s : LeaderState (engine .atTimestamp)) (R : ℕ) :
    Replay.Contents Bytes Bytes :=
  Replay.replay (contents base 0) (Replay.upTo R (published s))

/-- The pairs of a range of some contents, in the order of their keys. -/
structure Ranges (m : Replay.Contents Bytes Bytes) (a b : Bytes) (all : List KeyValue) : Prop where
  sorted : all.Pairwise fun x y => x.key < y.key
  mem : ∀ kv, kv ∈ all ↔ a ≤ kv.key ∧ kv.key < b ∧ m kv.key = some (kv.value, kv.revision)

theorem sequenced_of_reached {s : LeaderState (engine .atTimestamp)}
    (hs : Reached cfg start base s) : Sequenced start s := by
  obtain ⟨c, hr, rfl⟩ := hs
  exact sequenced_of_reach hr

/-- The contents of a moment at a revision that was committed before are those that the events
tell, also later. -/
theorem Moment.ranges (h : Startable cfg start base)
    (hrecord : ¬ magicBytes <+: getCompactKey cfg.keyPrefix)
    {s m s' : LeaderState (engine .atTimestamp)} {R : ℕ} (hm : Moment cfg start base R s m s')
    (hs' : Reached cfg start base s') (hstart : start ≤ R) (hR : R ≤ s.committedRevision)
    {a b : Bytes} (ha : Plain a) (hb : Plain b) (hab : a ≤ b)
    (hk : ∀ k, a ≤ k → k < b → UserKey k → Lasting cfg.supportTTL k) :
    Ranges (told base s' R) a b (found cfg (Engine.State.now m.kv) R a b) := by
  have hlisting := listing_found cfg ha hb hab R (spaced_of_reached h hrecord hm.reached)
  refine ⟨hlisting.sorted, fun kv => ?_⟩
  rw [hlisting.mem]
  apply and_congr_right
  intro hle
  apply and_congr_right
  intro hlt
  have hupTo : Replay.upTo R (published s') = Replay.upTo R (published m) :=
    upTo_published (sequenced_of_reached hm.reached) (sequenced_of_reached hs') hm.before.notified
      (hR.trans hm.after.committed)
  rw [told, hupTo]
  obtain ⟨c, hr, rfl⟩ := hm.reached
  exact h.live_iff_replay hrecord (hr.mono fun _ _ hg => hg.1) (hk kv.key hle hlt) hstart
    (hR.trans hm.after.committed) hm.gcRev

theorem Moment.later {s m s' s'' : LeaderState (engine .atTimestamp)} {R : ℕ}
    (h : Moment cfg start base R s m s') (hlater : HistoryGrows s' s'') :
    Moment cfg start base R s m s'' :=
  ⟨h.reached, h.after, h.before.trans hlater, h.gcRev⟩

section Returned

variable {c c' : Interleaving.Config (leader cfg (engine .atTimestamp))} {i : ℕ} {r : RangeRequest}
  {resp : RangeResponse} (h : Startable cfg start base)
  (hrecord : ¬ magicBytes <+: getCompactKey cfg.keyPrefix)
  (hr : Config.Reach (DecidedRegional cfg)
    (Leader.init cfg (engine .atTimestamp) start (Engine.init base)) c)
  (hi : c.threads[i]? = some (Leader.goroutine cfg (.request (.list r))))
  (ha : Plain r.key) (hb : Plain r.stop) (hlimit : r.limit < 2 ^ 63 - 1)
  (hr' : Config.Reach (DecidedRegional cfg) c c') (hresp : c'.Returned i (.listed (.ok resp)))

include h hrecord hr hi ha hb hlimit hr' hresp

theorem listed_of_returned : Listed cfg start base r resp c.state c'.state := by
  obtain ⟨gs, hgood⟩ := good_init.reach sound.outline holds_known hr
  have hsafe (g : (protocol cfg start base).Ghost) (hg : g.last = c.state) :
      (protocol cfg start base).spec.Safe (fun g' a => ∀ resp, a = .listed (.ok resp) →
        Listed cfg start base r resp c.state g'.last) g (Leader.handle cfg (.list r)) := by
    rw [← hg]
    apply (safe_handleList h hrecord ha hb hlimit).bind
    intro g' x hx resp hresp
    exact hx resp (Outcome.listed.inj hresp)
  obtain ⟨g, hlater, hlisted, -⟩ :=
    Protocol.returned_of_safe sound (holds_known.of_reach hr) hgood hi hsafe hr' hresp
  obtain ⟨s, m, hs, hm, hab, hpage⟩ := hlisted resp rfl
  exact ⟨s, m, hs, hm.later hlater, hab, hpage⟩

/-- What a list that has returned is seen to have listed, also later. -/
theorem ranges_of_returned (hk : ∀ k, r.key ≤ k → k < r.stop → UserKey k → Lasting cfg.supportTTL k)
    (hrev : r.revision = 0 ∨ start ≤ r.revision ∧ r.revision ≤ resp.header)
    {s' : LeaderState (engine .atTimestamp)} (hs' : Reached cfg start base s')
    (hlater : HistoryGrows c'.state s') :
    LeaderState.committedRevision c.state ≤ resp.header ∧
    resp.header ≤ LeaderState.committedRevision c'.state ∧
    ∃ all, Ranges (told base s' (readAt r resp.header)) r.key r.stop all ∧
      resp = page resp.header all r.limit := by
  obtain ⟨s, m, hs, hm, hab, hpage⟩ := listed_of_returned h hrecord hr hi ha hb hlimit hr' hresp
  have hheader : resp.header = s.committedRevision := by
    rw [hpage, page]
    split <;> rfl
  have hread : start ≤ readAt r s.committedRevision ∧
      readAt r s.committedRevision ≤ s.committedRevision := by
    have hmin : start ≤ s.committedRevision :=
      (Writes.ordered_of_sequenced (sequenced_of_reach hr)).start_le.trans hs.committed
    unfold readAt
    split
    · exact ⟨hmin, le_rfl⟩
    · next hne => exact hheader ▸ hrev.resolve_left hne
  rw [hheader]
  refine ⟨hs.committed, hm.after.committed.trans hm.before.committed, _,
    (hm.later hlater).ranges h hrecord hs' hread.1 hread.2 ha hb hab.le hk, ?_⟩
  exact hpage

end Returned
end Snapshot

open Snapshot

/-- In every run with certain commits on a storage with timestamps: a list that succeeds, whatever
is written and compacted while its workers run, has the pairs that the events up to its revision
make of the first contents, and its header lies between the committed revisions at its start and
its end. -/
theorem list_replays_published {cfg : Config} {start : ℕ} {base : Store}
    (h : Startable cfg start base) (hrecord : ¬ magicBytes <+: getCompactKey cfg.keyPrefix)
    {c c' : Interleaving.Config (leader cfg (engine .atTimestamp))}
    (hr : Config.Reach (DecidedRegional cfg)
      (Leader.init cfg (engine .atTimestamp) start (Engine.init base)) c)
    {i : ℕ} {r : RangeRequest}
    (hi : c.threads[i]? = some (Leader.goroutine cfg (.request (.list r))))
    (ha : Plain r.key) (hb : Plain r.stop) (hlimit : r.limit < 2 ^ 63 - 1)
    (hk : ∀ k, r.key ≤ k → k < r.stop → UserKey k → Lasting cfg.supportTTL k)
    (hr' : Config.Reach (DecidedRegional cfg) c c') {resp : RangeResponse}
    (hresp : c'.Returned i (.listed (.ok resp)))
    (hrev : r.revision = 0 ∨ start ≤ r.revision ∧ r.revision ≤ resp.header) :
    LeaderState.committedRevision c.state ≤ resp.header ∧
    resp.header ≤ LeaderState.committedRevision c'.state ∧
    ∃ all, Ranges (told base c'.state (readAt r resp.header)) r.key r.stop all ∧
      resp = page resp.header all r.limit :=
  ranges_of_returned h hrecord hr hi ha hb hlimit hr' hresp hk hrev ⟨c', hr.trans hr', rfl⟩
    (.refl _)

section Sample

def regionalCheck (s : LeaderState (engine .atTimestamp))
    (mv : Move (leader sampleConfig (engine .atTimestamp))) : Bool :=
  decidedCheck s mv && (match landing s mv with
    | some ⟨_, [.put ..]⟩ => false
    | _ => true) && match mv with
    | .op (.kv (.getPartitions start stop)) (.kv (.partitions ps)) => decide (ps = [⟨start, stop⟩])
    | _ => true

theorem decidedRegional_of_check (s : LeaderState (engine .atTimestamp))
    (mv : Move (leader sampleConfig (engine .atTimestamp))) (h : regionalCheck s mv = true) :
    DecidedRegional sampleConfig s mv := by
  unfold regionalCheck at h
  rw [Bool.and_eq_true, Bool.and_eq_true] at h
  obtain ⟨⟨hdecided, hput⟩, hparts⟩ := h
  refine ⟨decided_of_check s mv hdecided, ?_, ?_⟩
  · intro b hb v ttl hops
    obtain ⟨w, ops⟩ := b
    subst hops
    rw [hb] at hput
    cases hput
  · intro start stop ps hmv
    subst hmv
    obtain rfl := of_decide_eq_true hparts
    exact ⟨[⟨[], []⟩], by simp [Tikv.getPartitions], covers_one start stop, by simp [Tikv.borders]⟩

/-- A key is created, and a list arrives. -/
def createThenList : List (Label (leader sampleConfig (engine .atTimestamp))) :=
  [.restart 3, .thread 3 (.request (.create ⟨sampleKey, [98], 0⟩)), .thread 4 .none,
    .thread 4 (.kv .ok), .thread 4 .none, .thread 4 .none,
    .restart 0, .thread 0 .none, .thread 0 .none, .thread 0 .none, .thread 0 .none,
    .thread 0 .none, .thread 0 .none,
    .restart 3, .thread 3 (.request (.list ⟨[47, 114, 47], [47, 114, 48], 0, 0⟩))]

/-- The key is updated after the list has taken its timestamp. -/
def listWhileUpdated : List (Label (leader sampleConfig (engine .atTimestamp))) :=
  [.thread 5 .none, .thread 5 (.kv .ok),
    .restart 3, .thread 3 (.request (.update ⟨⟨sampleKey, [99], 1⟩, 0⟩)),
    .thread 6 .none, .thread 6 (.kv .ok), .thread 6 .none, .thread 6 .none,
    .thread 5 (.kv .ok), .thread 5 (.kv (.partitions [sampleRange])), .thread 5 .none,
    .thread 7 (.flag false), .thread 7 (.kv .ok), .thread 7 (.flag false), .thread 7 (.flag false),
    .thread 7 (.flag false), .thread 5 .none]

/-- The list has the first version, though the second one is stored when its worker reads. -/
theorem list_replays_published_updated :
    ∃ c c' resp, Config.Reach (DecidedRegional sampleConfig) sampleInit c ∧
      Config.Reach (DecidedRegional sampleConfig) c c' ∧ c'.Returned 5 (.listed (.ok resp)) ∧
      resp.kvs = [⟨sampleKey, [98], 1⟩] ∧
      (Engine.State.now c'.state.kv).get (encodeObjectKey sampleKey 2) = some [99] ∧
      ∃ all, Ranges (told SortedMap.empty c'.state resp.header) [47, 114, 47] [47, 114, 48] all ∧
        resp = page resp.header all 0 := by
  obtain ⟨c, c', hc, h₁, h₂, hret, hstored⟩ := Config.exists_of_runs decidedRegional_of_check
    createThenList listWhileUpdated (c := sampleInit) (P := fun _ c' =>
      c'.Returned 5 (.listed (.ok ⟨1, [⟨sampleKey, [98], 1⟩], false⟩)) ∧
      (Engine.State.now c'.state.kv).get (encodeObjectKey sampleKey 2) = some [99])
    (by decide +kernel)
  have hthread : c.threads[5]? = some (Leader.goroutine sampleConfig
      (.request (.list ⟨[47, 114, 47], [47, 114, 48], 0, 0⟩))) := Config.thread_of_run hc (by rfl)
  refine ⟨c, c', _, h₁, h₂, hret, rfl, hstored, ?_⟩
  exact (list_replays_published (startable_empty _) (by decide +kernel) h₁ hthread
    (by decide +kernel) (by decide +kernel) (by decide) (fun k _ _ huser => ⟨huser, .inl rfl⟩) h₂
    hret (.inl rfl)).2.2

end Sample
end KubeBrain

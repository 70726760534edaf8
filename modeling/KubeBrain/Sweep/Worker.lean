import KubeBrain.Scan.Borders
import KubeBrain.Sweep.Protocol

/-! A compaction worker removes only what may be removed, whatever other goroutines write and
remove meanwhile and whichever of its deletions fail. -/
namespace KubeBrain

open Interleaving Coder

namespace Sweep

section

variable {p : Engine.Policy} (S : Setting p) (w : WorkerConfig)

/-- What a worker keeps relying on after it has read `snap`. -/
structure Sweeping (snap : Store) (s : LeaderState (engine p)) : Prop where
  quiet : S.quiet s w.revision
  fit : Fit S s snap w.revision

/-- Of the pairs of `k` that were passed over, the versions are gone and the index names no
deletion, unless a deletion of `k` failed. Some versions are exempt. -/
structure Ready (s : LeaderState (engine p)) (done : List (Bytes × Bytes)) (k failedKey : Bytes)
    (exempt : ℕ → Prop) : Prop where
  objects : ∀ r val, (encodeObjectKey k r, val) ∈ done → 0 < r → r < 2 ^ 64 → r ≤ w.revision →
    exempt r ∨ failedKey = k ∨ ∀ v, ¬ objects s.kv.now k r v
  index : ∀ val, (encodeRevisionKey k, val) ∈ done → ∀ q, q ≤ w.revision →
    index s.kv.now k = some (q, true) → failedKey = k

/-- No later user key was passed over. -/
def AtEnd (done : List (Bytes × Bytes)) (k : Bytes) : Prop :=
  ∀ e ∈ done, ∀ k' r', decode e.1 = .ok k' r' → k' ≤ k

/-- The pair that was seen last was passed over, and all before it of the same user key was
dealt with. -/
structure Trail (s : LeaderState (engine p)) (done : List (Bytes × Bytes)) (st : Worker.State) :
    Prop where
  prev : 0 < st.prevRevision →
    (encodeObjectKey st.prevUserKey st.prevRevision, st.prevValue) ∈ done ∧
      st.prevRevision ≤ w.revision ∧ st.prevRevision < 2 ^ 64
  ready : ∀ k, Lasting S.cfg.supportTTL k → AtEnd done k →
    Ready w s done k st.failedKey fun r => st.prevUserKey = k ∧ st.prevRevision = r

/-- The pair comes after `done` in an iteration that leaves out no version of its key. -/
structure Position (snap : Store) (done : List (Bytes × Bytes)) (e : Bytes × Bytes) : Prop where
  get : snap.get e.1 = some e.2
  before : ∀ x ∈ done, x.1 < e.1
  complete : ∀ k r r' val, UserKey k → r < 2 ^ 64 → r' < r → e.1 = encodeObjectKey k r →
    snap.get (encodeObjectKey k r') = some val → (encodeObjectKey k r', val) ∈ done

end

variable {p : Engine.Policy} {S : Setting p} {w : WorkerConfig}

theorem position_of_range {snap : Store} {start stop : Bytes} (hstart : Whole start)
    {done rest : List (Bytes × Bytes)} {e : Bytes × Bytes}
    (h : done ++ e :: rest <+: snap.range start stop) : Position snap done e := by
  obtain ⟨tail, htail⟩ := h
  have hsorted := snap.range_sorted start stop
  rw [← htail, List.append_assoc] at hsorted
  obtain ⟨-, -, hbefore⟩ := List.pairwise_append.mp hsorted
  have he : e ∈ snap.range start stop := htail ▸ by simp
  obtain ⟨hget, hl, hh⟩ := SortedMap.mem_range.mp he
  refine ⟨hget, fun x hx => hbefore x hx e (by simp), ?_⟩
  intro k r r' val hk hr hlt heq hval
  have hr' : r' < 2 ^ 64 := hlt.trans hr
  have hkey : encodeObjectKey k r' < e.1 := by
    rw [heq, encodeObjectKey_lt_iff hk.1 hk.1 hr' hr]
    exact .inr ⟨rfl, hlt⟩
  have hfrom : start ≤ encodeObjectKey k r' := by
    by_contra hlow
    have := hstart k hk r' r hr' hr (not_le.mp hlow)
    exact absurd hl (not_le.mpr (heq ▸ this))
  have hmem : (encodeObjectKey k r', val) ∈ snap.range start stop :=
    SortedMap.mem_range.mpr ⟨hval, hfrom, hkey.trans hh⟩
  rw [← htail, List.append_assoc] at hmem
  rcases List.mem_append.mp hmem with hmem | hmem
  · exact hmem
  -- what comes after the pair is not below it
  · exfalso
    obtain ⟨-, hrest, -⟩ := List.pairwise_append.mp hsorted
    rcases List.mem_cons.mp hmem with rfl | hmem
    · exact lt_irrefl _ hkey
    · exact lt_asymm hkey ((List.pairwise_cons.mp hrest).1 _ hmem)

section Stable

variable {s s' : LeaderState (engine p)} {done : List (Bytes × Bytes)} {snap : Store}

theorem Sweeping.rely (h : Sweeping S w snap s) (hrely : Rely S s s') : Sweeping S w snap s' :=
  ⟨hrely.quiet _ h.quiet, h.fit.rely h.quiet hrely⟩

theorem Ready.rely {k failedKey : Bytes} {exempt : ℕ → Prop}
    (h : Ready w s done k failedKey exempt) (hk : Lasting S.cfg.supportTTL k)
    (hquiet : S.quiet s w.revision) (hrely : Rely S s s') :
    Ready w s' done k failedKey exempt := by
  have hshrinks := hrely.shrinks _ hquiet
  constructor
  · intro r val hmem h0 hr hle
    refine (h.objects r val hmem h0 hr hle).imp_right (Or.imp_right fun hgone v hv => ?_)
    exact hgone v (hshrinks.objects k hk r v hle hv)
  · intro val hmem q hq hidx
    exact h.index val hmem q hq (hshrinks.index k hk q true hq hidx)

theorem Trail.rely {st : Worker.State} (h : Trail S w s done st)
    (hquiet : S.quiet s w.revision) (hrely : Rely S s s') : Trail S w s' done st :=
  ⟨h.prev, fun k hk hend => (h.ready k hk hend).rely hk hquiet hrely⟩

/-- A deletion of `k` that fails excuses everything. -/
theorem Ready.failed {k failedKey f : Bytes} {exempt : ℕ → Prop}
    (h : Ready w s done k failedKey exempt) (hf : f = failedKey ∨ f = k) :
    Ready w s done k f exempt := by
  rcases hf with rfl | rfl
  · exact h
  · exact ⟨fun _ _ _ _ _ _ => .inr (.inl rfl), fun _ _ _ _ _ => rfl⟩

theorem trail_start (s : LeaderState (engine p)) (count : ℕ) (receiver : Receiver)
    (failedKey : Bytes) : Trail S w s [] ⟨[], 0, [], count, receiver, failedKey⟩ :=
  ⟨fun h => absurd h (lt_irrefl 0), fun _ _ _ => ⟨by simp, by simp⟩⟩

end Stable

section Position

variable {s : LeaderState (engine p)} {done : List (Bytes × Bytes)} {snap : Store}
  {k value : Bytes} {r : ℕ}

theorem Position.atEnd (h : Position snap done (encodeObjectKey k r, value)) (hk : UserKey k)
    (hr : r < 2 ^ 64) (hsnap : ∀ e ∈ done, ∀ k' r', decode e.1 = .ok k' r' → UserKey k') :
    AtEnd done k := by
  intro e he k' r' hdec
  obtain ⟨heq, hr'⟩ := encode_of_decode hdec
  have hlt := h.before e he
  rw [heq, encodeObjectKey_lt_iff (hsnap e he k' r' hdec).1 hk.1 hr' hr] at hlt
  rcases hlt with hlt | ⟨rfl, -⟩
  · exact hlt.le
  · exact le_rfl

/-- Pairs of later user keys were not passed over. -/
theorem Position.not_mem (h : Position snap done (encodeObjectKey k r, value)) (hk : UserKey k)
    (hr : r < 2 ^ 64) {k' val : Bytes} {r' : ℕ} (hk' : UserKey k') (hr' : r' < 2 ^ 64)
    (hlt : k < k') : (encodeObjectKey k' r', val) ∉ done := by
  intro hmem
  have := h.before _ hmem
  rw [encodeObjectKey_lt_iff hk'.1 hk.1 hr' hr] at this
  rcases this with h' | ⟨rfl, -⟩
  · exact lt_asymm hlt h'
  · exact lt_irrefl _ hlt

/-- After the pair of `k`, only the pairs of `k` count. -/
theorem trail_of_ready {st : Worker.State}
    (hpos : Position snap done (encodeObjectKey k r, value)) (hk : UserKey k) (hr : r < 2 ^ 64)
    (hprev : 0 < st.prevRevision →
      (encodeObjectKey st.prevUserKey st.prevRevision, st.prevValue) ∈
        done ++ [(encodeObjectKey k r, value)] ∧
      st.prevRevision ≤ w.revision ∧ st.prevRevision < 2 ^ 64)
    (hready : Lasting S.cfg.supportTTL k → Ready w s (done ++ [(encodeObjectKey k r, value)]) k
      st.failedKey fun r => st.prevUserKey = k ∧ st.prevRevision = r) :
    Trail S w s (done ++ [(encodeObjectKey k r, value)]) st := by
  refine ⟨hprev, fun k' hk' hend => ?_⟩
  have hle : k ≤ k' := hend _ (List.mem_append_right _ List.mem_cons_self) k r
    (decode_encodeObjectKey k hr)
  rcases hle.eq_or_lt with rfl | hlt
  · exact hready hk'
  · have hnone {r' : ℕ} {val : Bytes} (hr' : r' < 2 ^ 64) :
        (encodeObjectKey k' r', val) ∉ done ++ [(encodeObjectKey k r, value)] := by
      rw [List.mem_append, List.mem_singleton]
      rintro (hmem | heq)
      · exact hpos.not_mem hk hr hk'.1 hr' hlt hmem
      · have := (encodeObjectKey_injective hr' hr (Prod.mk.inj heq).1).1
        exact lt_irrefl _ (this ▸ hlt)
    constructor
    · intro r' val hmem _ hr'
      exact absurd hmem (hnone hr')
    · intro val hmem
      exact absurd hmem (hnone (by decide))

/-- A pair that is passed over without a trace leaves the trail as it is. -/
theorem Trail.skip {st : Worker.State} {e : Bytes × Bytes} (h : Trail S w s done st)
    (he : ∀ k r, Lasting S.cfg.supportTTL k → AtEnd (done ++ [e]) k → r ≤ w.revision → r < 2 ^ 64 →
      e.1 ≠ encodeObjectKey k r) : Trail S w s (done ++ [e]) st := by
  refine ⟨fun h0 => ?_, fun k hk hend => ?_⟩
  · obtain ⟨hmem, hrest⟩ := h.prev h0
    exact ⟨List.mem_append_left _ hmem, hrest⟩
  · have hready := h.ready k hk fun x hx => hend x (List.mem_append_left _ hx)
    have hold {r : ℕ} {val : Bytes} (hr : r ≤ w.revision) (hr' : r < 2 ^ 64)
        (hmem : (encodeObjectKey k r, val) ∈ done ++ [e]) : (encodeObjectKey k r, val) ∈ done := by
      rcases List.mem_append.mp hmem with hmem | hmem
      · exact hmem
      · exact absurd (congrArg Prod.fst (List.mem_singleton.mp hmem)).symm (he k r hk hend hr hr')
    constructor
    · intro r val hmem h0 hr hle
      exact hready.objects r val (hold hle hr hmem) h0 hr hle
    · intro val hmem
      exact hready.index val (hold (Nat.zero_le _) (by decide) hmem)

end Position

section Programs

variable {s₀ : LeaderState (engine p)} {h₀ : Inv S s₀.kv} {g : (protocol S h₀).Ghost}
  {snap : Store}

variable {s : LeaderState (engine p)} {failedKey : Bytes}

theorem safe_call {o : Op} (hok : ∀ s, Inv S s.kv → Rely S g.last s → Ok S s o) :
    (protocol S h₀).spec.Safe (fun g' r => g.Later g' ∧ Fact S o r g'.last) g (call o) := by
  refine ⟨hok, fun r g' hpost => ⟨Protocol.later_of_post hpost, ?_⟩⟩
  obtain ⟨s, -, -, -, hfact⟩ := Protocol.fact_of_post hpost
  exact hfact

/-- Kinds of operations that compactions need a reason for. -/
def reasonedKinds : List OpKind := [.gc, .record, .forkWriter]

theorem ok_of_kind {o : Op} (h : o.kind ∉ reasonedKinds) : Ok S s o := by
  cases o with
  | kv o =>
    cases o with
    | del C key | delCurrent C key val => exact absurd (by simp [reasonedKinds]) h
    | commit w ops =>
      cases w with
      | record C => exact absurd (by simp [reasonedKinds]) h
      | _ => exact nofun
    | _ => trivial
  | spawn t =>
    cases t with
    | worker w receiver =>
      intro hw
      exact absurd (by simp [reasonedKinds, Task.kind, hw]) h
    | _ => trivial
  | _ => trivial

/-- Programs that neither remove anything nor start such goroutines. -/
theorem safe_free {α : Type} {q : M α} {ks : List OpKind} (h : Within ks q)
    (hks : ∀ kind ∈ ks, kind ∉ reasonedKinds) :
    (protocol S h₀).spec.Safe (fun g' _ => g.Later g') g q :=
  Protocol.safe_of_ok (Q := fun o : Op => o.kind ∉ reasonedKinds)
    (fun _ _ ho => ok_of_kind ho) (Prog.Only.mono (fun _ ho => hks _ ho.1) h) g

theorem within_ctxDone : Within [.control] (call .ctxDone) := .call (by simp) trivial

theorem eq_of_isSkippedRawKey {k : Bytes} (h : Worker.isSkippedRawKey failedKey k = true) :
    failedKey = k := by
  simp only [Worker.isSkippedRawKey, Bool.and_eq_true, decide_eq_true_eq] at h
  exact h.2

theorem safe_compactKey {k : Bytes} {r : ℕ} (hk : UserKey k) (hr : r < 2 ^ 64)
    (hok : Lasting S.cfg.supportTTL k → failedKey ≠ k → ∀ s, Inv S s.kv → Rely S g.last s →
      0 < r ∧ Removable S s w.revision k r) :
    (protocol S h₀).spec.Safe (fun g' f => g.Later g' ∧ (f = failedKey ∨ f = k) ∧
      (f = k ∨ ∀ v, ¬ objects g'.last.kv.now k r v)) g
      (Worker.compactKey w (encodeObjectKey k r) k failedKey) := by
  unfold Worker.compactKey
  split
  · next hskip => exact ⟨.refl g, .inl rfl, .inl (eq_of_isSkippedRawKey hskip)⟩
  · next hskip =>
    have hne : failedKey ≠ k := by
      rintro rfl
      exact hskip (by simp [Worker.isSkippedRawKey, hk.2])
    apply Spec.Safe.bind (safe_call fun s hinv hrely => ?_)
    · intro g' err ⟨hlater, hnone, hcas⟩
      cases err with
      | none =>
        refine ⟨hlater, .inl rfl, .inr ?_⟩
        rintro v ⟨-, -, hv⟩
        rw [hnone rfl] at hv
        cases hv
      | some e =>
        have hf : Worker.updateSkippedRawKey failedKey k (some e) = k := by
          simp [Worker.updateSkippedRawKey, hcas e rfl]
        rw [hf]
        exact ⟨hlater, .inr rfl, .inl rfl⟩
    · exact ⟨k, r, rfl, hr, fun hlast => hok hlast hne s hinv hrely⟩

theorem safe_compactCurrent {k val : Bytes}
    (hok : Lasting S.cfg.supportTTL k → ∃ q, q ≤ w.revision ∧ q < 2 ^ 64 ∧
      val = indexValue q true) :
    (protocol S h₀).spec.Safe (fun g' f => g.Later g' ∧ (f = failedKey ∨ f = k) ∧
      (f = k ∨ g'.last.kv.now.get (encodeRevisionKey k) ≠ some val)) g
      (Worker.compactCurrent w (encodeRevisionKey k) val k failedKey) := by
  unfold Worker.compactCurrent
  split
  · next hskip => exact ⟨.refl g, .inl rfl, .inl (eq_of_isSkippedRawKey hskip)⟩
  · apply Spec.Safe.bind (safe_call fun s _ _ => ?_)
    · intro g' err ⟨hlater, hchanged⟩
      cases err with
      | none => exact ⟨hlater, .inl rfl, .inr (hchanged nofun)⟩
      | some e =>
        by_cases he : e.isCASFailed = true
        · have hf : Worker.updateSkippedRawKey failedKey k (some e) = failedKey := by
            simp [Worker.updateSkippedRawKey, he]
          rw [hf]
          refine ⟨hlater, .inl rfl, .inr (hchanged fun e' heq => ?_)⟩
          exact Option.some.inj heq ▸ he
        · have hf : Worker.updateSkippedRawKey failedKey k (some e) = k := by
            simp [Worker.updateSkippedRawKey, he]
          rw [hf]
          exact ⟨hlater, .inr rfl, .inl rfl⟩
    · exact ⟨k, rfl, hok⟩

variable {done : List (Bytes × Bytes)} {k value : Bytes} {r : ℕ} {st : Worker.State}

/-- When the pair of `k` is reached, the version before it is superseded. -/
theorem safe_processPrev (hs : Sweeping S w snap g.last)
    (hpos : Position snap done (encodeObjectKey k r, value)) (hk : UserKey k) (hr : r < 2 ^ 64)
    (hle : r ≤ w.revision) (hend : AtEnd done k) (ht : Trail S w g.last done st) :
    (protocol S h₀).spec.Safe (fun g' st' => g.Later g' ∧
      (st'.prevUserKey, st'.prevRevision, st'.prevValue) =
        (st.prevUserKey, st.prevRevision, st.prevValue) ∧
      (Lasting S.cfg.supportTTL k → w.compact = true →
        Ready w g'.last done k st'.failedKey fun _ => False)) g
      (Worker.processPrev w k st) := by
  unfold Worker.processPrev
  have hready (g' : (protocol S h₀).Ghost) (hlater : g.Later g')
      (hk : Lasting S.cfg.supportTTL k) :=
    (ht.ready k hk hend).rely hk hs.quiet hlater.1
  have hother (g' : (protocol S h₀).Ghost) (hlater : g.Later g') (hk : Lasting S.cfg.supportTTL k)
      (hprev : ¬ (st.prevUserKey = k ∧ 0 < st.prevRevision)) :
      Ready w g'.last done k st.failedKey fun _ => False := by
    have h := hready g' hlater hk
    refine ⟨fun r' val hmem h0 hr' hle' => ?_, h.index⟩
    rcases h.objects r' val hmem h0 hr' hle' with ⟨hkey, rfl⟩ | h
    · exact absurd ⟨hkey, h0⟩ hprev
    · exact .inr h
  split
  · next hne =>
    have hprev : ¬ (st.prevUserKey = k ∧ 0 < st.prevRevision) := fun h => hne h.1.symm
    split
    · apply (safe_free (Receiver.within_append _ _ _ _) (by decide)).bind
      intro g' receiver hlater
      exact ⟨hlater, rfl, fun hk _ => hother g' hlater hk hprev⟩
    · exact ⟨.refl g, rfl, fun hk _ => hother g (.refl g) hk hprev⟩
  · next heq =>
    have heq : k = st.prevUserKey := not_not.mp heq
    split
    · next hgc =>
      obtain ⟨hmem, hle', hlt'⟩ := ht.prev hgc.2
      have hlt : st.prevRevision < r := by
        have := hpos.before _ hmem
        rw [← heq, encodeObjectKey_lt_iff hk.1 hk.1 hlt' hr] at this
        simpa using this
      rw [← heq]
      apply (safe_compactKey hk hlt' fun hlast _ s hinv hrely => ?_).bind
      · intro g' f ⟨hlater, hf, hgone⟩
        refine ⟨hlater, rfl, fun hlast _ => ?_⟩
        have h := (hready g' hlater hlast).failed hf
        refine ⟨fun r' val hmem' h0 hr' hle'' => ?_, h.index⟩
        rcases h.objects r' val hmem' h0 hr' hle'' with ⟨-, rfl⟩ | h
        · exact .inr hgone
        · exact .inr h
      · have hobj : objects snap k r value := ⟨by omega, hr, hpos.get⟩
        exact ⟨hgc.2, .inl ⟨r, value, hrely.hist k r value (hs.fit.hist k hlast r value hobj), hlt,
          hle⟩⟩
    · next hgc =>
      refine ⟨.refl g, rfl, fun hlast hcompact => hother g (.refl g) hlast fun h => ?_⟩
      exact hgc ⟨hcompact, h.2⟩

/-- A tombstone is removed when nothing older is left and the index does not name it. -/
theorem removable_tombstone (hs : Sweeping S w snap g.last)
    (hpos : Position snap done (encodeObjectKey k r, tombStoneBytes))
    (hk : Lasting S.cfg.supportTTL k) (h0 : 0 < r) (hr : r < 2 ^ 64) (hle : r ≤ w.revision)
    (hready : Ready w g.last done k failedKey fun _ => False) (hfailed : failedKey ≠ k)
    (hinv : Inv S s.kv) (hrely : Rely S g.last s) : Removable S s w.revision k r := by
  have hs' := hs.rely hrely
  have hready' := hready.rely hk hs.quiet hrely
  have htomb (v : Bytes) (hv : objects s.kv.now k r v) : v = tombStoneBytes := by
    obtain ⟨-, -, hget⟩ := hs'.fit.shrinks.objects k hk r v hle hv
    exact Option.some.inj (hget.symm.trans hpos.get)
  refine .inr ⟨⟨hle, htomb, fun r' v' hv' => ?_⟩, fun d hidx => ?_⟩
  · by_contra hlt
    have hlt : r' < r := not_le.mp hlt
    obtain ⟨h0', hr', hget⟩ := hs'.fit.shrinks.objects k hk r' v' (by omega) hv'
    have hmem := hpos.complete k r r' v' hk.1 hr hlt rfl hget
    rcases hready'.objects r' v' hmem h0' hr' (by omega) with h | h | h
    · exact h
    · exact hfailed h
    · exact h v' hv'
  · obtain ⟨⟨v, hv, hd⟩, -⟩ := (hinv.indexed k hk).named r d hidx
    obtain rfl : d = true := hd.mp (htomb v hv)
    have hsnap := hs'.fit.shrinks.index k hk r true hle hidx
    obtain ⟨-, hget⟩ := (hs'.fit.shaped k hk).get_of_index hsnap
    have hmem := hpos.complete k r 0 _ hk.1 hr h0 rfl hget
    exact hfailed (hready'.index _ hmem r hle hidx)

theorem safe_compactTombstone (hs : Sweeping S w snap g.last)
    (hpos : Position snap done (encodeObjectKey k r, value)) (hk : UserKey k) (hr : r < 2 ^ 64)
    (hle : r ≤ w.revision)
    (hready : Lasting S.cfg.supportTTL k → Ready w g.last done k st.failedKey fun _ => False) :
    (protocol S h₀).spec.Safe (fun g' st' => g.Later g' ∧
      (st'.prevUserKey, st'.prevRevision, st'.prevValue) =
        (st.prevUserKey, st.prevRevision, st.prevValue) ∧
      (Lasting S.cfg.supportTTL k → Ready w g'.last done k st'.failedKey fun _ => False)) g
      (Worker.compactTombstone w (encodeObjectKey k r) value k st) := by
  unfold Worker.compactTombstone
  split
  · next htomb =>
    obtain ⟨-, rfl⟩ := htomb
    apply (safe_compactKey hk hr fun hlast hfailed s hinv hrely => ?_).bind
    · intro g' f ⟨hlater, hf, _⟩
      exact ⟨hlater, rfl, fun hlast => ((hready hlast).rely hlast hs.quiet hlater.1).failed hf⟩
    · have h0 : 0 < r := by
        by_contra h
        obtain rfl : r = 0 := by omega
        obtain ⟨q, d, -, hval⟩ := hs.fit.shaped k hlast _ hpos.get
        exact indexValue_ne_tombStone q d hval.symm
      exact ⟨h0, removable_tombstone hs hpos hlast h0 hr hle (hready hlast) hfailed hinv hrely⟩
  · exact ⟨.refl g, rfl, hready⟩

/-- The pair of `k` joins the ones that were passed over. -/
theorem Ready.snoc {exempt : ℕ → Prop} (hr : r < 2 ^ 64)
    (h : Ready w s done k failedKey fun _ => False) (hobj : 0 < r → exempt r)
    (hidx : r = 0 → ∀ q, q ≤ w.revision → KubeBrain.index s.kv.now k = some (q, true) →
      failedKey = k) : Ready w s (done ++ [(encodeObjectKey k r, value)]) k failedKey exempt := by
  have hold {r' : ℕ} {val : Bytes} (hr' : r' < 2 ^ 64)
      (hmem : (encodeObjectKey k r', val) ∈ done ++ [(encodeObjectKey k r, value)]) :
      (encodeObjectKey k r', val) ∈ done ∨ r' = r := by
    rcases List.mem_append.mp hmem with hmem | hmem
    · exact .inl hmem
    · have heq := (Prod.mk.inj (List.mem_singleton.mp hmem)).1
      exact .inr (encodeObjectKey_injective hr' hr heq).2
  constructor
  · intro r' val hmem h0 hr' hle
    rcases hold hr' hmem with hmem | rfl
    · exact (h.objects r' val hmem h0 hr' hle).imp_left False.elim
    · exact .inl (hobj h0)
  · intro val hmem q hq hnow
    rcases hold (by decide) hmem with hmem | h0
    · exact h.index val hmem q hq hnow
    · exact hidx h0.symm q hq hnow

/-- A deletion at or below the revision that the index names now was named in the snapshot. -/
theorem Sweeping.index_eq (hs : Sweeping S w snap s) (hk : Lasting S.cfg.supportTTL k)
    (hget : snap.get (encodeRevisionKey k) = some value) {q : ℕ} (hq : q ≤ w.revision)
    (hnow : index s.kv.now k = some (q, true)) : q < 2 ^ 64 ∧ value = indexValue q true := by
  obtain ⟨hlt, hsnap⟩ :=
    (hs.fit.shaped k hk).get_of_index (hs.fit.shrinks.index k hk q true hq hnow)
  exact ⟨hlt, Option.some.inj (hget.symm.trans hsnap)⟩

theorem safe_process (hw : w.compact = true) (hs : Sweeping S w snap g.last)
    (hpos : Position snap done (encodeObjectKey k r, value)) (hk : UserKey k) (hr : r < 2 ^ 64)
    (hend : AtEnd done k) (ht : Trail S w g.last done st) :
    (protocol S h₀).spec.Safe (fun g' st' => g.Later g' ∧
      Trail S w g'.last (done ++ [(encodeObjectKey k r, value)]) st') g
      (Worker.process w (encodeObjectKey k r) value k r st) := by
  unfold Worker.process
  split
  · next habove =>
    refine ⟨.refl g, ht.skip fun k' r' _ _ hle hr' heq => ?_⟩
    obtain ⟨-, rfl⟩ := encodeObjectKey_injective hr hr' heq
    omega
  · next habove =>
    have hle : r ≤ w.revision := not_lt.mp habove
    apply (safe_processPrev hs hpos hk hr hle hend ht).bind
    intro g₁ st₁ ⟨hlater₁, hprev₁, hready₁⟩
    have hs₁ := hs.rely hlater₁.1
    apply (safe_compactTombstone hs₁ hpos hk hr hle fun hlast => hready₁ hlast hw).bind
    intro g₂ st₂ ⟨hlater₂, hprev₂, hready₂⟩
    have hs₂ := hs₁.rely hlater₂.1
    have hlater := hlater₁.trans hlater₂
    have hprev : (st₂.prevUserKey, st₂.prevRevision, st₂.prevValue) =
        (st.prevUserKey, st.prevRevision, st.prevValue) := hprev₂.trans hprev₁
    split
    · next hindex =>
      obtain ⟨-, rfl, hlen⟩ := hindex
      split
      · next hnew =>
        refine ⟨hlater, trail_of_ready hpos hk hr (fun h0 => ?_) fun hlast => ?_⟩
        · obtain ⟨h₁, h₂, h₃⟩ : st₂.prevUserKey = st.prevUserKey ∧
              st₂.prevRevision = st.prevRevision ∧ st₂.prevValue = st.prevValue := by
            simpa using hprev
          rw [h₂] at h0
          obtain ⟨hmem, hrest⟩ := ht.prev h0
          rw [h₁, h₂, h₃]
          exact ⟨List.mem_append_left _ hmem, hrest⟩
        · apply (hready₂ hlast).snoc hr fun h0 => absurd h0 (lt_irrefl 0)
          intro _ q hq hnow
          obtain ⟨hlt, rfl⟩ := hs₂.index_eq hlast hpos.get hq hnow
          rw [toNat_take_indexValue hlt] at hnew
          omega
      · next hold =>
        apply (safe_compactCurrent (k := k) fun hlast => ?_).bind
        · intro g₃ f ⟨hlater₃, hf, hchanged⟩
          have hs₃ := hs₂.rely hlater₃.1
          refine ⟨hlater.trans hlater₃, trail_of_ready hpos hk hr
            (fun h0 => absurd h0 (lt_irrefl 0)) fun hlast => ?_⟩
          have hready₃ := ((hready₂ hlast).rely hlast hs₂.quiet hlater₃.1).failed hf
          apply hready₃.snoc hr fun h0 => absurd h0 (lt_irrefl 0)
          intro _ q hq hnow
          obtain ⟨-, rfl⟩ := hs₃.index_eq hlast hpos.get hq hnow
          have hinv : Inv S g₃.last.kv := g₃.inv
          exact hchanged.resolve_right fun hne =>
            hne ((hinv.shaped k hlast).get_of_index hnow).2
        · obtain ⟨q, d, hq, rfl⟩ := hs.fit.shaped k hlast value hpos.get
          rw [toNat_take_indexValue hq] at hold
          rw [length_indexValue] at hlen
          cases d with
          | false => simp at hlen
          | true => exact ⟨q, not_lt.mp hold, hq, rfl⟩
    · next hindex =>
      refine ⟨hlater, trail_of_ready hpos hk hr (fun h0 => ?_) fun hlast => ?_⟩
      · exact ⟨List.mem_append_right _ List.mem_cons_self, hle, hr⟩
      · apply (hready₂ hlast).snoc hr fun _ => ⟨rfl, rfl⟩
        rintro rfl q hq hnow
        obtain ⟨-, rfl⟩ := hs₂.index_eq hlast hpos.get hq hnow
        exact absurd ⟨hw, rfl, length_indexValue q true⟩ hindex

/-- Only keys that do not last are taken for expired. -/
theorem safe_compactIfExpired (hk : UserKey k) (hr : r < 2 ^ 64) (failedKey : Bytes) :
    (protocol S h₀).spec.Safe (fun g' a => g.Later g' ∧
      (a = (false, failedKey) ∨ a.1 = true ∧ ¬ Lasting S.cfg.supportTTL k)) g
      (Worker.compactIfExpired S.cfg.supportTTL w (encodeObjectKey k r) k r value failedKey) := by
  unfold Worker.compactIfExpired
  split
  · exact ⟨.refl g, .inl rfl⟩
  · next hopen =>
    have hlast : ¬ Lasting S.cfg.supportTTL k := by
      rintro ⟨-, h | h⟩
      · exact hopen (.inl h)
      · exact hopen (.inr (.inr (by simp [h])))
    split
    · next h0 =>
      subst h0
      split
      · exact Spec.Safe.call_bind (fun _ _ _ => trivial) nofun
      split
      · apply (safe_compactCurrent (k := k) fun h => absurd h hlast).bind
        intro g' f ⟨hlater, _⟩
        exact ⟨hlater, .inr ⟨rfl, hlast⟩⟩
      · exact ⟨.refl g, .inl rfl⟩
    · split
      · apply (safe_compactKey hk hr fun h => absurd h hlast).bind
        intro g' f ⟨hlater, _⟩
        exact ⟨hlater, .inr ⟨rfl, hlast⟩⟩
      · exact ⟨.refl g, .inl rfl⟩

theorem safe_step {e : Bytes × Bytes} (hw : w.compact = true) (hs : Sweeping S w snap g.last)
    (hpos : Position snap done e) (hdone : ∀ x ∈ done, snap.get x.1 = some x.2)
    (ht : Trail S w g.last done st) :
    (protocol S h₀).spec.Safe (fun g' st' => g.Later g' ∧
      Trail S w g'.last (done ++ [e]) st') g (Worker.step S.cfg.supportTTL w e.1 e.2 st) := by
  have huser {x : Bytes × Bytes} {k : Bytes} {r : ℕ} (hx : snap.get x.1 = some x.2)
      (hdec : decode x.1 = .ok k r) : UserKey k := hs.fit.user hx hdec
  have hskip (hdec : ∀ k r, decode e.1 ≠ .ok k r) : Trail S w g.last (done ++ [e]) st := by
    apply ht.skip
    intro k r _ _ _ hr heq
    exact hdec k r (heq ▸ decode_encodeObjectKey k hr)
  unfold Worker.step
  cases hdec : decode e.1 with
  | panic => exact Spec.Safe.call_bind (fun _ _ _ => trivial) nofun
  | badMagic => exact ⟨.refl g, hskip fun k r => by rw [hdec]; exact nofun⟩
  | badSplit => exact ⟨.refl g, hskip fun k r => by rw [hdec]; exact nofun⟩
  | ok k r =>
    obtain ⟨key, value⟩ := e
    have hk := huser hpos.get hdec
    obtain ⟨rfl, hr⟩ := encode_of_decode hdec
    have hend : AtEnd done k :=
      hpos.atEnd hk hr fun x hx k' r' hx' => huser (hdone x hx) hx'
    apply (safe_compactIfExpired hk hr st.failedKey).bind
    intro g₁ a ⟨hlater₁, ha⟩
    have hs₁ := hs.rely hlater₁.1
    have ht₁ := ht.rely hs.quiet hlater₁.1
    rcases ha with rfl | ⟨htrue, hlast⟩
    · apply (safe_process hw hs₁ hpos hk hr hend ht₁).mono
      intro g₂ st₂ ⟨hlater₂, ht₂⟩
      exact ⟨hlater₁.trans hlater₂, ht₂⟩
    · obtain ⟨expired, f⟩ := a
      obtain rfl : expired = true := htrue
      refine ⟨hlater₁, trail_of_ready hpos hk hr (fun h0 => ?_) fun h => absurd h hlast⟩
      obtain ⟨hmem, hrest⟩ := ht.prev h0
      exact ⟨List.mem_append_left _ hmem, hrest⟩

variable (done) in
/-- The loop goes on with the rest of an iteration over `snap`. -/
theorem safe_loop (hw : w.compact = true) {start stop : Bytes} (hstart : Whole start)
    (err : Option Err) (items : List (Bytes × Bytes))
    (hitems : done ++ items <+: snap.range start stop) (hs : Sweeping S w snap g.last)
    (ht : Trail S w g.last done st) :
    (protocol S h₀).spec.Safe (fun g' _ => g.Later g') g
      (Worker.loop S.cfg.supportTTL w err items st) := by
  induction items generalizing done st g with
  | nil =>
    unfold Worker.loop
    split
    · apply (safe_free within_ctxDone (by decide)).bind
      intro g₁ b hlater
      split
      · exact hlater
      · exact hlater
    · exact Protocol.Ghost.Later.refl g
  | cons e items ih =>
    unfold Worker.loop
    split
    · apply (safe_free within_ctxDone (by decide)).bind
      intro g₁ b hlater₁
      split
      · exact hlater₁
      · have hpos := position_of_range hstart hitems
        have hdone (x : Bytes × Bytes) (hx : x ∈ done) : snap.get x.1 = some x.2 :=
          (SortedMap.mem_range.mp (hitems.subset (List.mem_append_left _ hx))).1
        have hs₁ := hs.rely hlater₁.1
        apply (safe_step hw hs₁ hpos hdone (ht.rely hs.quiet hlater₁.1)).bind
        rintro g₂ st₂ ⟨hlater₂, ht₂⟩
        have hitems' : done ++ [e] ++ items <+: snap.range start stop := by
          rwa [List.append_assoc, List.singleton_append]
        apply (ih (done ++ [e]) hitems' (hs₁.rely hlater₂.1) ht₂).mono
        intro g₃ _ hlater₃
        exact (hlater₁.trans hlater₂).trans hlater₃
    · exact Protocol.Ghost.Later.refl g

/-- What a worker is started with. -/
structure Charged (S : Setting p) (w : WorkerConfig) (s : LeaderState (engine p)) : Prop where
  compact : w.compact = true
  quiet : S.quiet s w.revision
  tidy : CutBetweenKeys w.partition
  aimed : Aimed S s w.tso w.revision

theorem Charged.rely {s' : LeaderState (engine p)} (h : Charged S w s) (hrely : Rely S s s') :
    Charged S w s' :=
  ⟨h.compact, hrely.quiet _ h.quiet, h.tidy, h.aimed.rely h.quiet hrely⟩

theorem safe_run (hc : Charged S w g.last) (receiver : Receiver) (failedKey : Bytes) :
    (protocol S h₀).spec.Safe (fun g' _ => g.Later g') g
      (Worker.run S.cfg.supportTTL w receiver failedKey) := by
  unfold Worker.run
  dsimp only
  apply Spec.Safe.bind (safe_call (o := .kv (.iter ..)) fun _ _ _ => trivial)
  intro g₁ r ⟨hlater₁, hfact⟩
  have hc₁ := hc.rely hlater₁.1
  split
  · exact hlater₁
  · next it =>
    have hitems : it.items <+: (Engine.seen p g₁.last.kv w.tso).range w.partition.start
        w.partition.stop := by
      have := hfact it rfl
      rwa [Scanner.items_eq_range _ hc.tidy.le] at this
    have hs : Sweeping S w (Engine.seen p g₁.last.kv w.tso) g₁.last :=
      ⟨hc₁.quiet, hc₁.aimed.seen g₁.inv⟩
    apply (safe_loop [] hc.compact hc.tidy.start it.err it.items hitems hs
      (trail_start g₁.last 0 receiver.reset failedKey)).bind
    intro g₂ a hlater₂
    have hlater := hlater₁.trans hlater₂
    split
    · exact hlater
    · exact hlater
    · exact hlater
    · have hfinish : Within [.read, .stream, .control] (Worker.finish a.1) :=
        Worker.only_finish (fun o ho => have h := List.mem_cons_of_mem _ ho
          ⟨h, onInternal_of_kind h⟩) a.1
      apply (safe_free hfinish (by decide)).bind
      intro g₃ b hlater₃
      exact hlater.trans hlater₃

theorem safe_attempts (hc : Charged S w g.last) (n : ℕ) (receiver : Receiver) (failedKey : Bytes)
    (latest : Err) : (protocol S h₀).spec.Safe (fun g' _ => g.Later g') g
      (Worker.attempts S.cfg.supportTTL w n receiver failedKey latest) := by
  induction n generalizing receiver failedKey latest g with
  | zero => exact Protocol.Ghost.Later.refl g
  | succ n ih =>
    unfold Worker.attempts
    apply (safe_free within_ctxDone (by decide)).bind
    intro g₁ b hlater₁
    split
    · exact hlater₁
    · have hc₁ := hc.rely hlater₁.1
      apply (safe_run hc₁ receiver failedKey).bind
      intro g₂ a hlater₂
      have hlater := hlater₁.trans hlater₂
      split
      · exact hlater
      · apply (ih (hc₁.rely hlater₂.1) _ _ _).mono
        intro g₃ _ hlater₃
        exact hlater.trans hlater₃

end Programs

end Sweep
end KubeBrain

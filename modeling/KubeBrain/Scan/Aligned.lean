import KubeBrain.Scan.Point
import KubeBrain.Scan.Stream

/-! Partitions that split no user key, in a store of arbitrary user keys: together the workers find
what one worker finds, and that is the live pair of each user key unless internal keys of another
one come between two of its versions. -/
namespace KubeBrain

open Coder Scanner

variable {st : Store} {lo hi : Bytes} {R : ℕ}

/-- The stored internal keys of no user key lie on both sides of a border. -/
def KeyAligned (st : Store) (c : Bytes) : Prop :=
  ∀ k r r', r < 2 ^ 64 → r' < 2 ^ 64 → st.get (encodeObjectKey k r) ≠ none →
    st.get (encodeObjectKey k r') ≠ none → encodeObjectKey k r < c → encodeObjectKey k r' < c

/-- The pairs of an interval that are live at `R`, one for each user key. -/
structure LiveIn (st : Store) (lo hi : Bytes) (R : ℕ) (all : List KeyValue) : Prop where
  nodup : (all.map KeyValue.key).Nodup
  mem : ∀ kv, kv ∈ all ↔ lo ≤ encodeObjectKey kv.key kv.revision ∧
    encodeObjectKey kv.key kv.revision < hi ∧
    Mvcc.Live (· = tombStoneBytes) (objects st kv.key) R kv.revision kv.value

/-- A version with a value has a newer one up to `R`, but the next internal key up to `R` is one of
another user key. -/
def Interrupted (st : Store) (lo hi : Bytes) (R : ℕ) : Prop :=
  ∃ k r v r' v' u q w, objects st k r v ∧ v ≠ tombStoneBytes ∧ objects st k r' v' ∧ r < r' ∧
    r' ≤ R ∧ u ≠ k ∧ q < 2 ^ 64 ∧ q ≤ R ∧ st.get (encodeObjectKey u q) = some w ∧
    encodeObjectKey k r < encodeObjectKey u q ∧
    (∀ u' q', q' < 2 ^ 64 → q' ≤ R → st.get (encodeObjectKey u' q') ≠ none →
      encodeObjectKey k r < encodeObjectKey u' q' →
      encodeObjectKey u q ≤ encodeObjectKey u' q') ∧
    lo ≤ encodeObjectKey k r ∧ encodeObjectKey k r' < hi

/-- The internal keys of one plain user key follow each other. -/
theorem not_interrupted (hst : Keyed st lo hi) : ¬ Interrupted st lo hi R := by
  rintro ⟨k, r, v, r', v', u, q, w, hobj, -, hobj', hlt, hR, hne, hq, -, hget, hafter, hnext, hlo,
    hhi⟩
  have hkk : encodeObjectKey k r < encodeObjectKey k r' := by
    rw [← not_le, encodeObjectKey_le_iff k hobj'.2.1 hobj.2.1]
    omega
  have hle : encodeObjectKey u q ≤ encodeObjectKey k r' :=
    hnext k r' hobj'.2.1 hR (by simp [hobj'.2.2]) hkk
  obtain ⟨k₁, r₁, hk, hr₁, heq⟩ := hst _ _ hobj.2.2 hlo (hkk.trans hhi)
  obtain ⟨u₁, q₁, hu, hq₁, heq'⟩ := hst _ _ hget (hlo.trans hafter.le) (hle.trans_lt hhi)
  obtain ⟨rfl, rfl⟩ := encodeObjectKey_injective hobj.2.1 hr₁ heq
  obtain ⟨rfl, rfl⟩ := encodeObjectKey_injective hq hq₁ heq'
  exact hne (eq_of_between hk hu hobj.2.1 hq hobj'.2.1 hafter.le hle).1

/-- Around a pair that is read, the others are before it or after it. -/
private theorem mem_after (hle : lo ≤ hi) {l₁ l₂ : List KeyValue} {kv e : KeyValue}
    (heq : readable R (Engine.items st lo hi 0) = l₁ ++ kv :: l₂)
    (he : e ∈ readable R (Engine.items st lo hi 0))
    (hlt : encodeObjectKey kv.key kv.revision < encodeObjectKey e.key e.revision) : e ∈ l₂ := by
  have hsorted := @sorted_readable st lo hi R hle
  rw [heq] at hsorted he
  rcases List.mem_append.mp he with he | he
  · exact absurd ((List.pairwise_append.mp hsorted).2.2 e he kv List.mem_cons_self) (lt_asymm hlt)
  · rcases List.mem_cons.mp he with rfl | he
    · exact absurd hlt (lt_irrefl _)
    · exact he

/-- A worker finds only newest versions exactly if none is interrupted. -/
theorem newest_listing_iff (hle : lo ≤ hi) (hhi : KeyAligned st hi) :
    (∀ kv ∈ listing R (Engine.items st lo hi 0), ∀ r v, objects st kv.key r v → r ≤ R →
      r ≤ kv.revision) ↔ ¬ Interrupted st lo hi R := by
  have hread {kv : KeyValue} (hkv : kv ∈ readable R (Engine.items st lo hi 0)) :
      kv.revision ≤ R ∧ kv.revision < 2 ^ 64 ∧
        st.get (encodeObjectKey kv.key kv.revision) = some kv.value ∧
        lo ≤ encodeObjectKey kv.key kv.revision ∧ encodeObjectKey kv.key kv.revision < hi := by
    obtain ⟨hR, hr, hmem⟩ := mem_readable.mp hkv
    exact ⟨hR, hr, (mem_items hle).mp hmem⟩
  have hmem {k : Bytes} {r : ℕ} {v : Bytes} (hR : r ≤ R) (hr : r < 2 ^ 64)
      (hget : st.get (encodeObjectKey k r) = some v) (hl : lo ≤ encodeObjectKey k r)
      (hh : encodeObjectKey k r < hi) :
      (⟨k, v, r⟩ : KeyValue) ∈ readable R (Engine.items st lo hi 0) :=
    mem_readable.mpr ⟨hR, hr, (mem_items hle).mpr ⟨hget, hl, hh⟩⟩
  constructor
  · rintro hnewest ⟨k, r, v, r', v', u, q, w, hobj, hvalue, hobj', hlt, hR, hne, hq, hqR, hget,
      hafter, hnext, hl, hh⟩
    have hkk : encodeObjectKey k r < encodeObjectKey k r' := by
      rw [← not_le, encodeObjectKey_le_iff k hobj'.2.1 hobj.2.1]
      omega
    have huk := hnext k r' hobj'.2.1 hR (by simp [hobj'.2.2]) hkk
    have hkv := hmem (hlt.le.trans hR) hobj.2.1 hobj.2.2 hl (hkk.trans hh)
    have hu := hmem hqR hq hget (hl.trans hafter.le) (huk.trans_lt hh)
    obtain ⟨l₁, l₂, heq⟩ := List.append_of_mem hkv
    have hend : (⟨k, v, r⟩ : KeyValue) ∈ listing R (Engine.items st lo hi 0) := by
      refine Runs.mem_ends.mpr ⟨⟨hobj.1, hvalue⟩, l₁, l₂, heq, ?_⟩
      have hul := mem_after hle heq hu hafter
      cases l₂ with
      | nil => cases hul
      | cons y l₂ =>
        -- the first pair after it is the one of the other user key
        have hsorted := @sorted_readable st lo hi R hle
        have hy : y ∈ readable R (Engine.items st lo hi 0) := by simp [heq]
        rw [heq] at hsorted
        obtain ⟨-, hsorted, -⟩ := List.pairwise_append.mp hsorted
        obtain ⟨hfirst, hsorted⟩ := List.pairwise_cons.mp hsorted
        obtain ⟨hyR, hyr, hyget, -⟩ := hread hy
        have hle₁ := hnext y.key y.revision hyr hyR (by simp [hyget]) (hfirst y List.mem_cons_self)
        have hle₂ : encodeObjectKey y.key y.revision ≤ encodeObjectKey u q := by
          rcases List.mem_cons.mp hul with rfl | hul
          · exact le_rfl
          · exact ((List.pairwise_cons.mp hsorted).1 _ hul).le
        obtain ⟨rfl, -⟩ := encodeObjectKey_injective hq hyr (le_antisymm hle₁ hle₂)
        simpa using hne
    exact absurd (hnewest _ hend r' v' hobj' hR) (not_le.mpr hlt)
  · intro hno kv hkv r' v' hobj' hR
    by_contra hlt
    obtain ⟨⟨hpos, hvalue⟩, l₁, l₂, heq, hhead⟩ := Runs.mem_ends.mp hkv
    have hkv' : kv ∈ readable R (Engine.items st lo hi 0) := by simp [heq]
    obtain ⟨hkR, hkr, hkget, hl, hh⟩ := hread hkv'
    have hkk : encodeObjectKey kv.key kv.revision < encodeObjectKey kv.key r' := by
      rw [← not_le, encodeObjectKey_le_iff kv.key hobj'.2.1 hkr]
      omega
    have hh' : encodeObjectKey kv.key r' < hi :=
      hhi kv.key kv.revision r' hkr hobj'.2.1 (by simp [hkget]) (by simp [hobj'.2.2]) hh
    have hnew := mem_after hle heq (hmem hR hobj'.2.1 hobj'.2.2 (hl.trans hkk.le) hh') hkk
    cases l₂ with
    | nil => cases hnew
    | cons y l₂ =>
      have hy : y ∈ readable R (Engine.items st lo hi 0) := by simp [heq]
      obtain ⟨hyR, hyr, hyget, hyl, hyh⟩ := hread hy
      have hsorted := @sorted_readable st lo hi R hle
      rw [heq] at hsorted
      obtain ⟨-, hsorted, -⟩ := List.pairwise_append.mp hsorted
      obtain ⟨hfirst, hsorted⟩ := List.pairwise_cons.mp hsorted
      refine hno ⟨kv.key, kv.revision, kv.value, r', v', y.key, y.revision, y.value,
        ⟨hpos, hkr, hkget⟩, hvalue, hobj', not_le.mp hlt, hR, by simpa using hhead, hyr, hyR, hyget,
        hfirst y List.mem_cons_self, fun u' q' hq' hqR' hget' hafter' => ?_, hl, hh'⟩
      obtain ⟨w', hw'⟩ := Option.ne_none_iff_exists'.mp hget'
      rcases lt_or_ge (encodeObjectKey u' q') hi with hlt' | hge
      · have hmem' := mem_after hle heq (hmem hqR' hq' hw' (hl.trans hafter'.le) hlt') hafter'
        rcases List.mem_cons.mp hmem' with rfl | hmem'
        · exact le_rfl
        · exact ((List.pairwise_cons.mp hsorted).1 _ hmem').le
      · exact hyh.le.trans hge

/-- Between borders that split no user key, a worker finds the live pairs exactly if no version is
interrupted. -/
theorem liveIn_listing_iff (hle : lo ≤ hi) (hhi : KeyAligned st hi) :
    (∃ all, LiveIn st lo hi R all ∧ (listing R (Engine.items st lo hi 0)).Perm all) ↔
      ¬ Interrupted st lo hi R := by
  rw [← newest_listing_iff hle hhi]
  constructor
  · rintro ⟨all, hlive, hperm⟩ kv hkv r v hobj hR
    exact ((hlive.mem kv).mp (hperm.subset hkv)).2.2.1.2.2 r v hobj hR
  · intro hnewest
    have hsub : (listing R (Engine.items st lo hi 0)).Sublist
        (readable R (Engine.items st lo hi 0)) := Runs.ends_sublist _
    refine ⟨_, ⟨?_, fun kv => ?_⟩, .refl _⟩
    · refine List.Nodup.map_on ?_ ((nodup_readable hle).sublist hsub)
      intro x hx y hy hkey
      obtain ⟨hxR, hxr, hxmem⟩ := mem_readable.mp (hsub.mem hx)
      obtain ⟨hyR, hyr, hymem⟩ := mem_readable.mp (hsub.mem hy)
      have hxget := ((mem_items hle).mp hxmem).1
      have hyget := ((mem_items hle).mp hymem).1
      simp only [pairOf] at hxget hyget
      rw [hkey] at hxget
      have hxy := hnewest y hy x.revision x.value ⟨(Runs.mem_ends.mp hx).1.1, hxr, hxget⟩ hxR
      rw [← hkey] at hyget
      have hyx := hnewest x hx y.revision y.value ⟨(Runs.mem_ends.mp hy).1.1, hyr, hyget⟩ hyR
      have hrev := le_antisymm hxy hyx
      rw [hrev, ← hkey, hyget] at hxget
      cases x
      cases y
      simp only [KeyValue.mk.injEq, Option.some.injEq] at hkey hrev hxget ⊢
      exact ⟨hkey, hxget.symm, hrev⟩
    · constructor
      · intro hkv
        obtain ⟨hR, hr, hmem⟩ := mem_readable.mp (hsub.mem hkv)
        obtain ⟨hget, hl, hh⟩ := (mem_items hle).mp hmem
        have hvalue := (Runs.mem_ends.mp hkv).1
        exact ⟨hl, hh, ⟨⟨hvalue.1, hr, hget⟩, hR, hnewest kv hkv⟩, hvalue.2⟩
      · rintro ⟨hl, hh, ⟨⟨hpos, hr, hget⟩, hR, hnew⟩, hvalue⟩
        have hkv : kv ∈ readable R (Engine.items st lo hi 0) :=
          mem_readable.mpr ⟨hR, hr, (mem_items hle).mpr ⟨hget, hl, hh⟩⟩
        refine Runs.mem_ends_of_last ⟨hpos, hvalue⟩
          ((Runs.last_iff (revision_lt_readable hle) fun _ _ h => lt_asymm h).mpr ⟨hkv, ?_⟩)
        intro e he hkey hlt
        obtain ⟨heR, her, hemem⟩ := mem_readable.mp he
        have heget := ((mem_items hle).mp hemem).1
        simp only [pairOf] at heget
        rw [hkey] at heget
        exact absurd (hnew e.revision e.value ⟨by omega, her, heget⟩ heR) (not_le.mpr hlt)

/-- Partitions that split no user key find together what one worker finds. -/
theorem foundIn_aligned (cfg : Config) (f : Frozen) {bs : List Bytes}
    (hchain : (lo :: bs).Pairwise (· ≤ ·)) (hhi : ∀ c ∈ lo :: bs, c ≤ hi)
    (hbs : ∀ c ∈ bs, KeyAligned f.store c) :
    foundIn cfg f R false (Tikv.pieces lo bs hi) = listing R (Engine.items f.store lo hi 0) := by
  have hone (lo hi : Bytes) : (tallyOf cfg f R false ⟨lo, hi⟩).all =
      listing R (Engine.items f.store lo hi 0) := Worker.tally_all_eq rfl rfl
  induction bs generalizing lo with
  | nil => simp [foundIn, Tikv.pieces, hone]
  | cons c bs ih =>
    obtain ⟨hlo, hchain⟩ := List.pairwise_cons.mp hchain
    obtain ⟨hc, hbs⟩ := List.forall_mem_cons.mp hbs
    have hlc : lo ≤ c := hlo c List.mem_cons_self
    have hch : c ≤ hi := hhi c (by simp)
    have hrest := ih hchain (fun d hd => hhi d (List.mem_cons_of_mem _ hd)) hbs
    have hseam : Runs.Seam KeyValue.key KeyValue.HasValue
        (readable R (Engine.items f.store lo c 0)) (readable R (Engine.items f.store c hi 0)) := by
      intro x hx _ hsame
      obtain ⟨y, hy, hkey⟩ := Option.map_eq_some_iff.mp hsame
      obtain ⟨-, hxr, hxmem⟩ := mem_readable.mp (List.mem_of_getLast? hx)
      obtain ⟨-, hyr, hymem⟩ := mem_readable.mp (List.mem_of_head? hy)
      obtain ⟨hxget, -, hxc⟩ := (mem_items hlc).mp hxmem
      obtain ⟨hyget, hcy, -⟩ := (mem_items hch).mp hymem
      simp only [pairOf, hkey] at hxget hxc hyget hcy
      exact absurd (hc x.key x.revision y.revision hxr hyr (by simp [hxget]) (by simp [hyget]) hxc)
        (not_lt.mpr hcy)
    calc foundIn cfg f R false (Tikv.pieces lo (c :: bs) hi)
        = listing R (Engine.items f.store lo c 0) ++
            foundIn cfg f R false (Tikv.pieces c bs hi) := by
          rw [Tikv.pieces, foundIn, List.flatMap_cons, hone]
          rfl
      _ = listing R (Engine.items f.store lo hi 0) := by
          rw [hrest, listing, listing, (Runs.ends_append _ _).1 hseam, ← readable_append hlc hch]

theorem keyAligned_of_plain {a : Bytes} (ha : Plain a) (hst : Spaced st) :
    KeyAligned st (encodeObjectKey a 0) := by
  intro k r r' hr hr' hget hget' hlt
  have hmagic (r : ℕ) : magicBytes <+: encodeObjectKey k r := ⟨_, rfl⟩
  obtain ⟨v, hv⟩ := Option.ne_none_iff_exists'.mp hget
  obtain ⟨k₁, r₁, hk, hr₁, heq⟩ := hst _ _ hv (hmagic r)
  obtain ⟨rfl, rfl⟩ := encodeObjectKey_injective hr hr₁ heq
  rcases (encodeObjectKey_lt_iff hk ha hr (by decide)).mp hlt with h | ⟨-, h⟩
  · exact (encodeObjectKey_lt_iff hk ha hr' (by decide)).mpr (.inl h)
  · exact absurd h (Nat.not_lt_zero r)

end KubeBrain

import KubeBrain.Scan.Borders
import KubeBrain.Storage.Iterators
import KubeBrain.Writes.Contents

/-! Reads of one key: `get` takes the first pair of a descending iteration, whichever adapter
makes it. -/
namespace KubeBrain

open Interleaving Coder

/-- Whatever has the form of an internal key is one, of a plain user key. -/
def Spaced (st : Store) : Prop :=
  ∀ key val, st.get key = some val → magicBytes <+: key → PlainInternal key

variable {st : Store} {k : Bytes} {R : ℕ}

theorem Spaced.keyed (h : Spaced st) (a b : Bytes) (r r' : ℕ) :
    Scanner.Keyed st (encodeObjectKey a r) (encodeObjectKey b r') :=
  fun key v hv hlo hhi => h key v hv (Bytes.prefix_of_between hlo hhi.le)

/-- An internal key of a plain user key between two version keys of `k` is one of `k`. -/
theorem PlainInternal.between {key : Bytes} {r : ℕ} (h : PlainInternal key) (hk : Plain k)
    (hr : r < 2 ^ 64) (hR : R < 2 ^ 64) (hlo : encodeObjectKey k r ≤ key)
    (hhi : key ≤ encodeObjectKey k R) : ∃ r', r ≤ r' ∧ r' ≤ R ∧ key = encodeObjectKey k r' := by
  obtain ⟨k', r', hk', hr', rfl⟩ := h
  obtain ⟨rfl, hlow, hhigh⟩ := eq_of_between hk hk' hr hr' hR hlo hhi
  exact ⟨r', hlow, hhigh, rfl⟩

theorem Spaced.plain_of_objects (h : Spaced st) {r : ℕ} {v : Bytes} (hv : objects st k r v) :
    Plain k := by
  obtain ⟨k', r', hk', hr', heq⟩ := h _ v hv.2.2 (List.prefix_append _ _)
  exact (encodeObjectKey_injective hv.2.1 hr' heq).1 ▸ hk'

/-- The first pair of a descending iteration from a version key is the newest version, or
there is none. -/
theorem Descends.point {it : Iter}
    (hit : Descends st (encodeObjectKey k R) (encodeObjectKey k 0) it)
    (hst : Spaced st) (hR : R < 2 ^ 64) :
    (it.items = [] ∧ ∀ r v, objects st k r v → R < r) ∨
    ∃ key v rest, it.items = (key, v) :: rest ∧ st.get key = some v ∧
      ((∃ r, key = encodeObjectKey k r ∧ Mvcc.Newest (objects st k) R r v) ∨
        (∀ r, 0 < r → r < 2 ^ 64 → key ≠ encodeObjectKey k r) ∧
          ∀ r v, objects st k r v → R < r) := by
  cases hitems : it.items with
  | nil =>
    refine .inl ⟨rfl, fun r v hv => ?_⟩
    by_contra hle
    have hstop := hit.first hitems _ v hv.2.2
      ((encodeObjectKey_le_iff k hv.2.1 hR).mpr (not_lt.mp hle))
    rw [encodeObjectKey_le_iff k hv.2.1 (by decide)] at hstop
    exact absurd hv.1 (by omega)
  | cons e rest =>
    obtain ⟨key, v⟩ := e
    obtain ⟨hget, hle, hmax⟩ := hit.head hitems
    refine .inr ⟨key, v, rest, rfl, hget, ?_⟩
    by_cases hnone : ∀ r v, objects st k r v → R < r
    · refine .inr ⟨fun r h0 hr heq => ?_, hnone⟩
      subst heq
      have := hnone r v ⟨h0, hr, hget⟩
      rw [encodeObjectKey_le_iff k hr hR] at hle
      omega
    · push Not at hnone
      obtain ⟨r, v', hv', hrR⟩ := hnone
      have hlo := hmax _ v' hv'.2.2 ((encodeObjectKey_le_iff k hv'.2.1 hR).mpr hrR)
      have hk := hst.plain_of_objects hv'
      have hin := hst key v hget (Bytes.prefix_of_between hlo hle)
      obtain ⟨n, hn, hnR, rfl⟩ := hin.between hk hv'.2.1 hR hlo hle
      have hn0 : 0 < n := hv'.1.trans_le hn
      refine .inl ⟨n, rfl, ⟨hn0, by omega, hget⟩, hnR, fun r'' v'' hv'' hle'' => ?_⟩
      have := hmax _ v'' hv''.2.2 ((encodeObjectKey_le_iff k hv''.2.1 hR).mpr hle'')
      rwa [encodeObjectKey_le_iff k hv''.2.1 (by omega)] at this

/-- The revision that a read request names; zero names the latest. -/
def readRevision (revision : ℕ) : ℕ := if revision = 0 then maxUint64 else revision

theorem readRevision_pos (R : ℕ) : 0 < readRevision R := by
  unfold readRevision
  split
  · decide
  · omega

theorem readRevision_lt (hR : R < 2 ^ 64) : readRevision R < 2 ^ 64 := by
  unfold readRevision
  split
  · decide
  · exact hR

theorem le_readRevision (R : ℕ) : R ≤ readRevision R := by
  unfold readRevision
  split <;> omega

/-- The answer of `get`: the newest version at or below the revision, unless there is none or
it is the tombstone. -/
def Answers (st : Store) (k : Bytes) (R : ℕ) (res : Except Err (Bytes × ℕ)) : Prop :=
  (∀ v r, res = .ok (v, r) ↔ Mvcc.Live (· = tombStoneBytes) (objects st k) (readRevision R) r v) ∧
    ∀ e, res = .error e → e = .keyNotFound

theorem objects_functional {r : ℕ} {v v' : Bytes} (h : objects st k r v) (h' : objects st k r v') :
    v = v' := Option.some.inj (h.2.2.symm.trans h'.2.2)

theorem newest_unique {r r' : ℕ} {v v' : Bytes} (h : Mvcc.Newest (objects st k) R r v)
    (h' : Mvcc.Newest (objects st k) R r' v') : r = r' ∧ v = v' := by
  obtain rfl : r = r' := le_antisymm (h'.2.2 r v h.1 h.2.1) (h.2.2 r' v' h'.1 h'.2.1)
  exact ⟨rfl, objects_functional h.1 h'.1⟩

section Eval

variable {σ : Type} {h : (o : Op) → σ → Option (o.Res × σ)} {s s' : σ} {it : Iter} {reader : Reader}

/-- What `getInternalVal` makes of an answer of the storage. -/
theorem eval_getInternalVal (hst : Spaced st) (hR : R < 2 ^ 64)
    (hiter : h (.kv (.iter reader (encodeObjectKey k (readRevision R))
        (encodeObjectKey k 0) 0 1)) s =
      some (.ok it, s'))
    (hit : Descends st (encodeObjectKey k (readRevision R)) (encodeObjectKey k 0) it)
    (hdec : ∀ e ∈ it.items.head?, decode e.1 ≠ .panic) :
    ((getInternalVal reader k R).eval h s = some (.error .keyNotFound, s') ∧
      ∀ r v, objects st k r v → readRevision R < r) ∨
    ∃ r v, (getInternalVal reader k R).eval h s = some (.ok (v, r), s') ∧
      Mvcc.Newest (objects st k) (readRevision R) r v := by
  obtain ⟨items, err⟩ := it
  obtain rfl : err = none := hit.err
  unfold getInternalVal
  rw [Prog.eval_call_bind hiter]
  rcases hit.point hst (readRevision_lt hR) with ⟨hnil, hnone⟩ | ⟨key, v, rest, hcons, hget, hcase⟩
  · obtain rfl : items = [] := hnil
    exact .inl ⟨rfl, hnone⟩
  · obtain rfl : items = (key, v) :: rest := hcons
    rcases hcase with ⟨r, rfl, hnew⟩ | ⟨hne, hnone⟩
    · refine .inr ⟨r, v, ?_, hnew⟩
      dsimp only
      rw [decode_encodeObjectKey k hnew.1.2.1]
      have hpos := hnew.1.1
      dsimp only
      rw [if_neg (by simp; omega)]
      rfl
    · refine .inl ⟨?_, hnone⟩
      dsimp only
      cases hd : decode key with
      | panic => exact absurd hd (hdec _ rfl)
      | badMagic => rfl
      | badSplit => rfl
      | ok k' r' =>
        obtain ⟨rfl, hr'⟩ := encode_of_decode hd
        dsimp only
        rw [if_pos]
        · rfl
        · by_contra hno
          push Not at hno
          obtain ⟨h0, rfl⟩ := hno
          exact hne r' (Nat.pos_of_ne_zero h0) hr' rfl

theorem eval_get (hst : Spaced st) (hR : R < 2 ^ 64)
    (hiter : h (.kv (.iter .point (encodeObjectKey k (readRevision R))
        (encodeObjectKey k 0) 0 1)) s =
      some (.ok it, s'))
    (hit : Descends st (encodeObjectKey k (readRevision R)) (encodeObjectKey k 0) it)
    (hdec : ∀ e ∈ it.items.head?, decode e.1 ≠ .panic) :
    ∃ res, (get k R).eval h s = some (res, s') ∧ Answers st k R res := by
  unfold get
  rcases eval_getInternalVal hst hR hiter hit hdec with ⟨heval, hnone⟩ | ⟨r, v, heval, hnew⟩
  · refine ⟨.error .keyNotFound, Prog.eval_bind_some heval _, fun v r => ?_, ?_⟩
    · constructor
      · exact nofun
      · intro hlive
        exact absurd hlive.1.2.1 (not_le.mpr (hnone r v hlive.1.1))
    · intro e he
      exact (Except.error.inj he).symm
  · by_cases htomb : v = tombStoneBytes
    · refine ⟨.error .keyNotFound, ?_, fun v' r' => ?_, ?_⟩
      · rw [Prog.eval_bind_some heval]
        dsimp only
        rw [if_pos htomb]
        rfl
      · constructor
        · exact nofun
        · intro hlive
          exact absurd ((newest_unique hlive.1 hnew).2.trans htomb) hlive.2
      · intro e he
        exact (Except.error.inj he).symm
    · refine ⟨.ok (v, r), ?_, fun v' r' => ?_, nofun⟩
      · rw [Prog.eval_bind_some heval]
        dsimp only
        rw [if_neg htomb]
        rfl
      · constructor
        · intro heq
          obtain ⟨rfl, rfl⟩ := Prod.mk.inj (Except.ok.inj heq)
          exact ⟨hnew, htomb⟩
        · intro hlive
          obtain ⟨rfl, rfl⟩ := newest_unique hlive.1 hnew
          rfl

end Eval

/-- A storage that answers iterations and nothing else. -/
def readWith (iter : Bytes → Bytes → ℕ → Iter) : (o : Op) → Unit → Option (o.Res × Unit)
  | .kv (.iter _ start stop _ limit), _ => some (.ok (iter start stop limit), ())
  | _, _ => none

/-- Keys that `Decode` can look at: internal keys of plain user keys, and keys with another
start such as the compact record. -/
def Readable (st : Store) : Prop :=
  ∀ key val, st.get key = some val → PlainInternal key ∨ decode key = .badMagic

theorem Readable.spaced (h : Readable st) : Spaced st := by
  intro key val hval hmagic
  rcases h key val hval with hin | hbad
  · exact hin
  · exfalso
    obtain ⟨rest, rfl⟩ := hmagic
    unfold decode at hbad
    rw [List.take_left] at hbad
    split at hbad
    · cases hbad
    · rw [if_neg (by simp)] at hbad
      split at hbad
      · cases hbad
      · split at hbad <;> cases hbad

theorem Readable.decode_ne_panic (h : Readable st) {key val : Bytes}
    (hval : st.get key = some val) : decode key ≠ .panic := by
  rcases h key val hval with ⟨k, r, -, hr, rfl⟩ | hbad
  · rw [decode_encodeObjectKey k hr]
    exact nofun
  · rw [hbad]
    exact nofun

theorem get_reads_newest (hst : Readable st) (k : Bytes) (hR : R < 2 ^ 64) :
    (∀ iter : Bytes → Bytes → ℕ → Iter,
      (∀ start stop limit, stop < start → Descends st start stop (iter start stop limit)) →
        ∃ res, (get k R).eval (readWith iter) () = some (res, ()) ∧ Answers st k R res) ∧
    ∀ a : Adapter, ∃ res, (get k R).eval (readWith (a.iter st)) () = some (res, ()) ∧
      Answers st k R res := by
  have hlt : encodeObjectKey k 0 < encodeObjectKey k (readRevision R) := by
    rw [← not_le, encodeObjectKey_le_iff k (readRevision_lt hR) (by decide)]
    exact not_le.mpr (readRevision_pos R)
  have hany (iter : Bytes → Bytes → ℕ → Iter)
      (hiter : ∀ start stop limit, stop < start → Descends st start stop (iter start stop limit)) :
      ∃ res, (get k R).eval (readWith iter) () = some (res, ()) ∧ Answers st k R res := by
    have hit := hiter (encodeObjectKey k (readRevision R)) (encodeObjectKey k 0) 1 hlt
    refine eval_get hst.spaced hR rfl hit fun e he => ?_
    obtain ⟨rest, hrest⟩ := List.head?_eq_some_iff.mp he
    have hitems : (iter _ _ 1).items = (e.1, e.2) :: rest := hrest
    exact hst.decode_ne_panic (hit.head hitems).1
  exact ⟨hany, fun a => hany _ fun start stop limit h => a.descends st h limit⟩

/-- The compact record and one user key with two versions. -/
def recordAndVersions : Store :=
  ⟨[(getCompactKey [], uint64ToBytes 1), (encodeObjectKey [101] 0, indexValue 2 false),
    (encodeObjectKey [101] 1, [7]), (encodeObjectKey [101] 2, [8])], by decide⟩

theorem readable_recordAndVersions : Readable recordAndVersions := by
  intro key v hv
  have hmem : (key, v) ∈ recordAndVersions.entries := SortedMap.mem_entries.mpr hv
  simp only [recordAndVersions, List.mem_cons, Prod.mk.injEq, List.not_mem_nil, or_false] at hmem
  rcases hmem with ⟨rfl, -⟩ | ⟨rfl, -⟩ | ⟨rfl, -⟩ | ⟨rfl, -⟩
  · exact .inr (by decide)
  · exact .inl ⟨[101], 0, by decide +kernel, by decide, rfl⟩
  · exact .inl ⟨[101], 1, by decide +kernel, by decide, rfl⟩
  · exact .inl ⟨[101], 2, by decide +kernel, by decide, rfl⟩

theorem get_reads_newest_between :
    (get [101] 1).eval (readWith (Tikv.iter recordAndVersions)) () = some (.ok ([7], 1), ()) ∧
      Mvcc.Live (· = tombStoneBytes) (objects recordAndVersions [101]) 1 1 [7] := by
  obtain ⟨res, heval, hres⟩ := (get_reads_newest readable_recordAndVersions [101]
    (by decide : 1 < 2 ^ 64)).2 .tikv
  have hok : (get [101] 1).eval (readWith (Tikv.iter recordAndVersions)) () =
      some (.ok ([7], 1), ()) := by decide
  have heq : res = .ok ([7], 1) := (Prod.mk.inj (Option.some.inj (heval.symm.trans hok))).1
  exact ⟨hok, (hres.1 [7] 1).mp heq⟩

end KubeBrain

import KubeBrain.Backend.Leader
import KubeBrain.Backend.Solo
import KubeBrain.Scan.Point

/-! Writes of one user key and their effect on another: none, unless an internal key of the one
comes to lie between a version of the other and the bound of a point read, or the stored index of
the other is ahead of the sequencer. -/
namespace KubeBrain

open Interleaving Coder

/-- A write request that was carried out. -/
def Outcome.succeeded : Outcome → Bool
  | .created (.ok r) => r.succeeded
  | .updated (.ok r) => r.succeeded
  | .deleted (.ok r) => r.succeeded
  | _ => false

/-- The user key of a write request. -/
def Request.written : Request → Option Bytes
  | .create r => some r.key
  | .update r => some r.kv.key
  | .delete r => some r.key
  | _ => none

/-- Neither key followed by the separator starts the other. -/
def Apart (k k' : Bytes) : Prop := ¬ k ++ [splitByte] <+: k' ∧ ¬ k' ++ [splitByte] <+: k

instance (k k' : Bytes) : Decidable (Apart k k') := inferInstanceAs (Decidable (_ ∧ _))

theorem Apart.not_prefix {k k' : Bytes} (h : Apart k k') (hne : k ≠ k') (tail : Bytes) :
    ¬ k ++ [splitByte] <+: k' ++ splitByte :: tail := by
  intro hpre
  have hself : k' ++ [splitByte] <+: k' ++ splitByte :: tail := by simp
  rcases List.prefix_or_prefix_of_prefix hpre hself with hle | hle
  · rcases List.prefix_concat_iff.mp hle with heq | hin
    · exact hne (List.append_cancel_right heq)
    · exact h.1 hin
  · rcases List.prefix_concat_iff.mp hle with heq | hin
    · exact hne (List.append_cancel_right heq).symm
    · exact h.2 hin

/-- No internal key of another user key lies between two internal keys of `k`. -/
theorem Apart.not_between {k k' : Bytes} (h : Apart k k') (hne : k ≠ k') (r r' n : ℕ) :
    ¬ (encodeObjectKey k r ≤ encodeObjectKey k' n ∧
      encodeObjectKey k' n ≤ encodeObjectKey k r') := by
  rintro ⟨hlo, hhi⟩
  have hsplit (m : ℕ) : encodeObjectKey k m =
      (magicBytes ++ (k ++ [splitByte])) ++ uint64ToBytes m := by simp [encodeObjectKey]
  rw [hsplit] at hlo hhi
  have hpre := Bytes.prefix_of_between hlo hhi
  exact h.not_prefix hne _ ((List.prefix_append_right_inj magicBytes).mp hpre)

namespace Solo

variable {s s' : State} {k k' v : Bytes} {deleted : Bool} {cfg : Config}

/-- What other requests, their late commits, compactions and nodes make of an empty storage: any
internal key may be written or erased, a key of another kind is only too long to be mistaken for
a broken internal one, and an election may leave the sequencer anywhere. -/
inductive Reached : State → Prop
  | empty (deal committed : ℕ) : Reached ⟨.empty, deal, committed⟩
  | internal {s : State} (h : Reached s) (k v : Bytes) {r : ℕ} (hr : r < 2 ^ 64) :
      Reached { s with store := s.store.insert (encodeObjectKey k r) v }
  | record {s : State} (h : Reached s) (key val : Bytes)
      (hkey : magicBytes <+: key → 9 ≤ key.length) :
      Reached { s with store := s.store.insert key val }
  | erased {s : State} (h : Reached s) (key : Bytes) :
      Reached { s with store := s.store.erase key }
  | sequencer {s : State} (h : Reached s) (deal committed : ℕ) :
      Reached { s with dealRevision := deal, committedRevision := committed }

/-- Whatever else is stored, no read panics over it. -/
theorem Reached.length_le (h : Reached s) {key val : Bytes} (hget : s.store.get key = some val)
    (hmagic : magicBytes <+: key) : 9 ≤ key.length := by
  induction h with
  | empty deal committed => cases hget
  | internal h k' v' hr ih =>
    dsimp only at hget
    rw [SortedMap.get_insert] at hget
    split at hget
    · next heq =>
      rw [heq, length_encodeObjectKey]
      omega
    · exact ih hget
  | record h key' val' hkey ih =>
    dsimp only at hget
    rw [SortedMap.get_insert] at hget
    split at hget
    · next heq =>
      rw [heq] at hmagic ⊢
      exact hkey hmagic
    · exact ih hget
  | erased h key' ih =>
    dsimp only at hget
    rw [SortedMap.get_erase] at hget
    split at hget
    · cases hget
    · exact ih hget
  | sequencer h deal committed ih => exact ih hget

theorem Reached.wrote (h : Reached s) (hroom : Room 1 s) (k v : Bytes) (deleted : Bool) :
    Reached (s.wrote k v deleted) := by
  have hlt : s.dealRevision + 1 < 2 ^ 64 := by
    have := hroom.2.2
    omega
  have hindex := h.internal k (indexValue (s.dealRevision + 1) deleted) (r := 0) (by decide)
  exact (hindex.internal k v hlt).sequencer (s.dealRevision + 1) s.committedRevision

/-- No stored key lies above the version `m` of `k` and at or below the bound of `R`. -/
def Uncovered (st : Store) (k : Bytes) (m R : ℕ) : Prop :=
  ∀ key val, st.get key = some val → encodeObjectKey k m < key → encodeObjectKey k R < key

/-- A version with a value is what a point read comes upon first. -/
structure Found (st : Store) (k : Bytes) (R m : ℕ) (v : Bytes) : Prop where
  stored : objects st k m v
  value : v ≠ tombStoneBytes
  below : m ≤ R
  uncovered : Uncovered st k m R

/-- The first pair of a descending iteration is the version that was found. -/
theorem Found.eq_head {st : Store} {R m : ℕ} {key val : Bytes} (h : Found st k R m v)
    (hR : R < 2 ^ 64) (hget : st.get key = some val) (hle : key ≤ encodeObjectKey k R)
    (hmax : ∀ key' val', st.get key' = some val' → key' ≤ encodeObjectKey k R → key' ≤ key) :
    key = encodeObjectKey k m ∧ val = v := by
  have hup := hmax _ v h.stored.2.2 ((encodeObjectKey_le_iff k h.stored.2.1 hR).mpr h.below)
  have hkey : key = encodeObjectKey k m := by
    apply le_antisymm _ hup
    by_contra hlt
    exact absurd (h.uncovered key val hget (not_le.mp hlt)) (not_lt.mpr hle)
  rw [hkey, h.stored.2.2] at hget
  exact ⟨hkey, (Option.some.inj hget).symm⟩

theorem pointRead_error {st : Store} {R : ℕ} {e : Err} {t : State}
    (h : (getInternalVal .point k R).eval exec ⟨st, 0, 0⟩ = some (.error e, t)) :
    pointRead st k R = some (.error e) := by
  unfold pointRead get
  rw [Prog.eval_bind_some h]
  rfl

theorem pointRead_ok {st : Store} {R m : ℕ} {t : State}
    (h : (getInternalVal .point k R).eval exec ⟨st, 0, 0⟩ = some (.ok (v, m), t)) :
    pointRead st k R = some (if v = tombStoneBytes then .error .keyNotFound else .ok (v, m)) := by
  unfold pointRead get
  rw [Prog.eval_bind_some h]
  dsimp only
  split <;> rfl

/-- A point read answers the version that is found and does not find the key otherwise. -/
theorem pointRead_spec {R : ℕ} (hst : Reached s) (k : Bytes) (hR : R < 2 ^ 64) :
    (pointRead s.store k R = some (.error .keyNotFound) ∧
      ∀ m v, ¬ Found s.store k (readRevision R) m v) ∨
    ∃ m v, pointRead s.store k R = some (.ok (v, m)) ∧ Found s.store k (readRevision R) m v := by
  have hR' := readRevision_lt hR
  have hlt : encodeObjectKey k 0 < encodeObjectKey k (readRevision R) := by
    rw [← not_le, encodeObjectKey_le_iff k hR' (by decide)]
    exact not_le.mpr (readRevision_pos R)
  have hdesc := Engine.descends s.store hlt 1
  have heval : (getInternalVal .point k R).eval exec ⟨s.store, 0, 0⟩ = _ :=
    Prog.eval_call_bind (show exec (.kv (.iter .point (encodeObjectKey k (readRevision R))
      (encodeObjectKey k 0) 0 1)) ⟨s.store, 0, 0⟩ =
        some (.ok ⟨Engine.items s.store _ _ 1, none⟩, ⟨s.store, 0, 0⟩) from rfl) _
  cases hitems : Engine.items s.store (encodeObjectKey k (readRevision R))
      (encodeObjectKey k 0) 1 with
  | nil =>
    rw [hitems] at heval
    refine .inl ⟨pointRead_error heval, fun m v hv => ?_⟩
    have hstop := hdesc.first hitems _ v hv.stored.2.2
      ((encodeObjectKey_le_iff k hv.stored.2.1 hR').mpr hv.below)
    rw [encodeObjectKey_le_iff k hv.stored.2.1 (by decide)] at hstop
    exact absurd hv.stored.1 (not_lt.mpr hstop)
  | cons e rest =>
    obtain ⟨key, val⟩ := e
    obtain ⟨hget, hle, hmax⟩ := hdesc.head hitems
    have hhead (m : ℕ) (v : Bytes) (hv : Found s.store k (readRevision R) m v) :=
      hv.eq_head hR' hget hle hmax
    rw [hitems] at heval
    dsimp only at heval
    cases hdec : decode key with
    | ok k' m =>
      obtain ⟨rfl, hm⟩ := encode_of_decode hdec
      rw [hdec] at heval
      dsimp only at heval
      by_cases hother : m = 0 ∨ k' ≠ k
      · rw [if_pos hother] at heval
        refine .inl ⟨pointRead_error heval, fun m' v hv => ?_⟩
        obtain ⟨rfl, rfl⟩ := encodeObjectKey_injective hm hv.stored.2.1 (hhead m' v hv).1
        have hpos := hv.stored.1
        simp only [ne_eq, not_true_eq_false, or_false] at hother
        omega
      · rw [if_neg hother] at heval
        have hread := pointRead_ok heval
        push Not at hother
        obtain ⟨h0, rfl⟩ := hother
        by_cases htomb : val = tombStoneBytes
        · rw [if_pos htomb] at hread
          exact .inl ⟨hread, fun m' v hv => hv.value ((hhead m' v hv).2 ▸ htomb)⟩
        · rw [if_neg htomb] at hread
          refine .inr ⟨m, val, hread, ⟨Nat.pos_of_ne_zero h0, hm, hget⟩, htomb,
            (encodeObjectKey_le_iff _ hm hR').mp hle, fun key' val' hget' hlt' => ?_⟩
          by_contra hle'
          exact absurd (hmax key' val' hget' (not_lt.mp hle')) (not_le.mpr hlt')
    | panic =>
      have hmem : (key, val) ∈ Engine.items s.store (encodeObjectKey k (readRevision R))
          (encodeObjectKey k 0) 1 := hitems ▸ List.mem_cons_self
      unfold Engine.items at hmem
      rw [if_pos hlt] at hmem
      obtain ⟨-, hlow, -⟩ := SortedMap.mem_rangeDesc.mp (List.mem_of_mem_take hmem)
      have hmagic : magicBytes <+: key := Bytes.prefix_of_between hlow.le hle
      have hshort := (decode_eq_panic_iff hmagic).mp hdec
      exact absurd (hst.length_le hget hmagic) (not_le.mpr hshort)
    | badMagic =>
      rw [hdec] at heval
      refine .inl ⟨pointRead_error heval, fun m v hv => ?_⟩
      rw [(hhead m v hv).1, decode_encodeObjectKey k hv.stored.2.1] at hdec
      cases hdec
    | badSplit =>
      rw [hdec] at heval
      refine .inl ⟨pointRead_error heval, fun m v hv => ?_⟩
      rw [(hhead m v hv).1, decode_encodeObjectKey k hv.stored.2.1] at hdec
      cases hdec

theorem succeeded_created {n : ℕ} {err : Option Err} :
    (Outcome.created (created n err)).succeeded = true ↔ err = none := by
  cases err with
  | none => exact ⟨fun _ => rfl, fun _ => rfl⟩
  | some e =>
    unfold created
    dsimp only
    split <;> exact ⟨nofun, nofun⟩

theorem succeeded_updated {n : ℕ} {read : Option (Except Err (Bytes × ℕ))} {err : Option Err}
    {a : Except Err UpdateResponse} (h : updated n k read err = some a) :
    (Outcome.updated a).succeeded = true ↔ err = none := by
  cases err with
  | none =>
    obtain rfl := Option.some.inj h
    exact ⟨fun _ => rfl, fun _ => rfl⟩
  | some e =>
    unfold updated at h
    dsimp only at h
    split at h
    · obtain ⟨res, -, rfl⟩ := Option.map_eq_some_iff.mp h
      split <;> exact ⟨nofun, nofun⟩
    · obtain rfl := Option.some.inj h
      exact ⟨nofun, nofun⟩

theorem succeeded_deleted {n : ℕ} {old : KeyVal} {read : Option (Except Err (Bytes × ℕ))}
    {err : Option Err} {a : Except Err DeleteResponse}
    (h : Solo.deleted n k old read err = some a) :
    (Outcome.deleted a).succeeded = true ↔ err = none := by
  cases err with
  | none =>
    obtain rfl := Option.some.inj h
    exact ⟨fun _ => rfl, fun _ => rfl⟩
  | some e =>
    unfold Solo.deleted at h
    dsimp only at h
    split at h
    · obtain rfl := Option.some.inj h
      exact ⟨nofun, nofun⟩
    · split at h
      · obtain ⟨res, -, rfl⟩ := Option.map_eq_some_iff.mp h
        split <;> exact ⟨nofun, nofun⟩
      · obtain rfl := Option.some.inj h
        exact ⟨nofun, nofun⟩

/-- A request runs alone and is carried out. -/
def Succeeds (cfg : Config) (s : State) (r : Request) (s' : State) : Prop :=
  ∃ a, (Leader.handle cfg r).eval exec s = some (a, s') ∧ a.succeeded = true

theorem succeeds_create (hroom : Room 1 s) {r : CreateRequest} : Succeeds cfg s (.create r) s' ↔
      createError s.store r.key (s.dealRevision + 1) = none ∧ s' = s.wrote r.key r.value false := by
  have heval : (Leader.handle cfg (.create r)).eval exec s = _ :=
    Prog.eval_bind_some (eval_handleCreate hroom r) _
  unfold Succeeds
  rw [heval]
  constructor
  · rintro ⟨a, ha, hs⟩
    obtain ⟨rfl, rfl⟩ := Prod.mk.inj (Option.some.inj ha)
    have hnone := succeeded_created.mp hs
    exact ⟨hnone, by rw [hnone]; rfl⟩
  · rintro ⟨hnone, rfl⟩
    rw [hnone]
    exact ⟨_, rfl, rfl⟩

theorem succeeds_update (hroom : Room 1 s) {r : UpdateRequest} : Succeeds cfg s (.update r) s' ↔
      updateError s r.kv = none ∧ s' = s.wrote r.kv.key r.kv.value false := by
  have heval : (Leader.handle cfg (.update r)).eval exec s = _ := Prog.eval_bind _ _ s
  unfold Succeeds
  rw [heval, eval_handleUpdate hroom]
  constructor
  · rintro ⟨a, ha, hs⟩
    obtain ⟨x, hx, hret⟩ := Option.bind_eq_some_iff.mp ha
    obtain ⟨a', ha', rfl⟩ := Option.map_eq_some_iff.mp hx
    obtain ⟨rfl, rfl⟩ := Prod.mk.inj (Option.some.inj hret)
    have hnone := (succeeded_updated ha').mp hs
    exact ⟨hnone, by rw [hnone]; rfl⟩
  · rintro ⟨hnone, rfl⟩
    rw [hnone]
    exact ⟨_, rfl, rfl⟩

theorem succeeds_delete (hroom : Room 1 s) {r : DeleteRequest} :
    Succeeds cfg s (.delete r) s' ↔ ∃ v m, pointRead s.store r.key 0 = some (.ok (v, m)) ∧
      ¬ Drifts s r.revision ∧ deleteError s r.key r.revision m = none ∧
        s' = s.wrote r.key tombStoneBytes true := by
  have heval : (Leader.handle cfg (.delete r)).eval exec s = _ := Prog.eval_bind _ _ s
  have hdelete := eval_handleDelete hroom r
  unfold Succeeds
  rw [heval]
  constructor
  · rintro ⟨a, ha, hs⟩
    obtain ⟨x, hx, hret⟩ := Option.bind_eq_some_iff.mp ha
    rw [hdelete] at hx
    split at hx
    · cases hx
    · obtain ⟨a', ha', rfl⟩ := Option.map_eq_some_iff.mp hx
      obtain ⟨rfl, rfl⟩ := Prod.mk.inj (Option.some.inj hret)
      exact absurd ((succeeded_deleted ha').mp hs) nofun
    next v m hread =>
      split at hx
      · obtain rfl := Option.some.inj hx
        obtain ⟨rfl, rfl⟩ := Prod.mk.inj (Option.some.inj hret)
        cases hs
      next hp =>
        obtain ⟨a', ha', rfl⟩ := Option.map_eq_some_iff.mp hx
        obtain ⟨rfl, rfl⟩ := Prod.mk.inj (Option.some.inj hret)
        have hnone := (succeeded_deleted ha').mp hs
        exact ⟨v, m, hread, hp, hnone, by rw [hnone]; rfl⟩
  · rintro ⟨v, m, hread, hp, hnone, rfl⟩
    rw [hread] at hdelete
    dsimp only at hdelete
    rw [if_neg hp, hnone] at hdelete
    rw [hdelete]
    exact ⟨_, rfl, rfl⟩

/-- A write request that is carried out writes one version of its key. -/
theorem Succeeds.wrote {r : Request} (h : Succeeds cfg s r s') (hroom : Room 1 s)
    (hr : r.written = some k) : ∃ v d, s' = s.wrote k v d := by
  cases r with
  | create r =>
    obtain rfl := Option.some.inj hr
    exact ⟨_, _, ((succeeds_create hroom).mp h).2⟩
  | update r =>
    obtain rfl := Option.some.inj hr
    exact ⟨_, _, ((succeeds_update hroom).mp h).2⟩
  | delete r =>
    obtain rfl := Option.some.inj hr
    obtain ⟨-, -, -, -, -, hs'⟩ := (succeeds_delete hroom).mp h
    exact ⟨_, _, hs'⟩
  | _ => cases hr

/-- Whatever a write request that runs alone answers, it deals one revision and may write a
version with it. -/
theorem eval_written {r : Request} (hroom : Room 1 s) (hr : r.written = some k) {a : Outcome}
    (h : (Leader.handle cfg r).eval exec s = some (a, s')) :
    s' = s.skipped ∨ ∃ v d, s' = s.wrote k v d := by
  have hafter (err : Option Err) (v : Bytes) (d : Bool) :
      s.after err k v d = s.skipped ∨ ∃ v' d', s.after err k v d = s.wrote k v' d' := by
    cases err with
    | none => exact .inr ⟨v, d, rfl⟩
    | some e => exact .inl rfl
  cases r with
  | create r =>
    obtain rfl := Option.some.inj hr
    have heval : (Leader.handle cfg (.create r)).eval exec s = _ :=
      Prog.eval_bind_some (eval_handleCreate hroom r) _
    rw [heval] at h
    obtain ⟨-, rfl⟩ := Prod.mk.inj (Option.some.inj h)
    exact hafter _ _ _
  | update r =>
    obtain rfl := Option.some.inj hr
    have heval : (Leader.handle cfg (.update r)).eval exec s = _ := Prog.eval_bind _ _ s
    rw [heval, eval_handleUpdate hroom] at h
    obtain ⟨x, hx, hret⟩ := Option.bind_eq_some_iff.mp h
    obtain ⟨a', -, rfl⟩ := Option.map_eq_some_iff.mp hx
    obtain ⟨-, rfl⟩ := Prod.mk.inj (Option.some.inj hret)
    exact hafter _ _ _
  | delete r =>
    obtain rfl := Option.some.inj hr
    have heval : (Leader.handle cfg (.delete r)).eval exec s = _ := Prog.eval_bind _ _ s
    rw [heval, eval_handleDelete hroom] at h
    obtain ⟨x, hx, hret⟩ := Option.bind_eq_some_iff.mp h
    obtain ⟨-, rfl⟩ := Prod.mk.inj (Option.some.inj hret)
    split at hx
    · cases hx
    · obtain ⟨a', -, rfl⟩ := Option.map_eq_some_iff.mp hx
      exact .inl rfl
    · split at hx
      · obtain rfl := Option.some.inj hx
        exact .inl rfl
      · obtain ⟨a', -, rfl⟩ := Option.map_eq_some_iff.mp hx
        exact hafter _ _ _
  | _ => cases hr

theorem Reached.request (h : Reached s) (hroom : Room 1 s) {r : Request} (hr : r.written = some k)
    {a : Outcome} (heval : (Leader.handle cfg r).eval exec s = some (a, s')) : Reached s' := by
  rcases eval_written hroom hr heval with rfl | ⟨v, d, rfl⟩
  · exact h.sequencer _ _
  · exact h.wrote hroom k v d

section Wrote

variable {key : Bytes}

/-- The keys that a write of `k'` stores. -/
def Stores (s : State) (k' key : Bytes) : Prop :=
  key = encodeRevisionKey k' ∨ key = encodeObjectKey k' (s.dealRevision + 1)

theorem get_wrote (h : ¬ Stores s k' key) :
    (s.wrote k' v deleted).store.get key = s.store.get key := by
  unfold Stores at h
  push Not at h
  simp only [State.wrote]
  rw [SortedMap.get_insert_of_ne _ _ h.2, SortedMap.get_insert_of_ne _ _ h.1]

theorem get_wrote_stores (h : Stores s k' key) :
    ∃ val, (s.wrote k' v deleted).store.get key = some val := by
  simp only [State.wrote]
  rw [SortedMap.get_insert]
  split
  · exact ⟨v, rfl⟩
  · next hne =>
    rw [h.resolve_right hne]
    exact ⟨_, SortedMap.get_insert_self _ _ _⟩

theorem not_stores (hne : k ≠ k') (hn : s.dealRevision + 1 < 2 ^ 64) {m : ℕ} (hm : m < 2 ^ 64) :
    ¬ Stores s k' (encodeObjectKey k m) := by
  rintro (h | h)
  · exact hne (encodeObjectKey_injective hm (by decide) h).1
  · exact hne (encodeObjectKey_injective hm hn h).1

/-- A write of `k'` puts a key between a version of `k` that has a value and the bound of a read
that finds this version. -/
def Hides (s : State) (k k' : Bytes) : Prop :=
  ∃ m v R key, R < 2 ^ 64 ∧ Found s.store k R m v ∧ Stores s k' key ∧
    encodeObjectKey k m < key ∧ key ≤ encodeObjectKey k R

/-- Keys apart never hide one another. -/
theorem Apart.not_hides (h : Apart k k') (hne : k ≠ k') : ¬ Hides s k k' := by
  rintro ⟨m, v, R, key, -, -, hkey | hkey, hlo, hhi⟩
  · subst hkey
    exact h.not_between hne m R 0 ⟨hlo.le, hhi⟩
  · subst hkey
    exact h.not_between hne m R _ ⟨hlo.le, hhi⟩

theorem found_wrote_iff {R m : ℕ} {w : Bytes} (hne : k ≠ k') (hn : s.dealRevision + 1 < 2 ^ 64) :
    Found (s.wrote k' v deleted).store k R m w ↔ Found s.store k R m w ∧
      ∀ key, Stores s k' key → encodeObjectKey k m < key → encodeObjectKey k R < key := by
  have hobject (h : m < 2 ^ 64) : (s.wrote k' v deleted).store.get (encodeObjectKey k m) =
      s.store.get (encodeObjectKey k m) := get_wrote (not_stores hne hn h)
  have hadded (key : Bytes) (h : Stores s k' key) :
      ∃ val, (s.wrote k' v deleted).store.get key = some val := get_wrote_stores h
  constructor
  · intro h
    have hstored : objects s.store k m w :=
      ⟨h.stored.1, h.stored.2.1, (hobject h.stored.2.1).symm.trans h.stored.2.2⟩
    refine ⟨⟨hstored, h.value, h.below, fun key val hget hlt => ?_⟩, fun key hkey hlt => ?_⟩
    · by_cases hkey : Stores s k' key
      · obtain ⟨val', hget'⟩ := hadded key hkey
        exact h.uncovered key val' hget' hlt
      · exact h.uncovered key val ((get_wrote hkey).trans hget) hlt
    · obtain ⟨val, hget⟩ := hadded key hkey
      exact h.uncovered key val hget hlt
  · rintro ⟨h, hclear⟩
    refine ⟨⟨h.stored.1, h.stored.2.1, (hobject h.stored.2.1).trans h.stored.2.2⟩, h.value, h.below,
      fun key val hget hlt => ?_⟩
    by_cases hkey : Stores s k' key
    · exact hclear key hkey hlt
    · exact h.uncovered key val ((get_wrote hkey).symm.trans hget) hlt

theorem Found.unique {st : Store} {R m m' : ℕ} {w : Bytes} (h : Found st k R m v)
    (h' : Found st k R m' w) (hR : R < 2 ^ 64) : m = m' ∧ v = w := by
  have hle := (encodeObjectKey_le_iff k h.stored.2.1 hR).mpr h.below
  have hmax (key val : Bytes) (hget : st.get key = some val) (hbound : key ≤ encodeObjectKey k R) :
      key ≤ encodeObjectKey k m := by
    by_contra hlt
    exact absurd (h.uncovered key val hget (not_le.mp hlt)) (not_lt.mpr hbound)
  obtain ⟨hkey, hval⟩ := h'.eq_head hR h.stored.2.2 hle hmax
  exact ⟨(encodeObjectKey_injective h.stored.2.1 h'.stored.2.1 hkey).2, hval⟩

/-- Point reads of `k` are the same after a write of `k'`, unless it hides a version of `k`. -/
theorem pointRead_wrote_iff (h : Reached s) (hroom : Room 1 s) (hne : k ≠ k') :
    (∀ R < 2 ^ 64, pointRead (s.wrote k' v deleted).store k R = pointRead s.store k R) ↔
      ¬ Hides s k k' := by
  have hn : s.dealRevision + 1 < 2 ^ 64 := by
    have := hroom.2.2
    omega
  have hafter := h.wrote hroom k' v deleted
  constructor
  · rintro hsame ⟨m, w, R, key, hR, hfound, hkey, hlo, hhi⟩
    -- the bound is above a version, so it is not the zero that names the latest
    have hR0 : readRevision R = R := by
      have hpos := hfound.stored.1
      have hbelow := hfound.below
      unfold readRevision
      rw [if_neg (by omega)]
    have hgone : ¬ Found (s.wrote k' v deleted).store k R m w := fun hstill =>
      absurd (((found_wrote_iff hne hn).mp hstill).2 key hkey hlo) (not_lt.mpr hhi)
    have hread := hsame R hR
    rcases pointRead_spec h k hR with ⟨-, hnone⟩ | ⟨m₁, w₁, hread₁, hfound₁⟩
    · rw [hR0] at hnone
      exact hnone m w hfound
    · rw [hR0] at hfound₁
      obtain ⟨rfl, rfl⟩ := hfound.unique hfound₁ hR
      rcases pointRead_spec hafter k hR with ⟨hread₂, -⟩ | ⟨m₂, w₂, hread₂, hfound₂⟩
      · rw [hread₁, hread₂] at hread
        cases hread
      · rw [hread₁, hread₂] at hread
        obtain ⟨rfl, rfl⟩ : w₂ = w ∧ m₂ = m := by simpa using hread
        rw [hR0] at hfound₂
        exact hgone hfound₂
  · intro hhides R hR
    have hfound (m : ℕ) (w : Bytes) : Found (s.wrote k' v deleted).store k (readRevision R) m w ↔
        Found s.store k (readRevision R) m w := by
      rw [found_wrote_iff hne hn]
      refine ⟨And.left, fun hw => ⟨hw, fun key hkey hlo => ?_⟩⟩
      by_contra hhi
      exact hhides ⟨m, w, _, key, readRevision_lt hR, hw, hkey, hlo, not_lt.mp hhi⟩
    rcases pointRead_spec h k hR with ⟨hread₁, hnone⟩ | ⟨m₁, w₁, hread₁, hfound₁⟩
    · rcases pointRead_spec hafter k hR with ⟨hread₂, -⟩ | ⟨m₂, w₂, -, hfound₂⟩
      · rw [hread₁, hread₂]
      · exact absurd ((hfound m₂ w₂).mp hfound₂) (hnone m₂ w₂)
    · rcases pointRead_spec hafter k hR with ⟨-, hnone⟩ | ⟨m₂, w₂, hread₂, hfound₂⟩
      · exact absurd ((hfound m₁ w₁).mpr hfound₁) (hnone m₁ w₁)
      · obtain ⟨rfl, rfl⟩ := hfound₁.unique ((hfound m₂ w₂).mp hfound₂) (readRevision_lt hR)
        rw [hread₁, hread₂]

end Wrote

/-- The index of `k` names a revision that is not dealt yet, and one that is dealt for another
key decides a request for `k`: the deletion it records is no longer too new for a creation, it no
longer drifts for an update, or the version is no longer too new for a deletion. -/
inductive Ahead (s : State) (k : Bytes) : Prop
  | create (old : Bytes) (hget : s.store.get (encodeRevisionKey k) = some old)
      (hparse : parseRevision old = .ok (s.dealRevision + 1) true)
  | update (hget : s.store.get (encodeRevisionKey k) = some (uint64ToBytes (s.dealRevision + 2)))
  | delete (v : Bytes)
      (hget : s.store.get (encodeRevisionKey k) = some (uint64ToBytes (s.dealRevision + 1)))
      (hfound : Found s.store k maxUint64 (s.dealRevision + 1) v)

/-- Two states that agree on what requests for `k` read; one more revision was dealt in the
second. -/
structure Agree (k : Bytes) (s t : State) : Prop where
  index : t.store.get (encodeRevisionKey k) = s.store.get (encodeRevisionKey k)
  read : pointRead t.store k 0 = pointRead s.store k 0
  deal : t.dealRevision = s.dealRevision + 1

section Agree

variable {t : State}

theorem casError_of_agree (h : Agree k s t) (old : Bytes) :
    casError t.store k old = casError s.store k old := by
  unfold casError
  rw [h.index]

theorem casError_eq_none {st : Store} {old : Bytes} :
    casError st k old = none ↔ st.get (encodeRevisionKey k) = some old := by
  unfold casError
  split <;> simp_all

theorem createError_of_agree (h : Agree k s t) (hahead : ¬ Ahead s k) :
    createError t.store k (t.dealRevision + 1) = createError s.store k (s.dealRevision + 1) := by
  unfold createError
  rw [h.index, h.deal]
  cases hget : s.store.get (encodeRevisionKey k) with
  | none => rfl
  | some old =>
    dsimp only
    cases hparse : parseRevision old with
    | invalidFormat => rfl
    | ok p d =>
      dsimp only
      cases d with
      | false => rfl
      | true =>
        have hp : p ≠ s.dealRevision + 1 := by
          rintro rfl
          exact hahead (.create old hget hparse)
        simp only [true_and, show p < s.dealRevision + 1 + 1 ↔ p < s.dealRevision + 1 by omega]

theorem updateError_of_agree {kv : KeyValue} (h : Agree kv.key s t) (hahead : ¬ Ahead s kv.key) :
    updateError t kv = none ↔ updateError s kv = none := by
  unfold updateError
  by_cases h0 : kv.revision = 0
  · rw [if_pos h0, if_pos h0, createError_of_agree h hahead]
  · rw [if_neg h0, if_neg h0, casError_of_agree h]
    by_cases hp : Drifts s kv.revision
    · by_cases hp' : Drifts t kv.revision
      · rw [if_pos hp, if_pos hp']
      · rw [if_pos hp, if_neg hp', casError_eq_none]
        have hnext : kv.revision = s.dealRevision + 2 := by
          have hdeal := h.deal
          unfold Drifts at hp hp'
          omega
        rw [hnext]
        simp only [reduceCtorEq, iff_false]
        exact fun hget => hahead (.update hget)
    · have hp' : ¬ Drifts t kv.revision := by
        have hdeal := h.deal
        unfold Drifts at hp ⊢
        omega
      rw [if_neg hp, if_neg hp']

theorem deleteError_eq_none {p m : ℕ} : deleteError s k p m = none ↔
    (p = 0 ∨ p = m) ∧ m ≤ s.dealRevision ∧
      s.store.get (encodeRevisionKey k) = some (uint64ToBytes m) := by
  unfold deleteError
  by_cases hp : 0 < p ∧ p ≠ m
  · rw [if_pos hp]
    simp only [reduceCtorEq, false_iff]
    omega
  · rw [if_neg hp]
    by_cases hm : s.dealRevision + 1 ≤ m
    · rw [if_pos hm]
      simp only [reduceCtorEq, false_iff]
      omega
    · rw [if_neg hm, casError_eq_none]
      have hp' : p = 0 ∨ p = m := by omega
      have hm' : m ≤ s.dealRevision := by omega
      simp only [hp', hm', true_and]

/-- Whether a write request for `k` is carried out is the same in both states. -/
theorem succeeds_iff_of_agree (hst : Reached s) (h : Agree k s t) (hahead : ¬ Ahead s k)
    (hs : Room 1 s) (ht : Room 1 t) {r : Request} (hr : r.written = some k) :
    (∃ t', Succeeds cfg t r t') ↔ ∃ s', Succeeds cfg s r s' := by
  have hdeal := h.deal
  cases r with
  | create r =>
    obtain rfl := Option.some.inj hr
    simp only [succeeds_create hs, succeeds_create ht, createError_of_agree h hahead,
      exists_and_left, exists_eq]
  | update r =>
    obtain rfl := Option.some.inj hr
    simp only [succeeds_update hs, succeeds_update ht, updateError_of_agree h hahead,
      exists_and_left, exists_eq]
  | delete r =>
    obtain rfl := Option.some.inj hr
    simp only [succeeds_delete hs, succeeds_delete ht, h.read, deleteError_eq_none, h.index]
    constructor
    · rintro ⟨-, v, m, hread, -, ⟨hp, hm, hget⟩, -⟩
      have hle : m ≤ s.dealRevision := by
        -- the version is not ahead of the sequencer of the first state either
        by_contra hlt
        obtain rfl : m = s.dealRevision + 1 := by omega
        rcases pointRead_spec hst r.key (R := 0) (by decide) with ⟨hnone, -⟩ | ⟨m', v', hread', hv⟩
        · rw [hread] at hnone
          cases hnone
        · rw [hread] at hread'
          obtain ⟨rfl, rfl⟩ : v' = v ∧ m' = s.dealRevision + 1 := by simpa using hread'.symm
          exact hahead (.delete v' hget hv)
      refine ⟨_, v, m, hread, ?_, ⟨hp, hle, hget⟩, rfl⟩
      unfold Drifts
      omega
    · rintro ⟨-, v, m, hread, -, ⟨hp, hm, hget⟩, -⟩
      refine ⟨_, v, m, hread, ?_, ⟨hp, by omega, hget⟩, rfl⟩
      unfold Drifts
      omega
  | _ => cases hr

/-- Where the index of `k` is ahead, some request for `k` starts to be carried out. -/
theorem Ahead.exists_request (hahead : Ahead s k) (cfg : Config) (hst : Reached s)
    (h : Agree k s t) (hs : Room 1 s) (ht : Room 1 t) :
    ∃ r : Request, r.written = some k ∧ (∃ t', Succeeds cfg t r t') ∧
      ¬ ∃ s', Succeeds cfg s r s' := by
  have hdeal := h.deal
  cases hahead with
  | create old hget hparse =>
    have herr (st : Store) (n : ℕ) (hst : st.get (encodeRevisionKey k) = some old) :
        createError st k n = if s.dealRevision + 1 < n then none else some .casFailed := by
      simp [createError, hst, hparse]
    refine ⟨.create ⟨k, [], 0⟩, rfl, ⟨_, (succeeds_create ht).mpr ⟨?_, rfl⟩⟩, ?_⟩
    · rw [herr _ _ (h.index.trans hget), if_pos (by omega)]
    · rintro ⟨s', hs'⟩
      have hnone := ((succeeds_create hs).mp hs').1
      rw [herr _ _ hget, if_neg (by omega)] at hnone
      cases hnone
  | update hget =>
    have h0 : s.dealRevision + 2 ≠ 0 := by omega
    refine ⟨.update ⟨⟨k, [], s.dealRevision + 2⟩, 0⟩, rfl,
      ⟨_, (succeeds_update ht).mpr ⟨?_, rfl⟩⟩, ?_⟩
    · unfold updateError
      rw [if_neg h0, if_neg (by unfold Drifts; dsimp only; omega)]
      exact casError_eq_none.mpr (h.index.trans hget)
    · rintro ⟨s', hs'⟩
      have hnone := ((succeeds_update hs).mp hs').1
      unfold updateError at hnone
      rw [if_neg h0, if_pos (by unfold Drifts; dsimp only; omega)] at hnone
      cases hnone
  | delete v hget hfound =>
    have hread : pointRead s.store k 0 = some (.ok (v, s.dealRevision + 1)) := by
      rcases pointRead_spec hst k (R := 0) (by decide) with ⟨-, hnone⟩ | ⟨m', v', hread', hv⟩
      · exact absurd hfound (hnone _ _)
      · obtain ⟨rfl, rfl⟩ := hfound.unique hv (by decide)
        exact hread'
    refine ⟨.delete ⟨k, 0⟩, rfl, ⟨_, (succeeds_delete ht).mpr ⟨v, s.dealRevision + 1,
      h.read.trans hread, fun hp => absurd hp.1 (lt_irrefl 0), ?_, rfl⟩⟩, ?_⟩
    · exact deleteError_eq_none.mpr ⟨.inl rfl, hdeal.ge, h.index.trans hget⟩
    · rintro ⟨s', hs'⟩
      obtain ⟨w, m, hread', -, herr, -⟩ := (succeeds_delete hs).mp hs'
      rw [hread] at hread'
      obtain ⟨rfl, rfl⟩ : v = w ∧ s.dealRevision + 1 = m := by simpa using hread'
      have := (deleteError_eq_none.mp herr).2.1
      omega

end Agree

theorem agree_of_wrote (hne : k ≠ k') (hn : s.dealRevision + 1 < 2 ^ 64) (c : ℕ)
    (hread : pointRead (s.wrote k' v deleted).store k 0 = pointRead s.store k 0) :
    Agree k s { s.wrote k' v deleted with committedRevision := c } where
  index := get_wrote (not_stores hne hn (m := 0) (by decide))
  read := hread
  deal := rfl

/-- In every state that is reached, a write of another key that is carried out leaves the reads
of `k` and the success of its writes as they were, unless the write hides a version of `k` or the
index of `k` is ahead of the sequencer. -/
theorem keys_apart_iff (cfg : Config) (h : Reached s) (hroom : Room 2 s) (hne : k ≠ k')
    {r' : Request} (hr' : r'.written = some k') (hs : Succeeds cfg s r' s') :
    ((∀ R < 2 ^ 64, pointRead s'.store k R = pointRead s.store k R) ∧
      ∀ c, s.committedRevision ≤ c → c ≤ s'.dealRevision → ∀ r : Request, r.written = some k →
        ((∃ t, Succeeds cfg { s' with committedRevision := c } r t) ↔ ∃ t, Succeeds cfg s r t)) ↔
      ¬ Hides s k k' ∧ ¬ Ahead s k := by
  obtain ⟨hle, hring, hlt⟩ := hroom
  have hroom₁ : Room 1 s := ⟨hle, by omega, by omega⟩
  obtain ⟨v, d, rfl⟩ := hs.wrote hroom₁ hr'
  have hn : s.dealRevision + 1 < 2 ^ 64 := by omega
  have hdeal : (s.wrote k' v d).dealRevision = s.dealRevision + 1 := rfl
  have hroom' (c : ℕ) (hc : s.committedRevision ≤ c) (hc' : c ≤ s.dealRevision + 1) :
      Room 1 { s.wrote k' v d with committedRevision := c } := by
    refine ⟨hc', ?_, ?_⟩
    · change s.dealRevision + 1 + 1 < c + watchersChanCapacity
      omega
    · change s.dealRevision + 1 + 1 < 2 ^ 63
      omega
  rw [pointRead_wrote_iff h hroom₁ hne, hdeal]
  apply and_congr_right
  intro hhides
  have hread : pointRead (s.wrote k' v d).store k 0 = pointRead s.store k 0 :=
    (pointRead_wrote_iff h hroom₁ hne).mpr hhides 0 (by decide)
  constructor
  · intro hsame hahead
    obtain ⟨r, hr, hafter, hbefore⟩ := hahead.exists_request cfg h
      (agree_of_wrote hne hn s.committedRevision hread) hroom₁ (hroom' _ le_rfl (by omega))
    exact hbefore ((hsame _ le_rfl (by omega) r hr).mp hafter)
  · intro hahead c hc hc' r hr
    exact succeeds_iff_of_agree h (agree_of_wrote hne hn c hread) hahead hroom₁ (hroom' c hc hc') hr

/-- A node without key prefix. -/
def bareConfig : Config := ⟨true, [], [], 0, false⟩

/-- An empty storage in which the key `a` was created. -/
def oneKey : State := { (⟨.empty, 0, 0⟩ : State).wrote [97] [1] false with committedRevision := 1 }

theorem reached_oneKey : Reached oneKey :=
  ((Reached.empty 0 0).wrote (by decide) [97] [1] false).sequencer 1 1

theorem not_ahead_oneKey : ¬ Ahead oneKey [97] := by
  have hindex : oneKey.store.get (encodeRevisionKey [97]) = some (uint64ToBytes 1) := by
    decide +kernel
  intro h
  cases h with
  | create old hget hparse =>
    rw [hindex] at hget
    obtain rfl := Option.some.inj hget
    revert hparse
    decide
  | update hget =>
    rw [hindex] at hget
    exact absurd (Option.some.inj hget) (by decide)
  | delete v hget hfound =>
    rw [hindex] at hget
    exact absurd (Option.some.inj hget) (by decide)

theorem keys_apart_other_letter : ∃ s', Succeeds bareConfig oneKey (.create ⟨[98], [2], 0⟩) s' ∧
    pointRead s'.store [97] 0 = pointRead oneKey.store [97] 0 := by
  have hs : Succeeds bareConfig oneKey (.create ⟨[98], [2], 0⟩) (oneKey.wrote [98] [2] false) :=
    (succeeds_create (by decide)).mpr ⟨by decide +kernel, rfl⟩
  have hne : ([97] : Bytes) ≠ [98] := by decide
  have hhides : ¬ Hides oneKey [97] [98] := Apart.not_hides (by decide) hne
  have hsame := (keys_apart_iff bareConfig reached_oneKey (by decide) hne rfl hs).mpr
    ⟨hhides, not_ahead_oneKey⟩
  exact ⟨_, hs, hsame.1 0 (by decide)⟩

/-- Internal keys of `a$b` lie between the versions of `a` and the start of its point reads. -/
theorem create_hides_key : Succeeds bareConfig oneKey (.create ⟨[97, 36, 98], [2], 0⟩)
      (oneKey.wrote [97, 36, 98] [2] false) ∧
    pointRead oneKey.store [97] 0 = some (.ok ([1], 1)) ∧
    pointRead (oneKey.wrote [97, 36, 98] [2] false).store [97] 0 = some (.error .keyNotFound) ∧
    (∃ t, Succeeds bareConfig oneKey (.delete ⟨[97], 1⟩) t) ∧
    ¬ ∃ t, Succeeds bareConfig (oneKey.wrote [97, 36, 98] [2] false) (.delete ⟨[97], 1⟩) t := by
  have hafter : pointRead (oneKey.wrote [97, 36, 98] [2] false).store [97] 0 =
      some (.error .keyNotFound) := by decide +kernel
  refine ⟨(succeeds_create (by decide)).mpr ⟨by decide +kernel, rfl⟩, by decide +kernel,
    hafter, ?_, ?_⟩
  · exact ⟨_, (succeeds_delete (by decide)).mpr
      ⟨[1], 1, by decide +kernel, by decide, by decide +kernel, rfl⟩⟩
  · rintro ⟨t, ht⟩
    obtain ⟨v, m, hread, -⟩ := (succeeds_delete (by decide)).mp ht
    rw [hafter] at hread
    cases hread

end Solo
end KubeBrain

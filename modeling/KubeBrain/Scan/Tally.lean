import KubeBrain.Backend.Scanner
import KubeBrain.Storage.Engine

/-! What a scan worker makes of the pairs of its iterator when no deletion fails, as a fold
over the pairs, and how the fold splits where the user key changes. -/
namespace KubeBrain

open Coder

namespace Worker

/-- What a worker has seen last, found and deleted. -/
structure Tally where
  prevUserKey : Bytes
  prevRevision : ℕ
  prevValue : Bytes
  found : List KeyValue
  deleted : List Bytes

/-- The pair holds an index value that the TTL branch cannot read. -/
def Malformed (ttl : Bool) (w : WorkerConfig) (e : Bytes × Bytes) : Prop :=
  match decode e.1 with
  | .panic => True
  | .ok k r => ¬ (ttl ∨ w.timeoutRevision = 0 ∨ ¬ contains k events) ∧ r = 0 ∧ e.2.length < 8
  | _ => False

instance (ttl : Bool) (w : WorkerConfig) (e : Bytes × Bytes) : Decidable (Malformed ttl w e) := by
  unfold Malformed
  split <;> infer_instance

def expired (ttl : Bool) (w : WorkerConfig) (k : Bytes) (r : ℕ) (value : Bytes) : Bool :=
  if ttl ∨ w.timeoutRevision = 0 ∨ ¬ contains k events then false
  else if r = 0 then decide (Bytes.toNatBE (value.take 8) ≤ w.timeoutRevision)
  else decide (r ≤ w.timeoutRevision)

namespace Tally

def start : Tally := ⟨[], 0, [], [], []⟩

/-- The pair seen last, if it is to be reported. -/
def last (t : Tally) : List KeyValue :=
  if 0 < t.prevRevision ∧ t.prevValue ≠ tombStoneBytes then
    [⟨t.prevUserKey, t.prevValue, t.prevRevision⟩]
  else []

/-- All that is reported when the iterator ends here. -/
def all (t : Tally) : List KeyValue := t.found ++ t.last

def delete (t : Tally) (key : Bytes) : Tally := { t with deleted := t.deleted ++ [key] }

def see (t : Tally) (k : Bytes) (r : ℕ) (value : Bytes) : Tally :=
  { t with prevUserKey := k, prevRevision := r, prevValue := value }

/-- Effect of `processPrev`. -/
def prev (w : WorkerConfig) (k : Bytes) (t : Tally) : Tally :=
  if k ≠ t.prevUserKey then { t with found := t.all }
  else if w.compact ∧ 0 < t.prevRevision then
    t.delete (encodeObjectKey t.prevUserKey t.prevRevision)
  else t

/-- Effect of `compactTombstone`. -/
def tombstone (w : WorkerConfig) (key value : Bytes) (t : Tally) : Tally :=
  if w.compact ∧ value = tombStoneBytes then t.delete key else t

/-- Effect of the part of `process` after `compactTombstone`. -/
def current (w : WorkerConfig) (key value k : Bytes) (r : ℕ) (t : Tally) : Tally :=
  if w.compact ∧ r = 0 ∧ value.length = 9 then
    if w.revision < Bytes.toNatBE (value.take 8) then t else (t.delete key).see k r value
  else t.see k r value

/-- Effect of `process`. -/
def pair (w : WorkerConfig) (key value k : Bytes) (r : ℕ) (t : Tally) : Tally :=
  if w.revision < r then t else ((t.prev w k).tombstone w key value).current w key value k r

/-- Effect of `step`. -/
def add (ttl : Bool) (w : WorkerConfig) (t : Tally) (e : Bytes × Bytes) : Tally :=
  match decode e.1 with
  | .ok k r => if expired ttl w k r e.2 then t.delete e.1 else t.pair w e.1 e.2 k r
  | _ => t

def addAll (ttl : Bool) (w : WorkerConfig) (t : Tally) (items : List (Bytes × Bytes)) : Tally :=
  items.foldl (add ttl w) t

/-- The pair seen last. -/
def seen (t : Tally) : Bytes × ℕ × Bytes := (t.prevUserKey, t.prevRevision, t.prevValue)

variable {ttl : Bool} {w : WorkerConfig}

theorem all_eq (t : Tally) : t.all = t.found ++ t.last := rfl

theorem last_congr {t t' : Tally} (h : t.seen = t'.seen) : t.last = t'.last := by
  obtain ⟨h₁, h₂, h₃⟩ : t.prevUserKey = t'.prevUserKey ∧ t.prevRevision = t'.prevRevision ∧
      t.prevValue = t'.prevValue := by simpa [seen] using h
  simp only [last, h₁, h₂, h₃]

theorem seen_prev (w : WorkerConfig) (k : Bytes) (t : Tally) : (t.prev w k).seen = t.seen := by
  unfold prev
  split
  · rfl
  · split <;> rfl

theorem seen_tombstone (w : WorkerConfig) (key value : Bytes) (t : Tally) :
    (t.tombstone w key value).seen = t.seen := by
  unfold tombstone
  split <;> rfl

theorem seen_pair (w : WorkerConfig) (key value k : Bytes) (r : ℕ) (t : Tally) :
    (t.pair w key value k r).seen = t.seen ∨ (t.pair w key value k r).seen = (k, r, value) := by
  unfold pair
  split
  · exact .inl rfl
  · unfold current
    split
    · split
      · exact .inl ((seen_tombstone w key value _).trans (seen_prev w k t))
      · exact .inr rfl
    · exact .inr rfl

/-- The pair seen last is one of the pairs, or there is none. -/
def SeenIn (t : Tally) (items : List (Bytes × Bytes)) : Prop :=
  t.seen = start.seen ∨ ∃ e ∈ items, ∃ r, decode e.1 = .ok t.prevUserKey r

theorem seenIn_add {t : Tally} {items : List (Bytes × Bytes)} (h : t.SeenIn items)
    (e : Bytes × Bytes) : (t.add ttl w e).SeenIn (items ++ [e]) := by
  have keeps {t' : Tally} (hs : t'.seen = t.seen) : t'.SeenIn (items ++ [e]) := by
    rcases h with h | ⟨e', he', r, hr⟩
    · exact .inl (hs.trans h)
    · have hkey : t'.prevUserKey = t.prevUserKey := congrArg Prod.fst hs
      exact .inr ⟨e', List.mem_append_left _ he', r, by rw [hr, hkey]⟩
  unfold add
  split
  · next k r hk =>
    split
    · exact keeps rfl
    · rcases seen_pair w e.1 e.2 k r t with hs | hs
      · exact keeps hs
      · have hkey : (t.pair w e.1 e.2 k r).prevUserKey = k := congrArg Prod.fst hs
        exact .inr ⟨e, by simp, r, by rw [hk, hkey]⟩
  · exact keeps rfl

theorem seenIn_addAll (ttl : Bool) (w : WorkerConfig) (items : List (Bytes × Bytes)) :
    (start.addAll ttl w items).SeenIn items := by
  have step (items rest : List (Bytes × Bytes)) (t : Tally) (ht : t.SeenIn items) :
      (t.addAll ttl w rest).SeenIn (items ++ rest) := by
    induction rest generalizing items t with
    | nil => simpa [addAll] using ht
    | cons e rest ih =>
      have := ih (items ++ [e]) (t.add ttl w e) (seenIn_add ht e)
      rwa [List.append_assoc, List.singleton_append] at this
  exact step [] items start (.inl rfl)

/-- Both tallies have seen the same pair last, or `t'` none and `t` the last one of `u`. -/
def Abreast (u t t' : Tally) : Prop :=
  t.seen = t'.seen ∨ t'.seen = start.seen ∧ t.seen = u.seen

/-- `t` has gone on from `u` over pairs that `t'` has seen from the start. What a compaction
finds is not observed. -/
structure Joined (w : WorkerConfig) (u t t' : Tally) : Prop where
  deleted : t.deleted = u.deleted ++ t'.deleted
  abreast : Abreast u t t'
  all : w.compact = false → t.all = u.all ++ t'.all

/-- The same between `prev` and the pair that is seen next. -/
structure Turned (w : WorkerConfig) (u t t' : Tally) : Prop where
  deleted : t.deleted = u.deleted ++ t'.deleted
  abreast : Abreast u t t'
  found : w.compact = false → t.found = u.all ++ t'.found

variable {u t t' : Tally}

theorem Joined.delete (h : Joined w u t t') (key : Bytes) :
    Joined w u (t.delete key) (t'.delete key) :=
  ⟨by simp [Tally.delete, h.deleted], h.abreast, h.all⟩

theorem Turned.delete (h : Turned w u t t') (key : Bytes) :
    Turned w u (t.delete key) (t'.delete key) :=
  ⟨by simp [Tally.delete, h.deleted], h.abreast, h.found⟩

theorem Turned.tombstone (h : Turned w u t t') (key value : Bytes) :
    Turned w u (t.tombstone w key value) (t'.tombstone w key value) := by
  unfold Tally.tombstone
  split
  · exact h.delete key
  · exact h

theorem Turned.see (h : Turned w u t t') (k : Bytes) (r : ℕ) (value : Bytes) :
    Joined w u (t.see k r value) (t'.see k r value) := by
  refine ⟨h.deleted, .inl rfl, fun hlist => ?_⟩
  have hfound : (t.see k r value).found = u.all ++ (t'.see k r value).found := h.found hlist
  rw [Tally.all, Tally.all, hfound, List.append_assoc]
  rfl

theorem Turned.current (h : Turned w u t t') (key value k : Bytes) (r : ℕ) :
    Joined w u (t.current w key value k r) (t'.current w key value k r) := by
  unfold Tally.current
  split
  · next hc =>
    split
    · exact ⟨h.deleted, h.abreast, fun hlist => by simp [hlist] at hc⟩
    · exact (h.delete key).see k r value
  · exact h.see k r value

/-- A pair with a later key than the ones of `u` closes what was seen last. -/
theorem Joined.prev (h : Joined w u t t') {k : Bytes}
    (hk : u.seen = start.seen ∨ u.prevUserKey < k) : Turned w u (t.prev w k) (t'.prev w k) := by
  have habreast : Abreast u (t.prev w k) (t'.prev w k) := by
    unfold Abreast
    rw [seen_prev, seen_prev]
    exact h.abreast
  by_cases hseen : t.seen = t'.seen
  · have hkey : t.prevUserKey = t'.prevUserKey := congrArg Prod.fst hseen
    have hrev : t.prevRevision = t'.prevRevision := congrArg (·.2.1) hseen
    have hfound (hlist : w.compact = false) : t.found = u.all ++ t'.found := by
      have := h.all hlist
      rw [t.all_eq, t'.all_eq, last_congr hseen, ← List.append_assoc] at this
      exact List.append_cancel_right this
    refine ⟨?_, habreast, fun hlist => ?_⟩
    · unfold Tally.prev
      rw [hkey, hrev]
      split
      · exact h.deleted
      · split
        · exact (h.delete _).deleted
        · exact h.deleted
    · unfold Tally.prev
      rw [hkey, hrev]
      split
      · exact h.all hlist
      · split
        · exact hfound hlist
        · exact hfound hlist
  · -- the last pair of `u` is still open, and its key lies before this one
    obtain ⟨hstart, hu⟩ := h.abreast.resolve_left hseen
    have hlt : u.prevUserKey < k := hk.resolve_left fun h' => hseen (by rw [hu, h', hstart])
    have hne : k ≠ t.prevUserKey := by
      have : t.prevUserKey = u.prevUserKey := congrArg Prod.fst hu
      rw [this]
      exact hlt.ne'
    have hne' : k ≠ t'.prevUserKey := by
      have : t'.prevUserKey = [] := congrArg Prod.fst hstart
      rw [this]
      rintro rfl
      exact absurd hlt (List.not_lt_nil _)
    have hprev : t.prev w k = { t with found := t.all } := if_pos hne
    have hprev' : t'.prev w k = { t' with found := t'.all } := if_pos hne'
    refine ⟨?_, habreast, ?_⟩
    · rw [hprev, hprev']
      exact h.deleted
    · rw [hprev, hprev']
      exact h.all

theorem Joined.add (h : Joined w u t t') {e : Bytes × Bytes}
    (hk : u.seen = start.seen ∨ ∀ k r, decode e.1 = .ok k r → u.prevUserKey < k) :
    Joined w u (t.add ttl w e) (t'.add ttl w e) := by
  unfold Tally.add
  split
  · next k r hdec =>
    split
    · exact h.delete e.1
    · unfold Tally.pair
      split
      · exact h
      · have hturn := h.prev (hk.imp_right fun hlt => hlt k r hdec)
        exact (hturn.tombstone e.1 e.2).current e.1 e.2 k r
  · exact h

theorem Joined.addAll {items : List (Bytes × Bytes)} (h : Joined w u t t')
    (hk : u.seen = start.seen ∨ ∀ e ∈ items, ∀ k r, decode e.1 = .ok k r → u.prevUserKey < k) :
    Joined w u (t.addAll ttl w items) (t'.addAll ttl w items) := by
  induction items generalizing t t' with
  | nil => exact h
  | cons e items ih =>
    apply ih
    · exact h.add (hk.imp_right fun hlt => hlt e List.mem_cons_self)
    · exact hk.imp_right fun hlt e' he' => hlt e' (List.mem_cons_of_mem _ he')

/-- Where the user keys of the second list are all greater than those of the first, one worker
over both lists does what two workers do. -/
theorem joined_append {first second : List (Bytes × Bytes)}
    (hlt : ∀ e ∈ first, ∀ k r, decode e.1 = .ok k r → ∀ e' ∈ second, ∀ k' r',
      decode e'.1 = .ok k' r' → k < k') :
    Joined w (start.addAll ttl w first) (start.addAll ttl w (first ++ second))
      (start.addAll ttl w second) := by
  have hsplit : start.addAll ttl w (first ++ second) =
      (start.addAll ttl w first).addAll ttl w second := List.foldl_append
  rw [hsplit]
  apply Joined.addAll
  · exact ⟨(List.append_nil _).symm, .inr ⟨rfl, rfl⟩, fun _ => (List.append_nil _).symm⟩
  · rcases seenIn_addAll ttl w first with h | ⟨e, he, r, hr⟩
    · exact .inl h
    · exact .inr fun e' he' k' r' hk' => hlt e he _ r hr e' he' k' r' hk'

theorem mem_deleted_add {key : Bytes} (h : key ∈ t.deleted) (e : Bytes × Bytes) :
    key ∈ (t.add ttl w e).deleted := by
  have hdelete {v : Tally} (hv : key ∈ v.deleted) (key' : Bytes) : key ∈ (v.delete key').deleted :=
    List.mem_append_left _ hv
  unfold add
  split
  · next k r _ =>
    split
    · exact hdelete h _
    · unfold pair
      split
      · exact h
      · have hprev : key ∈ (t.prev w k).deleted := by
          unfold prev
          split
          · exact h
          · split
            · exact hdelete h _
            · exact h
        have htomb : key ∈ ((t.prev w k).tombstone w e.1 e.2).deleted := by
          unfold tombstone
          split
          · exact hdelete hprev _
          · exact hprev
        unfold current
        split
        · split
          · exact htomb
          · exact hdelete htomb e.1
        · exact htomb
  · exact h

theorem mem_deleted_addAll {key : Bytes} (h : key ∈ t.deleted) (items : List (Bytes × Bytes)) :
    key ∈ (t.addAll ttl w items).deleted := by
  induction items generalizing t with
  | nil => exact h
  | cons e items ih => exact ih (mem_deleted_add h e)

/-- An expired pair is deleted. -/
theorem mem_deleted_of_expired {items : List (Bytes × Bytes)} {e : Bytes × Bytes} {k : Bytes}
    {r : ℕ} (he : e ∈ items) (hdec : decode e.1 = .ok k r) (hexp : expired ttl w k r e.2 = true) :
    e.1 ∈ (t.addAll ttl w items).deleted := by
  induction items generalizing t with
  | nil => cases he
  | cons e' items ih =>
    rcases List.mem_cons.mp he with rfl | he
    · have hmem : e.1 ∈ (t.add ttl w e).deleted := by
        simp [add, hdec, hexp, delete]
      exact mem_deleted_addAll hmem items
    · exact ih he

end Tally
end Worker
end KubeBrain

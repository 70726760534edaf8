import KubeBrain.Backend.Scanner

/-! Reads and compaction of `pkg/backend`: `Get`, `List`, `Count`, `GetPartitions`,
`ListByStream` and `Compact`. -/
namespace KubeBrain

open Coder

private def incrementLast : Bytes → Option Bytes
  | [] => none
  | b :: bs => if b < 255 then some ((b + 1) :: bs) else incrementLast bs

/-- First key after all keys with a prefix, or a zero byte when there is none. -/
def prefixEnd (p : Bytes) : Bytes :=
  match incrementLast p.reverse with
  | some q => q.reverse
  | none => [0]

private theorem incrementLast_append {t : Bytes} (ht : ∀ x ∈ t, x = 255) {b : Byte} (hb : b < 255)
    (q : Bytes) : incrementLast (t ++ b :: q) = some ((b + 1) :: q) := by
  induction t with
  | nil => rw [List.nil_append, incrementLast, if_pos hb]
  | cons x t ih =>
    obtain ⟨rfl, htail⟩ := List.forall_mem_cons.mp ht
    rw [List.cons_append, incrementLast, if_neg (lt_irrefl _), ih htail]

theorem prefixEnd_append (q : Bytes) {b : Byte} {t : Bytes} (hb : b < 255)
    (ht : ∀ x ∈ t, x = 255) : prefixEnd (q ++ b :: t) = q ++ [b + 1] := by
  have hreverse : (q ++ b :: t).reverse = t.reverse ++ b :: q.reverse := by simp
  rw [prefixEnd, hreverse, incrementLast_append (fun x hx => ht x (List.mem_reverse.mp hx)) hb]
  simp

theorem prefixEnd_concat (p : Bytes) {b : Byte} (h : b < 255) :
    prefixEnd (p ++ [b]) = p ++ [b + 1] := prefixEnd_append p h nofun

/-- The keys up to the end of a prefix are those that start with it. -/
theorem between_prefixEnd_iff {p k : Bytes} (hp : ∃ b ∈ p, b < 255) :
    p ≤ k ∧ k < prefixEnd p ↔ p <+: k := by
  obtain ⟨q, b, t, rfl, hb, ht⟩ := Bytes.exists_last_lt hp
  rw [prefixEnd_append q hb ht]
  exact Bytes.between_iff_prefix q hb ht

theorem plain_prefixEnd {p : Bytes} (hp : Plain p) {b : Byte} (hb : b < 255)
    (hlast : p.getLast? = some b) : Plain (prefixEnd p) := by
  obtain ⟨q, rfl⟩ := List.getLast?_eq_some_iff.mp hlast
  rw [prefixEnd_concat q hb]
  obtain ⟨hq, hlt⟩ := List.forall_mem_append.mp hp
  have hnext : splitByte < b + 1 := (hlt b (by simp)).trans (Fin.lt_add_one_iff.mpr hb)
  exact List.forall_mem_append.mpr ⟨hq, by simpa using hnext⟩

/-- A prefix that has a byte below the greatest one is the range up to its end, and among
internal keys of plain user keys as well when its last byte can be incremented. -/
theorem prefix_ranges_exact :
    (∀ p k : Bytes, (¬ ∀ b ∈ p, b = 255) → (p <+: k ↔ p ≤ k ∧ k < prefixEnd p)) ∧
    ∀ p k : Bytes, Plain p → Plain k → ∀ b, p.getLast? = some b → b < 255 →
      (p <+: k ↔ ∀ r, r < 2 ^ 64 → encodeObjectKey p 0 ≤ encodeObjectKey k r ∧
        encodeObjectKey k r < encodeObjectKey (prefixEnd p) 0) := by
  constructor
  · intro p k hp
    push Not at hp
    obtain ⟨b, hb, hne⟩ := hp
    exact (between_prefixEnd_iff ⟨b, hb, lt_of_le_of_ne (Fin.le_last b) hne⟩).symm
  · intro p k hp hk b hlast hb
    have hend := plain_prefixEnd hp hb hlast
    rw [← between_prefixEnd_iff ⟨b, List.mem_of_getLast? hlast, hb⟩]
    constructor
    · rintro ⟨hle, hlt⟩ r hr
      rw [encodeObjectKey_lt_iff hk hend hr (by decide)]
      refine ⟨?_, .inl hlt⟩
      calc encodeObjectKey p 0 ≤ encodeObjectKey k 0 := (encodeRevisionKey_le hp hk).mpr hle
        _ ≤ encodeObjectKey k r := (encodeObjectKey_le_iff k (by decide) hr).mpr (Nat.zero_le r)
    · intro h
      obtain ⟨hlo, hhi⟩ := h 0 (by decide)
      refine ⟨(encodeRevisionKey_le hp hk).mp hlo, ?_⟩
      simpa using (encodeObjectKey_lt_iff hk hend (by decide) (by decide)).mp hhi

/-- The keys below `"/a/"`, with a carry over a greatest byte in the second prefix. -/
theorem prefix_ranges_exact_slash :
    (prefixEnd [47, 97, 47] = [47, 97, 48] ∧ prefixEnd [47, 255] = [48]) ∧
    ∀ r, r < 2 ^ 64 → encodeObjectKey [47, 97, 47, 98] r < encodeObjectKey [47, 97, 48] 0 :=
  ⟨by decide, fun r hr => (((prefix_ranges_exact.2 [47, 97, 47] [47, 97, 47, 98]
    (by simp [Plain, splitByte]) (by simp [Plain, splitByte]) 47 rfl (by decide)).mp (by decide))
    r hr).2⟩

/-- `Get`. -/
def handleGet (r : GetRequest) : M (Except Err GetResponse) := do
  let curRev ← getCurrentRevision
  match ← get r.key r.revision with
  | .error .keyNotFound => pure (.ok ⟨curRev, none⟩)
  | .error err => pure (.error err)
  | .ok (val, modRev) =>
    -- the storage answers nil for an empty value, and the response then has no pair
    pure (.ok ⟨max curRev modRev, if val = [] then none else some ⟨r.key, val, modRev⟩⟩)

/-- Signed 64-bit successor. -/
def incInt64 (n : ℤ) : ℤ := Int.bmod (n + 1) (2 ^ 64)

/-- `List`. One more pair than the limit is read, to know whether there are more. -/
def handleList (cfg : Config) (r : RangeRequest) : M (Except Err RangeResponse) :=
  if r.stop = [] then pure (.error .invalidNilEnd)
  else do
    let curRevision ← getCurrentRevision
    let reqRevision := if r.revision = 0 then curRevision else r.revision
    if r.stop ≤ r.key then pure (.error .invalidRangeEnd)
    else do
      let limit := if 0 < r.limit then incInt64 r.limit else r.limit
      match ← Scanner.range cfg (encodeObjectKey r.key 0) (encodeObjectKey r.stop 0)
          reqRevision limit with
      | .error err => pure (.error err)
      | .ok kvs =>
        if 0 < limit ∧ r.limit < (kvs.length : ℤ) then
          pure (.ok ⟨curRevision, kvs.take r.limit.toNat, true⟩)
        else
          pure (.ok ⟨curRevision, kvs, false⟩)

/-- `Count`: the header revision and the count. -/
def handleCount (cfg : Config) (key stop : Bytes) : M (Except Err (ℕ × ℕ)) := do
  let rev ← getCurrentRevision
  if cfg.enableEtcdCompatibility then
    match ← Scanner.count cfg (encodeObjectKey key 0) (encodeObjectKey stop 0) rev with
    | .error err => pure (.error err)
    | .ok n => pure (.ok (rev, n))
  else pure (.ok (rev, 0))

/-- `ListByStream`: the stream that the answers go to. -/
def handleListByStream (start stop : Bytes) (rev : ℕ) : M ℕ := do
  let curRev ← getCurrentRevision
  let rev := if rev = 0 then curRev else rev
  let stream ← call .makeStream
  let _ ← call (.spawn (.rangeStream start stop rev stream))
  pure stream

structure ListPartitionResponse where
  header : ℕ
  partitionNum : ℕ
  partitionKeys : List Bytes
  deriving DecidableEq

/-- The start of every partition, and the end of the last one. -/
def partitionKeys : List Partition → List Bytes
  | [] => []
  | [p] => [p.start, p.stop]
  | p :: q :: ps => p.start :: partitionKeys (q :: ps)

/-- `GetPartitions`. The borders are internal keys. -/
def handleGetPartitions (key stop : Bytes) : M (Except Err ListPartitionResponse) := do
  let rev ← getCurrentRevision
  match ← kvCall (.getPartitions (encodeObjectKey key 0) (encodeObjectKey stop 0)) with
  | .error err => pure (.error err)
  | .ok ps => pure (.ok ⟨rev, ps.length, partitionKeys ps⟩)

/-- Raise the stored compact revision; a smaller revision than the stored one is accepted
without a write. -/
def setCompactRecord (cfg : Config) (revision : ℕ) : M (Option Err) := do
  let compactKey := getCompactKey cfg.keyPrefix
  match ← kvCall (.get compactKey) with
  | .ok (b :: bs) =>
    let val := b :: bs
    if val.length < 8 then panics
    else if revision < Bytes.toNatBE (val.take 8) then pure none
    else
      kvCall (.commit (.record revision) [.cas compactKey (uint64ToBytes revision) val 0])
  | .ok [] | .error .keyNotFound =>
    kvCall (.commit (.record revision) [.putIfNotExist compactKey (uint64ToBytes revision) 0])
  | .error err => pure (some err)

/-- The ranges to compact, as pairs of borders. -/
def pairs : List Bytes → List (Bytes × Bytes)
  | a :: b :: rest => (a, b) :: pairs rest
  | _ => []

def withSlash (key : Bytes) : Bytes := if [47].isSuffixOf key then key else key ++ [47]

def getCompactBorders (cfg : Config) : List Bytes :=
  ((cfg.keyPrefix :: cfg.skippedPrefixes).flatMap fun key =>
    [encodeObjectKey (withSlash key) 0,
      encodeObjectKey (prefixEnd (withSlash key)) 0]).insertionSort
      (· ≤ ·)

def compactRanges (cfg : Config) (revision : ℕ) : List (Bytes × Bytes) → M Unit
  | [] => pure ()
  | (start, stop) :: rest => do
    Scanner.compact cfg start stop revision
    compactRanges cfg revision rest

def compact (cfg : Config) (revision : ℕ) : M (Option Err) := do
  match ← setCompactRecord cfg revision with
  | some err => pure (some err)
  | none =>
    compactRanges cfg revision (pairs (getCompactBorders cfg))
    pure none

/-- `MinRevision` of the retry queue. -/
def minRevision : M ℕ := do
  match ← call .queueHead with
  | some (event, _) => pure event.revision
  | none => pure 0

/-- `Compact`: the revision it compacts at and its error. -/
def handleCompact (cfg : Config) (revision : ℕ) : M (ℕ × Option Err) := do
  let curRevision ← getCurrentRevision
  let revision := if revision = 0 ∨ curRevision < revision then curRevision else revision
  let uncertainRev ← minRevision
  let revision := if uncertainRev ≠ 0 then min (uncertainRev - 1) revision else revision
  let err ← compact cfg revision
  pure (revision, err)

/-- The revision that `Compact` chooses from what it reads. -/
def compactRevision (revision curRevision : ℕ) (head : Option (WatchEvent × ℕ)) : ℕ :=
  let revision := if revision = 0 ∨ curRevision < revision then curRevision else revision
  match head with
  | some (event, _) =>
    if event.revision ≠ 0 then min (event.revision - 1) revision else revision
  | none => revision

/-- `Compact` reads the committed revision, then the head of the retry queue. -/
theorem handleCompact_eq (cfg : Config) (revision : ℕ) : handleCompact cfg revision = (do
    let cur ← call .getRevision
    let head ← call .queueHead
    let err ← compact cfg (compactRevision revision cur head)
    pure (compactRevision revision cur head, err)) := by
  apply congrArg (Interleaving.Prog.op (S := sig) Op.getRevision)
  funext cur
  apply congrArg (Interleaving.Prog.op (S := sig) Op.queueHead)
  funext (head : Option (WatchEvent × ℕ))
  cases head with
  | none => rfl
  | some node => rfl

end KubeBrain

import KubeBrain.Storage.Interface

/-! Partitions of the `tikv` adapter, `pkg/storage/tikv`: the regions that the placement
driver reports, clipped to the scanned interval. -/
namespace KubeBrain.Tikv

/-- Key range of a region; an empty border is no border. -/
structure Region where
  start : Bytes
  stop : Bytes
  deriving DecidableEq, Repr

def maxBytes (a b : Bytes) : Bytes := if b < a then a else b

def minBytes (a b : Bytes) : Bytes := if b < a then b else a

def clip (start stop : Bytes) (reg : Region) : Partition where
  start := if reg.start.length ≠ 0 then maxBytes reg.start start else start
  stop := if reg.stop.length ≠ 0 then minBytes reg.stop stop else stop

/-- `GetPartitions`, on the regions that `ScanRegions` returned. -/
def getPartitions (regs : List Region) (start stop : Bytes) : List Partition :=
  if 1 < regs.length then regs.map (clip start stop) else [⟨start, stop⟩]

/-- Borders between the regions of a list. -/
def borders (regs : List Region) : List Bytes := regs.tail.map Region.start

/-- The regions are sorted and without gaps, each inner border lies in the interval from `lo`
to `stop`, and the last region reaches `stop`. -/
def CoversFrom (stop : Bytes) : Bytes → List Region → Prop
  | _, [] => False
  | _, [r] => r.stop = [] ∨ stop ≤ r.stop
  | lo, r :: q :: rest =>
    r.stop = q.start ∧ lo < q.start ∧ q.start < stop ∧ CoversFrom stop q.start (q :: rest)

/-- Contract of `ScanRegions`: the regions that meet the interval, in order. -/
structure Covers (regs : List Region) (start stop : Bytes) : Prop where
  first : ∀ r ∈ regs.head?, r.start ≤ start
  chain : CoversFrom stop start regs

/-- The interval cut at the given borders. -/
def pieces (lo : Bytes) : List Bytes → Bytes → List Partition
  | [], hi => [⟨lo, hi⟩]
  | b :: bs, hi => ⟨lo, b⟩ :: pieces b bs hi

variable {start stop lo : Bytes}

theorem start_pieces (lo : Bytes) (bs : List Bytes) (hi : Bytes) :
    (pieces lo bs hi).map Partition.start = lo :: bs := by
  induction bs generalizing lo with
  | nil => rfl
  | cons b bs ih => rw [pieces, List.map_cons, ih]

/-- No border lies inside a piece. -/
theorem border_of_piece {bs : List Bytes} {p : Partition} {b : Bytes}
    (hsorted : (lo :: bs).Pairwise (· ≤ ·)) (hp : p ∈ pieces lo bs stop) (hb : b ∈ bs) :
    b ≤ p.start ∨ p.stop ≤ b := by
  induction bs generalizing lo with
  | nil => cases hb
  | cons c bs ih =>
    obtain ⟨-, hsorted⟩ := List.pairwise_cons.mp hsorted
    have hc := (List.pairwise_cons.mp hsorted).1
    rcases List.mem_cons.mp hp with rfl | hp
    · rcases List.mem_cons.mp hb with rfl | hb
      · exact .inr le_rfl
      · exact .inr (hc b hb)
    · rcases List.mem_cons.mp hb with rfl | hb
      · have hstart : p.start ∈ b :: bs := by
          rw [← start_pieces b bs stop]
          exact List.mem_map_of_mem hp
        rcases List.mem_cons.mp hstart with h | h
        · exact .inl h.ge
        · exact .inl (hc _ h)
      · exact ih hsorted hp hb

theorem pos_of_lt {a b : Bytes} (h : a < b) : b.length ≠ 0 := by
  intro h0
  rw [List.length_eq_zero_iff.mp h0] at h
  exact absurd h (List.not_lt_nil a)

section Clip

variable {reg : Region}

private theorem clip_eq {lo hi : Bytes} (hlo : (clip start stop reg).start = lo)
    (hhi : (clip start stop reg).stop = hi) : clip start stop reg = ⟨lo, hi⟩ := by
  subst hlo hhi
  rfl

private theorem clip_start (h : reg.start ≤ start) : (clip start stop reg).start = start := by
  simp only [clip, maxBytes, not_lt_of_ge h, if_false, ite_self]

private theorem clip_start_of_lt (h : start < reg.start) :
    (clip start stop reg).start = reg.start := by
  simp only [clip, maxBytes, pos_of_lt h, h, if_true, ne_eq, not_false_eq_true]

private theorem clip_stop (h : reg.stop = [] ∨ stop ≤ reg.stop) :
    (clip start stop reg).stop = stop := by
  rcases h with h | h
  · simp [clip, h]
  · simp only [clip, minBytes]
    split
    · split
      · rfl
      · next hlt => exact le_antisymm (not_lt.mp hlt) h
    · rfl

private theorem clip_stop_of_lt {b : Bytes} (hreg : reg.stop = b) (h : start < b)
    (hs : b < stop) : (clip start stop reg).stop = b := by
  subst hreg
  simp only [clip, minBytes, pos_of_lt h, not_lt_of_gt hs, if_true, if_false, ne_eq,
    not_false_eq_true]

end Clip

/-- Every region after the first starts in the interval, so only its end is clipped. -/
private theorem map_clip_from {r : Region} {rest : List Region} (hlo : start < r.start)
    (h : CoversFrom stop r.start (r :: rest)) :
    (r :: rest).map (clip start stop) = pieces r.start (rest.map Region.start) stop := by
  induction rest generalizing r with
  | nil => rw [List.map_cons, clip_eq (clip_start_of_lt hlo) (clip_stop h), List.map_nil,
      List.map_nil, pieces]
  | cons q rest ih =>
    obtain ⟨hrq, hlt, hq, hrest⟩ := h
    have hsq : start < q.start := hlo.trans hlt
    rw [List.map_cons, ih hsq hrest, List.map_cons, pieces,
      clip_eq (clip_start_of_lt hlo) (clip_stop_of_lt hrq hsq hq)]

/-- The partitions cut the interval at the inner borders of the regions. -/
theorem getPartitions_eq {regs : List Region} (h : Covers regs start stop) :
    getPartitions regs start stop = pieces start (borders regs) stop := by
  obtain ⟨hfirst, hchain⟩ := h
  cases regs with
  | nil => exact absurd hchain id
  | cons r regs =>
    cases regs with
    | nil => rfl
    | cons q rest =>
      obtain ⟨hrq, hlt, hq, hrest⟩ := hchain
      rw [getPartitions, if_pos (by simp), List.map_cons, map_clip_from hlt hrest,
        clip_eq (clip_start (hfirst r rfl)) (clip_stop_of_lt hrq hlt hq)]
      rfl

/-- Inner borders increase within the interval. -/
theorem borders_sorted {regs : List Region} (h : CoversFrom stop lo regs) :
    (lo :: borders regs).Pairwise (· < ·) ∧ ∀ b ∈ borders regs, b < stop := by
  cases regs with
  | nil => exact absurd h id
  | cons r regs =>
    induction regs generalizing r lo with
    | nil => simp [borders]
    | cons q rest ih =>
      obtain ⟨-, hlt, hq, hrest⟩ := h
      obtain ⟨hsorted, hstop⟩ := ih q hrest
      have hle {b : Bytes} (hb : b ∈ borders (r :: q :: rest)) :
          b = q.start ∨ b ∈ borders (q :: rest) := List.mem_cons.mp hb
      constructor
      · rw [List.pairwise_cons]
        constructor
        · intro b hb
          rcases hle hb with rfl | hb
          · exact hlt
          · exact hlt.trans ((List.pairwise_cons.mp hsorted).1 b hb)
        · exact hsorted
      · intro b hb
        rcases hle hb with rfl | hb
        · exact hq
        · exact hstop b hb

section PlacementDriver

variable {bs : List Bytes}

end PlacementDriver

end KubeBrain.Tikv

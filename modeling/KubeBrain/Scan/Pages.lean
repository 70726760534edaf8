import KubeBrain.Scan.Limit

/-! Paged lists. A client continues after the last key of a page with that key and a zero
byte, which in the order of internal keys comes before the key itself. -/
namespace KubeBrain

open Interleaving Coder Scanner

/-- The page that `List` returns at a revision. -/
def listPage (cfg : Config) (f : Frozen) (rev : ℕ) (a b : Bytes) (n : ℤ) : Option RangeResponse :=
  match f.call cfg (handleList cfg ⟨a, b, rev, n⟩) with
  | some (.ok resp, _) => some resp
  | _ => none

/-- The pairs of consecutive pages until there are no more, if that happens within `fuel`
pages. -/
def pages (cfg : Config) (f : Frozen) (rev : ℕ) (b : Bytes) (n : ℤ) :
    ℕ → Bytes → Option (List KeyValue)
  | 0, _ => none
  | fuel + 1, a =>
    match listPage cfg f rev a b n with
    | none => none
    | some resp =>
      if resp.more then
        match resp.kvs.getLast? with
        | none => none
        | some kv => (pages cfg f rev b n fuel (kv.key ++ [0])).map (resp.kvs ++ ·)
      else some resp.kvs

variable {cfg : Config} {f : Frozen} {rev R : ℕ} {a b k k' : Bytes} {n : ℤ}

theorem listPage_of_call {resp : RangeResponse}
    (h : (f.call cfg (handleList cfg ⟨a, b, rev, n⟩)).map Prod.fst = some (.ok resp)) :
    listPage cfg f rev a b n = some resp := by
  obtain ⟨x, hx, heq⟩ := Option.map_eq_some_iff.mp h
  unfold listPage
  rw [hx]
  obtain ⟨res, s⟩ := x
  obtain rfl : res = .ok resp := heq
  rfl

section Continue

theorem continue_lt_self (k : Bytes) (r : ℕ) :
    encodeObjectKey (k ++ [0]) 0 < encodeObjectKey k r := by
  unfold encodeObjectKey
  rw [Bytes.append_lt_append_left_iff, List.append_assoc]
  exact Bytes.append_cons_lt k _ _ (by decide)

/-- Between the continuation of a key and the key itself there is no internal key. -/
theorem lt_continue_iff (hk : Plain k) (hk' : Plain k') {r : ℕ} (hr : r < 2 ^ 64) :
    encodeObjectKey k' r < encodeObjectKey (k ++ [0]) 0 ↔ k' < k := by
  constructor
  · intro h
    have hlt := h.trans (continue_lt_self k 0)
    rw [encodeObjectKey_lt_iff hk' hk hr (by decide)] at hlt
    rcases hlt with hlt | ⟨-, hlt⟩
    · exact hlt
    · exact absurd hlt (Nat.not_lt_zero _)
  · intro h
    unfold encodeObjectKey
    rw [Bytes.append_lt_append_left_iff]
    rcases Bytes.first_difference k' k with ⟨t, rfl⟩ | ⟨t, rfl⟩ | ⟨p, x, y, s, t, hxy, rfl, rfl⟩
    · cases t with
      | nil => simp at h
      | cons y t =>
        have hy : splitByte < y := hk y (by simp)
        simp only [List.append_assoc, List.cons_append]
        exact Bytes.append_cons_lt _ _ _ hy
    · cases t with
      | nil => simp at h
      | cons y t =>
        have hlt : k < k ++ y :: t := by
          conv_lhs => rw [← List.append_nil k]
          rw [Bytes.append_lt_append_left_iff]
          exact List.nil_lt_cons y t
        exact absurd h (not_lt_of_gt hlt)
    · rw [Bytes.append_lt_append_left_iff, List.cons_lt_cons_iff] at h
      simp only [List.append_assoc, List.cons_append]
      exact Bytes.append_cons_lt _ _ _ (h.resolve_right fun h' => hxy h'.1)

theorem continue_lt (hb : Plain b) (h : k < b) : k ++ [0] < b := by
  rcases Bytes.first_difference k b with ⟨t, rfl⟩ | ⟨t, rfl⟩ | ⟨p, x, y, s, t, hxy, rfl, rfl⟩
  · cases t with
    | nil => simp at h
    | cons y t =>
      have hy : splitByte < y := hb y (by simp)
      exact Bytes.append_cons_lt _ _ _ (lt_trans (by decide) hy)
  · have hle : b ≤ b ++ t := by
      conv_lhs => rw [← List.append_nil b]
      rw [Bytes.append_le_append_left_iff]
      exact not_lt.mp (List.not_lt_nil t)
    exact absurd h (not_lt.mpr hle)
  · rw [Bytes.append_lt_append_left_iff, List.cons_lt_cons_iff] at h
    rw [List.append_assoc, List.cons_append]
    exact Bytes.append_cons_lt _ _ _ (h.resolve_right fun h' => hxy h'.1)

/-- A page from the continuation of a key starts with the key again. -/
theorem items_continue {st : Store} (hst : Spaced st) (hk : Plain k) (hb : Plain b) (hkb : k < b) :
    Engine.items st (encodeObjectKey (k ++ [0]) 0) (encodeObjectKey b 0) 0 =
      Engine.items st (encodeObjectKey k 0) (encodeObjectKey b 0) 0 := by
  have hlt := encodeObjectKey_lt hk hb hkb
  rw [items_eq_range st ((continue_lt_self k 0).trans hlt).le, items_eq_range st hlt.le]
  apply SortedMap.eq_of_sorted (st.range_sorted _ _) (st.range_sorted _ _)
  rintro ⟨key, v⟩
  rw [SortedMap.mem_range, SortedMap.mem_range]
  constructor
  · rintro ⟨hget, hlo, hhi⟩
    obtain ⟨k', r, hk', hr, rfl⟩ := hst.keyed (k ++ [0]) b 0 0 key v hget hlo hhi
    refine ⟨hget, ?_, hhi⟩
    rw [← not_lt, lt_continue_iff hk hk' hr] at hlo
    rw [← not_lt, encodeObjectKey_lt_iff hk' hk hr (by decide)]
    rintro (h | ⟨-, h⟩)
    · exact hlo h
    · exact absurd h (Nat.not_lt_zero _)
  · rintro ⟨hget, hlo, hhi⟩
    exact ⟨hget, (continue_lt_self k 0).le.trans hlo, hhi⟩

end Continue

theorem Listing.unique {st : Store} {all all' : List KeyValue} (h : Listing st a b R all)
    (h' : Listing st a b R all') : all = all' := by
  have hnodup {l : List KeyValue} (hl : l.Pairwise fun x y => x.key < y.key) : l.Nodup := by
    apply hl.imp
    rintro x y hlt rfl
    exact lt_irrefl _ hlt
  have hperm : all.Perm all' := by
    apply (List.perm_ext_iff_of_nodup (hnodup h.sorted) (hnodup h'.sorted)).mpr
    exact fun kv => (h.mem kv).trans (h'.mem kv).symm
  exact hperm.eq_of_pairwise (fun x y _ _ hxy hyx => absurd (hxy.trans hyx) (lt_irrefl _))
    h.sorted h'.sorted

/-- What a listing holds from one of its keys on is the listing from that key. -/
theorem Listing.suffix {st : Store} {pre post : List KeyValue} {kv : KeyValue}
    (h : Listing st a b R (pre ++ kv :: post)) : Listing st kv.key b R (kv :: post) := by
  obtain ⟨-, hsorted, hlt⟩ := List.pairwise_append.mp h.sorted
  refine ⟨hsorted, fun x => ?_⟩
  have hkv := (h.mem kv).mp (by simp)
  have hge : x ∈ kv :: post → kv.key ≤ x.key := by
    intro hx
    rcases List.mem_cons.mp hx with rfl | hx
    · exact le_rfl
    · exact ((List.pairwise_cons.mp hsorted).1 x hx).le
  constructor
  · intro hx
    obtain ⟨-, hb, hlive⟩ := (h.mem x).mp (List.mem_append_right _ hx)
    exact ⟨hge hx, hb, hlive⟩
  · rintro ⟨hle, hb, hlive⟩
    rcases List.mem_append.mp ((h.mem x).mpr ⟨hkv.1.trans hle, hb, hlive⟩) with hx | hx
    · exact absurd (hlt x hx kv List.mem_cons_self) (not_lt.mpr hle)
    · exact hx

section Pages

variable {all : List KeyValue}

/-- The page that a client gets from the continuation of a key. -/
theorem listPage_continue (hb : Plain b) (hst : Spaced f.store)
    (hrecord : NotCompacted cfg f.store (effective f rev)) (h0 : 0 < n) (hmax : n < 2 ^ 63 - 1)
    (hk : Plain k) (hkb : k < b) (hall : Listing f.store k b (effective f rev) all) :
    listPage cfg f rev (k ++ [0]) b n = some (pageOf f all n) := by
  have hlt := encodeObjectKey_lt hk hb hkb
  have htally : (tallyOf cfg f (effective f rev) false
      ⟨encodeObjectKey (k ++ [0]) 0, encodeObjectKey b 0⟩).all =
      (tallyOf cfg f (effective f rev) false ⟨encodeObjectKey k 0, encodeObjectKey b 0⟩).all := by
    unfold tallyOf Worker.tally
    show (Worker.Tally.start.addAll _ _ (Engine.items _ (encodeObjectKey (k ++ [0]) 0)
      (encodeObjectKey b 0) 0)).all = _
    rw [items_continue hst hk hb hkb]
    rfl
  have hlist := listing_tallyOf cfg f (effective f rev) hk hb hkb.le hst
  apply listPage_of_call
  apply call_handleList_limited (continue_lt hb hkb) _ hrecord.race
    (formedIn_of_spaced cfg _ ((continue_lt_self k 0).trans hlt).le hst) h0 hmax
  rw [htally]
  exact hlist.unique hall

/-- Whatever follows a page that is not the last one starts with the last key of the page. -/
theorem pages_continue (hb : Plain b) (hst : Spaced f.store)
    (hrecord : NotCompacted cfg f.store (effective f rev)) (h0 : 0 < n) (hmax : n < 2 ^ 63 - 1)
    {kv : KeyValue} {post rest : List KeyValue} {fuel : ℕ} (hk : Plain kv.key) (hkb : kv.key < b)
    (hall : Listing f.store kv.key b (effective f rev) (kv :: post))
    (hpages : pages cfg f rev b n fuel (kv.key ++ [0]) = some rest) : rest.head? = some kv := by
  cases fuel with
  | zero => cases hpages
  | succ fuel =>
    have hpage := listPage_continue hb hst hrecord h0 hmax hk hkb hall
    have hkvs : ∃ tail, (pageOf f (kv :: post) n).kvs = kv :: tail := by
      obtain ⟨m, hm⟩ : ∃ m, n.toNat = m + 1 := ⟨n.toNat - 1, by omega⟩
      exact ⟨post.take m, by simp only [pageOf, if_pos h0, hm, List.take_succ_cons]⟩
    obtain ⟨tail, hkvs⟩ := hkvs
    simp only [pages, hpage] at hpages
    split at hpages
    · split at hpages
      · cases hpages
      · obtain ⟨more, -, rfl⟩ := Option.map_eq_some_iff.mp hpages
        rw [hkvs]
        rfl
    · obtain rfl := Option.some.inj hpages
      rw [hkvs]
      rfl

end Pages

/-- Paging comes to the unlimited list exactly when everything fits on one page. -/
theorem pages_eq_list_iff (cfg : Config) (f : Frozen) (rev : ℕ) {n : ℤ} {a b : Bytes}
    (ha : Plain a) (hb : Plain b) (hab : a < b) (hst : Spaced f.store)
    (hcover : Tikv.Covers (f.regions (encodeObjectKey a 0) (encodeObjectKey b 0))
      (encodeObjectKey a 0) (encodeObjectKey b 0))
    (hborders : ∀ c ∈ Tikv.borders (f.regions (encodeObjectKey a 0) (encodeObjectKey b 0)),
      PlainInternal c)
    (hrecord : NotCompacted cfg f.store (effective f rev)) (hn : 1 ≤ n ∧ n < 2 ^ 63)
    (hlen : f.store.entries.length < 2 ^ 63) :
    ∃ all, listPage cfg f rev a b 0 = some ⟨f.committedRevision, all, false⟩ ∧
      ((∃ fuel, pages cfg f rev b n fuel a = some all) ↔ (all.length : ℤ) ≤ n) := by
  have hlt := encodeObjectKey_lt ha hb hab
  have hlisting := listing_tallyOf cfg f (effective f rev) ha hb hab.le hst
  have hrange := call_range_listing ha hb hab hst hcover hborders hrecord
  have hform := formedIn_of_spaced cfg (effective f rev) hlt.le hst
  have hshort := hlisting.length_le.trans_lt hlen
  generalize hall : (tallyOf cfg f (effective f rev) false
    ⟨encodeObjectKey a 0, encodeObjectKey b 0⟩).all = all at *
  have hpage (m : ℤ) (hm : -2 ^ 63 ≤ m ∧ m < 2 ^ 63) :
      listPage cfg f rev a b m = some (pageOf f all m) :=
    listPage_of_call (call_handleList hab hall hrecord.race hform hm hshort hrange)
  refine ⟨all, hpage 0 (by decide), ?_, ?_⟩
  · rintro ⟨fuel, hpages⟩
    by_contra hmore
    cases fuel with
    | zero => cases hpages
    | succ fuel =>
      -- the last pair of the first page comes again
      have h0 : 0 < n := by omega
      rcases List.eq_nil_or_concat' (all.take n.toNat) with hnil | ⟨pre, kv, hpre⟩
      · rcases List.take_eq_nil_iff.mp hnil with h | h
        · omega
        · rw [h] at hmore
          simp at hmore
          omega
      have hsplit : all = pre ++ kv :: all.drop n.toNat := by
        conv_lhs => rw [← List.take_append_drop n.toNat all, hpre]
        simp
      simp only [pages, hpage n ⟨by omega, hn.2⟩, pageOf, if_pos h0,
        decide_eq_true (not_le.mp hmore), if_true, hpre, List.getLast?_concat] at hpages
      obtain ⟨rest, hrest, heq⟩ := Option.map_eq_some_iff.mp hpages
      rw [hsplit] at hlisting
      have hkv := (hlisting.mem kv).mp (by simp)
      have hhead := pages_continue hb hst hrecord h0 (by omega)
        (hst.plain_of_objects hkv.2.2.1.1) hkv.2.1 hlisting.suffix hrest
      have hpost : rest = all.drop n.toNat := by
        have : pre ++ [kv] ++ rest = pre ++ [kv] ++ all.drop n.toNat := by
          rw [heq]
          conv_lhs => rw [hsplit]
          simp
        exact List.append_cancel_left this
      obtain ⟨tail, htail⟩ := List.head?_eq_some_iff.mp (hpost ▸ hhead)
      have hsorted := (List.pairwise_append.mp hlisting.sorted).2.1
      exact lt_irrefl _ ((List.pairwise_cons.mp hsorted).1 kv (by rw [htail]; simp))
  · intro hle
    refine ⟨1, ?_⟩
    simp only [pages, hpage n ⟨by omega, hn.2⟩, pageOf, if_pos (by omega : 0 < n)]
    rw [decide_eq_false (by omega), if_neg (by decide), List.take_of_length_le (by omega)]

theorem pages_eq_list_iff_fits : (∃ fuel, pages plainConfig atFour 0 [104] 2 fuel [100] =
      some [⟨[101], [7], 1⟩, ⟨[103], [9], 4⟩]) ∧
    listPage plainConfig atFour 0 [100] [104] 0 =
      some ⟨4, [⟨[101], [7], 1⟩, ⟨[103], [9], 4⟩], false⟩ := by
  obtain ⟨all, hlist, hiff⟩ := pages_eq_list_iff plainConfig atFour 0 (n := 2) (a := [100])
    (b := [104]) (by decide +kernel) (by decide +kernel) (by decide +kernel) spaced_twoLive
    (covers_one _ _) (by simp [atFour, Tikv.borders]) (notCompacted_twoLive _) (by decide)
    (by decide)
  have hfound : listPage plainConfig atFour 0 [100] [104] 0 =
      some ⟨4, [⟨[101], [7], 1⟩, ⟨[103], [9], 4⟩], false⟩ := by decide +kernel
  obtain rfl : all = [⟨[101], [7], 1⟩, ⟨[103], [9], 4⟩] :=
    congrArg RangeResponse.kvs (Option.some.inj (hlist.symm.trans hfound))
  exact ⟨hiff.mpr (by decide), hfound⟩

/-- With one pair on a page the client never gets beyond the first key. -/
theorem pages_repeat_first_key : listPage plainConfig atFour 0 [100] [104] 0 =
      some ⟨4, [⟨[101], [7], 1⟩, ⟨[103], [9], 4⟩], false⟩ ∧
    ∀ fuel, pages plainConfig atFour 0 [104] 1 fuel [100] = none := by
  refine ⟨by decide +kernel, ?_⟩
  have hfirst : listPage plainConfig atFour 0 [100] [104] 1 =
      some ⟨4, [⟨[101], [7], 1⟩], true⟩ := by decide +kernel
  have hagain : listPage plainConfig atFour 0 [101, 0] [104] 1 =
      some ⟨4, [⟨[101], [7], 1⟩], true⟩ := by decide +kernel
  have hstuck (fuel : ℕ) : pages plainConfig atFour 0 [104] 1 fuel [101, 0] = none := by
    induction fuel with
    | zero => rfl
    | succ fuel ih =>
      simp only [pages, hagain, if_true, List.getLast?_singleton, List.cons_append, List.nil_append,
        ih, Option.map_none]
  intro fuel
  cases fuel with
  | zero => rfl
  | succ fuel =>
    simp only [pages, hfirst, if_true, List.getLast?_singleton, List.cons_append, List.nil_append,
      hstuck, Option.map_none]

end KubeBrain

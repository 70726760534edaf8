import KubeBrain.Events.Publication
import KubeBrain.Lib.Trace
import KubeBrain.Scan.Point

/-! What `Update` and `Delete` report of the key when they are not carried out, against the
contents at the time. -/
namespace KubeBrain

open Interleaving Coder

/-- A batch names internal keys of plain user keys only. -/
def PlainOps (ops : List BatchOp) : Prop := ∀ o ∈ ops, magicBytes <+: o.key → PlainInternal o.key

/-- Contents, and batches that may still land, are of plain user keys. -/
structure PlainState (kv : Engine.State) : Prop where
  now : Spaced kv.now
  pending : ∀ b ∈ kv.pending, PlainOps b.ops

/-- The batches that are committed are of plain user keys. -/
def PlainWrites {cfg : Config} {p : Engine.Policy} : Guard (leader cfg (engine p))
  | _, .op (.kv (.commit _ ops)) _ => PlainOps ops
  | _, _ => True

section Plain

variable {kv kv' : Engine.State}

theorem Spaced.erase {st : Store} (h : Spaced st) (key : Bytes) : Spaced (st.erase key) := by
  intro key' val hget
  rw [SortedMap.get_erase] at hget
  split at hget
  · cases hget
  · exact h key' val hget

theorem PlainState.land {b : Batch} (h : Spaced kv.now) (hb : PlainOps b.ops)
    (hland : kv.land b = some kv') : Spaced kv'.now := by
  obtain ⟨happly, -⟩ := Engine.land_fields hland
  intro key val hget hmagic
  by_cases hkey : ∃ o ∈ b.ops, key = o.key
  · obtain ⟨o, ho, rfl⟩ := hkey
    exact hb o ho hmagic
  · push Not at hkey
    rw [BatchOp.get_applyAll happly hkey] at hget
    exact h key val hget hmagic

theorem PlainState.exec {p : Engine.Policy} {o : KvOp} {ch : Engine.Choice} {r : o.Res}
    (h : PlainState kv) (hops : ∀ w ops, o = .commit w ops → PlainOps ops)
    (hex : Engine.exec p kv o ch = some (kv', r)) : PlainState kv' := by
  have hdel (key : Bytes) (C : ℕ) :
      PlainState { kv.write (kv.now.erase key) with gcRev := max kv.gcRev C } :=
    ⟨h.now.erase key, h.pending⟩
  cases o with
  | getTimestampOracle =>
    obtain ⟨rfl, -⟩ := Engine.exec_getTimestampOracle hex
    exact h
  | getPartitions start stop =>
    obtain ⟨rfl, -⟩ := Engine.exec_getPartitions hex
    exact h
  | get key =>
    obtain ⟨rfl, -⟩ := Engine.exec_get hex
    exact h
  | iter reader start stop ts limit =>
    obtain ⟨rfl, -⟩ := Engine.exec_iter hex
    exact h
  | commit w ops =>
    have hland (hl : kv.land ⟨w, ops⟩ = some kv') : PlainState kv' := by
      refine ⟨PlainState.land h.now (hops w ops rfl) hl, ?_⟩
      rw [(Engine.land_fields hl).2.2.2.1]
      exact h.pending
    rcases Engine.execCommit_cases hex with ⟨-, hl, -⟩ | ⟨e, -, hl, -⟩ | ⟨e, -, rfl, -⟩ |
      ⟨n, -, rfl, -⟩
    · exact hland hl
    · exact hland hl
    · exact h
    · exact ⟨h.now, List.forall_mem_snoc.mpr ⟨h.pending, hops w ops rfl⟩⟩
  | del C key =>
    rcases (Engine.execDel_cases hex).2 with rfl | ⟨rfl, -⟩
    · exact hdel key C
    · exact ⟨h.now, h.pending⟩
  | delCurrent C key val =>
    rcases Engine.execDelCurrent_cases hex with ⟨-, -, rfl | ⟨rfl, -⟩⟩ | ⟨-, rfl, -⟩
    · exact hdel key C
    · exact ⟨h.now, h.pending⟩
    · exact ⟨h.now, h.pending⟩

theorem PlainState.env {ch : Engine.Choice} (h : PlainState kv)
    (henv : Engine.env kv ch = some kv') : PlainState kv' := by
  obtain ⟨i, b, hb, ⟨-, hland⟩ | ⟨-, rfl⟩⟩ := Engine.env_cases henv
  · have hnow : Spaced { kv with pending := kv.pending.eraseIdx i }.now := h.now
    refine ⟨PlainState.land hnow (h.pending b (List.mem_of_getElem? hb)) hland, ?_⟩
    rw [(Engine.land_fields hland).2.2.2.1]
    exact fun b hb => h.pending b (List.mem_of_mem_eraseIdx hb)
  · exact ⟨h.now, fun b hb => h.pending b (List.mem_of_mem_eraseIdx hb)⟩

variable {cfg : Config} {p : Engine.Policy} {c c' : Interleaving.Config (leader cfg (engine p))}

theorem plainState_of_reach (h : PlainState (LeaderState.kv c.state))
    (hreach : Config.Reach PlainWrites c c') : PlainState (LeaderState.kv c'.state) := by
  induction hreach with
  | refl => exact h
  | tail _ hs ih =>
    obtain ⟨l, hl, hguard⟩ := hs
    rcases Config.step_cases hl with ⟨i, ch, o, k, again, s, r, sp, rfl, ht, hex, rfl⟩ |
      ⟨i, a, f, rfl, ht, rfl⟩ | ⟨ch, s, rfl, he, rfl⟩
    · by_cases hkv : ∃ o', o = .kv o'
      · obtain ⟨o, rfl⟩ := hkv
        obtain ⟨ch, kv, rfl, hkv, rfl, -⟩ := Leader.exec_kv hex
        have hmove := hguard _ (Config.move_thread ht)
        exact ih.exec (fun w ops heq => by subst heq; exact hmove) hkv
      · push Not at hkv
        have hsame := Leader.exec_storage hkv hex
        exact hsame ▸ ih
    · exact ih
    · rcases Leader.env_core he with ⟨ch, kv, rfl, henv, rfl⟩ | ⟨-, hcore⟩
      · exact ih.env henv
      · have hsame : s.kv = LeaderState.kv _ := congrArg CoreView.kv hcore
        exact hsame ▸ ih

end Plain

/-- A storage that gives one answer to iterations. -/
def answering (ans : Except Err Iter) : (o : Op) → Unit → Option (o.Res × Unit)
  | .kv (.iter ..), _ => some (ans, ())
  | _, _ => none

/-- What `get` makes of the answer to its iteration; `none` is a panic. -/
def readOf (k : Bytes) (ans : Except Err Iter) : Option (Except Err (Bytes × ℕ)) :=
  ((get k 0).eval (answering ans) ()).map Prod.fst

/-- The iteration of `get`. -/
def pointOp (k : Bytes) : Op :=
  .kv (.iter .point (encodeObjectKey k maxUint64) (encodeObjectKey k 0) 0 1)

/-- The first pair of the iteration decides. -/
theorem readOf_cons (k key v : Bytes) (items : List (Bytes × Bytes)) (err : Option Err) :
    readOf k (.ok ⟨(key, v) :: items, err⟩) = readOf k (.ok ⟨(key, v) :: items, none⟩) := by
  have hiter (err : Option Err) : answering (.ok ⟨(key, v) :: items, err⟩) (pointOp k) () =
      some (.ok ⟨(key, v) :: items, err⟩, ()) := rfl
  have hsame : (getInternalVal .point k 0).eval (answering (.ok ⟨(key, v) :: items, err⟩)) () =
      (getInternalVal .point k 0).eval (answering (.ok ⟨(key, v) :: items, none⟩)) () := by
    refine (Prog.eval_call_bind (hiter err) _).trans
      (Eq.trans ?_ (Prog.eval_call_bind (hiter none) _).symm)
    dsimp only
    cases decode key with
    | ok userKey modRev =>
      dsimp only
      split <;> rfl
    | _ => rfl
  unfold readOf get
  rw [Prog.eval_bind, Prog.eval_bind, hsame]
  congr 2
  funext x
  split
  · split <;> rfl
  · rfl

section Reads

variable {S : Machine sig Outcome} {k : Bytes} {es : List (Reply S)}

theorem not_yields_panics {α : Type} {a : α} : ¬ (panics : M α).Yields es (.ret a) := by
  intro h
  obtain ⟨-, r, -⟩ := Prog.Yields.call_bind_iff.mp h
  exact nomatch r

/-- `get` makes one iteration. -/
theorem yields_get {res : Except Err (Bytes × ℕ)} (h : (get k 0).Yields es (.ret res)) :
    ∃ s ans, es = [⟨s, pointOp k, ans⟩] ∧ readOf k ans = some res := by
  obtain ⟨s, ans, hes⟩ : ∃ s ans, es = [⟨s, pointOp k, ans⟩] := by
    unfold get getInternalVal at h
    obtain ⟨es₁, es₂, a, rfl, h₁, h₂⟩ := Prog.Yields.bind_iff.mp h
    obtain ⟨s, ans, es', rfl, hrest⟩ := Prog.Yields.call_bind_iff.mp h₁
    have hnil : es' = [] := by
      split at hrest
      · exact (Prog.Yields.pure_iff.mp hrest).1
      · exact (Prog.Yields.pure_iff.mp hrest).1
      · exact (Prog.Yields.pure_iff.mp hrest).1
      · split at hrest
        · exact absurd hrest not_yields_panics
        · split at hrest <;> exact (Prog.Yields.pure_iff.mp hrest).1
        · exact (Prog.Yields.pure_iff.mp hrest).1
    have hnil₂ : es₂ = [] := by
      split at h₂
      · split at h₂ <;> exact (Prog.Yields.pure_iff.mp h₂).1
      · exact (Prog.Yields.pure_iff.mp h₂).1
    exact ⟨s, ans, by rw [hnil, hnil₂]; rfl⟩
  refine ⟨s, ans, hes, ?_⟩
  have heval : (get k 0).eval (answering ans) () = some (res, ()) := by
    apply h.eval
    intro e he
    rw [hes] at he
    obtain rfl := List.mem_singleton.mp he
    rfl
  exact congrArg (Option.map Prod.fst) heval

/-- A read that is answered tells of the contents, or it fails in another way than by not
finding the key. -/
theorem answers_of_exec {p : Engine.Policy} {s s' : Engine.State} (hst : Spaced s.now)
    {ch : Engine.Choice} {ans : Except Err Iter} (hex : Engine.exec p s
      (.iter .point (encodeObjectKey k maxUint64) (encodeObjectKey k 0) 0 1) ch = some (s', ans))
    {res : Except Err (Bytes × ℕ)} (hres : readOf k ans = some res) :
    Answers s.now k 0 res ∨ ∃ e, e ≠ .keyNotFound ∧ res = .error e := by
  have hseen : Engine.seen p s 0 = s.now := by cases p <;> rfl
  obtain ⟨-, herr, hok⟩ := Engine.exec_iter hex
  rw [hseen] at hok
  have hlt : encodeObjectKey k 0 < encodeObjectKey k maxUint64 := by
    rw [← not_le, encodeObjectKey_le_iff k (by decide) (by decide)]
    decide
  -- the whole view, as a storage without failures reads it
  have hview : ∀ res, readOf k (.ok ⟨Engine.items s.now (encodeObjectKey k maxUint64)
      (encodeObjectKey k 0) 1, none⟩) = some res → Answers s.now k 0 res := by
    intro res hres
    have hdec : ∀ e ∈ (Engine.items s.now (encodeObjectKey k maxUint64) (encodeObjectKey k 0)
        1).head?, decode e.1 ≠ .panic := by
      intro e he
      have hmem := List.mem_of_mem_head? he
      have hrange : e ∈ s.now.rangeDesc (encodeObjectKey k maxUint64) (encodeObjectKey k 0) := by
        unfold Engine.items at hmem
        rw [if_pos hlt] at hmem
        exact List.mem_of_mem_take hmem
      obtain ⟨hget, hlo, hhi⟩ := SortedMap.mem_rangeDesc.mp hrange
      obtain ⟨k', r', -, hr', hkey⟩ := hst e.1 e.2 hget (Bytes.prefix_of_between hlo.le hhi)
      rw [hkey, decode_encodeObjectKey k' hr']
      exact nofun
    obtain ⟨res', heval, hanswers⟩ := eval_get (R := 0) (h := answering (.ok ⟨Engine.items s.now
      (encodeObjectKey k maxUint64) (encodeObjectKey k 0) 1, none⟩)) (s := ()) hst (by decide) rfl
      (Engine.descends s.now hlt 1) hdec
    rw [readOf, heval] at hres
    obtain rfl := Option.some.inj hres
    exact hanswers
  cases ans with
  | error e =>
    obtain rfl := Option.some.inj hres
    exact .inr ⟨e, fun h => herr (h ▸ rfl), rfl⟩
  | ok it =>
    obtain ⟨hpre, hkey, hall⟩ := hok it rfl
    obtain ⟨items, err⟩ := it
    cases items with
    | nil =>
      cases err with
      | none =>
        have hnil := hall rfl
        dsimp only at hnil
        rw [hnil] at hres
        exact .inl (hview res hres)
      | some e =>
        obtain rfl := Option.some.inj hres
        exact .inr ⟨e, fun h => hkey (h ▸ rfl), rfl⟩
    | cons x items =>
      obtain ⟨key, v⟩ := x
      left
      -- the view has at most one pair
      have hwhole : (key, v) :: items = Engine.items s.now (encodeObjectKey k maxUint64)
          (encodeObjectKey k 0) 1 := by
        refine hpre.eq_of_length (le_antisymm hpre.length_le ?_)
        unfold Engine.items
        simp
      rw [readOf_cons k key v items err, hwhole] at hres
      exact hview res hres

end Reads

/-- The header and the pair of a request that was not carried out. -/
def Outcome.refused : Outcome → Option (ℕ × Option KeyValue)
  | .updated (.ok r) => if r.succeeded then .none else some (r.header, r.kv)
  | .deleted (.ok r) => if r.succeeded then .none else some (r.header, r.kv)
  | _ => .none

/-- The user key of a request that compares. -/
def Request.compared : Request → Option Bytes
  | .update r => some r.kv.key
  | .delete r => some r.key
  | _ => none

section Requests

variable {S : Machine sig Outcome} {k : Bytes} {es : List (Reply S)}

/-- The pair that a refused request reports comes from a read. -/
def ReadTells (k : Bytes) (header : ℕ) (kv : Option KeyValue) (e : Reply S) : Prop :=
  ∃ s ans, e = ⟨s, pointOp k, ans⟩ ∧
    (readOf k ans = some (.error .keyNotFound) ∧ kv = none ∨
      ∃ v m, readOf k ans = some (.ok (v, m)) ∧ kv = some ⟨k, v, m⟩ ∧ m ≤ header)

/-- The compare with the index of `k` did not find the key. -/
def CompareMisses (k : Bytes) (e : Reply S) : Prop :=
  ∃ s w new old ttl key v ttl', e = ⟨s, .kv (.commit w
    [.cas (encodeRevisionKey k) new old ttl, .put key v ttl']), some .keyNotFound⟩

/-- The reply to the last storage call of a request. -/
def LastCall (es : List (Reply S)) (e : Reply S) : Prop :=
  (∃ o, e.op = .kv o) ∧ ∃ es₁ es₂, es = es₁ ++ e :: es₂ ∧ ∀ e' ∈ es₂, ∀ o, e'.op ≠ .kv o

theorem lastCall_concat (es : List (Reply S)) {e : Reply S} (he : ∃ o, e.op = .kv o) :
    LastCall (es ++ [e]) e := ⟨he, es, [], rfl, nofun⟩

theorem yields_handleUpdate {r : UpdateRequest} {a : UpdateResponse}
    (h : (handleUpdate r).Yields es (.ret (.ok a))) (hf : a.succeeded = false) :
    ∃ e, LastCall es e ∧ ReadTells r.kv.key a.header a.kv e := by
  unfold handleUpdate at h
  obtain ⟨es₁, es₂, ⟨curRev, err⟩, rfl, -, hrest⟩ := Prog.Yields.bind_iff.mp h
  dsimp only at hrest
  split at hrest
  · obtain ⟨-, ha⟩ := Prog.Yields.pure_iff.mp hrest
    rw [Except.ok.inj ha] at hf
    cases hf
  · split at hrest
    · obtain ⟨es₃, es₄, res, rfl, hget, hfin⟩ := Prog.Yields.bind_iff.mp hrest
      obtain ⟨s, ans, rfl, hres⟩ := yields_get hget
      have hlast (hnil : es₄ = []) : LastCall (es₁ ++ ([⟨s, pointOp r.kv.key, ans⟩] ++ es₄))
          ⟨s, pointOp r.kv.key, ans⟩ := by
        rw [hnil, List.append_nil]
        exact lastCall_concat _ ⟨_, rfl⟩
      split at hfin
      · obtain ⟨hnil, ha⟩ := Prog.Yields.pure_iff.mp hfin
        rw [Except.ok.inj ha]
        exact ⟨_, hlast hnil, s, ans, rfl, .inl ⟨hres, rfl⟩⟩
      · obtain ⟨-, ha⟩ := Prog.Yields.pure_iff.mp hfin
        cases ha
      · next v m =>
        obtain ⟨hnil, ha⟩ := Prog.Yields.pure_iff.mp hfin
        rw [Except.ok.inj ha]
        exact ⟨_, hlast hnil, s, ans, rfl, .inr ⟨v, m, hres, rfl, le_max_right _ _⟩⟩
    · obtain ⟨-, ha⟩ := Prog.Yields.pure_iff.mp hrest
      cases ha

theorem LastCall.append {es₁ es₂ : List (Reply S)} {e : Reply S} (h : LastCall es₁ e)
    (hes : ∀ e' ∈ es₂, ∀ o, e'.op ≠ .kv o) : LastCall (es₁ ++ es₂) e := by
  obtain ⟨hkv, before, behind, rfl, hbehind⟩ := h
  exact ⟨hkv, before, behind ++ es₂, by simp, List.forall_mem_append.mpr ⟨hbehind, hes⟩⟩

/-- A program without storage calls. -/
theorem no_call_of_within {α : Type} {ks : List OpKind} {p q : M α} (h : p.Yields es q)
    (hp : Within ks p) (hks : ∀ x ∈ [OpKind.read, .retryRead, .commit, .record, .gc], x ∉ ks) :
    ∀ e ∈ es, ∀ o, e.op ≠ .kv o := by
  intro e he o heq
  have hk := (h.only hp e he).1
  rw [heq] at hk
  exact hks _ o.kind_mem hk

theorem yields_deal {site : DealSite} {rev : ℕ} {err : Err}
    (h : (deal site).Yields es (.ret (rev, some err))) : err = .revisionDriftBack := by
  unfold deal at h
  obtain ⟨s, n, es', rfl, hrest⟩ := Prog.Yields.call_bind_iff.mp h
  split at hrest
  · obtain ⟨-, heq⟩ := Prog.Yields.pure_iff.mp hrest
    simp only [Prod.mk.injEq, Option.some.injEq] at heq
    exact heq.2
  · obtain ⟨-, heq⟩ := Prog.Yields.pure_iff.mp hrest
    simp at heq

/-- A deletion starts with a read of the key. If it does not find the key, the read did not, or
the compare. -/
theorem yields_delete {old rev : ℕ} {kv : KeyVal} {err : Option Err}
    (h : (delete old k).Yields es (.ret (rev, kv, err))) :
    es ≠ [] ∧ (err = some .keyNotFound → ∀ n, ∃ e, LastCall es e ∧
      (ReadTells k n none e ∨ CompareMisses k e)) := by
  unfold delete at h
  obtain ⟨es₁, es₂, res, rfl, hget, hrest⟩ := Prog.Yields.bind_iff.mp h
  obtain ⟨s, ans, rfl, hres⟩ := yields_get hget
  refine ⟨nofun, fun herr n => ?_⟩
  have hread : LastCall [⟨s, pointOp k, ans⟩] (⟨s, pointOp k, ans⟩ : Reply S) :=
    lastCall_concat [] ⟨_, rfl⟩
  split at hrest
  · next e =>
    obtain ⟨es₃, es₄, getRev, rfl, hdeal, hret⟩ := Prog.Yields.bind_iff.mp hrest
    obtain ⟨rfl, hvalue⟩ := Prog.Yields.pure_iff.mp hret
    obtain rfl : e = .keyNotFound := by
      simp only [Prod.mk.injEq] at hvalue
      exact Option.some.inj (hvalue.2.2.symm.trans herr)
    have hwithin : Within [.deal] (mustDeal old) :=
      .bind (within_deal _) fun _ => .pure _
    refine ⟨_, hread.append ?_, .inl ⟨s, ans, rfl, .inl ⟨hres, rfl⟩⟩⟩
    rw [List.append_nil]
    exact no_call_of_within hdeal hwithin (by decide)
  · next v m =>
    obtain ⟨es₃, es₄, ⟨newRev, drift⟩, rfl, hdeal, hret⟩ := Prog.Yields.bind_iff.mp hrest
    dsimp only at hret
    split at hret
    · next e heq =>
      obtain ⟨-, hvalue⟩ := Prog.Yields.pure_iff.mp hret
      simp only [Prod.mk.injEq] at heq hvalue
      rw [heq.2] at hdeal
      rw [hvalue.2.2, yields_deal hdeal] at herr
      cases herr
    · split at hret
      · obtain ⟨-, hvalue⟩ := Prog.Yields.pure_iff.mp hret
        simp only [Prod.mk.injEq] at hvalue
        rw [hvalue.2.2] at herr
        cases herr
      · split at hret
        · obtain ⟨-, hvalue⟩ := Prog.Yields.pure_iff.mp hret
          simp only [Prod.mk.injEq] at hvalue
          rw [hvalue.2.2] at herr
          cases herr
        · obtain ⟨s', r, es₅, rfl, hfin⟩ := Prog.Yields.call_bind_iff.mp hret
          obtain ⟨rfl, hvalue⟩ := Prog.Yields.pure_iff.mp hfin
          simp only [Prod.mk.injEq] at hvalue
          obtain rfl : r = some .keyNotFound := hvalue.2.2.symm.trans herr
          rw [← List.append_assoc]
          exact ⟨_, lastCall_concat _ ⟨_, rfl⟩, .inr ⟨s', _, _, _, _, _, _, _, rfl⟩⟩

/-- A read that follows another one of its request finds the key. -/
def Refinds (k : Bytes) (es : List (Reply S)) : Prop :=
  ∀ e ∈ es.tail, ∀ s ans, e = ⟨s, pointOp k, ans⟩ → ∃ v m, readOf k ans = some (.ok (v, m))

theorem yields_handleDelete {r : DeleteRequest} {a : DeleteResponse}
    (h : (handleDelete r).Yields es (.ret (.ok a))) (hf : a.succeeded = false)
    (hre : Refinds r.key es) : ∃ e, LastCall es e ∧
      (ReadTells r.key a.header a.kv e ∨ CompareMisses r.key e ∧ a.kv = none) := by
  unfold handleDelete at h
  obtain ⟨es₁, es₂, ⟨rev, old, err⟩, rfl, hdelete, hrest⟩ := Prog.Yields.bind_iff.mp h
  obtain ⟨es₃, es₄, ⟨⟩, rfl, hnotify, hfin⟩ := Prog.Yields.bind_iff.mp hrest
  obtain ⟨hne, hnone⟩ := yields_delete hdelete
  have hquiet : ∀ e ∈ es₃, ∀ o, e.op ≠ .kv o :=
    no_call_of_within hnotify (within_notify _ _ _ _ _ _ _) (by decide)
  split at hfin
  · obtain ⟨-, ha⟩ := Prog.Yields.pure_iff.mp hfin
    rw [Except.ok.inj ha] at hf
    cases hf
  · next e =>
    split at hfin
    · next he =>
      obtain ⟨rfl, ha⟩ := Prog.Yields.pure_iff.mp hfin
      rw [Except.ok.inj ha, List.append_nil]
      obtain ⟨e', hlast, htold⟩ := hnone (congrArg some he) rev
      exact ⟨e', hlast.append hquiet, htold.imp_right fun h => ⟨h, rfl⟩⟩
    · split at hfin
      · obtain ⟨es₅, es₆, res, rfl, hget, hret⟩ := Prog.Yields.bind_iff.mp hfin
        obtain ⟨s, ans, rfl, hres⟩ := yields_get hget
        have htail (e' : Reply S) : e' ∈ (es₁ ++ (es₃ ++ ([e'] ++ es₆))).tail := by
          rw [List.tail_append_of_ne_nil hne]
          simp
        obtain ⟨v, m, hfound⟩ := hre _ (htail _) s ans rfl
        obtain rfl : res = .ok (v, m) := Option.some.inj (hres.symm.trans hfound)
        obtain ⟨rfl, ha⟩ := Prog.Yields.pure_iff.mp hret
        rw [Except.ok.inj ha, List.append_nil, ← List.append_assoc]
        exact ⟨_, lastCall_concat _ ⟨_, rfl⟩,
          .inl ⟨s, ans, rfl, .inr ⟨v, m, hres, rfl, le_max_right _ _⟩⟩⟩
      · obtain ⟨-, ha⟩ := Prog.Yields.pure_iff.mp hfin
        cases ha

end Requests

/-- The pair is the one that is live in the contents, or there is none. -/
def ReportsLive (st : Store) (k : Bytes) : Option KeyValue → Prop
  | none => ∀ r v, ¬ Mvcc.Live (· = tombStoneBytes) (objects st k) maxUint64 r v
  | some kv => kv.key = k ∧
      Mvcc.Live (· = tombStoneBytes) (objects st k) maxUint64 kv.revision kv.value

theorem Answers.reports {st : Store} {k : Bytes} {res : Except Err (Bytes × ℕ)}
    (h : Answers st k 0 res) :
    (res = .error .keyNotFound → ReportsLive st k none) ∧
      ∀ v m, res = .ok (v, m) → ReportsLive st k (some ⟨k, v, m⟩) := by
  refine ⟨fun hres r v hlive => ?_, fun v m hres => ⟨rfl, (h.1 v m).mp hres⟩⟩
  have := (h.1 v r).mpr hlive
  rw [hres] at this
  cases this

section Runs

variable {cfg : Config} {p : Engine.Policy} {c c' : Interleaving.Config (leader cfg (engine p))}
  {i : ℕ} {k : Bytes}

/-- What the report of a deletion rests on: if it reads the key again it finds it, and where its
compare misses the index of the key, no version of the key is live. -/
def Request.RefindsIndexed (k : Bytes) (es : List (Reply (leader cfg (engine p)))) : Request → Prop
  | .delete _ => Refinds k es ∧ ∀ e ∈ es, CompareMisses k e →
      e.state.kv.now.get (encodeRevisionKey k) = none → ReportsLive e.state.kv.now k none
  | _ => True

/-- A compare that does not find the key meets contents without its index. -/
theorem index_of_compareMisses {ok : LeaderState (engine p) → Move (leader cfg (engine p)) → Bool}
    {ls : List (Label (leader cfg (engine p)))} (hrun : c.run ok ls = some c')
    {e : Reply (leader cfg (engine p))} (he : e ∈ c.trace i ls) (hmiss : CompareMisses k e) :
    e.state.kv.now.get (encodeRevisionKey k) = none := by
  obtain ⟨d, ch, s', sp, -, hstate, hex⟩ :=
    Config.exec_of_mem_trace (G := fun _ _ => True) (fun _ _ _ => trivial) hrun he
  obtain ⟨s, w, new, old, ttl, key, v, ttl', rfl⟩ := hmiss
  obtain ⟨ch, kv', rfl, hkv, -, -⟩ := Leader.exec_kv hex
  rw [hstate] at hkv
  have hmisses := Engine.misses_of_keyNotFound (b := ⟨w, _⟩) hkv
  simpa [Engine.misses] using hmisses

theorem reports_of_readTells (hplain : PlainState (LeaderState.kv c.state))
    {ok : LeaderState (engine p) → Move (leader cfg (engine p)) → Bool}
    (hok : ∀ s m, ok s m = true → PlainWrites s m) {ls : List (Label (leader cfg (engine p)))}
    (hrun : c.run ok ls = some c') {e : Reply (leader cfg (engine p))} (he : e ∈ c.trace i ls)
    {header : ℕ} {kv : Option KeyValue} (htell : ReadTells k header kv e) :
    ReportsLive e.state.kv.now k kv ∧ ∀ x, kv = some x → x.revision ≤ header := by
  obtain ⟨d, ch, s', sp, hreach, hstate, hex⟩ := Config.exec_of_mem_trace hok hrun he
  obtain ⟨s, ans, rfl, hcase⟩ := htell
  obtain ⟨ch, kv', rfl, hkv, -, -⟩ := Leader.exec_kv hex
  have hspaced := (plainState_of_reach hplain hreach).now
  rw [hstate] at hkv hspaced
  rcases hcase with ⟨hres, rfl⟩ | ⟨v, m, hres, rfl, hle⟩
  · rcases answers_of_exec hspaced hkv hres with h | ⟨e, hne, heq⟩
    · exact ⟨h.reports.1 rfl, nofun⟩
    · exact absurd (Except.error.inj heq).symm hne
  · rcases answers_of_exec hspaced hkv hres with h | ⟨e, hne, heq⟩
    · refine ⟨h.reports.2 v m rfl, fun x hx => ?_⟩
      obtain rfl := Option.some.inj hx
      exact hle
    · cases heq

/-- On any schedule of a leader whose writes are of plain user keys: an `Update`, or a `Delete`
that finds the key again if it reads it again, which is not carried out reports the pair that is
live at its last storage call, and a revision not below that of the pair. -/
theorem refused_reports_live (hplain : PlainState (LeaderState.kv c.state))
    {ok : LeaderState (engine p) → Move (leader cfg (engine p)) → Bool}
    (hok : ∀ s m, ok s m = true → PlainWrites s m) {ls : List (Label (leader cfg (engine p)))}
    (hrun : c.run ok ls = some c') {r : Request} (hr : r.compared = some k)
    (hstart : c.threads[i]? = some ⟨Leader.handle cfg r, none⟩) {out : Outcome}
    (hret : c'.threads[i]? = some ⟨.ret out, none⟩) {header : ℕ} {kv : Option KeyValue}
    (hout : out.refused = some (header, kv)) (hfinds : r.RefindsIndexed k (c.trace i ls)) :
    ∃ e, LastCall (c.trace i ls) e ∧ ReportsLive e.state.kv.now k kv ∧
      ∀ x, kv = some x → x.revision ≤ header := by
  obtain ⟨q, hq, hyields⟩ := Config.yields_trace hrun hstart
  obtain rfl : q = .ret out := by simpa using hq.symm.trans hret
  have hmem {e : Reply (leader cfg (engine p))} (h : LastCall (c.trace i ls) e) :
      e ∈ c.trace i ls := by
    obtain ⟨-, es₁, es₂, heq, -⟩ := h
    rw [heq]
    simp
  cases r with
  | update r =>
    obtain rfl := Option.some.inj hr
    obtain ⟨a, hupdate, rfl⟩ := Prog.Yields.of_bind_pure hyields
    cases a with
    | error err => cases hout
    | ok a =>
      by_cases hs : a.succeeded = true
      · simp [Outcome.refused, hs] at hout
      · obtain ⟨rfl, rfl⟩ : a.header = header ∧ a.kv = kv := by
          simpa [Outcome.refused, hs] using hout
        obtain ⟨e, hlast, htell⟩ := yields_handleUpdate hupdate (by simpa using hs)
        exact ⟨e, hlast, reports_of_readTells hplain hok hrun (hmem hlast) htell⟩
  | delete r =>
    obtain rfl := Option.some.inj hr
    obtain ⟨a, hdelete, rfl⟩ := Prog.Yields.of_bind_pure hyields
    cases a with
    | error err => cases hout
    | ok a =>
      by_cases hs : a.succeeded = true
      · simp [Outcome.refused, hs] at hout
      · obtain ⟨rfl, rfl⟩ : a.header = header ∧ a.kv = kv := by
          simpa [Outcome.refused, hs] using hout
        obtain ⟨e, hlast, htell⟩ := yields_handleDelete hdelete (by simpa using hs) hfinds.1
        refine ⟨e, hlast, ?_⟩
        rcases htell with htell | ⟨hmiss, hnone⟩
        · exact reports_of_readTells hplain hok hrun (hmem hlast) htell
        · rw [hnone]
          exact ⟨hfinds.2 e (hmem hlast) hmiss (index_of_compareMisses hrun (hmem hlast) hmiss),
            nofun⟩
  | _ => cases hr

end Runs

/-- Requests that have come in at a leader which holds versions of one user key. -/
def withRequests (rs : List Request) :
    Interleaving.Config (leader sampleConfig (engine .atTimestamp)) :=
  let c := Leader.init sampleConfig (engine .atTimestamp) 2 (Engine.init recordAndVersions)
  ⟨c.state, c.threads ++ rs.map fun r => ⟨Leader.handle sampleConfig r, none⟩⟩

theorem plainState_withRequests (rs : List Request) :
    PlainState (LeaderState.kv (withRequests rs).state) :=
  ⟨readable_recordAndVersions.spaced, nofun⟩

/-- Keys that a plain write names. -/
def plainKey (key : Bytes) : Bool :=
  match decode key with
  | .ok k _ => decide (Plain k)
  | _ => decide (¬ magicBytes <+: key)

def plainCheck {cfg : Config} {p : Engine.Policy} :
    LeaderState (engine p) → Move (leader cfg (engine p)) → Bool
  | _, .op (.kv (.commit _ ops)) _ => ops.all fun o => plainKey o.key
  | _, _ => true

theorem plainWrites_of_check {cfg : Config} {p : Engine.Policy} (s : LeaderState (engine p))
    (m : Move (leader cfg (engine p))) (h : plainCheck s m = true) : PlainWrites s m := by
  cases m with
  | op o ch =>
    cases o with
    | kv o =>
      cases o with
      | commit w ops =>
        intro o ho hmagic
        have hkey := List.all_eq_true.mp h o ho
        unfold plainKey at hkey
        split at hkey
        · next k r hdec =>
          obtain ⟨heq, hr⟩ := encode_of_decode hdec
          exact ⟨k, r, of_decide_eq_true hkey, hr, heq⟩
        · exact absurd hmagic (of_decide_eq_true hkey)
      | _ => trivial
    | _ => trivial
  | env ch => trivial

/-- The key is read again with success, and no compare misses it. -/
def refindsCheck {S : Machine sig Outcome} (k : Bytes) : List (Reply S) → Bool
  | [] => true
  | e :: es => !misses e && es.all fun e => !misses e && found e
where
  misses : Reply S → Bool
    | ⟨_, .kv (.commit ..), r⟩ => decide (r = some .keyNotFound)
    | _ => false
  found : Reply S → Bool
    | ⟨_, .kv (.iter ..), ans⟩ => match readOf k ans with
      | some (.ok _) => true
      | _ => false
    | _ => true

theorem refindsIndexed_of_check {cfg : Config} {p : Engine.Policy} {k : Bytes}
    {es : List (Reply (leader cfg (engine p)))} (h : refindsCheck k es = true) (r : Request) :
    r.RefindsIndexed k es := by
  cases r with
  | delete r =>
    cases es with
    | nil => exact ⟨by rintro _ ⟨⟩, by rintro _ ⟨⟩⟩
    | cons e es =>
      simp only [refindsCheck, Bool.and_eq_true, List.all_eq_true] at h
      refine ⟨fun e' he' s ans heq => ?_, fun e' he' hmiss _ => ?_⟩
      · have hfound := (h.2 e' he').2
        subst heq
        simp only [refindsCheck.found, pointOp] at hfound
        split at hfound
        · next x hx => exact ⟨x.1, x.2, hx⟩
        · cases hfound
      · have hno : refindsCheck.misses e' = false := by
          rcases List.mem_cons.mp he' with rfl | he'
          · simpa using h.1
          · simpa using (h.2 e' he').1
        obtain ⟨s, w, new, old, ttl, key, v, ttl', rfl⟩ := hmiss
        simp [refindsCheck.misses] at hno
  | _ => trivial

/-- A deletion whose compare fails because of an update. -/
def deleteAfterUpdate : List (Label (leader sampleConfig (engine .atTimestamp))) :=
  [.thread 4 (.kv .ok), .thread 5 .none, .thread 5 (.kv .ok), .thread 5 .none, .thread 5 .none,
    .thread 4 .none, .thread 4 (.kv (.fail (.conflict 0 (encodeRevisionKey [101]) []))),
    .thread 4 .none, .thread 4 .none, .thread 4 (.kv .ok)]

theorem refused_reports_live_updated : ∃ c' out, (withRequests [.delete ⟨[101], 0⟩,
      .update ⟨⟨[101], [9], 2⟩, 0⟩]).run plainCheck deleteAfterUpdate = some c' ∧
    c'.threads[4]? = some ⟨.ret out, none⟩ ∧ out.refused = some (4, some ⟨[101], [9], 3⟩) ∧
    ∃ e, LastCall ((withRequests [.delete ⟨[101], 0⟩, .update ⟨⟨[101], [9], 2⟩, 0⟩]).trace 4
      deleteAfterUpdate) e ∧ ReportsLive e.state.kv.now [101] (some ⟨[101], [9], 3⟩) := by
  let c := withRequests [.delete ⟨[101], 0⟩, .update ⟨⟨[101], [9], 2⟩, 0⟩]
  have hrun : (c.run plainCheck deleteAfterUpdate).map (fun c' =>
      ((c'.threads[4]?).bind Thread.outcome).bind Outcome.refused) =
        some (some (4, some ⟨[101], [9], 3⟩)) := by decide +kernel
  have hcheck : refindsCheck [101] (c.trace 4 deleteAfterUpdate) = true := by decide +kernel
  obtain ⟨c', hc', hout⟩ := Option.map_eq_some_iff.mp hrun
  obtain ⟨out, hret, hrefused⟩ := Option.bind_eq_some_iff.mp hout
  have hthread := Config.thread_of_outcome hret
  obtain ⟨e, hlast, hlive, -⟩ := refused_reports_live (plainState_withRequests _)
    plainWrites_of_check hc' (r := .delete ⟨[101], 0⟩) rfl rfl hthread hrefused
    (refindsIndexed_of_check hcheck _)
  exact ⟨c', out, hc', hthread, hrefused, e, hlast, hlive⟩

/-- A deletion whose compare fails because of another deletion. -/
def deleteAfterDelete : List (Label (leader sampleConfig (engine .atTimestamp))) :=
  [.thread 4 (.kv .ok), .thread 5 (.kv .ok), .thread 5 .none, .thread 5 (.kv .ok), .thread 5 .none,
    .thread 5 .none, .thread 4 .none,
    .thread 4 (.kv (.fail (.conflict 0 (encodeRevisionKey [101]) []))),
    .thread 4 .none, .thread 4 .none, .thread 4 (.kv .ok)]

/-- The second deletion reports the pair that the first one has deleted: it is live neither at its
compare, four steps before the end, nor later. -/
theorem delete_reports_deleted_pair : ∃ c' out,
    (withRequests [.delete ⟨[101], 0⟩, .delete ⟨[101], 0⟩]).run plainCheck deleteAfterDelete =
      some c' ∧ c'.threads[4]? = some ⟨.ret out, none⟩ ∧
    out.refused = some (4, some ⟨[101], [8], 2⟩) ∧
    ∀ d rest, (withRequests [.delete ⟨[101], 0⟩, .delete ⟨[101], 0⟩]).Visits deleteAfterDelete
      d rest → rest.length ≤ 4 →
        ¬ ReportsLive (LeaderState.kv d.state).now [101] (some ⟨[101], [8], 2⟩) := by
  let c := withRequests [.delete ⟨[101], 0⟩, .delete ⟨[101], 0⟩]
  have hrun : (c.run plainCheck deleteAfterDelete).map (fun c' =>
      ((c'.threads[4]?).bind Thread.outcome).bind Outcome.refused) =
        some (some (4, some ⟨[101], [8], 2⟩)) := by decide +kernel
  have hstates : ∀ m ≤ 4, (c.run (fun _ _ => true) (deleteAfterDelete.take (11 - m))).map
      (fun d => (LeaderState.kv d.state : Engine.State).now.get (encodeObjectKey [101] 3)) =
        some (some tombStoneBytes) := by decide +kernel
  obtain ⟨c', hc', hout⟩ := Option.map_eq_some_iff.mp hrun
  obtain ⟨out, hret, hrefused⟩ := Option.bind_eq_some_iff.mp hout
  have hthread := Config.thread_of_outcome hret
  refine ⟨c', out, hc', hthread, hrefused, ?_⟩
  rintro d rest ⟨done, heq, hd⟩ hle ⟨-, hlive, -⟩
  have hdone : done = deleteAfterDelete.take (11 - rest.length) := by
    have hlen : done.length = 11 - rest.length := by
      have := congrArg List.length heq
      rw [List.length_append] at this
      simp only [deleteAfterDelete, List.length_cons, List.length_nil] at this
      omega
    rw [heq, ← hlen, List.take_left']
    rfl
  have hstate := hstates rest.length hle
  rw [← hdone, hd] at hstate
  have htomb := Option.some.inj hstate
  have := hlive.2.2 3 _ ⟨by decide, by decide, htomb⟩ (by decide)
  exact absurd this (by decide)

end KubeBrain

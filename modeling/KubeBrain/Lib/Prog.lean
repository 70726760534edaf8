import Mathlib.Data.Nat.Notation
import Mathlib.Logic.Function.Basic
import Mathlib.Logic.Relation

/-! Sequential programs over a signature of atomic operations, and pools of such
programs whose operations are interleaved by an arbitrary scheduler. -/

section Snoc

-- Logs grow at their end.
variable {α : Type} {l : List α} {a b : α}

theorem List.mem_snoc : a ∈ l ++ [b] ↔ a ∈ l ∨ a = b := by
  rw [List.mem_append, List.mem_singleton]

theorem List.forall_mem_snoc {P : α → Prop} : (∀ a ∈ l ++ [b], P a) ↔ (∀ a ∈ l, P a) ∧ P b := by
  rw [List.forall_mem_append, List.forall_mem_singleton]

theorem List.pairwise_snoc {R : α → α → Prop} :
    (l ++ [b]).Pairwise R ↔ l.Pairwise R ∧ ∀ a ∈ l, R a b := by
  simp [List.pairwise_append]

theorem List.nodup_snoc : (l ++ [b]).Nodup ↔ l.Nodup ∧ b ∉ l := by
  rw [List.Nodup, List.pairwise_snoc]
  exact and_congr_right fun _ => ⟨fun h hb => h b hb rfl, fun h a ha hab => h (hab ▸ ha)⟩

end Snoc

namespace Interleaving

section

variable {α β γ : Type} {a a' : α} {b b' : β} {c c' : γ} {p : Prop} [Decidable p]

/-- What an operation that was carried out has answered. -/
theorem answer_inj (h : some (a, b, c) = some (a', b', c')) : a = a' ∧ b = b' ∧ c = c' := by
  obtain ⟨ha, hrest⟩ := Prod.mk.inj (Option.some.inj h)
  exact ⟨ha, Prod.mk.inj hrest⟩

theorem answer_ite (h : (if p then some (a, b, c) else none) = some (a', b', c')) :
    p ∧ a = a' ∧ b = b' ∧ c = c' := by
  split at h
  · next hp => exact ⟨hp, answer_inj h⟩
  · cases h

theorem answer_unless (h : (if p then none else some (a, b, c)) = some (a', b', c')) :
    ¬ p ∧ a = a' ∧ b = b' ∧ c = c' := by
  split at h
  · cases h
  · next hp => exact ⟨hp, answer_inj h⟩

end

/-- Atomic operations and the type of the answer each one gets. -/
structure Sig where
  Op : Type
  Res : Op → Type

/-- A program is a tree: it returns, or it issues an operation and goes on with the answer. -/
inductive Prog (S : Sig) (α : Type) : Type where
  | ret (a : α)
  | op (o : S.Op) (k : S.Res o → Prog S α)

namespace Prog

variable {S : Sig} {α β γ : Type}

variable {p : Prog S α}

def bind : Prog S α → (α → Prog S β) → Prog S β
  | ret a, f => f a
  | op o k, f => op o fun r => bind (k r) f

/-- Issue one operation and return its answer. -/
def call (o : S.Op) : Prog S (S.Res o) := op o ret

instance : Monad (Prog S) where
  pure := ret
  bind := bind

@[simp] theorem pure_eq (a : α) : (pure a : Prog S α) = ret a := rfl

@[simp] theorem ret_bind (a : α) (f : α → Prog S β) : (ret a >>= f) = f a := rfl

@[simp] theorem op_bind (o : S.Op) (k : S.Res o → Prog S α) (f : α → Prog S β) :
    (op o k >>= f) = op o fun r => k r >>= f := rfl

@[simp] theorem call_bind (o : S.Op) (f : S.Res o → Prog S β) : (call o >>= f) = op o f := rfl

theorem bind_ret (p : Prog S α) : (p >>= ret) = p := by
  induction p with
  | ret a => rfl
  | op o k ih =>
    simp only [op_bind]
    congr 1
    funext r
    exact ih r

theorem bind_assoc (p : Prog S α) (f : α → Prog S β) (g : β → Prog S γ) :
    ((p >>= f) >>= g) = (p >>= fun a => f a >>= g) := by
  induction p with
  | ret a => rfl
  | op o k ih =>
    simp only [op_bind]
    congr 1
    funext r
    exact ih r

instance : LawfulMonad (Prog S) :=
  LawfulMonad.mk' _ (fun p => bind_ret p) (fun _ _ => rfl) bind_assoc

/-- Run a program to its end when `h` answers each operation. -/
def eval {σ : Type} (h : (o : S.Op) → σ → Option (S.Res o × σ)) :
    Prog S α → σ → Option (α × σ)
  | ret a, s => some (a, s)
  | op o k, s =>
    match h o s with
    | none => none
    | some (r, s') => eval h (k r) s'

section Eval

variable {σ : Type} {h : (o : S.Op) → σ → Option (S.Res o × σ)} {s s' : σ}

@[simp] theorem eval_ret (a : α) : (ret a : Prog S α).eval h s = some (a, s) := rfl

theorem eval_op {o : S.Op} {k : S.Res o → Prog S α} {r : S.Res o} (ho : h o s = some (r, s')) :
    (op o k).eval h s = (k r).eval h s' := by
  simp only [eval, ho]

theorem eval_bind (p : Prog S α) (f : α → Prog S β) (s : σ) :
    (p >>= f).eval h s = (p.eval h s).bind fun x => (f x.1).eval h x.2 := by
  induction p generalizing s with
  | ret a => rfl
  | op o k ih =>
    simp only [op_bind, eval]
    split
    · rfl
    · exact ih _ _

theorem eval_bind_some {p : Prog S α} {a : α} (hp : p.eval h s = some (a, s'))
    (f : α → Prog S β) : (p >>= f).eval h s = (f a).eval h s' := by
  rw [eval_bind, hp, Option.bind_some]

theorem eval_bind_none {p : Prog S α} (hp : p.eval h s = none) (f : α → Prog S β) :
    (p >>= f).eval h s = none := by
  rw [eval_bind, hp, Option.bind_none]

theorem eval_call_bind {o : S.Op} {r : S.Res o} (ho : h o s = some (r, s'))
    (f : S.Res o → Prog S β) : (call o >>= f).eval h s = (f r).eval h s' := by
  rw [call_bind, eval_op ho]

end Eval

/-- Every operation the program may issue satisfies `P`, every value it may return `Q`. -/
def Does (P : S.Op → Prop) (Q : α → Prop) : Prog S α → Prop
  | ret a => Q a
  | op o k => P o ∧ ∀ r, Does P Q (k r)

abbrev Only (P : S.Op → Prop) (p : Prog S α) : Prop := p.Does P fun _ => True

variable {P P' : S.Op → Prop} {Q R : α → Prop}

theorem Does.bind {R : β → Prop} {f : α → Prog S β} (hp : p.Does P Q)
    (hf : ∀ a, Q a → (f a).Does P R) : (p >>= f).Does P R := by
  induction p with
  | ret a => exact hf a hp
  | op o k ih => exact ⟨hp.1, fun r => ih r (hp.2 r)⟩

theorem Does.mono (hPP' : ∀ o, P o → P' o) (hQR : ∀ a, Q a → R a) (h : p.Does P Q) :
    p.Does P' R := by
  induction p with
  | ret a => exact hQR a h
  | op o k ih => exact ⟨hPP' o h.1, fun r => ih r (h.2 r)⟩

theorem only_pure (a : α) : Only P (pure a : Prog S α) := trivial

theorem Only.bind {f : α → Prog S β} (hp : Only P p) (hf : ∀ a, Only P (f a)) :
    Only P (p >>= f) := Does.bind hp fun a _ => hf a

theorem only_call {o : S.Op} (h : P o) : Only P (call o) := ⟨h, fun _ => trivial⟩

/-- A program that issues only operations which both handlers answer alike runs alike. -/
theorem Only.eval_frame {σ τ : Type} {h : (o : S.Op) → σ → Option (S.Res o × σ)}
    {h' : (o : S.Op) → τ → Option (S.Res o × τ)} (emb : σ → τ)
    (hh' : ∀ o, P o → ∀ s, h' o (emb s) = (h o s).map fun x => (x.1, emb x.2)) (hp : Only P p)
    (s : σ) : p.eval h' (emb s) = (p.eval h s).map fun x => (x.1, emb x.2) := by
  induction p generalizing s with
  | ret a => rfl
  | op o k ih =>
    simp only [eval, hh' o hp.1]
    cases h o s with
    | none => rfl
    | some x => exact ih x.1 (hp.2 x.1) x.2

theorem only_true (p : Prog S α) : Only (fun _ => True) p := by
  induction p with
  | ret a => trivial
  | op o k ih => exact ⟨trivial, ih⟩

/-- What every operation of a program keeps, a run of the program keeps. -/
theorem Only.eval_keeps {σ : Type} {h : (o : S.Op) → σ → Option (S.Res o × σ)} {I : σ → Prop}
    (hI : ∀ o, P o → ∀ s r s', I s → h o s = some (r, s') → I s') (hp : Only P p) {s s' : σ} {a : α}
    (heval : p.eval h s = some (a, s')) (hs : I s) : I s' := by
  induction p generalizing s with
  | ret b =>
    obtain ⟨-, rfl⟩ := Prod.mk.inj (Option.some.inj heval)
    exact hs
  | op o k ih =>
    simp only [eval] at heval
    split at heval
    · cases heval
    · next r s₁ ho => exact ih r (hp.2 r) heval (hI o hp.1 s r s₁ hs ho)

theorem Only.mono (hPP' : ∀ o, P o → P' o) (h : Only P p) : Only P' p :=
  Does.mono hPP' (fun _ h => h) h

end Prog

/-- A thread runs its program once, or forever when `again` restarts it from the
value the last pass returned. -/
structure Thread (S : Sig) (Out : Type) where
  prog : Prog S Out
  again : Option (Out → Prog S Out) := none

namespace Thread

variable {S : Sig} {Out : Type}

/-- The value of a thread that has returned for good. -/
def outcome (t : Thread S Out) : Option Out :=
  match t.again, t.prog with
  | none, .ret a => some a
  | _, _ => none

theorem outcome_eq_some {t : Thread S Out} {a : Out} (h : t.outcome = some a) :
    t.again = none ∧ t.prog = .ret a := by
  obtain ⟨p, f⟩ := t
  cases f <;> cases p <;> simp_all [outcome]

/-- The value a thread has returned, for good or until its next pass. -/
def value (t : Thread S Out) : Option Out :=
  match t.prog with
  | .ret a => some a
  | .op .. => none

theorem value_eq_some {t : Thread S Out} {a : Out} : t.value = some a ↔ t.prog = .ret a := by
  obtain ⟨p, f⟩ := t
  cases p <;> simp [value]

end Thread

/-- Meaning of the operations on a shared state. `exec` sees the outcomes of all
threads and the index of the caller; it may start one thread. `Choice` resolves
what the program does not determine, and `none` means that the call is blocked. -/
structure Machine (S : Sig) (Out : Type) where
  State : Type
  Choice : Type
  exec : State → List (Option Out) → ℕ → (o : S.Op) → Choice →
    Option (State × S.Res o × Option (Thread S Out))
  /-- Steps the shared state takes without any thread. -/
  env : State → Choice → Option State

variable {S : Sig} {Out : Type}

structure Config (M : Machine S Out) where
  state : M.State
  threads : List (Thread S Out)

inductive Label (M : Machine S Out) where
  | thread (i : ℕ) (ch : M.Choice)
  | restart (i : ℕ)
  | env (ch : M.Choice)

/-- What a label makes happen to the shared state. -/
inductive Move (M : Machine S Out) where
  | op (o : S.Op) (ch : M.Choice)
  | env (ch : M.Choice)

/-- A condition on the moves of a run, read in the state before each move. -/
abbrev Guard (M : Machine S Out) := M.State → Move M → Prop

namespace Config

variable {M : Machine S Out}

variable {c : Config M} {G : Guard M} {ok : M.State → Move M → Bool} {c' : Config M}

def outcomes (c : Config M) : List (Option Out) := c.threads.map Thread.outcome

/-- Thread `i` has returned `a`, for good or until its next pass. -/
def Returned (c : Config M) (i : ℕ) (a : Out) : Prop :=
  ∃ t, c.threads[i]? = some t ∧ t.prog = .ret a

theorem returned_of_outcome {i : ℕ} {a : Out} (h : c.outcomes[i]? = some (some a)) :
    c.Returned i a := by
  simp only [outcomes, List.getElem?_map, Option.map_eq_some_iff] at h
  obtain ⟨t, ht, ha⟩ := h
  exact ⟨t, ht, (Thread.outcome_eq_some ha).2⟩

theorem returned_iff_value {i : ℕ} {a : Out} :
    c.Returned i a ↔ (c.threads[i]?).bind Thread.value = some a := by
  simp only [Returned, Option.bind_eq_some_iff, Thread.value_eq_some]

instance [DecidableEq Out] (c : Config M) (i : ℕ) (a : Out) : Decidable (c.Returned i a) :=
  decidable_of_iff' _ returned_iff_value

/-- No thread is in the middle of its program. -/
def atRest (c : Config M) : Bool := c.threads.all fun t => t.value.isSome

theorem atRest_iff : c.atRest = true ↔ ∀ i, i < c.threads.length → ∃ a, c.Returned i a := by
  rw [atRest, List.all_eq_true, List.forall_mem_iff_forall_getElem]
  refine forall₂_congr fun i hi => ?_
  simp only [returned_iff_value, List.getElem?_eq_getElem hi, Option.bind_some,
    Option.isSome_iff_exists]

instance (c : Config M) : Decidable (∀ i, i < c.threads.length → ∃ a, c.Returned i a) :=
  decidable_of_iff _ atRest_iff

/-- One step of thread `i` when `o` is the operation it issues. -/
def stepOp (c : Config M) (i : ℕ) (again : Option (Out → Prog S Out)) (o : S.Op)
    (k : S.Res o → Prog S Out) (ch : M.Choice) : Option (Config M) :=
  match M.exec c.state c.outcomes i o ch with
  | none => none
  | some (s, r, sp) => some ⟨s, c.threads.set i ⟨k r, again⟩ ++ sp.toList⟩

def step (c : Config M) : Label M → Option (Config M)
  | .thread i ch =>
    match c.threads[i]? with
    | some ⟨.op o k, again⟩ => c.stepOp i again o k ch
    | _ => none
  | .restart i =>
    match c.threads[i]? with
    | some ⟨.ret a, some f⟩ => some { c with threads := c.threads.set i ⟨f a, some f⟩ }
    | _ => none
  | .env ch =>
    match M.env c.state ch with
    | none => none
    | some s => some { c with state := s }

/-- The move behind a label; restarting a loop touches nothing shared. -/
def move (c : Config M) : Label M → Option (Move M)
  | .thread i ch =>
    match c.threads[i]? with
    | some ⟨.op o _, _⟩ => some (.op o ch)
    | _ => none
  | .restart _ => none
  | .env ch => some (.env ch)

/-- Who makes a step: a thread with an operation, or no thread. -/
def actor (c : Config M) : Label M → Option (Option (ℕ × S.Op))
  | .thread i _ =>
    match c.threads[i]? with
    | some ⟨.op o _, _⟩ => some (some (i, o))
    | _ => none
  | .restart _ => none
  | .env _ => some none

section Steps

variable {c c' : Config M} {i : ℕ} {o : S.Op} {k : S.Res o → Prog S Out}
  {again : Option (Out → Prog S Out)} {ch : M.Choice}

theorem step_thread {s : M.State} {r : S.Res o} {sp : Option (Thread S Out)}
    (ht : c.threads[i]? = some ⟨.op o k, again⟩)
    (hex : M.exec c.state c.outcomes i o ch = some (s, r, sp)) :
    c.step (.thread i ch) = some ⟨s, c.threads.set i ⟨k r, again⟩ ++ sp.toList⟩ := by
  simp only [step, ht, stepOp, hex]

theorem exec_of_step (ht : c.threads[i]? = some ⟨.op o k, again⟩)
    (h : c.step (.thread i ch) = some c') :
    ∃ (s : M.State) (r : S.Res o) (sp : Option (Thread S Out)),
      M.exec c.state c.outcomes i o ch = some (s, r, sp) ∧
      c' = ⟨s, c.threads.set i ⟨k r, again⟩ ++ sp.toList⟩ := by
  simp only [step, ht, stepOp] at h
  split at h
  · cases h
  · next s r sp hex => exact ⟨s, r, sp, hex, (Option.some.inj h).symm⟩

theorem step_restart {a : Out} {f : Out → Prog S Out} (ht : c.threads[i]? = some ⟨.ret a, some f⟩) :
    c.step (.restart i) = some { c with threads := c.threads.set i ⟨f a, some f⟩ } := by
  simp only [step, ht]

theorem step_env {s : M.State} (he : M.env c.state ch = some s) :
    c.step (.env ch) = some { c with state := s } := by
  simp only [step, he]

/-- What a step can be: an operation of a thread, a loop that starts again, or a step of the
environment. -/
theorem step_cases {l : Label M} (h : c.step l = some c') :
    (∃ (i : ℕ) (ch : M.Choice) (o : S.Op) (k : S.Res o → Prog S Out)
      (again : Option (Out → Prog S Out)) (s : M.State) (r : S.Res o) (sp : Option (Thread S Out)),
      l = .thread i ch ∧ c.threads[i]? = some ⟨.op o k, again⟩ ∧
      M.exec c.state c.outcomes i o ch = some (s, r, sp) ∧
      c' = ⟨s, c.threads.set i ⟨k r, again⟩ ++ sp.toList⟩) ∨
    (∃ (i : ℕ) (a : Out) (f : Out → Prog S Out), l = .restart i ∧
      c.threads[i]? = some ⟨.ret a, some f⟩ ∧
      c' = { c with threads := c.threads.set i ⟨f a, some f⟩ }) ∨
    (∃ (ch : M.Choice) (s : M.State), l = .env ch ∧ M.env c.state ch = some s ∧
      c' = { c with state := s }) := by
  cases l with
  | thread i ch =>
    simp only [step] at h
    split at h
    · next o k again ht =>
      unfold stepOp at h
      split at h
      · cases h
      · next s r sp hex =>
        exact .inl ⟨i, ch, o, k, again, s, r, sp, rfl, ht, hex, (Option.some.inj h).symm⟩
    · cases h
  | restart i =>
    simp only [step] at h
    split at h
    · next a f ht => exact .inr (.inl ⟨i, a, f, rfl, ht, (Option.some.inj h).symm⟩)
    · cases h
  | env ch =>
    simp only [step] at h
    split at h
    · cases h
    · next s he => exact .inr (.inr ⟨ch, s, rfl, he, (Option.some.inj h).symm⟩)

theorem move_thread (ht : c.threads[i]? = some ⟨.op o k, again⟩) :
    c.move (.thread i ch) = some (.op o ch) := by
  simp only [move, ht]

theorem actor_thread (ht : c.threads[i]? = some ⟨.op o k, again⟩) :
    c.actor (.thread i ch) = some (some (i, o)) := by
  simp only [actor, ht]

theorem length_of_step {l : Label M} (h : c.step l = some c') :
    c.threads.length ≤ c'.threads.length := by
  rcases step_cases h with ⟨j, ch, o, k, again, s, r, sp, rfl, ht, hex, rfl⟩ |
    ⟨j, b, f, rfl, ht, rfl⟩ | ⟨ch, s, rfl, he, rfl⟩ <;> simp

/-- A thread that has returned for good is not touched again. -/
theorem outcome_of_step {l : Label M} (h : c.step l = some c') {a : Out}
    (ha : c.outcomes[i]? = some (some a)) : c'.outcomes[i]? = some (some a) := by
  have hthread {t : Thread S Out} {j : ℕ} (hj : c.threads[j]? = some t) (hne : t.outcome = none)
      (t' : Thread S Out) (ts : List (Thread S Out)) :
      ((c.threads.set j t' ++ ts).map Thread.outcome)[i]? = some (some a) := by
    have hij : j ≠ i := by
      rintro rfl
      rw [outcomes, List.getElem?_map, hj] at ha
      rw [Option.map_some, hne] at ha
      cases ha
    have hi : i < (c.threads.map Thread.outcome).length := (List.getElem?_eq_some_iff.mp ha).1
    rw [List.map_append, List.getElem?_append_left (by simpa using hi), List.getElem?_map,
      List.getElem?_set_ne hij, ← List.getElem?_map]
    exact ha
  rcases step_cases h with ⟨j, ch, o, k, again, s, r, sp, rfl, ht, hex, rfl⟩ |
    ⟨j, b, f, rfl, ht, rfl⟩ | ⟨ch, s, rfl, he, rfl⟩
  · exact hthread ht (by cases again <;> rfl) _ _
  · have := hthread ht rfl ⟨f b, some f⟩ []
    rwa [List.append_nil] at this
  · exact ha

end Steps

/-- A step whose move satisfies the guard. -/
def Step (G : Guard M) (c c' : Config M) : Prop :=
  ∃ l, c.step l = some c' ∧ ∀ m, c.move l = some m → G c.state m

/-- Runs all of whose moves satisfy the guard. -/
abbrev Reach (G : Guard M) : Config M → Config M → Prop := Relation.ReflTransGen (Step G)

/-- What every operation and the environment relate holds between the states of a run. -/
theorem Reach.state {G : Guard M} {R : M.State → M.State → Prop} (hrefl : ∀ s, R s s)
    (htrans : ∀ {s s' s''}, R s s' → R s' s'' → R s s'')
    (hop : ∀ {s outs i o ch s' r sp}, M.exec s outs i o ch = some (s', r, sp) → R s s')
    (henv : ∀ {s ch s'}, M.env s ch = some s' → R s s') {c c' : Config M} (h : Reach G c c') :
    R c.state c'.state := by
  induction h with
  | refl => exact hrefl _
  | tail _ hs ih =>
    obtain ⟨l, hl, -⟩ := hs
    apply htrans ih
    rcases step_cases hl with ⟨i, ch, o, k, again, s, r, sp, rfl, ht, hex, rfl⟩ |
      ⟨i, a, f, rfl, ht, rfl⟩ | ⟨ch, s, rfl, he, rfl⟩
    · exact hop hex
    · exact hrefl _
    · exact henv he

/-- Follow a schedule while the moves pass a check. -/
def run (ok : M.State → Move M → Bool) (c : Config M) : List (Label M) → Option (Config M)
  | [] => some c
  | l :: ls =>
    if (c.move l).all (ok c.state) then
      match c.step l with
      | none => none
      | some c' => run ok c' ls
    else none

theorem reach_of_run (hok : ∀ s m, ok s m = true → G s m) (ls : List (Label M))
    (h : c.run ok ls = some c') : Reach G c c' := by
  induction ls generalizing c with
  | nil =>
    obtain rfl := Option.some.inj h
    exact .refl
  | cons l ls ih =>
    simp only [run] at h
    split at h
    · next hmove =>
      split at h
      · cases h
      · next c₁ hc =>
        refine .head ⟨l, hc, fun m hm => hok _ _ ?_⟩ (ih h)
        simpa [hm] using hmove
    · cases h

/-- A schedule that passes its check and ends as it should. -/
theorem exists_of_run (hok : ∀ s m, ok s m = true → G s m) (ls : List (Label M))
    {P : Config M → Prop} [DecidablePred P] (h : (c.run ok ls).any (fun d => decide (P d)) = true) :
    ∃ d, Reach G c d ∧ P d := by
  obtain ⟨d, hd, hP⟩ := (Option.any_eq_true _ _).mp h
  exact ⟨d, reach_of_run hok ls hd, of_decide_eq_true hP⟩

theorem exists_of_unchecked (ls : List (Label M)) {P : Config M → Prop} [DecidablePred P]
    (h : (c.run (fun _ _ => true) ls).any (fun d => decide (P d)) = true) :
    ∃ d, Reach (fun _ _ => True) c d ∧ P d :=
  exists_of_run (fun _ _ _ => trivial) ls h

theorem exists_of_runs (hok : ∀ s m, ok s m = true → G s m) (ls ls' : List (Label M))
    {P : Config M → Config M → Prop} [∀ d e, Decidable (P d e)]
    (h : (c.run ok ls).any (fun d => (d.run ok ls').any fun e => decide (P d e)) = true) :
    ∃ d e, c.run ok ls = some d ∧ Reach G c d ∧ Reach G d e ∧ P d e := by
  obtain ⟨d, hd, h⟩ := (Option.any_eq_true _ _).mp h
  obtain ⟨e, he, hP⟩ := (Option.any_eq_true _ _).mp h
  exact ⟨d, e, hd, reach_of_run hok ls hd, reach_of_run hok ls' he, of_decide_eq_true hP⟩

/-- A check only stops a schedule. -/
theorem run_unchecked (ls : List (Label M)) (h : c.run ok ls = some c') :
    c.run (fun _ _ => true) ls = some c' := by
  induction ls generalizing c with
  | nil => exact h
  | cons l ls ih =>
    simp only [run] at h ⊢
    rw [if_pos (by cases c.move l <;> rfl)]
    split at h
    · split at h
      · cases h
      · exact ih h
    · cases h

theorem thread_of_run {ls : List (Label M)} (h : c.run ok ls = some c') {i : ℕ} {t : Thread S Out}
    (ht : (c.run (fun _ _ => true) ls).map (fun d => d.threads[i]?) = some (some t)) :
    c'.threads[i]? = some t := by
  rw [run_unchecked ls h] at ht
  exact Option.some.inj ht

theorem run_append (ok : M.State → Move M → Bool) (ls ls' : List (Label M)) (c : Config M) :
    c.run ok (ls ++ ls') = (c.run ok ls).bind fun d => d.run ok ls' := by
  induction ls generalizing c with
  | nil => rfl
  | cons l ls ih =>
    simp only [run, List.cons_append]
    split
    · cases c.step l with
      | none => rfl
      | some d => exact ih d
    · rfl

theorem run_trans {ls ls' : List (Label M)} {d e : Config M} (h : c.run ok ls = some d)
    (h' : d.run ok ls' = some e) : c.run ok (ls ++ ls') = some e := by
  rw [run_append, h]
  exact h'

/-- The schedule `ls` goes through `d` and has `rest` left to do there. -/
def Visits (c : Config M) (ls : List (Label M)) (d : Config M) (rest : List (Label M)) : Prop :=
  ∃ done, ls = done ++ rest ∧ c.run (fun _ _ => true) done = some d

namespace Visits

variable {c d e : Config M} {ls rest rest' : List (Label M)}

theorem reach (h : c.Visits ls d rest) : Reach (fun _ _ => True) c d := by
  obtain ⟨done, -, hd⟩ := h
  exact reach_of_run (fun _ _ _ => trivial) done hd

/-- Of two configurations of a schedule one comes before the other. -/
theorem total (hd : c.Visits ls d rest) (he : c.Visits ls e rest') :
    Reach (fun _ _ => True) d e ∨ Reach (fun _ _ => True) e d := by
  have hcut {done done' xs : List (Label M)} {d e : Config M}
    (hd : c.run (fun _ _ => true) done = some d)
      (he : c.run (fun _ _ => true) done' = some e) (h : done' = done ++ xs) :
      Reach (fun _ _ => True) d e := by
    rw [h, run_append, hd, Option.bind_some] at he
    exact reach_of_run (fun _ _ _ => trivial) xs he
  obtain ⟨done, rfl, hd⟩ := hd
  obtain ⟨done', heq, he⟩ := he
  rcases List.append_eq_append_iff.mp heq with ⟨xs, h, -⟩ | ⟨xs, h, -⟩
  · exact .inl (hcut hd he h)
  · exact .inr (hcut he hd h)

/-- What holds all along a schedule up to `d` is a guard of that run. -/
theorem guarded {I : M.State → Prop} (h : c.Visits ls d rest)
    (hI : ∀ e rest', c.Visits ls e rest' → I e.state) : Reach (fun s _ => I s) c d := by
  obtain ⟨done, rfl, hd⟩ := h
  have hgo (done : List (Label M)) {c : Config M} (hd : c.run (fun _ _ => true) done = some d)
      (hI : ∀ done₁ done₂ e, done = done₁ ++ done₂ → c.run (fun _ _ => true) done₁ = some e →
        I e.state) : Reach (fun s _ => I s) c d := by
    induction done generalizing c with
    | nil =>
      obtain rfl := Option.some.inj hd
      exact .refl
    | cons l done ih =>
      have hc := hI [] (l :: done) c rfl rfl
      have htrue : (c.move l).all (fun _ => true) = true := by cases c.move l <;> rfl
      simp only [run, htrue, if_true] at hd
      split at hd
      · cases hd
      · next c₁ hstep =>
        refine .head ⟨l, hstep, fun _ _ => hc⟩ (ih hd fun done₁ done₂ e heq he => ?_)
        refine hI (l :: done₁) done₂ e (by rw [heq, List.cons_append]) ?_
        simp only [run, htrue, if_true, hstep]
        exact he
  exact hgo done hd fun done₁ done₂ e heq he => hI e (done₂ ++ rest)
    ⟨done₁, by rw [heq, List.append_assoc], he⟩

end Visits

theorem Reach.mono {H : Guard M} (hG : ∀ s m, G s m → H s m) (h : Reach G c c') : Reach H c c' := by
  induction h with
  | refl => exact .refl
  | tail _ hs ih =>
    obtain ⟨l, hl, hg⟩ := hs
    exact ih.tail ⟨l, hl, fun m hm => hG _ _ (hg m hm)⟩

theorem Reach.length_le (h : Reach G c c') : c.threads.length ≤ c'.threads.length := by
  induction h with
  | refl => exact Nat.le_refl _
  | tail _ hs ih =>
    obtain ⟨l, hl, -⟩ := hs
    exact Nat.le_trans ih (length_of_step hl)

/-- What holds of every state a guarded run reaches may be added to the guard. -/
theorem Reach.given {I : M.State → Prop} (hI : ∀ d, Reach G c d → I d.state) (h : Reach G c c') :
    Reach (fun s m => G s m ∧ I s) c c' := by
  induction h with
  | refl => exact .refl
  | tail hr hs ih =>
    obtain ⟨l, hl, hm⟩ := hs
    exact ih.tail ⟨l, hl, fun m hmv => ⟨hm m hmv, hI _ hr⟩⟩

end Config
end Interleaving

import KubeBrain.Lib.Prog

/-! Proof outlines for thread pools. Every thread carries a ghost value; a specification
says which operations a ghost allows and how an answer changes it, and an outline adds the
invariant that ties the shared state to the ghosts. Programs are checked one at a time,
over every answer; soundness of the operations is checked once and gives all
interleavings. -/
namespace Interleaving

variable {S : Sig} {Out : Type}

structure Spec (S : Sig) (Out : Type) where
  Ghost : Type
  /-- Ghost of the indices that no thread uses yet. -/
  idle : Ghost
  Pre : Ghost → S.Op → Prop
  Post : Ghost → (o : S.Op) → S.Res o → Ghost → Prop
  /-- What holds of a thread that has returned, for good or between two passes. -/
  Fin : Ghost → Out → Prop

namespace Spec

variable (O : Spec S Out) {α β : Type}

variable {Q : O.Ghost → α → Prop} {g : O.Ghost} {p : Prog S α} {I : O.Ghost → Prop}

/-- The program may run from ghost `g`, and `Q` holds of the ghost and value it returns. -/
def Safe (Q : O.Ghost → α → Prop) : O.Ghost → Prog S α → Prop
  | g, .ret a => Q g a
  | g, .op o k => O.Pre g o ∧ ∀ r g', O.Post g o r g' → Safe Q g' (k r)

/-- A loop keeps some assertion between two passes. -/
def ThreadSafe (g : O.Ghost) (t : Thread S Out) : Prop :=
  match t.again with
  | none => O.Safe O.Fin g t.prog
  | some f => ∃ L : O.Ghost → Out → Prop, (∀ g' a, L g' a → O.Fin g' a) ∧
      O.Safe L g t.prog ∧ ∀ g' a, L g' a → O.Safe L g' (f a)

variable {O}

@[simp] theorem safe_ret {a : α} : O.Safe Q g (.ret a) ↔ Q g a := Iff.rfl

@[simp] theorem safe_pure {a : α} : O.Safe Q g (pure a) ↔ Q g a := Iff.rfl

@[simp] theorem safe_op {o : S.Op} {k : S.Res o → Prog S α} :
    O.Safe Q g (.op o k) ↔ O.Pre g o ∧ ∀ r g', O.Post g o r g' → O.Safe Q g' (k r) := Iff.rfl

theorem Safe.mono {R : O.Ghost → α → Prop} (hQR : ∀ g a, Q g a → R g a) (h : O.Safe Q g p) :
    O.Safe R g p := by
  induction p generalizing g with
  | ret a => exact hQR g a h
  | op o k ih => exact ⟨h.1, fun r g' hp => ih r (h.2 r g' hp)⟩

@[simp] theorem safe_bind {Q : O.Ghost → β → Prop} {f : α → Prog S β} :
    O.Safe Q g (p >>= f) ↔ O.Safe (fun g' a => O.Safe Q g' (f a)) g p := by
  induction p generalizing g with
  | ret a => rfl
  | op o k ih =>
    simp only [Prog.op_bind, safe_op]
    exact and_congr_right fun _ => forall_congr' fun r =>
      forall_congr' fun g' => imp_congr_right fun _ => ih r

@[simp] theorem safe_call {o : S.Op} {Q : O.Ghost → S.Res o → Prop} :
    O.Safe Q g (Prog.call o) ↔ O.Pre g o ∧ ∀ r g', O.Post g o r g' → Q g' r := Iff.rfl

/-- The rule used at a call: check the program after the answer from every ghost
the answer may lead to. -/
theorem Safe.bind {R : O.Ghost → β → Prop} {f : α → Prog S β} (hp : O.Safe Q g p)
    (hf : ∀ g' a, Q g' a → O.Safe R g' (f a)) : O.Safe R g (p >>= f) :=
  safe_bind.mpr (hp.mono hf)

theorem Safe.call_bind {o : S.Op} {Q : O.Ghost → β → Prop} {f : S.Res o → Prog S β}
    (hpre : O.Pre g o) (hf : ∀ r g', O.Post g o r g' → O.Safe Q g' (f r)) :
    O.Safe Q g (Prog.call o >>= f) :=
  ⟨hpre, hf⟩

/-- A program whose operations keep a condition on the ghost keeps it. -/
theorem safe_of_does {P : S.Op → Prop} {Q : α → Prop} (hpre : ∀ g o, I g → P o → O.Pre g o)
    (hpost : ∀ g o r g', I g → P o → O.Post g o r g' → I g') (h : p.Does P Q) (hg : I g) :
    O.Safe (fun g' a => I g' ∧ Q a) g p := by
  induction p generalizing g with
  | ret a => exact ⟨hg, h⟩
  | op o k ih =>
    exact ⟨hpre g o hg h.1, fun r g' hp => ih r (h.2 r) (hpost g o r g' hg h.1 hp)⟩

theorem safe_of_only {P : S.Op → Prop} (hpre : ∀ g o, I g → P o → O.Pre g o)
    (hpost : ∀ g o r g', I g → P o → O.Post g o r g' → I g') (h : p.Only P) (hg : I g) :
    O.Safe (fun g' _ => I g') g p :=
  (safe_of_does hpre hpost h hg).mono fun _ _ h => h.1

/-- Operations that leave a ghost as it is, one after the other. -/
theorem safe_of_still {P : S.Op → Prop}
    (hop : ∀ o, P o → O.Pre g o ∧ ∀ r g', O.Post g o r g' → g' = g) (h : p.Only P) :
    O.Safe (fun g' _ => g' = g) g p := by
  apply safe_of_only (I := fun g' => g' = g) ?_ ?_ h rfl
  · rintro _ o rfl ho
    exact (hop o ho).1
  · rintro _ o r g' rfl ho
    exact (hop o ho).2 r g'

/-- Ghosts that no answer leads out of stay so. -/
theorem Safe.keeps (hI : ∀ g o r g', I g → O.Pre g o → O.Post g o r g' → I g') (h : O.Safe Q g p)
    (hg : I g) : O.Safe (fun g' a => Q g' a ∧ I g') g p := by
  induction p generalizing g with
  | ret a => exact ⟨h, hg⟩
  | op o k ih => exact ⟨h.1, fun r g' hp => ih r (h.2 r g' hp) (hI g o r g' hg h.1 hp)⟩

/-- A thread whose programs keep an assertion. -/
theorem threadSafe_of_keeps (hfin : ∀ g a, I g → O.Fin g a) {t : Thread S Out}
    (hprog : O.Safe (fun g' _ => I g') g t.prog)
    (hagain : ∀ f, t.again = some f → ∀ g' a, I g' → O.Safe (fun g' _ => I g') g' (f a)) :
    O.ThreadSafe g t := by
  obtain ⟨p, again⟩ := t
  cases again with
  | none => exact hprog.mono hfin
  | some f => exact ⟨fun g' _ => I g', hfin, hprog, hagain f rfl⟩

end Spec

section

-- Of the ghosts, one is replaced.
variable {α : Type} {gs : ℕ → α} {i j : ℕ} {g : α}

theorem forall_update {P : ℕ → α → Prop} (h : ∀ j, P j (gs j)) (hg : P i g) :
    ∀ j, P j (Function.update gs i g j) :=
  (Function.forall_update_iff gs P).mpr ⟨hg, fun j _ => h j⟩

theorem update_cases {P : α → Prop} (h : P (Function.update gs i g j)) :
    (j = i ∧ P g) ∨ (j ≠ i ∧ P (gs j)) := by
  by_cases hji : j = i
  · subst hji
    rw [Function.update_self] at h
    exact .inl ⟨rfl, h⟩
  · rw [Function.update_of_ne hji] at h
    exact .inr ⟨hji, h⟩

end

structure Outline (M : Machine S Out) extends Spec S Out where
  Inv : M.State → (ℕ → Ghost) → Prop

namespace Outline

variable {M : Machine S Out} {O : Outline M}

variable {gs : ℕ → O.Ghost} {c c' : Config M} {i : ℕ} {again : Option (Out → Prog S Out)}

/-- The invariant after a step that may have started a thread at index `n`. -/
def Spawned (O : Outline M) (s : M.State) (gs : ℕ → O.Ghost) (n : ℕ) :
    Option (Thread S Out) → Prop
  | none => O.Inv s gs
  | some t => ∃ gt, O.ThreadSafe gt t ∧ O.Inv s (Function.update gs n gt)

/-- A new thread may take over the ghost of an unused index. -/
theorem spawned_of_idle {s : M.State} {n : ℕ} {g : O.Ghost} {sp : Option (Thread S Out)}
    (h : O.Inv s (Function.update gs i g)) (hi : i < n) (hn : gs n = O.idle)
    (ht : ∀ t, sp = some t → O.ThreadSafe O.idle t) :
    O.Spawned s (Function.update gs i g) n sp := by
  cases sp with
  | none => exact h
  | some t =>
    have hn : O.idle = Function.update gs i g n := by
      rw [Function.update_of_ne (Nat.ne_of_gt hi), hn]
    exact ⟨O.idle, ht t rfl, by rwa [Function.update_eq_self_iff.mpr hn]⟩

/-- What is known of every step of a run: the state before, the thread and its operation if
a thread makes the step, and the state after. -/
abbrev Facts (M : Machine S Out) := M.State → Option (ℕ × S.Op) → M.State → Prop

/-- The operations keep the invariant under the guard, where `A` is already known of all
steps of a run. -/
structure Sound (O : Outline M) (G : Guard M) (A : Facts M) : Prop where
  op : ∀ {s : M.State} {gs : ℕ → O.Ghost} {outs : List (Option Out)} {i : ℕ} {o : S.Op}
    {ch : M.Choice} {s' : M.State} {r : S.Res o} {sp : Option (Thread S Out)},
    A s (some (i, o)) s' → O.Inv s gs → O.Pre (gs i) o → G s (.op o ch) → i < outs.length →
    (∀ j, outs.length ≤ j → gs j = O.idle) →
    (∀ j a, outs[j]? = some (some a) → O.Fin (gs j) a) →
    M.exec s outs i o ch = some (s', r, sp) →
    ∃ g', O.Post (gs i) o r g' ∧ O.Spawned s' (Function.update gs i g') outs.length sp
  env : ∀ {s : M.State} {gs : ℕ → O.Ghost} {ch : M.Choice} {s' : M.State},
    A s none s' → O.Inv s gs → G s (.env ch) → M.env s ch = some s' → O.Inv s' gs

/-- The facts hold of every guarded step after `c`. -/
def Holds (G : Guard M) (A : Facts M) (c : Config M) : Prop :=
  ∀ d d' l x, Config.Reach G c d → d.step l = some d' → (∀ m, d.move l = some m → G d.state m) →
    d.actor l = some x → A d.state x d'.state

theorem Holds.of_states {G : Guard M} {P : M.State → Prop}
    (h : ∀ d, Config.Reach G c d → P d.state) :
    Holds G (fun s _ s' => P s ∧ P s') c := by
  intro d d' l x hr hs hg _
  exact ⟨h d hr, h d' (hr.tail ⟨l, hs, hg⟩)⟩

theorem Holds.and {G : Guard M} {A B : Facts M} (hA : Holds G A c) (hB : Holds G B c) :
    Holds G (fun s x s' => A s x s' ∧ B s x s') c :=
  fun d d' l x hr hs hg hx => ⟨hA d d' l x hr hs hg hx, hB d d' l x hr hs hg hx⟩

theorem Holds.of_reach {G : Guard M} {A : Facts M} (hA : Holds G A c) (h : Config.Reach G c c') :
    Holds G A c' :=
  fun d d' l x hr => hA d d' l x (h.trans hr)

/-- What an outline says of a step, for the use of other outlines. -/
def Known (O : Outline M) : Facts M := fun s x s' =>
  (∃ gs, O.Inv s gs ∧ ∀ i o, x = some (i, o) → O.Pre (gs i) o) ∧ ∃ gs, O.Inv s' gs

/-- The invariant of whole configurations. -/
structure Good (O : Outline M) (c : Config M) (gs : ℕ → O.Ghost) : Prop where
  inv : O.Inv c.state gs
  safe : ∀ i t, c.threads[i]? = some t → O.ThreadSafe (gs i) t
  idle : ∀ i, c.threads.length ≤ i → gs i = O.idle

theorem Good.returned (h : O.Good c gs) {a : Out} (hr : c.Returned i a) : O.Fin (gs i) a := by
  obtain ⟨t, ht, ha⟩ := hr
  have hs := h.safe i t ht
  obtain ⟨p, again⟩ := t
  obtain rfl : p = .ret a := ha
  cases again with
  | none => exact hs
  | some f =>
    obtain ⟨L, hL, hg, -⟩ := hs
    exact hL _ _ hg

theorem Good.fin (h : O.Good c gs) {a : Out} (ho : c.outcomes[i]? = some (some a)) :
    O.Fin (gs i) a :=
  h.returned (Config.returned_of_outcome ho)

/-- What is shown of a thread that runs once, from its ghost at `c`, still holds of the rest
of its program at `c'`. -/
def Follows (O : Outline M) (c : Config M) (gs : ℕ → O.Ghost) (c' : Config M)
    (gs' : ℕ → O.Ghost) : Prop :=
  ∀ (i : ℕ) (q : Prog S Out) (Q : O.Ghost → Out → Prop), c.threads[i]? = some ⟨q, none⟩ →
    O.Safe Q (gs i) q → ∃ q', c'.threads[i]? = some ⟨q', none⟩ ∧ O.Safe Q (gs' i) q'

theorem Follows.trans {c₁ c₂ c₃ : Config M} {gs₁ gs₂ gs₃ : ℕ → O.Ghost}
    (h₁ : O.Follows c₁ gs₁ c₂ gs₂) (h₂ : O.Follows c₂ gs₂ c₃ gs₃) : O.Follows c₁ gs₁ c₃ gs₃ := by
  intro i q Q hi hq
  obtain ⟨q₂, hi₂, hq₂⟩ := h₁ i q Q hi hq
  exact h₂ i q₂ Q hi₂ hq₂

/-- A thread that has returned meets what was shown of it. -/
theorem Follows.returned {gs' : ℕ → O.Ghost} (h : O.Follows c gs c' gs') {q : Prog S Out}
    {Q : O.Ghost → Out → Prop} (hi : c.threads[i]? = some ⟨q, none⟩) (hq : O.Safe Q (gs i) q)
    {a : Out} (ha : c'.Returned i a) : Q (gs' i) a := by
  obtain ⟨q', hi', hq'⟩ := h i q Q hi hq
  obtain ⟨t, ht, hta⟩ := ha
  obtain rfl := Option.some.inj (hi'.symm.trans ht)
  obtain rfl : q' = .ret a := hta
  exact hq'

variable {G : Guard M} {A : Facts M}

/-- The answer of an operation keeps the caller's program safe. -/
private theorem threadSafe_op {g g' : O.Ghost} {o : S.Op} {k : S.Res o → Prog S Out} {r : S.Res o}
    (h : O.ThreadSafe g ⟨.op o k, again⟩) (hp : O.Post g o r g') :
    O.ThreadSafe g' ⟨k r, again⟩ := by
  cases again with
  | none => exact (Spec.safe_op.mp h).2 r g' hp
  | some f =>
    obtain ⟨L, hfin, hL, hf⟩ := h
    exact ⟨L, hfin, (Spec.safe_op.mp hL).2 r g' hp, hf⟩

/-- The next operation of a thread is allowed by its ghost. -/
theorem Good.pre (h : O.Good c gs) {o : S.Op} {k : S.Res o → Prog S Out}
    (ht : c.threads[i]? = some ⟨.op o k, again⟩) : O.Pre (gs i) o := by
  have hsafe := h.safe i _ ht
  cases again with
  | none => exact (Spec.safe_op.mp hsafe).1
  | some f =>
    obtain ⟨L, -, hL, -⟩ := hsafe
    exact (Spec.safe_op.mp hL).1

/-- After a step a thread has made it, was there before, or has been started by it. -/
private theorem threads_cases {ts : List (Thread S Out)} {j : ℕ} {t t' : Thread S Out}
    {sp : Option (Thread S Out)} (hi : i < ts.length)
    (h : (ts.set i t' ++ sp.toList)[j]? = some t) :
    j = i ∧ t = t' ∨ j ≠ i ∧ j < ts.length ∧ ts[j]? = some t ∨ j = ts.length ∧ sp = some t := by
  by_cases hj : j < ts.length
  · rw [List.getElem?_append_left (by simpa using hj), List.getElem?_set] at h
    by_cases hij : i = j
    · rw [if_pos hij, if_pos hi] at h
      exact .inl ⟨hij.symm, (Option.some.inj h).symm⟩
    · rw [if_neg hij] at h
      exact .inr (.inl ⟨Ne.symm hij, hj, h⟩)
  · rw [List.getElem?_append_right (by simpa using hj), List.length_set] at h
    cases sp with
    | none => cases h
    | some x =>
      obtain ⟨hlt, rfl⟩ := List.getElem?_eq_some_iff.mp h
      simp at hlt ⊢
      omega

/-- Step of a thread, with the answer that it gets. -/
theorem Good.thread_step (hS : O.Sound G A) (h : O.Good c gs) {o : S.Op} {k : S.Res o → Prog S Out}
    {ch : M.Choice} {s : M.State} {r : S.Res o} {sp : Option (Thread S Out)}
    (ht : c.threads[i]? = some ⟨.op o k, again⟩)
    (hex : M.exec c.state c.outcomes i o ch = some (s, r, sp)) (hG : G c.state (.op o ch))
    (hA : A c.state (some (i, o)) s) :
    ∃ gs', O.Good ⟨s, c.threads.set i ⟨k r, again⟩ ++ sp.toList⟩ gs' ∧
      O.Follows c gs ⟨s, c.threads.set i ⟨k r, again⟩ ++ sp.toList⟩ gs' ∧
      O.Post (gs i) o r (gs' i) := by
  have hi : i < c.threads.length := (List.getElem?_eq_some_iff.mp ht).1
  have hlen : c.outcomes.length = c.threads.length := by simp [Config.outcomes]
  obtain ⟨g', hpost, hsp⟩ := hS.op hA h.inv (h.pre ht) hG
    (hlen ▸ hi) (fun j hj => h.idle j (hlen ▸ hj)) (fun j a => h.fin) hex
  have hmine := threadSafe_op (h.safe i _ ht) hpost
  obtain ⟨gs', hinv, hself, hrest, hnew⟩ : ∃ gs', O.Inv s gs' ∧ gs' i = g' ∧
      (∀ j, j ≠ i → (j = c.threads.length → sp = none) → gs' j = gs j) ∧
      ∀ t, sp = some t → O.ThreadSafe (gs' c.threads.length) t := by
    cases sp with
    | none =>
      exact ⟨_, hsp, Function.update_self .., fun j hj _ => Function.update_of_ne hj _ _, by simp⟩
    | some t₀ =>
      obtain ⟨gt, htsafe, hinv⟩ := hsp
      rw [hlen] at hinv
      refine ⟨_, hinv, ?_, fun j hj hn => ?_, fun t ht => ?_⟩
      · rw [Function.update_of_ne (Nat.ne_of_lt hi), Function.update_self]
      · rw [Function.update_of_ne (by simpa using hn), Function.update_of_ne hj]
      · obtain rfl := Option.some.inj ht
        rwa [Function.update_self]
  refine ⟨gs', ⟨hinv, fun j t hj => ?_, fun j hj => ?_⟩, fun j q Q hj hq => ?_, hself ▸ hpost⟩
  · rcases threads_cases hi hj with ⟨rfl, rfl⟩ | ⟨hij, hjl, hj⟩ | ⟨rfl, hsp⟩
    · rwa [hself]
    · rw [hrest j hij fun h => absurd h (Nat.ne_of_lt hjl)]
      exact h.safe j t hj
    · exact hnew t hsp
  · have hj : c.threads.length ≤ j ∧ (j = c.threads.length → sp = none) := by
      cases sp with
      | none => simpa using hj
      | some t => simp at hj ⊢; omega
    rw [hrest j (Nat.ne_of_gt (Nat.lt_of_lt_of_le hi hj.1)) hj.2]
    exact h.idle j hj.1
  · -- the caller's program after the answer, and the programs of the others, are safe as before
    have hjl : j < c.threads.length := (List.getElem?_eq_some_iff.mp hj).1
    simp only [List.getElem?_append_left (by simpa using hjl : j < (c.threads.set i _).length)]
    by_cases hij : j = i
    · subst hij
      obtain ⟨rfl, rfl⟩ := Thread.mk.inj (Option.some.inj (ht.symm.trans hj))
      exact ⟨k r, List.getElem?_set_self hi, hself ▸ (Spec.safe_op.mp hq).2 r g' hpost⟩
    · rw [hrest j hij fun h => absurd h (Nat.ne_of_lt hjl)]
      exact ⟨q, (List.getElem?_set_ne (Ne.symm hij)).trans hj, hq⟩

theorem Good.step (hS : O.Sound G A) {l : Label M} (h : O.Good c gs) (hl : c.step l = some c')
    (hG : ∀ m, c.move l = some m → G c.state m)
    (hA : ∀ x, c.actor l = some x → A c.state x c'.state) :
    ∃ gs', O.Good c' gs' ∧ O.Follows c gs c' gs' := by
  rcases Config.step_cases hl with ⟨i, ch, o, k, again, s, r, sp, rfl, ht, hex, rfl⟩ |
    ⟨i, a, f, rfl, ht, rfl⟩ | ⟨ch, s, rfl, he, rfl⟩
  · obtain ⟨gs', hgood, hfollow, -⟩ := h.thread_step hS ht hex (hG _ (Config.move_thread ht))
      (hA _ (Config.actor_thread ht))
    exact ⟨gs', hgood, hfollow⟩
  · have hi : i < c.threads.length := (List.getElem?_eq_some_iff.mp ht).1
    refine ⟨gs, ⟨h.inv, fun j t hj => ?_, fun j hj => h.idle j (by simpa using hj)⟩, ?_⟩
    · by_cases hij : j = i
      · subst hij
        rw [List.getElem?_set_self hi] at hj
        obtain rfl := Option.some.inj hj
        obtain ⟨L, hfin, hL, hf⟩ := h.safe j _ ht
        exact ⟨L, hfin, hf _ _ hL, hf⟩
      · rw [List.getElem?_set_ne (Ne.symm hij)] at hj
        exact h.safe j t hj
    · intro j q Q hj hq
      have hij : j ≠ i := by
        intro hij
        subst hij
        obtain ⟨-, hf⟩ := Thread.mk.inj (Option.some.inj (ht.symm.trans hj))
        cases hf
      exact ⟨q, (List.getElem?_set_ne (Ne.symm hij)).trans hj, hq⟩
  · exact ⟨gs, ⟨hS.env (hA _ rfl) h.inv (hG _ rfl) he, h.safe, h.idle⟩,
      fun j q Q hj hq => ⟨q, hj, hq⟩⟩

/-- Run lemma: the invariant and the safety of every remaining program hold in
every configuration a guarded run reaches. -/
theorem Good.run (hS : O.Sound G A) (hA : Holds G A c) (h : O.Good c gs)
    (hr : Config.Reach G c c') :
    ∃ gs', O.Good c' gs' ∧ O.Follows c gs c' gs' := by
  induction hr with
  | refl => exact ⟨gs, h, fun i q Q hi hq => ⟨q, hi, hq⟩⟩
  | tail hr hs ih =>
    obtain ⟨gs₁, h₁, hf₁⟩ := ih
    obtain ⟨l, hl, hG⟩ := hs
    obtain ⟨gs₂, h₂, hf₂⟩ := h₁.step hS hl hG fun x => hA _ _ l x hr hl hG
    exact ⟨gs₂, h₂, hf₁.trans hf₂⟩

theorem Good.reach (hS : O.Sound G A) (hA : Holds G A c) (h : O.Good c gs)
    (hr : Config.Reach G c c') : ∃ gs', O.Good c' gs' := by
  obtain ⟨gs', h', -⟩ := h.run hS hA hr
  exact ⟨gs', h'⟩

/-- A sound outline is known at every step. -/
theorem Good.known (hS : O.Sound G A) (hA : Holds G A c) (h : O.Good c gs) : Holds G O.Known c := by
  intro d d' l x hr hl hG hx
  obtain ⟨gs₁, h₁⟩ := h.reach hS hA hr
  obtain ⟨gs₂, h₂⟩ := h.reach hS hA (hr.tail ⟨l, hl, hG⟩)
  refine ⟨⟨gs₁, h₁.inv, ?_⟩, gs₂, h₂.inv⟩
  intro i o hio
  subst hio
  cases l with
  | thread j ch =>
    simp only [Config.actor] at hx
    split at hx
    · next o' k again ht =>
      obtain ⟨rfl, rfl⟩ := Prod.mk.inj (Option.some.inj (Option.some.inj hx))
      exact h₁.pre ht
    · cases hx
  | restart j => cases hx
  | env ch => cases hx

/-- A thread may be given another ghost from which its program is safe. -/
theorem Good.regard (h : O.Good c gs) {t : Thread S Out} (hi : c.threads[i]? = some t) {g : O.Ghost}
    (ht : O.ThreadSafe g t) (hinv : O.Inv c.state (Function.update gs i g)) :
    O.Good c (Function.update gs i g) := by
  constructor
  · exact hinv
  · refine forall_update (P := fun j g => ∀ t, c.threads[j]? = some t → O.ThreadSafe g t) h.safe ?_
    intro t' hi'
    obtain rfl := Option.some.inj (hi.symm.trans hi')
    exact ht
  · intro j hj
    have hlt := (List.getElem?_eq_some_iff.mp hi).1
    rw [Function.update_of_ne (by omega)]
    exact h.idle j hj

end Outline
end Interleaving

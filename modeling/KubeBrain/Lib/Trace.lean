import KubeBrain.Lib.Prog

/-! What one thread of a run has done: the operations it issued, with the answers it got and the
states it met. -/
namespace Interleaving

variable {S : Sig} {Out α β : Type}

/-- An operation that was answered, in the state it met. -/
structure Reply (M : Machine S Out) where
  state : M.State
  op : S.Op
  res : S.Res op

variable {M : Machine S Out}

/-- The program `p` comes to `q` with the answers of the replies. -/
inductive Prog.Yields : Prog S α → List (Reply M) → Prog S α → Prop
  | nil (p : Prog S α) : Yields p [] p
  | cons {s : M.State} {o : S.Op} {r : S.Res o} {k : S.Res o → Prog S α} {es : List (Reply M)}
      {q : Prog S α} : Yields (k r) es q → Yields (.op o k) (⟨s, o, r⟩ :: es) q

namespace Prog.Yields

variable {es : List (Reply M)} {a b : α}

theorem ret_iff {q : Prog S α} : Yields (.ret a) es q ↔ es = [] ∧ q = .ret a := by
  constructor
  · intro h
    cases h
    exact ⟨rfl, rfl⟩
  · rintro ⟨rfl, rfl⟩
    exact .nil _

theorem pure_iff : Yields (pure a : Prog S α) es (.ret b) ↔ es = [] ∧ b = a := by
  rw [show (pure a : Prog S α) = .ret a from rfl, ret_iff]
  simp

theorem op_iff {o : S.Op} {k : S.Res o → Prog S α} : Yields (.op o k) es (.ret a) ↔
    ∃ s r es', es = ⟨s, o, r⟩ :: es' ∧ Yields (k r) es' (.ret a) := by
  constructor
  · intro h
    cases h with
    | cons h => exact ⟨_, _, _, rfl, h⟩
  · rintro ⟨s, r, es', rfl, h⟩
    exact .cons h

/-- A program in two parts has a trace in two parts. -/
theorem bind_iff {p : Prog S α} {f : α → Prog S β} {b : β} : Yields (p >>= f) es (.ret b) ↔
    ∃ es₁ es₂ a, es = es₁ ++ es₂ ∧ Yields p es₁ (.ret a) ∧ Yields (f a) es₂ (.ret b) := by
  induction p generalizing es with
  | ret a =>
    constructor
    · intro h
      exact ⟨[], es, a, rfl, .nil _, h⟩
    · rintro ⟨es₁, es₂, a', rfl, h₁, h₂⟩
      obtain ⟨rfl, ha⟩ := ret_iff.mp h₁
      obtain rfl : a' = a := Prog.ret.inj ha
      exact h₂
  | op o k ih =>
    have hbind : (.op o k >>= f : Prog S β) = .op o fun r => k r >>= f := rfl
    rw [hbind, op_iff]
    constructor
    · rintro ⟨s, r, es', rfl, h⟩
      obtain ⟨es₁, es₂, a, rfl, h₁, h₂⟩ := (ih r).mp h
      exact ⟨_ :: es₁, es₂, a, rfl, .cons h₁, h₂⟩
    · rintro ⟨es₁, es₂, a, rfl, h₁, h₂⟩
      obtain ⟨s, r, es', rfl, hk⟩ := op_iff.mp h₁
      exact ⟨s, r, es' ++ es₂, rfl, (ih r).mpr ⟨es', es₂, a, rfl, hk, h₂⟩⟩

theorem of_bind_pure {p : Prog S α} {f : α → β} {b : β}
    (h : Yields (p >>= fun a => pure (f a)) es (.ret b)) : ∃ a, Yields p es (.ret a) ∧ b = f a := by
  obtain ⟨es₁, es₂, a, rfl, hp, hpure⟩ := bind_iff.mp h
  obtain ⟨rfl, rfl⟩ := pure_iff.mp hpure
  exact ⟨a, (List.append_nil es₁).symm ▸ hp, rfl⟩

theorem call_bind_iff {o : S.Op} {f : S.Res o → Prog S β} {b : β} :
    Yields (call o >>= f) es (.ret b) ↔
      ∃ s r es', es = ⟨s, o, r⟩ :: es' ∧ Yields (f r) es' (.ret b) := op_iff

/-- A program that starts with a call has made none yet, or has got its answer. -/
theorem call_bind_cases {o : S.Op} {f : S.Res o → Prog S α} {q : Prog S α}
    (h : Yields (call o >>= f) es q) :
    es = [] ∨ ∃ s r es', es = ⟨s, o, r⟩ :: es' ∧ Yields (f r) es' q := by
  rw [call_bind] at h
  cases h with
  | nil => exact .inl rfl
  | cons h => exact .inr ⟨_, _, _, rfl, h⟩

theorem only {P : S.Op → Prop} {p q : Prog S α} (h : Yields p es q) (hp : p.Only P) :
    ∀ e ∈ es, P e.op := by
  induction h with
  | nil => simp
  | cons _ ih =>
    intro e he
    rcases List.mem_cons.mp he with rfl | he
    · exact hp.1
    · exact ih (hp.2 _) e he

/-- A handler that gives the given replies runs the program alike. -/
theorem eval {σ : Type} {h : (o : S.Op) → σ → Option (S.Res o × σ)} {s : σ} {p : Prog S α}
    (hp : Yields p es (.ret a)) (hes : ∀ e ∈ es, h e.op s = some (e.res, s)) :
    p.eval h s = some (a, s) := by
  induction p generalizing es with
  | ret b =>
    obtain ⟨-, hb⟩ := ret_iff.mp hp
    obtain rfl := Prog.ret.inj hb
    rfl
  | op o k ih =>
    obtain ⟨s', r, es', rfl, hk⟩ := op_iff.mp hp
    rw [Prog.eval_op (hes _ List.mem_cons_self)]
    exact ih r hk fun e he => hes e (List.mem_cons_of_mem _ he)

end Prog.Yields

/-- The loop with body `f`, in the middle of the pass `p`, comes to `q` with the answers of the
replies. -/
inductive Prog.Loops (f : α → Prog S α) : Prog S α → List (Reply M) → Prog S α → Prop
  | nil (p : Prog S α) : Loops f p [] p
  | cons {s : M.State} {o : S.Op} {r : S.Res o} {k : S.Res o → Prog S α} {es : List (Reply M)}
      {q : Prog S α} : Loops f (k r) es q → Loops f (.op o k) (⟨s, o, r⟩ :: es) q
  | again {a : α} {es : List (Reply M)} {q : Prog S α} : Loops f (f a) es q →
      Loops f (.ret a) es q

/-- The replies to a loop are those of its passes, one after another. -/
theorem Prog.Loops.passes {body p q : Prog S α} {es : List (Reply M)}
    (h : Loops (fun _ => body) p es q) : ∃ t ts, es = t ++ List.flatten ts ∧
      (∃ q', p.Yields t q') ∧ ∀ t ∈ ts, ∃ q', body.Yields t q' := by
  induction h with
  | nil p => exact ⟨[], [], rfl, ⟨p, .nil p⟩, nofun⟩
  | cons _ ih =>
    obtain ⟨t, ts, rfl, ⟨q', hq⟩, hts⟩ := ih
    exact ⟨_ :: t, ts, rfl, ⟨q', .cons hq⟩, hts⟩
  | again _ ih =>
    obtain ⟨t, ts, rfl, hq, hts⟩ := ih
    exact ⟨[], t :: ts, rfl, ⟨_, .nil _⟩, List.forall_mem_cons.mpr ⟨hq, hts⟩⟩

namespace Config

/-- What thread `i` does with a step. -/
def reply (c : Config M) (i : ℕ) : Label M → Option (Reply M)
  | .thread j ch =>
    if j = i then
      match c.threads[i]? with
      | some ⟨.op o _, _⟩ => (M.exec c.state c.outcomes i o ch).map fun x => ⟨c.state, o, x.2.1⟩
      | _ => none
    else none
  | _ => none

/-- The replies to thread `i` on a schedule. -/
def trace (i : ℕ) : Config M → List (Label M) → List (Reply M)
  | _, [] => []
  | c, l :: ls =>
    match c.step l with
    | none => []
    | some d => (c.reply i l).toList ++ d.trace i ls

variable {c c' : Config M} {i : ℕ}

theorem thread_of_outcome {a : Out} (h : (c.threads[i]?).bind Thread.outcome = some a) :
    c.threads[i]? = some ⟨.ret a, none⟩ := by
  obtain ⟨t, ht, ha⟩ := Option.bind_eq_some_iff.mp h
  obtain ⟨hagain, hprog⟩ := Thread.outcome_eq_some ha
  rw [ht, ← hprog, ← hagain]

/-- A step of the run, as thread `i` sees it. -/
theorem reply_of_step {l : Label M} (h : c.step l = some c') {p : Prog S Out}
    {again : Option (Out → Prog S Out)} (hi : c.threads[i]? = some ⟨p, again⟩) :
    (c.reply i l = none ∧ c'.threads[i]? = some ⟨p, again⟩) ∨
      (∃ a f, p = .ret a ∧ again = some f ∧ c.reply i l = none ∧
        c'.threads[i]? = some ⟨f a, again⟩) ∨
      ∃ o k r ch s sp, p = .op o k ∧ c.reply i l = some ⟨c.state, o, r⟩ ∧
        M.exec c.state c.outcomes i o ch = some (s, r, sp) ∧
        c'.threads[i]? = some ⟨k r, again⟩ := by
  have hlt : i < c.threads.length := (List.getElem?_eq_some_iff.mp hi).1
  rcases step_cases h with ⟨j, ch, o, k, again', s, r, sp, rfl, ht, hex, rfl⟩ |
    ⟨j, a, f, rfl, ht, rfl⟩ | ⟨ch, s, rfl, he, rfl⟩
  · by_cases hj : j = i
    · subst hj
      obtain ⟨rfl, rfl⟩ : p = .op o k ∧ again = again' := by
        simpa [eq_comm] using hi.symm.trans ht
      refine .inr (.inr ⟨o, k, r, ch, s, sp, rfl, ?_, hex, ?_⟩)
      · simp only [reply, if_true, hi, hex, Option.map_some]
      · rw [List.getElem?_append_left (by simpa using hlt), List.getElem?_set_self hlt]
    · refine .inl ⟨if_neg hj, ?_⟩
      rw [List.getElem?_append_left (by simpa using hlt), List.getElem?_set_ne hj, hi]
  · by_cases hj : j = i
    · subst hj
      obtain ⟨rfl, rfl⟩ : p = .ret a ∧ again = some f := by
        simpa [eq_comm] using hi.symm.trans ht
      exact .inr (.inl ⟨a, f, rfl, rfl, rfl, List.getElem?_set_self hlt⟩)
    · exact .inl ⟨rfl, by rw [List.getElem?_set_ne hj, hi]⟩
  · exact .inl ⟨rfl, hi⟩

/-- What a thread has done leads from the program it had to the one it has. -/
theorem yields_trace {ok : M.State → Move M → Bool} {ls : List (Label M)}
    (h : c.run ok ls = some c') {p : Prog S Out} (hi : c.threads[i]? = some ⟨p, none⟩) :
    ∃ q, c'.threads[i]? = some ⟨q, none⟩ ∧ p.Yields (c.trace i ls) q := by
  induction ls generalizing c p with
  | nil =>
    obtain rfl := Option.some.inj h
    exact ⟨p, hi, .nil p⟩
  | cons l ls ih =>
    simp only [run] at h
    split at h
    · split at h
      · cases h
      · next d hd =>
        simp only [trace, hd]
        rcases reply_of_step hd hi with ⟨hnone, hi'⟩ | ⟨a, f, -, hf, -⟩ |
          ⟨o, k, r, ch, s, sp, rfl, hev, -, hi'⟩
        · rw [hnone]
          exact ih h hi'
        · cases hf
        · obtain ⟨q, hq, hyields⟩ := ih h hi'
          rw [hev]
          exact ⟨q, hq, .cons hyields⟩
    · cases h

/-- What a loop has done leads from the program it had to the one it has, over whole passes. -/
theorem loops_trace {ok : M.State → Move M → Bool} {ls : List (Label M)}
    (h : c.run ok ls = some c') {p : Prog S Out} {f : Out → Prog S Out}
    (hi : c.threads[i]? = some ⟨p, some f⟩) : ∃ q, Prog.Loops f p (c.trace i ls) q := by
  induction ls generalizing c p with
  | nil => exact ⟨p, .nil p⟩
  | cons l ls ih =>
    simp only [run] at h
    split at h
    · split at h
      · cases h
      · next d hd =>
        simp only [trace, hd]
        rcases reply_of_step hd hi with ⟨hnone, hi'⟩ | ⟨a, g, rfl, hg, hnone, hi'⟩ |
          ⟨o, k, r, ch, s, sp, rfl, hev, -, hi'⟩
        · rw [hnone]
          exact ih h hi'
        · obtain rfl := Option.some.inj hg
          rw [hnone]
          exact (ih h hi').imp fun q hq => .again hq
        · rw [hev]
          exact (ih h hi').imp fun q hq => .cons hq
    · cases h

/-- Every reply to a thread was given in a state of the run. -/
theorem exec_of_mem_trace {G : Guard M} {ok : M.State → Move M → Bool}
    (hok : ∀ s m, ok s m = true → G s m) {ls : List (Label M)} (h : c.run ok ls = some c')
    {e : Reply M} (he : e ∈ c.trace i ls) :
    ∃ d ch s sp, Reach G c d ∧ d.state = e.state ∧
      M.exec d.state d.outcomes i e.op ch = some (s, e.res, sp) := by
  induction ls generalizing c with
  | nil => cases he
  | cons l ls ih =>
    simp only [run] at h
    split at h
    · next hmove =>
      split at h
      · cases h
      · next d hd =>
        have hstep : Step G c d :=
          ⟨l, hd, fun m hm => hok _ _ (by simpa [hm] using hmove)⟩
        simp only [trace, hd] at he
        rcases List.mem_append.mp he with he | he
        · obtain hev := Option.mem_toList.mp he
          unfold reply at hev
          split at hev
          · split at hev
            · split at hev
              · next o k again _ =>
                obtain ⟨⟨s, r, sp⟩, hex, rfl⟩ := Option.map_eq_some_iff.mp hev
                exact ⟨c, _, s, sp, .refl, rfl, hex⟩
              · cases hev
            · cases hev
          · cases hev
        · obtain ⟨d', ch, s, sp, hreach, hstate, hex⟩ := ih h he
          exact ⟨d', ch, s, sp, .head hstep hreach, hstate, hex⟩
    · cases h

end Config
end Interleaving

import KubeBrain.Lib.Prog

/-! History variables. A machine may be observed: its state is extended by a record of the
answers that were given, which no operation reads. The runs are the same. -/
namespace Interleaving

variable {S : Sig} {Out : Type} {H : Type}

abbrev Machine.observed (M : Machine S Out) (note : H → (o : S.Op) → S.Res o → H) :
    Machine S Out where
  State := M.State × H
  Choice := M.Choice
  exec := fun s outs i o ch => match M.exec s.1 outs i o ch with
    | none => none
    | some (s', r, sp) => some ((s', note s.2 o r), r, sp)
  env := fun s ch => match M.env s.1 ch with
    | none => none
    | some s' => some (s', s.2)

variable {M : Machine S Out} {note : H → (o : S.Op) → S.Res o → H}

theorem exec_observed {s s' : M.State × H} {outs : List (Option Out)} {i : ℕ} {o : S.Op}
    {ch : M.Choice} {r : S.Res o} {sp : Option (Thread S Out)} :
    (M.observed note).exec s outs i o ch = some (s', r, sp) ↔
      M.exec s.1 outs i o ch = some (s'.1, r, sp) ∧ s'.2 = note s.2 o r := by
  obtain ⟨t, h⟩ := s'
  simp only [Machine.observed]
  cases M.exec s.1 outs i o ch with
  | none => simp
  | some x =>
    obtain ⟨t₀, r₀, sp₀⟩ := x
    simp only [Option.some.injEq, Prod.mk.injEq]
    constructor
    · intro ⟨⟨h₁, h₂⟩, h₃, h₄⟩
      subst h₃
      exact ⟨⟨h₁, rfl, h₄⟩, h₂.symm⟩
    · intro ⟨⟨h₁, h₂, h₃⟩, h₄⟩
      subst h₂
      exact ⟨⟨h₁, h₄.symm⟩, rfl, h₃⟩

theorem env_observed {s s' : M.State × H} {ch : M.Choice} :
    (M.observed note).env s ch = some s' ↔ M.env s.1 ch = some s'.1 ∧ s'.2 = s.2 := by
  obtain ⟨t, h⟩ := s'
  simp only [Machine.observed]
  cases M.env s.1 ch with
  | none => simp
  | some t₀ => simp [eq_comm]

def Label.forget : Label (M.observed note) → Label M
  | .thread i ch => .thread i ch
  | .restart i => .restart i
  | .env ch => .env ch

def Move.forget : Move (M.observed note) → Move M
  | .op o ch => .op o ch
  | .env ch => .env ch

namespace Config

def forget (c : Config (M.observed note)) : Config M := ⟨c.state.1, c.threads⟩

theorem forget_move (c : Config (M.observed note)) (l : Label (M.observed note)) :
    c.forget.move l.forget = (c.move l).map Move.forget := by
  cases l with
  | thread i ch =>
    simp only [move, Label.forget, forget]
    split <;> rfl
  | restart i => rfl
  | env ch => rfl

theorem forget_step {c c' : Config (M.observed note)} {l : Label (M.observed note)}
    (h : c.step l = some c') : c.forget.step l.forget = some c'.forget := by
  rcases step_cases h with ⟨i, ch, o, k, again, s, r, sp, rfl, ht, hex, rfl⟩ |
    ⟨i, a, f, rfl, ht, rfl⟩ | ⟨ch, s, rfl, he, rfl⟩
  · exact step_thread ht (exec_observed.mp hex).1
  · exact step_restart ht
  · exact step_env (env_observed.mp he).1

/-- Runs of the observed machine are runs of the machine. -/
theorem Reach.forget {G : Guard (M.observed note)} {G' : Guard M}
    (hG : ∀ (s : M.State × H) (mv : Move (M.observed note)), G s mv → G' s.1 mv.forget)
    {c c' : Config (M.observed note)} (h : Reach G c c') : Reach G' c.forget c'.forget := by
  induction h with
  | refl => exact .refl
  | tail _ hs ih =>
    obtain ⟨l, hl, hmove⟩ := hs
    refine ih.tail ⟨l.forget, forget_step hl, fun mv hmv => ?_⟩
    rw [forget_move, Option.map_eq_some_iff] at hmv
    obtain ⟨mv', hmv', rfl⟩ := hmv
    exact hG _ _ (hmove mv' hmv')

end Config
end Interleaving

import KubeBrain.Lib.Outline

/-! Rely conditions for thread pools. The ghost of a thread is the state after its own last
step: later states are related to it by the rely relation, so whatever is stable under that
relation and was true then is still true. A thread that is started promises something of its
outcome, and the thread that joins it may use the promise. -/
namespace Interleaving

variable {S : Sig} {Out : Type}

structure Protocol (M : Machine S Out) where
  Inv : M.State → Prop
  /-- What holds between a state and any later one. -/
  Rely : M.State → M.State → Prop
  /-- The operation is allowed in the state. -/
  Ok : M.State → S.Op → Prop
  /-- What an answered operation says of the states before and after it. -/
  Fact : M.State → (o : S.Op) → S.Res o → M.State → Prop
  /-- What a thread that the operation starts promises of its outcome. -/
  Promise : M.State → S.Op → Out → Prop
  /-- The index of a thread that the operation has started. -/
  started : (o : S.Op) → S.Res o → Option ℕ
  /-- The outcome of another thread that the operation reports. -/
  joined : (o : S.Op) → S.Res o → Option (ℕ × Out)
  origin : M.State
  refl : ∀ s, Rely s s
  trans : ∀ s₁ s₂ s₃, Rely s₁ s₂ → Rely s₂ s₃ → Rely s₁ s₃
  origin_inv : Inv origin

namespace Protocol

variable {M : Machine S Out} (P : Protocol M)

/-- The state after the thread's last step, what it promises of its outcome, and what is
promised to it of other threads. -/
structure Ghost where
  last : M.State
  inv : P.Inv last
  post : Out → Prop
  kids : ℕ → Out → Prop

variable {P}

def Ghost.after (g : P.Ghost) (o : S.Op) (r : S.Res o) {s : M.State} (h : P.Inv s) : P.Ghost :=
  ⟨s, h, g.post, fun id a => g.kids id a ∧ (P.started o r = some id → P.Promise s o a)⟩

/-- The ghost of a thread as it starts. -/
def Ghost.fresh {s : M.State} (h : P.Inv s) (post : Out → Prop) : P.Ghost :=
  ⟨s, h, post, fun _ _ => True⟩

/-- The ghost of the same thread at a later step. -/
def Ghost.Later (g g' : P.Ghost) : Prop := P.Rely g.last g'.last ∧ g'.post = g.post

theorem Ghost.Later.refl (g : P.Ghost) : g.Later g := ⟨P.refl _, rfl⟩

theorem Ghost.Later.trans {g₁ g₂ g₃ : P.Ghost} (h₁ : g₁.Later g₂) (h₂ : g₂.Later g₃) :
    g₁.Later g₃ := ⟨P.trans _ _ _ h₁.1 h₂.1, h₂.2.trans h₁.2⟩

variable (P)

def spec : Spec S Out where
  Ghost := P.Ghost
  idle := .fresh P.origin_inv fun _ => True
  Pre := fun g o => ∀ s, P.Inv s → P.Rely g.last s → P.Ok s o
  Post := fun g o r g' => ∃ s s', ∃ h : P.Inv s', P.Inv s ∧ P.Rely g.last s ∧ P.Rely s s' ∧
    P.Fact s o r s' ∧ (∀ id a, P.joined o r = some (id, a) → g.kids id a) ∧ g' = g.after o r h
  Fin := fun g a => g.post a

variable {P}

section Post

variable {g g' : P.Ghost} {o : S.Op} {r : S.Res o} (h : P.spec.Post g o r g') {id : ℕ} {a : Out}

include h

/-- What was promised of other threads stays promised. -/
theorem kids_of_post (ha : g'.kids id a) : g.kids id a := by
  obtain ⟨s, s', h, -, -, -, -, -, rfl⟩ := h
  exact ha.1

/-- A thread that was started keeps its promise. -/
theorem promise_of_post (hid : P.started o r = some id) (ha : g'.kids id a) :
    P.Promise g'.last o a := by
  obtain ⟨s, s', h, -, -, -, -, -, rfl⟩ := h
  exact ha.2 hid

/-- A thread that is joined has kept its promise. -/
theorem joined_of_post (hid : P.joined o r = some (id, a)) : g.kids id a := by
  obtain ⟨s, s', h, -, -, -, -, hjoined, rfl⟩ := h
  exact hjoined id a hid

theorem later_of_post : g.Later g' := by
  obtain ⟨s, s', h, -, hrely, hstep, -, -, rfl⟩ := h
  exact ⟨P.trans _ _ _ hrely hstep, rfl⟩

/-- What the answer of an operation says to the caller. -/
theorem fact_of_post :
    ∃ s, P.Inv s ∧ P.Rely g.last s ∧ P.Rely s g'.last ∧ P.Fact s o r g'.last := by
  obtain ⟨s, s', h, hs, hrely, hstep, hfact, -, rfl⟩ := h
  exact ⟨s, hs, hrely, hstep, hfact⟩

end Post

/-- Programs whose operations are allowed everywhere. -/
theorem safe_of_ok {α : Type} {Q : S.Op → Prop} (hok : ∀ s o, Q o → P.Ok s o) {p : Prog S α}
    (hp : p.Only Q) (g : P.Ghost) : P.spec.Safe (fun g' _ => g.Later g') g p :=
  Spec.safe_of_only (O := P.spec) (I := fun g' => g.Later g')
    (fun _ o _ ho s _ _ => hok s o ho) (fun _ _ _ _ hg _ hpost => hg.trans (later_of_post hpost))
    hp (.refl g)

theorem threadSafe_of_ok {Q : S.Op → Prop} (hok : ∀ s o, Q o → P.Ok s o) {t : Thread S Out}
    (hp : t.prog.Only Q) (hf : ∀ f, t.again = some f → ∀ a, (f a).Only Q) {g : P.Ghost}
    (hg : ∀ a, g.post a) : P.spec.ThreadSafe g t := by
  obtain ⟨p, again⟩ := t
  cases again with
  | none =>
    apply (safe_of_ok hok hp g).mono
    intro g' a hlater
    show g'.post a
    rw [hlater.2]
    exact hg a
  | some f =>
    refine ⟨fun g' _ => g'.post = g.post, ?_, ?_, ?_⟩
    · intro g' a hpost
      show g'.post a
      rw [hpost]
      exact hg a
    · exact (safe_of_ok hok hp g).mono fun _ _ hlater => hlater.2
    · intro g' a hpost
      exact (safe_of_ok hok (hf f rfl a) g').mono fun _ _ hlater => hlater.2.trans hpost

variable (P)

/-- The states that the threads have seen are in the past, and promises are kept. -/
structure Meets (s : M.State) (gs : ℕ → P.Ghost) : Prop where
  inv : P.Inv s
  seen : ∀ i, P.Rely (gs i).last s
  kids : ∀ i id a, (gs id).post a → (gs i).kids id a

abbrev outline : Outline M where
  toSpec := P.spec
  Inv := P.Meets

/-- Every guarded step keeps the invariant and is a step of the rely relation, and started
threads keep their promise. -/
structure Sound (G : Guard M) (A : Outline.Facts M) : Prop where
  op : ∀ {s : M.State} {outs : List (Option Out)} {i : ℕ} {o : S.Op} {ch : M.Choice}
    {s' : M.State} {r : S.Res o} {sp : Option (Thread S Out)},
    A s (some (i, o)) s' → G s (.op o ch) → P.Inv s → P.Ok s o →
    M.exec s outs i o ch = some (s', r, sp) → P.Inv s' ∧ P.Rely s s' ∧ P.Fact s o r s'
  start : ∀ {s : M.State} {outs : List (Option Out)} {i : ℕ} {o : S.Op} {ch : M.Choice}
    {s' : M.State} {r : S.Res o} {t : Thread S Out}, G s (.op o ch) → P.Ok s o →
    P.Rely s s' → M.exec s outs i o ch = some (s', r, some t) → ∀ h : P.Inv s',
      P.spec.ThreadSafe (.fresh h (P.Promise s' o)) t
  started : ∀ {s : M.State} {outs : List (Option Out)} {i : ℕ} {o : S.Op} {ch : M.Choice}
    {s' : M.State} {r : S.Res o} {sp : Option (Thread S Out)} {id : ℕ},
    M.exec s outs i o ch = some (s', r, sp) → P.started o r = some id → id = outs.length ∧ sp.isSome
  joined : ∀ {s : M.State} {outs : List (Option Out)} {i : ℕ} {o : S.Op} {ch : M.Choice}
    {s' : M.State} {r : S.Res o} {sp : Option (Thread S Out)} {id : ℕ} {a : Out},
    M.exec s outs i o ch = some (s', r, sp) → P.joined o r = some (id, a) →
      outs[id]? = some (some a)
  env : ∀ {s : M.State} {ch : M.Choice} {s' : M.State}, A s none s' → G s (.env ch) → P.Inv s →
    M.env s ch = some s' → P.Inv s' ∧ P.Rely s s'

variable {P} {G : Guard M} {A : Outline.Facts M} {s s' : M.State} {gs : ℕ → P.Ghost} {i : ℕ}
  {c c' : Config M}

theorem Meets.move (h : P.Meets s gs) (hinv : P.Inv s') (hrely : P.Rely s s') : P.Meets s' gs :=
  ⟨hinv, fun i => P.trans _ _ _ (h.seen i) hrely, h.kids⟩

/-- A thread takes a step. -/
theorem Meets.set {s : M.State} {g : P.Ghost} (h : P.Meets s gs)
    (hlast : P.Rely g.last s) (hpost : g.post = (gs i).post)
    (hkids : ∀ id a, (gs id).post a → (gs i).kids id a → g.kids id a) :
    P.Meets s (Function.update gs i g) := by
  have hpost' : ∀ j, (Function.update gs i g j).post = (gs j).post :=
    forall_update (P := fun j (g : P.Ghost) => g.post = (gs j).post) (fun _ => rfl) hpost
  refine ⟨h.inv, fun j => ?_, fun j id a ha => ?_⟩
  · exact forall_update (P := fun _ (g : P.Ghost) => P.Rely g.last s) h.seen hlast j
  · rw [hpost'] at ha
    exact forall_update (P := fun _ (g : P.Ghost) => g.kids id a) (fun j => h.kids j id a ha)
      (hkids id a ha (h.kids i id a ha)) j

/-- A thread begins at an unused index. -/
theorem Meets.fresh {s : M.State} {n : ℕ} (h : P.Meets s gs)
    (hn : gs n = P.spec.idle) (hinv : P.Inv s) (post : Out → Prop) :
    P.Meets s (Function.update gs n (.fresh hinv post)) := by
  refine ⟨h.inv, fun j => ?_, fun j id a ha => ?_⟩
  · exact forall_update (P := fun _ (g : P.Ghost) => P.Rely g.last s) h.seen (P.refl s) j
  · refine forall_update (P := fun _ (g : P.Ghost) => g.kids id a) (fun j => ?_) trivial j
    apply h.kids j id a
    rcases update_cases (P := fun g : P.Ghost => g.post a) ha with ⟨rfl, -⟩ | ⟨-, ha⟩
    · -- nothing was promised of the unused index, as it promised nothing
      rw [hn]
      trivial
    · exact ha

theorem Sound.outline (hS : P.Sound G A) : P.outline.Sound G A where
  op := by
    intro s (gs : ℕ → P.Ghost) outs i o ch s' r sp hA hinv hpre hG hi hidle hfin hex
    have hok : P.Ok s o := hpre s hinv.inv (hinv.seen i)
    obtain ⟨hinv', hrely, hfact⟩ := hS.op hA hG hinv.inv hok hex
    refine ⟨(gs i).after o r hinv', ⟨s, s', hinv', hinv.inv, hinv.seen i, hrely, hfact, ?_, rfl⟩,
      ?_⟩
    · intro id a hj
      exact hinv.kids i id a (hfin id a (hS.joined hex hj))
    · have hmove := hinv.move hinv' hrely
      cases sp with
      | none =>
        apply hmove.set (g := (gs i).after o r hinv') (P.refl s') rfl
        intro id a _ ha
        refine ⟨ha, fun hst => ?_⟩
        cases (hS.started hex hst).2
      | some t =>
        refine ⟨.fresh hinv' (P.Promise s' o), hS.start hG hok hrely hex hinv', ?_⟩
        have hfresh := hmove.fresh (hidle _ (Nat.le_refl _)) hinv' (P.Promise s' o)
        have hne := Nat.ne_of_lt hi
        show P.Meets s' (Function.update (Function.update gs i ((gs i).after o r hinv')) _ _)
        rw [Function.update_comm hne]
        apply hfresh.set (g := (gs i).after o r hinv') (P.refl s')
        · rw [Function.update_of_ne hne]
          rfl
        · intro id a ha hkid
          rw [Function.update_of_ne hne] at hkid
          refine ⟨hkid, fun hst => ?_⟩
          rwa [(hS.started hex hst).1, Function.update_self] at ha
  env := by
    intro s gs ch s' hA hinv hG henv
    obtain ⟨hinv', hrely⟩ := hS.env hA hG hinv.inv henv
    exact hinv.move hinv' hrely

/-- The same thread, once it is known to be at a later state. -/
def Ghost.advance (g : P.Ghost) {s : M.State} (h : P.Inv s) : P.Ghost :=
  { g with last := s, inv := h }

theorem safe_advance {α : Type} {Q : P.Ghost → α → Prop}
    (hQ : ∀ g s a, ∀ h : P.Inv s, P.Rely g.last s → Q g a → Q (g.advance h) a) {g : P.Ghost}
    {s : M.State} (h : P.Inv s) (hs : P.Rely g.last s) {p : Prog S α} (hp : P.spec.Safe Q g p) :
    P.spec.Safe Q (g.advance h) p := by
  cases p with
  | ret a => exact hQ g s a h hs hp
  | op o k =>
    obtain ⟨hpre, hpost⟩ := hp
    refine ⟨fun s₁ h₁ hs₁ => hpre s₁ h₁ (P.trans _ _ _ hs hs₁), ?_⟩
    intro r g' ⟨s₁, s₂, h₂, h₁, hs₁, hstep, hfact, hkids, hg'⟩
    exact hpost r g' ⟨s₁, s₂, h₂, h₁, P.trans _ _ _ hs hs₁, hstep, hfact, hkids, hg'⟩

theorem threadSafe_advance {g : P.Ghost} {s : M.State} (h : P.Inv s) (hs : P.Rely g.last s)
    {t : Thread S Out} (ht : P.spec.ThreadSafe g t) : P.spec.ThreadSafe (g.advance h) t := by
  obtain ⟨p, again⟩ := t
  cases again with
  | none => exact safe_advance (fun _ _ _ _ _ hfin => hfin) h hs ht
  | some f =>
    obtain ⟨L, hfin, hp, hf⟩ := ht
    refine ⟨fun g' a => ∃ g₀ : P.Ghost, P.Rely g₀.last g'.last ∧ g'.post = g₀.post ∧
      g'.kids = g₀.kids ∧ L g₀ a, ?_, ?_, ?_⟩
    · intro g' a ⟨g₀, _, hpost, _, hL⟩
      show g'.post a
      rw [hpost]
      exact hfin g₀ a hL
    · apply safe_advance _ h hs (hp.mono fun g' a hL => ⟨g', P.refl _, rfl, rfl, hL⟩)
      intro g' s' a h' hs' ⟨g₀, hlast, hpost, hkids, hL⟩
      exact ⟨g₀, P.trans _ _ _ hlast hs', hpost, hkids, hL⟩
    · intro g' a ⟨g₀, hlast, hpost, hkids, hL⟩
      have heq : g' = g₀.advance g'.inv := by
        obtain ⟨last, inv, post, kids⟩ := g'
        obtain rfl : post = g₀.post := hpost
        obtain rfl : kids = g₀.kids := hkids
        rfl
      rw [heq]
      apply safe_advance _ g'.inv hlast ((hf g₀ a hL).mono fun g' a hL =>
        ⟨g', P.refl _, rfl, rfl, hL⟩)
      intro g₁ s' b h' hs' ⟨g₂, hlast₂, hpost₂, hkids₂, hL₂⟩
      exact ⟨g₂, P.trans _ _ _ hlast₂ hs', hpost₂, hkids₂, hL₂⟩

/-- A thread may be taken to have seen the present state. -/
theorem good_advance (hc : P.outline.Good c gs) {t : Thread S Out} (hi : c.threads[i]? = some t) :
    P.outline.Good c (Function.update gs i ((gs i).advance hc.inv.inv)) :=
  hc.regard hi (threadSafe_advance hc.inv.inv (hc.inv.seen i) (hc.safe i t hi))
    (hc.inv.set (g := (gs i).advance hc.inv.inv) (P.refl _) rfl fun _ _ _ h => h)

/-- What is shown of a program that runs from the present state on holds when it returns,
of a state before the one it is seen to have returned in. -/
theorem returned_of_safe (hS : P.Sound G A) (hA : Outline.Holds G A c) (hc : P.outline.Good c gs)
    {q : Prog S Out} (hi : c.threads[i]? = some ⟨q, none⟩) {Q : P.Ghost → Out → Prop}
    (hq : ∀ g : P.Ghost, g.last = c.state → P.spec.Safe Q g q) (hr : Config.Reach G c c') {a : Out}
    (ha : c'.Returned i a) : ∃ g : P.Ghost, P.Rely g.last c'.state ∧ Q g a ∧ P.Inv c'.state := by
  obtain ⟨gs', hgood, hfollows⟩ := (good_advance hc hi).run hS.outline hA hr
  refine ⟨gs' i, hgood.inv.seen i, ?_, hgood.inv.inv⟩
  refine hfollows.returned hi ?_ ha
  show P.spec.Safe Q (Function.update gs i _ i) q
  rw [Function.update_self]
  exact hq _ rfl

theorem rely_of_step (hS : P.Sound G A) {l : Label M} (hc : P.outline.Good c gs)
    (hl : c.step l = some c') (hG : ∀ m, c.move l = some m → G c.state m)
    (hA : ∀ x, c.actor l = some x → A c.state x c'.state) : P.Rely c.state c'.state := by
  rcases Config.step_cases hl with ⟨i, ch, o, k, again, s, r, sp, rfl, ht, hex, rfl⟩ |
    ⟨i, a, f, rfl, ht, rfl⟩ | ⟨ch, s, rfl, he, rfl⟩
  · have hpre : P.spec.Pre (gs i) o := hc.pre ht
    exact (hS.op (hA _ (Config.actor_thread ht)) (hG _ (Config.move_thread ht)) hc.inv.inv
      (hpre _ hc.inv.inv (hc.inv.seen i)) hex).2.1
  · exact P.refl _
  · exact (hS.env (hA _ rfl) (hG _ rfl) hc.inv.inv he).2

theorem rely_of_reach (hS : P.Sound G A) (hA : Outline.Holds G A c) (hc : P.outline.Good c gs)
    (hr : Config.Reach G c c') : P.Rely c.state c'.state := by
  induction hr with
  | refl => exact P.refl _
  | tail hr hs ih =>
    obtain ⟨l, hl, hG⟩ := hs
    obtain ⟨gs₁, hgood⟩ := hc.reach hS.outline hA hr
    exact P.trans _ _ _ ih (rely_of_step hS hgood hl hG fun x => hA _ _ l x hr hl hG)

/-- The ghosts at the start of a run: the threads have seen the first state. -/
theorem good_origin (hc : c.state = P.origin)
    (ht : ∀ (i : ℕ) (t : Thread S Out), c.threads[i]? = some t → P.spec.ThreadSafe P.spec.idle t) :
    P.outline.Good c (fun _ => P.spec.idle) where
  inv := ⟨hc ▸ P.origin_inv, fun _ => hc ▸ P.refl _, fun _ _ _ _ => trivial⟩
  safe := ht
  idle := fun _ _ => rfl

end Protocol
end Interleaving

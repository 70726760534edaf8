import KubeBrain.Server.Watcher

/-! Created, events, canceled once: which responses a watch stream sends for an identifier. -/
namespace KubeBrain.Watcher

open Interleaving

/-- The responses keep to the protocol of watches. -/
structure Protocol (sent : List Response) : Prop where
  created : sent.Pairwise fun a b => a.created = true → b.created = true → a.watchId ≠ b.watchId
  last : sent.Pairwise fun a b => a.canceled = true → b.watchId ≠ a.watchId
  known : ∀ a ∈ sent, a.canceled = true → ∃ b ∈ sent, b.created = true ∧ b.watchId = a.watchId

/-- The identifier was created and not canceled. -/
def Open (sent : List Response) (id : ℤ) : Prop :=
  (∃ a ∈ sent, a.created = true ∧ a.watchId = id) ∧ ∀ a ∈ sent, a.watchId = id → a.canceled = false

section Responses

variable {sent : List Response} {r : Response} {id : ℤ}

theorem Protocol.append (h : Protocol sent)
    (hcreated : r.created = true → ∀ a ∈ sent, a.watchId ≠ r.watchId)
    (hlast : ∀ a ∈ sent, a.canceled = true → r.watchId ≠ a.watchId)
    (hknown : r.canceled = true → ∃ b ∈ sent, b.created = true ∧ b.watchId = r.watchId) :
    Protocol (sent ++ [r]) where
  created := List.pairwise_snoc.mpr ⟨h.created, fun a ha _ hc => hcreated hc a ha⟩
  last := List.pairwise_snoc.mpr ⟨h.last, hlast⟩
  known := by
    have hleft {a : Response} (hb : ∃ b ∈ sent, b.created = true ∧ b.watchId = a.watchId) :
        ∃ b ∈ sent ++ [r], b.created = true ∧ b.watchId = a.watchId := by
      obtain ⟨b, hb, hrest⟩ := hb
      exact ⟨b, List.mem_append_left _ hb, hrest⟩
    intro a ha hc
    rcases List.mem_snoc.mp ha with ha | rfl
    · exact hleft (h.known a ha hc)
    · exact hleft (hknown hc)

/-- A response about another watch, or one that does not cancel, leaves the watch open. -/
theorem Open.append (h : Open sent id) (hr : r.watchId = id → r.canceled = false) :
    Open (sent ++ [r]) id := by
  obtain ⟨⟨a, ha, hcreated⟩, hnot⟩ := h
  exact ⟨⟨a, List.mem_append_left _ ha, hcreated⟩, List.forall_mem_snoc.mpr ⟨hnot, hr⟩⟩

theorem open_created (hfresh : ∀ a ∈ sent, a.watchId ≠ id) : Open (sent ++ [createdOf id]) id := by
  refine ⟨⟨createdOf id, by simp, rfl, rfl⟩, List.forall_mem_snoc.mpr ⟨fun b hb hid => ?_, ?_⟩⟩
  · exact absurd hid (hfresh b hb)
  · exact fun _ => rfl

end Responses

/-- What a goroutine has to do with the watches of the stream. -/
inductive Role where
  | idle
  /-- It has taken the identifier and not announced it. -/
  | starting (id : ℤ)
  /-- It alone may send responses for the watch. -/
  | serves (id : ℤ)
  /-- One of its responses could not be sent. -/
  | dead

def Role.owns : Role → Option ℤ
  | starting id | serves id => some id
  | idle | dead => none

def PreSend (g : Role) (r : Response) : Prop :=
  match g with
  | .idle => r.watchId = -1 ∧ r.created = false ∧ r.canceled = false
  | .starting id => r = createdOf id
  | .serves id => r.watchId = id ∧ r.created = false
  | .dead => True

def Pre (g : Role) : Op → Prop
  | .send r => PreSend g r
  | .recv | .addWatch => g.owns = none
  | .go t => g = .serves t.id
  | .closeRange id => g = .serves id ∨ g = .dead
  | _ => True

def PostSend (g : Role) (r : Response) (ok : Bool) (g' : Role) : Prop :=
  match g, ok with
  | .dead, ok => ok = false ∧ g' = .dead
  | _, false => g' = .dead
  | .idle, true => g' = .idle
  | .starting id, true => g' = .serves id
  | .serves id, true => g' = if r.canceled then .idle else .serves id

def Post (g : Role) (o : Op) (r : o.Res) (g' : Role) : Prop :=
  match o, r with
  | .recv, r => match g, r with
    | .dead, _ => g' = .dead
    | _, some (.cancel id) => g' = .serves id
    | _, _ => g' = g
  | .addWatch, id => match g with
    | .dead => g' = .dead
    | _ => g' = .starting id
  | .send resp, ok => PostSend g resp ok g'
  | .go _, _ => g' = .idle
  | .closeRange _, _ => match g with
    | .dead => g' = .dead
    | _ => g' = .idle
  | _, _ => g' = g

/-- What holds while every `Send` has succeeded. -/
structure Live (s : State) (gs : ℕ → Role) : Prop where
  sent_le : ∀ a ∈ s.sent, a.watchId ≤ s.watchID
  created_pos : ∀ a ∈ s.sent, a.created = true → 0 < a.watchId
  owned : ∀ i id, (gs i).owns = some id → 0 < id ∧ id ≤ s.watchID
  starting : ∀ i id, gs i = .starting id → ∀ a ∈ s.sent, a.watchId ≠ id
  serves : ∀ i id, gs i = .serves id → Open s.sent id
  single : ∀ i j id, (gs i).owns = some id → (gs j).owns = some id → i = j
  ended : ∀ id ∈ s.ended, Open s.sent id ∧ 0 < id ∧ id ≤ s.watchID ∧ ∀ i, (gs i).owns ≠ some id
  ended_nodup : s.ended.Nodup

structure Inv (s : State) (gs : ℕ → Role) : Prop where
  protocol : Protocol s.sent
  dead : ∀ i, gs i = .dead → s.broken = true
  live : s.broken = false → Live s gs

abbrev spec : Spec sig Outcome where
  Ghost := Role
  idle := .idle
  Pre := Pre
  Post := Post
  Fin := fun _ _ => True

abbrev outline : Outline machine where
  toSpec := spec
  Inv := Inv

/-- The client cancels range streams that have ended, each once, and nothing else; and when a
`Send` has failed, so do all that follow. -/
def CancelsEnded : Guard machine := fun s mv => match mv with
  | .op .recv (.request (some (.cancel id))) => id ∈ State.ended s
  | .op (.send _) (.flag true) => State.broken s = false
  | _ => True

section Programs

variable {g : Role} {id : ℤ} {compact : Bool} (r : CreateRequest)

/-- Operations that the role does not matter for. -/
theorem safe_plain {α : Type} {o : Op} {k : o.Res → M α} {Q : Role → α → Prop} (hpre : Pre g o)
    (hpost : ∀ r g', Post g o r g' → g' = g) (h : ∀ r, spec.Safe Q g (k r)) :
    spec.Safe Q g (call o >>= k) := by
  refine Spec.Safe.call_bind hpre fun r g' hp => ?_
  obtain rfl := hpost r g' hp
  exact h r

/-- The loop of the stream owns no watch between two messages. -/
def Free (g : Role) : Prop := g = .idle ∨ g = .dead

/-- A goroutine that could not send stays dead. -/
theorem safe_cancel_dead : spec.Safe (fun g' _ => g' = .dead) .dead (cancel id compact) := by
  refine safe_plain trivial (fun _ _ h => h) fun _ => ?_
  have hpre : PreSend .dead (canceledOf id compact) := trivial
  exact Spec.Safe.call_bind hpre fun _ _ hpost => hpost.2

theorem safe_cancel (hg : g = .serves id ∨ g = .dead) :
    spec.Safe (fun g' _ => Free g') g (cancel id compact) := by
  rcases hg with rfl | rfl
  · refine safe_plain trivial (fun _ _ h => h) fun _ => ?_
    have hpre : PreSend (.serves id) (canceledOf id compact) := ⟨rfl, rfl⟩
    refine Spec.Safe.call_bind hpre fun (ok : Bool) g₂ hpost => ?_
    cases ok with
    | false => exact .inr hpost
    | true => exact .inl hpost
  · exact safe_cancel_dead.mono fun _ _ h => .inr h

theorem safe_misdirected : spec.Safe (fun g' _ => g' = g) g (misdirected r) := by
  unfold misdirected
  split
  · refine safe_plain trivial (fun _ _ h => h) fun (leader : Bool) => ?_
    cases leader with
    | true => exact rfl
    | false => exact safe_plain trivial (fun _ _ h => h) fun _ => rfl
  · exact rfl

theorem safe_start (hg : Free g) (r : CreateRequest) :
    spec.Safe (fun g' _ => Free g') g (start r) := by
  unfold start
  rcases hg with rfl | rfl
  · refine Spec.Safe.call_bind (show Pre .idle .addWatch from rfl) fun (id : ℤ) g₁ hpost => ?_
    obtain rfl : g₁ = .starting id := hpost
    have hpre : PreSend (.starting id) (createdOf id) := rfl
    refine Spec.Safe.call_bind hpre fun (ok : Bool) g₂ hpost => ?_
    cases ok with
    | false =>
      obtain rfl : g₂ = .dead := hpost
      exact safe_cancel (.inr rfl)
    | true =>
      obtain rfl : g₂ = .serves id := hpost
      refine safe_plain trivial (fun _ _ h => h) fun _ => ?_
      have hid : Role.serves id =
          .serves (if r.startRevision < 0 then Task.list id r else .watch id r).id := by
        split <;> rfl
      exact ⟨hid, fun _ g' hpost => .inl hpost⟩
  · refine Spec.Safe.call_bind (show Pre .dead .addWatch from rfl) fun (id : ℤ) g₁ hpost => ?_
    obtain rfl : g₁ = .dead := hpost
    have hpre : PreSend .dead (createdOf id) := trivial
    refine Spec.Safe.call_bind hpre fun (ok : Bool) g₂ hpost => ?_
    obtain ⟨rfl, rfl⟩ : ok = false ∧ g₂ = .dead := hpost
    exact safe_cancel (.inr rfl)

theorem safe_close (hg : Free g) : spec.Safe (fun g' _ => Free g') g close :=
  safe_plain trivial (fun _ _ h => h) fun _ => hg

theorem safe_serve (hg : Free g) (a : Outcome) : spec.Safe (fun g' _ => Free g') g (serve a) := by
  cases a with
  | receiving =>
    have hpre : Pre g .recv := by rcases hg with rfl | rfl <;> rfl
    refine Spec.Safe.call_bind hpre fun (r : Option Request) g₁ hpost => ?_
    cases r with
    | none =>
      obtain rfl : g₁ = g := by rcases hg with rfl | rfl <;> exact hpost
      exact safe_close hg
    | some r =>
      cases r with
      | cancel id =>
        have hg₁ : g₁ = .serves id ∨ g₁ = .dead := by
          rcases hg with rfl | rfl
          · exact .inl hpost
          · exact .inr hpost
        exact (safe_cancel hg₁).bind fun _ _ h => h
      | create r =>
        obtain rfl : g₁ = g := by rcases hg with rfl | rfl <;> exact hpost
        refine (safe_misdirected r).bind fun g₂ b hg₂ => ?_
        obtain rfl := hg₂
        cases b with
        | true => exact safe_close hg
        | false => exact (safe_start hg r).bind fun _ _ h => h
      | progress =>
        obtain rfl : g₁ = g := by rcases hg with rfl | rfl <;> exact hpost
        refine safe_plain trivial (fun _ _ h => h) fun (revision : ℕ) => ?_
        have hsend : PreSend g₁ (progressOf revision) := by
          rcases hg with rfl | rfl
          · exact ⟨rfl, rfl, rfl⟩
          · trivial
        refine Spec.Safe.call_bind hsend fun (ok : Bool) g₂ hpost => ?_
        have hg₂ : Free g₂ := by
          rcases hg with rfl | rfl <;> cases ok
          · exact .inr hpost
          · exact .inl hpost
          · exact .inr hpost.2
          · exact .inr hpost.2
        cases ok with
        | true => exact hg₂
        | false => exact safe_close hg₂
      | unsupported =>
        obtain rfl : g₁ = g := by rcases hg with rfl | rfl <;> exact hpost
        exact hg
  | _ => exact hg

/-- What a goroutine of a watch owns between two passes. -/
def Holds (g : Role) : Outcome → Prop
  | .watching id _ _ | .listing id _ _ => g = .serves id ∨ g = .dead
  | _ => True

theorem safe_finish : spec.Safe Holds g finish :=
  safe_plain trivial (fun _ _ h => h) fun _ => trivial

theorem safe_cancel_finish (hg : g = .serves id ∨ g = .dead) :
    spec.Safe Holds g (do cancel id compact; finish) :=
  (safe_cancel hg).bind fun _ _ _ => safe_finish

/-- Sending what does not cancel the watch keeps it, unless the `Send` fails. -/
theorem safe_send {α : Type} {r : Response} {k : Bool → M α} {Q : Role → α → Prop}
    (hg : g = .serves id ∨ g = .dead) (hid : r.watchId = id) (hcreated : r.created = false)
    (hcanceled : r.canceled = false)
    (h : ∀ ok g', g' = .serves id ∨ g' = .dead → (ok = false → g' = .dead) →
      spec.Safe Q g' (k ok)) : spec.Safe Q g (call (.send r) >>= k) := by
  have hpre : PreSend g r := by
    rcases hg with rfl | rfl
    · exact ⟨hid, hcreated⟩
    · trivial
  refine Spec.Safe.call_bind hpre fun (ok : Bool) g' hpost => h ok g' ?_ ?_
  · rcases hg with rfl | rfl
    · cases ok with
      | false => exact .inr hpost
      | true =>
        have : g' = if r.canceled then Role.idle else .serves id := hpost
        simp only [hcanceled] at this
        exact .inl this
    · exact .inr hpost.2
  · rintro rfl
    rcases hg with rfl | rfl
    · exact hpost
    · exact hpost.2

theorem safe_watch : spec.Safe Holds (.serves id) (watch id r) := by
  unfold watch
  split
  · refine safe_plain trivial (fun _ _ h => h) fun leader => ?_
    refine safe_plain trivial (fun _ _ h => h) fun (ch : Option ℕ) => ?_
    cases ch with
    | none => exact safe_cancel_finish (.inl rfl)
    | some ch => exact .inl rfl
  · exact safe_cancel_finish (.inl rfl)

theorem safe_watchEvents {a : Outcome} (hg : Holds g a) : spec.Safe Holds g (watchEvents a) := by
  cases a with
  | watching id ch sendErr =>
    refine safe_plain trivial (fun _ _ h => h) fun (events : Option (List EtcdEvent)) => ?_
    cases events with
    | none => exact safe_cancel_finish hg
    | some events =>
      dsimp only
      split
      · exact hg
      refine safe_send hg rfl rfl rfl fun ok g' hg' hdead => ?_
      cases ok with
      | true => exact hg'
      | false =>
        obtain rfl := hdead rfl
        exact safe_cancel_dead.bind fun _ _ h => .inr h
  | _ => exact hg

theorem safe_list : spec.Safe Holds (.serves id) (list id r) := by
  refine safe_plain trivial (fun _ _ h => h) fun (ok : Bool) => ?_
  cases ok with
  | false => exact safe_cancel_finish (.inl rfl)
  | true =>
    refine safe_plain trivial (fun _ _ h => h) fun (ch : Option ℕ) => ?_
    cases ch with
    | none => exact safe_cancel_finish (.inl rfl)
    | some ch => exact .inl rfl

theorem safe_listEvents {a : Outcome} (hg : Holds g a) : spec.Safe Holds g (listEvents a) := by
  cases a with
  | listing id ch r =>
    refine safe_plain trivial (fun _ _ h => h) fun (m : Option StreamMessage) => ?_
    cases m with
    | none => exact Spec.Safe.call_bind hg fun _ _ _ => safe_finish
    | some m =>
      have hstreamed : (streamedOf id r m).watchId = id ∧ (streamedOf id r m).created = false ∧
          (streamedOf id r m).canceled = false := by
        unfold streamedOf
        split <;> exact ⟨rfl, rfl, rfl⟩
      obtain ⟨h₁, h₂, h₃⟩ := hstreamed
      refine safe_send hg h₁ h₂ h₃ fun ok g' hg' hdead => ?_
      cases ok with
      | true => exact hg'
      | false =>
        obtain rfl := hdead rfl
        exact safe_cancel_dead.bind fun _ _ h => .inr h
  | _ => exact hg

theorem threadSafe_goroutine (t : Task) : spec.ThreadSafe (.serves t.id) (goroutine t) := by
  cases t with
  | watch id r =>
    exact ⟨Holds, fun _ _ _ => trivial, safe_watch r, fun _ _ h => safe_watchEvents h⟩
  | list id r => exact ⟨Holds, fun _ _ _ => trivial, safe_list r, fun _ _ h => safe_listEvents h⟩

end Programs

section Soundness

variable {s s' : State} {gs : ℕ → Role} {i : ℕ} {id : ℤ}

theorem Live.frame (h : Live s gs) (hsent : s'.sent = s.sent) (hended : s'.ended = s.ended)
    (hid : s.watchID ≤ s'.watchID) : Live s' gs where
  sent_le := by
    intro a ha
    have := h.sent_le a (hsent ▸ ha)
    omega
  created_pos := hsent ▸ h.created_pos
  owned := by
    intro j id hj
    have := h.owned j id hj
    omega
  starting := hsent ▸ h.starting
  serves := hsent ▸ h.serves
  single := h.single
  ended := by
    intro id hin
    obtain ⟨h₁, h₂, h₃, h₄⟩ := h.ended id (hended ▸ hin)
    exact ⟨hsent ▸ h₁, h₂, by omega, h₄⟩
  ended_nodup := hended ▸ h.ended_nodup

theorem Inv.frame (h : Inv s gs) (hsent : s'.sent = s.sent) (hended : s'.ended = s.ended)
    (hid : s.watchID ≤ s'.watchID) (hbroken : s'.broken = s.broken) : Inv s' gs :=
  ⟨hsent ▸ h.protocol, hbroken ▸ h.dead, fun hb => (h.live (hbroken ▸ hb)).frame hsent hended hid⟩

/-- The goroutine gives up the watch that it owns. -/
theorem Live.release (h : Live s gs) : Live s (Function.update gs i .idle) where
  sent_le := h.sent_le
  created_pos := h.created_pos
  owned := by
    intro j id hj
    rcases update_cases (P := fun g : Role => g.owns = some id) hj with ⟨-, hj⟩ | ⟨-, hj⟩
    · cases hj
    · exact h.owned j id hj
  starting := by
    intro j id hj
    rcases update_cases (P := fun g : Role => g = .starting id) hj with ⟨-, hj⟩ | ⟨-, hj⟩
    · cases hj
    · exact h.starting j id hj
  serves := by
    intro j id hj
    rcases update_cases (P := fun g : Role => g = .serves id) hj with ⟨-, hj⟩ | ⟨-, hj⟩
    · cases hj
    · exact h.serves j id hj
  single := by
    intro j k id hj hk
    rcases update_cases (P := fun g : Role => g.owns = some id) hj with ⟨-, hj⟩ | ⟨-, hj⟩
    · cases hj
    rcases update_cases (P := fun g : Role => g.owns = some id) hk with ⟨-, hk⟩ | ⟨-, hk⟩
    · cases hk
    exact h.single j k id hj hk
  ended := by
    intro id hin
    obtain ⟨h₁, h₂, h₃, h₄⟩ := h.ended id hin
    refine ⟨h₁, h₂, h₃, fun j hj => ?_⟩
    rcases update_cases (P := fun g : Role => g.owns = some id) hj with ⟨-, hj⟩ | ⟨-, hj⟩
    · cases hj
    · exact h₄ j hj
  ended_nodup := h.ended_nodup

/-- A goroutine that owns nothing takes a watch that nobody owns and that the client may not
cancel. -/
theorem Live.take (h : Live s gs) {g : Role} (hg : g = .serves id ∧ Open s.sent id ∨
      g = .starting id ∧ ∀ a ∈ s.sent, a.watchId ≠ id)
    (hid : 0 < id ∧ id ≤ s.watchID) (hfree : ∀ j, (gs j).owns ≠ some id) (hended : id ∉ s.ended) :
    Live s (Function.update gs i g) := by
  have howns : g.owns = some id := by rcases hg with ⟨rfl, -⟩ | ⟨rfl, -⟩ <;> rfl
  constructor
  · exact h.sent_le
  · exact h.created_pos
  · intro j id' hj
    rcases update_cases (P := fun g : Role => g.owns = some id') hj with ⟨-, hj⟩ | ⟨-, hj⟩
    · obtain rfl := Option.some.inj (howns.symm.trans hj)
      exact hid
    · exact h.owned j id' hj
  · intro j id' hj
    rcases update_cases (P := fun g : Role => g = .starting id') hj with ⟨-, hj⟩ | ⟨-, hj⟩
    · rcases hg with ⟨rfl, -⟩ | ⟨rfl, hfresh⟩
      · cases hj
      · obtain rfl := Role.starting.inj hj
        exact hfresh
    · exact h.starting j id' hj
  · intro j id' hj
    rcases update_cases (P := fun g : Role => g = .serves id') hj with ⟨-, hj⟩ | ⟨-, hj⟩
    · rcases hg with ⟨rfl, hopen⟩ | ⟨rfl, -⟩
      · obtain rfl := Role.serves.inj hj
        exact hopen
      · cases hj
    · exact h.serves j id' hj
  · intro j k id' hj hk
    rcases update_cases (P := fun g : Role => g.owns = some id') hj with ⟨hji, hj'⟩ | ⟨-, hj'⟩ <;>
      rcases update_cases (P := fun g : Role => g.owns = some id') hk with ⟨hki, hk'⟩ | ⟨-, hk'⟩
    · exact hji.trans hki.symm
    · obtain rfl := Option.some.inj (howns.symm.trans hj')
      exact absurd hk' (hfree k)
    · obtain rfl := Option.some.inj (howns.symm.trans hk')
      exact absurd hj' (hfree j)
    · exact h.single j k id' hj' hk'
  · intro id' hin
    obtain ⟨h₁, h₂, h₃, h₄⟩ := h.ended id' hin
    refine ⟨h₁, h₂, h₃, fun j hj => ?_⟩
    rcases update_cases (P := fun g : Role => g.owns = some id') hj with ⟨-, hj⟩ | ⟨-, hj⟩
    · obtain rfl := Option.some.inj (howns.symm.trans hj)
      exact hended hin
    · exact h₄ j hj
  · exact h.ended_nodup

/-- Nobody else is concerned with the watch that a goroutine owns. -/
theorem Live.unowned (h : Live s gs) (hi : (gs i).owns = some id) :
    (∀ j, (Function.update gs i .idle j).owns ≠ some id) ∧ id ∉ s.ended := by
  refine ⟨fun j hj => ?_, fun hin => (h.ended id hin).2.2.2 i hi⟩
  rcases update_cases (P := fun g : Role => g.owns = some id) hj with ⟨-, hj⟩ | ⟨hji, hj⟩
  · cases hj
  · exact hji (h.single j i id hj hi)

theorem Live.append (h : Live s gs) {r : Response} (hle : r.watchId ≤ s.watchID)
    (hpos : r.created = true → 0 < r.watchId) (hstarting : ∀ j, gs j ≠ .starting r.watchId)
    (hopen : r.canceled = true → (∀ j, gs j ≠ .serves r.watchId) ∧ r.watchId ∉ s.ended) :
    Live { s with sent := s.sent ++ [r] } gs := by
  constructor
  · exact List.forall_mem_snoc.mpr ⟨h.sent_le, hle⟩
  · exact List.forall_mem_snoc.mpr ⟨h.created_pos, hpos⟩
  · exact h.owned
  · intro j id hj
    refine List.forall_mem_snoc.mpr ⟨h.starting j id hj, ?_⟩
    rintro rfl
    exact hstarting j hj
  · intro j id hj
    refine (h.serves j id hj).append ?_
    rintro rfl
    by_contra hc
    exact (hopen (by simpa using hc)).1 j hj
  · exact h.single
  · intro id hin
    obtain ⟨h₁, hrest⟩ := h.ended id hin
    refine ⟨h₁.append ?_, hrest⟩
    rintro rfl
    by_contra hc
    exact (hopen (by simpa using hc)).2 hin
  · exact h.ended_nodup

/-- A response is sent by the goroutine that owns the watch, or for no watch at all. -/
theorem Live.send (h : Live s gs) (hp : Protocol s.sent) {r : Response} (hpre : PreSend (gs i) r)
    {g' : Role} (hnot : gs i ≠ .dead) (hpost : PostSend (gs i) r true g') :
    Protocol (s.sent ++ [r]) ∧
      Live { s with sent := s.sent ++ [r] } (Function.update gs i g') := by
  cases hg : gs i with
  | dead => exact absurd hg hnot
  | idle =>
    rw [hg] at hpre hpost
    obtain ⟨hid, hcreated, hcanceled⟩ := hpre
    obtain rfl : g' = .idle := hpost
    rw [Function.update_eq_self_iff.mpr hg.symm]
    constructor
    · refine hp.append (by simp [hcreated]) ?_ (by simp [hcanceled])
      intro a ha hc
      obtain ⟨b, hb, hbc, hba⟩ := hp.known a ha hc
      have := h.created_pos b hb hbc
      omega
    · refine h.append (by omega) (by simp [hcreated]) ?_ (by simp [hcanceled])
      intro j hj
      have := h.owned j r.watchId (by rw [hj]; rfl)
      omega
  | starting id =>
    rw [hg] at hpre hpost
    obtain rfl : r = createdOf id := hpre
    obtain rfl : g' = .serves id := hpost
    have howns : (gs i).owns = some id := by rw [hg]; rfl
    obtain ⟨hfree, hended⟩ := h.unowned howns
    have hfresh := h.starting i id hg
    have hid := h.owned i id howns
    constructor
    · exact hp.append (fun _ a ha => hfresh a ha) (fun a ha _ heq => hfresh a ha heq.symm) nofun
    · have happ : Live { s with sent := s.sent ++ [createdOf id] }
        (Function.update gs i .idle) := by
        refine h.release.append hid.2 (fun _ => hid.1) (fun j hj => ?_) nofun
        exact hfree j (by rw [hj]; rfl)
      have htake := happ.take (i := i) (.inl ⟨rfl, open_created hfresh⟩) hid hfree hended
      rwa [Function.update_idem] at htake
  | serves id =>
    rw [hg] at hpre hpost
    obtain ⟨rfl, hcreated⟩ := hpre
    have howns : (gs i).owns = some r.watchId := by rw [hg]; rfl
    obtain ⟨hfree, hended⟩ := h.unowned howns
    have hopen := h.serves i _ hg
    have hid := h.owned i _ howns
    constructor
    · refine hp.append (by simp [hcreated]) ?_ (fun _ => hopen.1)
      intro a ha hc heq
      rw [hopen.2 a ha heq.symm] at hc
      cases hc
    · have hpost : g' = if r.canceled then .idle else .serves r.watchId := hpost
      cases hc : r.canceled with
      | true =>
        obtain rfl : g' = .idle := by rw [hpost, hc]; rfl
        refine h.release.append hid.2 (by simp [hcreated]) (fun j hj => ?_)
          fun _ => ⟨fun j hj => ?_, hended⟩
        · exact hfree j (by rw [hj]; rfl)
        · exact hfree j (by rw [hj]; rfl)
      | false =>
        obtain rfl : g' = .serves r.watchId := by rw [hpost, hc]; rfl
        rw [Function.update_eq_self_iff.mpr hg.symm]
        refine h.append hid.2 (by simp [hcreated]) (fun j hj => ?_) (by simp [hc])
        obtain rfl := h.single j i _ (by rw [hj]; rfl) howns
        rw [hg] at hj
        cases hj

/-- Once a `Send` has failed, only what was sent before matters. -/
theorem Inv.of_broken (hp : Protocol s.sent) (hb : s.broken = true) : Inv s gs :=
  ⟨hp, fun _ _ => hb, fun h => absurd (hb.symm.trans h) nofun⟩

theorem Inv.set (h : Inv s gs) {g : Role} (hg : g ≠ .dead) (hsent : s'.sent = s.sent)
    (hbroken : s'.broken = s.broken)
    (hlive : s.broken = false → Live s gs → Live s' (Function.update gs i g)) :
    Inv s' (Function.update gs i g) := by
  refine ⟨hsent ▸ h.protocol, fun j hj => ?_, fun hb => ?_⟩
  · rcases update_cases (P := fun g : Role => g = .dead) hj with ⟨-, hj⟩ | ⟨-, hj⟩
    · exact absurd hj hg
    · exact hbroken.trans (h.dead j hj)
  · have hb' : s.broken = false := hbroken.symm.trans hb
    exact hlive hb' (h.live hb')

private theorem sound_recv (hinv : Inv s gs) (hpre : (gs i).owns = none) {req : Option Request}
    (hG : ∀ id, req = some (.cancel id) → id ∈ s.ended) :
    ∃ g', Post (gs i) .recv req g' ∧ Inv (received s req) (Function.update gs i g') := by
  have hsame (req : Option Request) (hreq : received s req = s) :
      Inv (received s req) (Function.update gs i (gs i)) := by
    rwa [Function.update_eq_self, hreq]
  cases hg : gs i with
  | starting id | serves id =>
    rw [hg] at hpre
    cases hpre
  | dead =>
    refine ⟨.dead, rfl, Inv.of_broken ?_ ?_⟩
    · have hsent : (received s req).sent = s.sent := by
        unfold received
        split <;> rfl
      exact hsent ▸ hinv.protocol
    · have hbroken : (received s req).broken = s.broken := by
        unfold received
        split <;> rfl
      exact hbroken.trans (hinv.dead i hg)
  | idle =>
    cases req with
    | none => exact ⟨_, rfl, hg ▸ hsame none rfl⟩
    | some req =>
      cases req with
      | create r => exact ⟨_, rfl, hg ▸ hsame (some (.create r)) rfl⟩
      | progress => exact ⟨_, rfl, hg ▸ hsame (some .progress) rfl⟩
      | unsupported => exact ⟨_, rfl, hg ▸ hsame (some .unsupported) rfl⟩
      | cancel id =>
        refine ⟨.serves id, rfl, hinv.set nofun rfl rfl fun _ hlive => ?_⟩
        obtain ⟨hopen, hpos, hle, hfree⟩ := hlive.ended id (hG id rfl)
        have herase : Live { s with ended := s.ended.erase id } gs :=
          { hlive with
            ended := fun id' hin => hlive.ended id' (List.mem_of_mem_erase hin)
            ended_nodup := hlive.ended_nodup.erase id }
        exact herase.take (.inl ⟨rfl, hopen⟩) ⟨hpos, hle⟩ hfree hlive.ended_nodup.not_mem_erase

private theorem sound_addWatch (hinv : Inv s gs) (hpre : (gs i).owns = none) :
    ∃ g', Post (gs i) .addWatch (s.watchID + 1 : ℤ) g' ∧
      Inv { s with watchID := s.watchID + 1, watches := s.watches ++ [(s.watchID + 1 : ℤ)] }
        (Function.update gs i g') := by
  cases hg : gs i with
  | starting id | serves id =>
    rw [hg] at hpre
    cases hpre
  | dead => exact ⟨.dead, rfl, Inv.of_broken hinv.protocol (hinv.dead i hg)⟩
  | idle =>
    refine ⟨.starting (s.watchID + 1), rfl, hinv.set nofun rfl rfl fun _ hlive => ?_⟩
    have hmore : Live { s with
        watchID := s.watchID + 1, watches := s.watches ++ [(s.watchID + 1 : ℤ)] } gs :=
      hlive.frame rfl rfl (Nat.le_succ _)
    refine hmore.take (.inr ⟨rfl, fun a ha heq => ?_⟩) ⟨by omega, by simp⟩ (fun j hj => ?_)
      fun hin => ?_
    · have := hlive.sent_le a ha
      omega
    · have := hlive.owned j _ hj
      omega
    · have := (hlive.ended _ hin).2.2.1
      omega

private theorem sound_send (hinv : Inv s gs) {resp : Response} (hpre : PreSend (gs i) resp)
    {ok : Bool} (hG : ok = true → s.broken = false) :
    ∃ g', PostSend (gs i) resp ok g' ∧
      Inv (if ok then { s with sent := s.sent ++ [resp] } else { s with broken := true })
        (Function.update gs i g') := by
  cases ok with
  | false =>
    refine ⟨.dead, ?_, Inv.of_broken hinv.protocol rfl⟩
    cases gs i with
    | dead => exact ⟨rfl, rfl⟩
    | _ => rfl
  | true =>
    have hb := hG rfl
    have hlive := hinv.live hb
    have hnot : gs i ≠ .dead := by
      intro hdead
      rw [hinv.dead i hdead] at hb
      cases hb
    obtain ⟨g', hpost, hg'⟩ : ∃ g', PostSend (gs i) resp true g' ∧ g' ≠ .dead := by
      cases hg : gs i with
      | dead => exact absurd hg hnot
      | idle => exact ⟨.idle, rfl, nofun⟩
      | starting id => exact ⟨.serves id, rfl, nofun⟩
      | serves id =>
        refine ⟨_, rfl, ?_⟩
        split <;> exact nofun
    obtain ⟨hp, hl⟩ := hlive.send hinv.protocol hpre hnot hpost
    refine ⟨g', hpost, hp, fun j hj => ?_, fun _ => hl⟩
    rcases update_cases (P := fun g : Role => g = .dead) hj with ⟨-, hj⟩ | ⟨-, hj⟩
    · exact absurd hj hg'
    · exact hinv.dead j hj

private theorem sound_closeRange (hinv : Inv s gs) (hpre : gs i = .serves id ∨ gs i = .dead) :
    ∃ g', Post (gs i) (.closeRange id) () g' ∧
      Inv { s with watches := s.watches.erase id, ended := s.ended ++ [id] }
        (Function.update gs i g') := by
  rcases hpre with hg | hg
  · rw [hg]
    refine ⟨.idle, rfl, hinv.set nofun rfl rfl fun _ hlive => ?_⟩
    have howns : (gs i).owns = some id := by rw [hg]; rfl
    obtain ⟨hfree, hended⟩ := hlive.unowned howns
    have hid := hlive.owned i id howns
    exact { hlive.release with
      ended := List.forall_mem_snoc.mpr
        ⟨hlive.release.ended, hlive.serves i id hg, hid.1, hid.2, hfree⟩
      ended_nodup := List.nodup_snoc.mpr ⟨hlive.ended_nodup, hended⟩ }
  · rw [hg]
    exact ⟨.dead, rfl, Inv.of_broken hinv.protocol (hinv.dead i hg)⟩

/-- The goroutine that is started takes the watch over. -/
private theorem sound_go (hinv : Inv s gs) {t : Task} (hpre : gs i = .serves t.id) (n : ℕ) :
    Inv s (Function.update (Function.update gs i .idle) n (.serves t.id)) := by
  have hi : Inv s (Function.update gs i .idle) :=
    hinv.set nofun rfl rfl fun _ hlive => hlive.release
  refine hi.set nofun rfl rfl fun hb hlive => ?_
  have hold := hinv.live hb
  have howns : (gs i).owns = some t.id := by rw [hpre]; rfl
  obtain ⟨hfree, hended⟩ := hold.unowned howns
  exact hlive.take (.inl ⟨rfl, hold.serves i _ hpre⟩) (hold.owned i _ howns) hfree hended

theorem sound : outline.Sound CancelsEnded fun _ _ _ => True where
  op := by
    intro s gs outs i o ch s' r sp _ hinv hpre hG _ _ _ hex
    have hexec : exec s outs i o ch = some (s', r, sp) := hex
    have hsame (hinv' : Inv s' gs) : Inv s' (Function.update gs i (gs i)) := by
      rwa [Function.update_eq_self]
    cases o with
    | recv =>
      cases ch with
      | request req =>
        cases hexec
        refine sound_recv hinv hpre ?_
        rintro id rfl
        exact hG
      | _ => cases hexec
    | addWatch =>
      unfold exec at hexec
      dsimp only at hexec
      split at hexec
      · cases hexec
        exact sound_addWatch hinv hpre
      · cases hexec
    | send resp =>
      cases ch with
      | flag ok =>
        cases ok with
        | true =>
          cases hexec
          exact sound_send hinv hpre fun _ => hG
        | false =>
          cases hexec
          exact sound_send hinv hpre nofun
      | _ => cases hexec
    | go t =>
      cases hexec
      exact ⟨.idle, rfl, .serves t.id, threadSafe_goroutine t, sound_go hinv hpre _⟩
    | closeRange id =>
      cases hexec
      exact sound_closeRange hinv hpre
    | removeWatch id | wgAdd | wgDone =>
      cases hexec
      exact ⟨_, rfl, hsame (hinv.frame rfl rfl (le_refl _) rfl)⟩
    | wgWait =>
      unfold exec at hexec
      dsimp only at hexec
      split at hexec
      · cases hexec
        exact ⟨_, rfl, hsame hinv⟩
      · cases hexec
    | isLeader | etcdProxyEnabled | getCurrentRevision | syncReadRevision | watchBackend _ _ _
    | listByStream _ _ _ | recvEvents _ | recvStream _ =>
      cases ch <;> cases hexec
      exact ⟨_, rfl, hsame hinv⟩
  env := by
    intro s gs ch s' _ hinv _ he
    have henv : env s ch = some s' := he
    cases ch with
    | none =>
      simp only [env] at henv
      split at henv
      · cases henv
        exact hinv.frame rfl rfl (Nat.le_succ _) rfl
      · cases henv
    | _ => cases henv

end Soundness

theorem good_init (n : ℕ) : outline.Good (init n) fun _ => .idle where
  inv := by
    refine ⟨⟨.nil, .nil, nofun⟩, nofun, fun _ => ?_⟩
    exact ⟨nofun, nofun, nofun, nofun, nofun, nofun, nofun, List.nodup_nil⟩
  safe := by
    intro i t ht
    cases i with
    | zero =>
      obtain rfl := Option.some.inj ht
      exact ⟨fun g _ => Free g, fun _ _ _ => trivial, .inl rfl, fun _ a h => safe_serve h a⟩
    | succ i => simp [init] at ht
  idle := fun _ _ => rfl

private theorem countP_le_one {α : Type} {p : α → Bool} {l : List α}
    (h : l.Pairwise fun a b => p a = true → p b ≠ true) : l.countP p ≤ 1 := by
  induction l with
  | nil => simp
  | cons a l ih =>
    obtain ⟨ha, hl⟩ := List.pairwise_cons.mp h
    rw [List.countP_cons]
    split
    · next hpa =>
      have hzero : l.countP p = 0 := List.countP_eq_zero.mpr fun b hb => ha b hb hpa
      omega
    · exact ih hl

/-- On a stream whose client cancels only range streams that have ended, each once, and on which no
`Send` succeeds after one has failed, every watch follows the protocol: at most one `Created` and
one `Canceled` response, `Canceled` only for what was created, and nothing after it. -/
theorem watches_follow_protocol (n : ℕ) {c : Interleaving.Config machine}
    (h : Config.Reach CancelsEnded (init n) c) (id : ℤ) :
    ((State.sent c.state).countP fun a => a.created && a.watchId == id) ≤ 1 ∧
    ((State.sent c.state).countP fun a => a.canceled && a.watchId == id) ≤ 1 ∧
    ((∃ a ∈ State.sent c.state, a.canceled = true ∧ a.watchId = id) →
      ∃ a ∈ State.sent c.state, a.created = true ∧ a.watchId = id) ∧
    (State.sent c.state).Pairwise fun a b => a.canceled = true → a.watchId = id →
    b.watchId ≠ id := by
  obtain ⟨gs, hgood⟩ := (good_init n).reach sound (fun _ _ _ _ _ _ _ _ => trivial) h
  have hp := hgood.inv.protocol
  refine ⟨countP_le_one (hp.created.imp ?_), countP_le_one (hp.last.imp ?_), ?_, hp.last.imp ?_⟩
  · intro a b hab ha hb
    obtain ⟨hca, rfl⟩ : a.created = true ∧ a.watchId = id := by simpa using ha
    obtain ⟨hcb, heq⟩ : b.created = true ∧ b.watchId = a.watchId := by simpa using hb
    exact hab hca hcb heq.symm
  · intro a b hab ha hb
    obtain ⟨hca, rfl⟩ : a.canceled = true ∧ a.watchId = id := by simpa using ha
    obtain ⟨-, heq⟩ : b.canceled = true ∧ b.watchId = a.watchId := by simpa using hb
    exact hab hca heq
  · rintro ⟨a, ha, hc, rfl⟩
    exact hp.known a ha hc
  · rintro a b hab hc rfl
    exact hab hc

private def cancelsEndedCheck (s : State) : Move machine → Bool
  | .op .recv (.request (some (.cancel id))) => s.ended.contains id
  | .op (.send _) (.flag true) => !s.broken
  | _ => true

private theorem cancelsEnded_of_check (s : State) (mv : Move machine)
    (h : cancelsEndedCheck s mv = true) :
    CancelsEnded s mv := by
  unfold cancelsEndedCheck at h
  split at h
  · exact List.contains_iff_mem.mp h
  · simpa [CancelsEnded] using h
  · next hcancel hsend =>
    unfold CancelsEnded
    split
    · exact absurd rfl (hcancel _)
    · exact absurd rfl (hsend _)
    · trivial

/-- A range stream is read to its end, and the client cancels it. -/
def readRange : List (Label machine) :=
  [.restart 0, .thread 0 (.request (some (.create ⟨[97], [98], -3⟩))), .thread 0 .none,
    .thread 0 (.flag true), .thread 0 .none, .thread 0 .none,
    .thread 1 (.flag true), .thread 1 (.channel (some 0)),
    .restart 1, .thread 1 (.message (some ⟨true, [], []⟩)), .thread 1 (.flag true),
    .restart 1, .thread 1 (.message none), .thread 1 .none, .thread 1 .none,
    .restart 0, .thread 0 (.request (some (.cancel 1))), .thread 0 .none, .thread 0 (.flag true)]

theorem watches_follow_protocol_range : ∃ c, Config.Reach CancelsEnded (init 0) c ∧
      State.sent c.state =
        [createdOf 1, ⟨-1, 1, false, false, "", 0, [eofOf []]⟩, canceledOf 1 false] ∧
      ((State.sent c.state).countP fun a => a.canceled && a.watchId == 1) ≤ 1 := by
  obtain ⟨c, hreach, hsent⟩ : ∃ c, Config.Reach CancelsEnded (init 0) c ∧ State.sent c.state =
      [createdOf 1, ⟨-1, 1, false, false, "", 0, [eofOf []]⟩, canceledOf 1 false] :=
    Config.exists_of_run cancelsEnded_of_check readRange (by rfl)
  exact ⟨c, hreach, hsent, (watches_follow_protocol 0 hreach 1).2.1⟩

/-- A watch is created and canceled by the client. A batch is still on its way, and then the
backend closes the channel. -/
def cancelWatch (events : List EtcdEvent) : List (Label machine) :=
  [.restart 0, .thread 0 (.request (some (.create ⟨[47, 97], [], 1⟩))), .thread 0 (.flag true),
    .thread 0 .none, .thread 0 (.flag true), .thread 0 .none, .thread 0 .none,
    .thread 1 (.flag true), .thread 1 (.channel (some 0)),
    .restart 0, .thread 0 (.request (some (.cancel 1))), .thread 0 .none, .thread 0 (.flag true),
    .restart 1, .thread 1 (.events (some events)), .thread 1 (.flag true),
    .restart 1, .thread 1 (.events none), .thread 1 .none, .thread 1 (.flag true)]

/-- A cancel request for an identifier of another stream. -/
def cancelForeign : List (Label machine) :=
  [.restart 0, .thread 0 (.request (some (.cancel 7))), .thread 0 .none, .thread 0 (.flag true)]

/-- A watch that the client cancels is canceled twice, with events in between, and a watch that
was not created on the stream is canceled on request. -/
theorem cancel_request_breaks_protocol :
    (∃ c, Config.Reach (fun _ _ => True) (init 0) c ∧ State.broken c.state = false ∧
      State.sent c.state = [createdOf 1, canceledOf 1 false,
        eventsOf 1 [⟨.put, ⟨[47, 97], [98], 2, 2⟩, none⟩], canceledOf 1 false]) ∧
    ∃ c, Config.Reach (fun _ _ => True) (init 0) c ∧ State.broken c.state = false ∧
      State.watchID c.state = 0 ∧ State.sent c.state = [canceledOf 7 false] :=
  ⟨Config.exists_of_unchecked (cancelWatch [⟨.put, ⟨[47, 97], [98], 2, 2⟩, none⟩]) (by rfl),
    Config.exists_of_unchecked cancelForeign (by rfl)⟩

end KubeBrain.Watcher

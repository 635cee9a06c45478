import NetworkProgramming.Library.Transition

/-!
# Sessions in which both sides take turns

The client asks and waits for an answer, the server waits for a request and
answers. Between them are two byte streams, so a `recv` can bring any piece of
what is under way. What the programs do with the bytes is a parameter.
-/
namespace NetworkProgramming.LockStep

open Transition

/-- The loops of both programs; `none` where one of them leaves its buffers or is killed. -/
structure Protocol (C S α : Type*) where
  ask : C → Option (List α × C)
  hearAnswer : C → List α → Option C
  hear : S → List α → Option S
  answer : S → Option (List α × S)
  /-- What the server and the client ask `recv` for. -/
  requestLimit : Nat
  answerLimit : Nat

structure State (C S α : Type*) where
  client : C
  server : S
  /-- The client is about to ask; otherwise it waits in its `recv`. -/
  asking : Bool
  answering : Bool
  /-- The bytes under way. -/
  requests : List α
  answers : List α

/-- The steps of both loops, with the lengths that the `recv` calls return. -/
inductive Label where
  | ask
  | hear (len : Nat)
  | answer
  | hearAnswer (len : Nat)
  deriving DecidableEq, Repr

variable {C S α : Type*}

def start (client : C) (server : S) : State C S α := ⟨client, server, true, false, [], []⟩

def step (P : Protocol C S α) (s : State C S α) : Label → Option (State C S α)
  | .ask =>
    if s.asking then
      (P.ask s.client).map fun r =>
        { s with client := r.2, asking := false, requests := s.requests ++ r.1 }
    else none
  | .hear len =>
    if s.answering = false ∧ 0 < len ∧ len ≤ P.requestLimit ∧ len ≤ s.requests.length then
      (P.hear s.server (s.requests.take len)).map fun server =>
        { s with server, answering := true, requests := s.requests.drop len }
    else none
  | .answer =>
    if s.answering then
      (P.answer s.server).map fun r =>
        { s with server := r.2, answering := false, answers := s.answers ++ r.1 }
    else none
  | .hearAnswer len =>
    if s.asking = false ∧ 0 < len ∧ len ≤ P.answerLimit ∧ len ≤ s.answers.length then
      (P.hearAnswer s.client (s.answers.take len)).map fun client =>
        { s with client, asking := true, answers := s.answers.drop len }
    else none

/-- Everything a step can do. -/
inductive Move (P : Protocol C S α) (s : State C S α) : Label → State C S α → Prop where
  | ask (m : List α) (c : C) (turn : s.asking = true) (ask : P.ask s.client = some (m, c)) :
      Move P s .ask { s with client := c, asking := false, requests := s.requests ++ m }
  | hear (len : Nat) (v : S) (turn : s.answering = false) (pos : 0 < len)
      (queued : len ≤ s.requests.length) (hear : P.hear s.server (s.requests.take len) = some v) :
      Move P s (.hear len)
        { s with server := v, answering := true, requests := s.requests.drop len }
  | answer (m : List α) (v : S) (turn : s.answering = true)
      (answer : P.answer s.server = some (m, v)) :
      Move P s .answer { s with server := v, answering := false, answers := s.answers ++ m }
  | hearAnswer (len : Nat) (c : C) (turn : s.asking = false) (pos : 0 < len)
      (queued : len ≤ s.answers.length)
      (hear : P.hearAnswer s.client (s.answers.take len) = some c) :
      Move P s (.hearAnswer len)
        { s with client := c, asking := true, answers := s.answers.drop len }

theorem move_of_step {P : Protocol C S α} {s t : State C S α} {a : Label}
    (h : step P s a = some t) : Move P s a t := by
  cases a with
  | ask =>
    obtain ⟨turn, h⟩ := Option.ite_none_right_eq_some.mp h
    obtain ⟨r, hr, rfl⟩ := Option.map_eq_some_iff.mp h
    exact .ask r.1 r.2 turn hr
  | hear len =>
    obtain ⟨⟨turn, pos, -, queued⟩, h⟩ := Option.ite_none_right_eq_some.mp h
    obtain ⟨v, hv, rfl⟩ := Option.map_eq_some_iff.mp h
    exact .hear len v turn pos queued hv
  | answer =>
    obtain ⟨turn, h⟩ := Option.ite_none_right_eq_some.mp h
    obtain ⟨r, hr, rfl⟩ := Option.map_eq_some_iff.mp h
    exact .answer r.1 r.2 turn hr
  | hearAnswer len =>
    obtain ⟨⟨turn, pos, -, queued⟩, h⟩ := Option.ite_none_right_eq_some.mp h
    obtain ⟨c, hc, rfl⟩ := Option.map_eq_some_iff.mp h
    exact .hearAnswer len c turn pos queued hc

section Live
variable {P : Protocol C S α} {s t : State C S α} {a : Label}

/-- Somebody has the turn, or there is something to receive. -/
def Live (s : State C S α) : Prop :=
  s.asking = true ∨ s.answering = true ∨ s.requests ≠ [] ∨ s.answers ≠ []

/-- A party that gives its turn away sends something, or the session goes on without. -/
def Speaks (P : Protocol C S α) (s : State C S α) : Label → Prop
  | .ask => s.asking = true → ∀ r ∈ P.ask s.client,
      r.1 ≠ [] ∨ s.answering = true ∨ s.requests ≠ [] ∨ s.answers ≠ []
  | .answer => s.answering = true → ∀ r ∈ P.answer s.server,
      r.1 ≠ [] ∨ s.asking = true ∨ s.requests ≠ [] ∨ s.answers ≠ []
  | .hear _ | .hearAnswer _ => True

theorem live_iff_speaks (h : step P s a = some t) : Live t ↔ Speaks P s a := by
  cases move_of_step h with
  | ask m c turn ask =>
    have hm : (s.requests ++ m ≠ []) ↔ (m ≠ [] ∨ s.requests ≠ []) := by
      simp only [ne_eq, List.append_eq_nil_iff, not_and_or, or_comm]
    simp only [Live, Speaks, turn, ask, hm, Option.mem_def, Option.some.injEq, forall_eq',
      Bool.false_eq_true, false_or, true_implies]
    tauto
  | hear => exact iff_of_true (.inr (.inl rfl)) trivial
  | answer m v turn answer =>
    have hm : (s.answers ++ m ≠ []) ↔ (m ≠ [] ∨ s.answers ≠ []) := by
      simp only [ne_eq, List.append_eq_nil_iff, not_and_or, or_comm]
    simp only [Live, Speaks, turn, answer, hm, Option.mem_def, Option.some.injEq, forall_eq',
      Bool.false_eq_true, false_or, true_implies]
    tauto
  | hearAnswer => exact iff_of_true (.inl rfl) trivial

end Live

section Turns
variable {P : Protocol C S α}

/-- Whose turn it is when every message arrives in one piece. -/
inductive Phase (α : Type*) where
  | asking
  | asked (m : List α)
  | answering
  | answered (m : List α)

/-- The state in this phase: at most one message is under way. -/
def Phase.state (c : C) (v : S) : Phase α → State C S α
  | .asking => ⟨c, v, true, false, [], []⟩
  | .asked m => ⟨c, v, false, false, m, []⟩
  | .answering => ⟨c, v, false, true, [], []⟩
  | .answered m => ⟨c, v, false, false, [], m⟩

/-- Every `recv` brings all that is under way. -/
def Whole (s : State C S α) : Label → Prop
  | .hear len => len = s.requests.length
  | .hearAnswer len => len = s.answers.length
  | .ask | .answer => True

instance (s : State C S α) : ∀ a, Decidable (Whole s a)
  | .hear _ | .hearAnswer _ => inferInstanceAs (Decidable (_ = _))
  | .ask | .answer => inferInstanceAs (Decidable True)

/-- What the four turns preserve. -/
structure Preserved (P : Protocol C S α) (J : C → S → Phase α → Prop) : Prop where
  ask : ∀ c v m c', J c v .asking → P.ask c = some (m, c') → J c' v (.asked m)
  hear : ∀ c v m v', J c v (.asked m) → m ≠ [] → P.hear v m = some v' → J c v' .answering
  answer : ∀ c v m v', J c v .answering → P.answer v = some (m, v') → J c v' (.answered m)
  hearAnswer : ∀ c v m c', J c v (.answered m) → m ≠ [] → P.hearAnswer c m = some c' →
    J c' v .asking

/-- The session is in some phase, with what holds there. -/
def InTurn (J : C → S → Phase α → Prop) (s : State C S α) : Prop :=
  ∃ c v p, s = Phase.state c v p ∧ J c v p

theorem InTurn.step {J : C → S → Phase α → Prop} (hJ : Preserved P J) {s t : State C S α}
    {a : Label} (h : InTurn J s) (hw : Whole s a) (ht : LockStep.step P s a = some t) :
    InTurn J t := by
  obtain ⟨c, v, p, rfl, hp⟩ := h
  have hmove := move_of_step ht
  cases p with
  | asking =>
    cases hmove with
    | ask m c' turn ask => exact ⟨c', v, .asked m, rfl, hJ.ask c v m c' hp ask⟩
    | hear len v' turn pos queued => exact absurd queued (Nat.not_le.mpr pos)
    | answer m v' turn => cases turn
    | hearAnswer len c' turn => cases turn
  | asked m =>
    cases hmove with
    | ask m' c' turn => cases turn
    | hear len v' turn pos queued hear =>
      obtain rfl : len = m.length := hw
      simp only [Phase.state, List.take_length] at hear
      refine ⟨c, v', .answering, ?_, hJ.hear c v m v' hp (List.length_pos_iff.mp pos) hear⟩
      simp only [Phase.state, List.drop_length]
    | answer m' v' turn => cases turn
    | hearAnswer len c' turn pos queued => exact absurd queued (Nat.not_le.mpr pos)
  | answering =>
    cases hmove with
    | ask m c' turn => cases turn
    | hear len v' turn => cases turn
    | answer m v' turn answer => exact ⟨c, v', .answered m, rfl, hJ.answer c v m v' hp answer⟩
    | hearAnswer len c' turn pos queued => exact absurd queued (Nat.not_le.mpr pos)
  | answered m =>
    cases hmove with
    | ask m' c' turn => cases turn
    | hear len v' turn pos queued => exact absurd queued (Nat.not_le.mpr pos)
    | answer m' v' turn => cases turn
    | hearAnswer len c' turn pos queued hear =>
      obtain rfl : len = m.length := hw
      simp only [Phase.state, List.take_length] at hear
      refine ⟨c', v, .asking, ?_, hJ.hearAnswer c v m c' hp (List.length_pos_iff.mp pos) hear⟩
      simp only [Phase.state, List.drop_length]

/-- With whole messages the session takes turns, and keeps what the turns preserve. -/
theorem throughout_inTurn {J : C → S → Phase α → Prop} (hJ : Preserved P J) {c : C} {v : S}
    (hstart : J c v .asking) {labels : List Label}
    (hwhole : Along (step P) Whole (start c v) labels) :
    Throughout (step P) (InTurn J) (start c v) labels :=
  throughout_of_step (fun _ _ _ h hw ht => h.step hJ hw ht) ⟨c, v, .asking, rfl, hstart⟩ hwhole

/-- Both programs can do what their turn asks of them, the server exactly with the requests
that it bears, and the messages fit the `recv` calls. -/
structure Ready (P : Protocol C S α) (J : C → S → Phase α → Prop) (bears : List α → Prop) :
    Prop where
  nothing : bears []
  ask : ∀ c v, J c v .asking → ∃ r, P.ask c = some r
  hear : ∀ c v m, J c v (.asked m) →
    m.length ≤ P.requestLimit ∧ ((∃ v', P.hear v m = some v') ↔ bears m)
  answer : ∀ c v, J c v .answering → ∃ r, P.answer v = some r
  hearAnswer : ∀ c v m, J c v (.answered m) →
    m.length ≤ P.answerLimit ∧ ∃ c', P.hearAnswer c m = some c'

/-- While not both of them wait for nothing, the session can go on with a whole message, unless
the server does not bear the request that is under way. -/
theorem InTurn.moves_iff {J : C → S → Phase α → Prop} {bears : List α → Prop}
    (hJ : Ready P J bears) {s : State C S α} (h : InTurn J s) (hlive : Live s) :
    (∃ a t, Whole s a ∧ LockStep.step P s a = some t) ↔ bears s.requests := by
  obtain ⟨c, v, p, rfl, hp⟩ := h
  cases p with
  | asking =>
    obtain ⟨r, hr⟩ := hJ.ask c v hp
    refine iff_of_true ⟨.ask, Phase.state r.2 v (.asked r.1), trivial, ?_⟩ hJ.nothing
    simp only [LockStep.step, Phase.state, hr, if_true, Option.map_some, List.nil_append]
  | asked m =>
    obtain ⟨hlen, hbears⟩ := hJ.hear c v m hp
    have hpos : 0 < m.length := List.length_pos_iff.mpr (by simpa [Live, Phase.state] using hlive)
    refine Iff.trans ⟨?_, ?_⟩ hbears
    · rintro ⟨a, t, hw, ht⟩
      cases move_of_step ht with
      | ask m' c' turn => cases turn
      | hear len v' turn pos queued hear =>
        obtain rfl : len = m.length := hw
        exact ⟨v', by simpa only [Phase.state, List.take_length] using hear⟩
      | answer m' v' turn => cases turn
      | hearAnswer len c' turn pos queued => exact absurd queued (Nat.not_le.mpr pos)
    · rintro ⟨v', hv⟩
      refine ⟨.hear m.length, Phase.state c v' .answering, rfl, ?_⟩
      simp only [LockStep.step, Phase.state, hpos, hlen, List.take_length, List.drop_length, hv,
        Nat.le_refl, and_self, if_true, Option.map_some]
  | answering =>
    obtain ⟨r, hr⟩ := hJ.answer c v hp
    refine iff_of_true ⟨.answer, Phase.state c r.2 (.answered r.1), trivial, ?_⟩ hJ.nothing
    simp only [LockStep.step, Phase.state, hr, if_true, Option.map_some, List.nil_append]
  | answered m =>
    obtain ⟨hlen, c', hc⟩ := hJ.hearAnswer c v m hp
    have hpos : 0 < m.length := List.length_pos_iff.mpr (by simpa [Live, Phase.state] using hlive)
    refine iff_of_true ⟨.hearAnswer m.length, Phase.state c' v .asking, rfl, ?_⟩ hJ.nothing
    simp only [LockStep.step, Phase.state, hpos, hlen, List.take_length, List.drop_length, hc,
      Nat.le_refl, and_self, if_true, Option.map_some]

end Turns

end NetworkProgramming.LockStep

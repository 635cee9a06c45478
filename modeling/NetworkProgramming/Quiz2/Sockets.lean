import NetworkProgramming.Library.Transition
import NetworkProgramming.Quiz2.Server

/-!
# The sockets of the quiz 2 server

Service 2 closes the socket on which the services are selected. The loop comes
back to that socket when a chat ends.
-/
namespace NetworkProgramming.QuizSockets

open Transition UserInput QuizSelection QuizServer

def InServiceOne : Pc → Prop
  | .request | .reply | .listen | .accept | .fork => True
  | _ => False

def InServiceTwo : Pc → Prop
  | .socket | .bind | .chat | .answer => True
  | _ => False

/-- A further selection can be received, and `recvfrom` is only called on open sockets. -/
structure Serves (s : State) : Prop where
  ready : s.pc = .select ∨ InServiceOne s.pc → s.servOpen = true ∧ s.tcpOpen = true
  received : s.pc = .select ∨ s.pc = .request → s.servOpen = true
  chatted : s.pc = .chat → s.udpOpen = true

/-- The datagram does not end the chat. -/
def GoesOn (s : State) : Label → Prop
  | .chat d => s.pc = .chat → isQuit (receivedText d.data) = false
  | _ => True

instance (s : State) : ∀ a : Label, Decidable (GoesOn s a)
  | .chat d => inferInstanceAs (Decidable (s.pc = .chat → isQuit (receivedText d.data) = false))
  | .receive | .reply | .listen _ | .accept _ | .fork _ | .socket _ | .bind _ | .answer _ =>
    inferInstanceAs (Decidable True)

/-- Which sockets are open inside the two services, good or bad run. -/
structure Sockets (s : State) : Prop where
  tcp : s.tcpOpen = true
  serv : InServiceTwo s.pc → s.servOpen = false
  udp : s.pc = .bind ∨ s.pc = .chat ∨ s.pc = .answer → s.udpOpen = true

theorem sockets_start (inbox : List Datagram) : Sockets (start inbox) :=
  ⟨rfl, fun h => h.elim, by simp [start]⟩

/-- Outside the return from the chat the open sockets stay what `Serves` asks for. -/
theorem Sockets.serves {s : State} (h : Sockets s)
    (hserv : s.pc = .select ∨ InServiceOne s.pc → s.servOpen = true) : Serves s where
  ready := fun hp => ⟨hserv hp, h.tcp⟩
  received := by
    rintro (hp | hp)
    · exact hserv (.inl hp)
    · exact hserv (.inr (by simp [hp, InServiceOne]))
  chatted := fun hp => h.udp (.inr (.inl hp))

theorem sockets_step {port : Nat} {s t : State} {a : Label} (h : Sockets s)
    (hm : Move port s a t) : Sockets t := by
  cases hm with
  | select d inbox pc _ _ =>
    unfold selected
    split
    next => exact ⟨h.tcp, fun hp => hp.elim, by simp⟩
    next => exact ⟨h.tcp, fun _ => rfl, by simp⟩
    next => exact ⟨h.tcp, fun hp => by simp [pc, InServiceTwo] at hp, by simp [pc]⟩
  | selectClosed pc _ => exact ⟨h.tcp, h.serv, by simp [pc]⟩
  | request => exact ⟨h.tcp, fun hp => hp.elim, by simp⟩
  | reply => exact ⟨h.tcp, fun hp => hp.elim, by simp⟩
  | listen ok | accept ok => cases ok <;> exact ⟨h.tcp, fun hp => hp.elim, by simp⟩
  | fork => exact ⟨h.tcp, fun hp => hp.elim, by simp⟩
  | socket ok pc =>
    cases ok with
    | false => exact ⟨h.tcp, fun hp => hp.elim, by simp⟩
    | true => exact ⟨h.tcp, fun _ => h.serv (by simp [pc, InServiceTwo]), fun _ => rfl⟩
  | bind ok pc =>
    cases ok with
    | false => exact ⟨h.tcp, fun hp => hp.elim, by simp⟩
    | true =>
      exact ⟨h.tcp, fun _ => h.serv (by simp [pc, InServiceTwo]), fun _ => h.udp (.inl pc)⟩
  | chat d pc =>
    unfold chatStep
    split
    next => exact ⟨h.tcp, fun hp => hp.elim, by simp⟩
    next =>
      exact ⟨h.tcp, fun _ => h.serv (by simp [pc, InServiceTwo]),
        fun _ => h.udp (.inr (.inl pc))⟩
  | answer line pc =>
    exact ⟨h.tcp, fun _ => h.serv (by simp [pc, InServiceTwo]), fun _ => h.udp (.inr (.inr pc))⟩

/-- A step leads out of the property exactly when it ends a chat. -/
theorem serves_step {port : Nat} {s t : State} {a : Label} (h : Sockets s) (hserves : Serves s)
    (hm : Move port s a t) : Serves t ↔ GoesOn s a := by
  have ht := sockets_step h hm
  have hopen : s.pc = .select ∨ InServiceOne s.pc → s.servOpen = true :=
    fun hp => (hserves.ready hp).1
  cases hm with
  | select d inbox pc isOpen _ =>
    refine iff_of_true (ht.serves ?_) trivial
    unfold selected
    split
    next => exact fun _ => isOpen
    next => rintro (hp | hp) <;> simp [InServiceOne] at hp
    next => exact fun _ => isOpen
  | selectClosed pc closed =>
    have hs := hopen (.inl pc)
    rw [closed] at hs
    cases hs
  | request _ _ pc _ | reply pc | listen _ pc | accept _ pc | fork _ pc =>
    exact iff_of_true (ht.serves fun _ => hopen (.inr (by simp [pc, InServiceOne]))) trivial
  | socket ok | bind ok =>
    refine iff_of_true (ht.serves ?_) trivial
    cases ok <;> simp [InServiceOne]
  | answer => exact iff_of_true (ht.serves (by simp [InServiceOne])) trivial
  | chat d pc =>
    have hclosed := h.serv (by simp [pc, InServiceTwo])
    simp only [GoesOn, pc, true_implies]
    unfold chatStep at ht ⊢
    split
    next hquit =>
      -- back at the head of the loop, with `serv_sock` closed
      refine iff_of_false (fun hs => ?_) (by simp [hquit])
      have hs' := (hs.ready (.inl rfl)).1
      simp [hclosed] at hs'
    next hquit =>
      rw [if_neg hquit] at ht
      exact iff_of_true (ht.serves (by simp [InServiceOne])) (by simpa using hquit)

theorem step_none {port : Nat} (s : State) (a : Label) (hs : step port s a = none) :
    GoesOn s a := by
  cases a with
  | chat d =>
    intro hpc
    simp [step, hpc] at hs
  | _ => trivial

/-- The server stays able to serve in every state of a run if and only if no chat is
ended by `q` or `Q`. -/
theorem serves_throughout_iff (port : Nat) (inbox : List Datagram) (as : List Label) :
    Throughout (step port) Serves (start inbox) as ↔ Along (step port) GoesOn (start inbox) as :=
  throughout_iff_along
    (fun _ _ _ h hs ht => ⟨sockets_step h (step_move ht), serves_step h hs (step_move ht)⟩)
    step_none (sockets_start inbox) ((sockets_start inbox).serves fun _ => rfl)

/-- A chat that ends leaves the server at its closed socket. -/
theorem chat_ends_service :
    ¬ ∀ port inbox as, Throughout (step port) Serves (start inbox) as := by
  intro h
  have hs := (h 9190 [⟨1, [50, 10]⟩]
    [.receive, .socket true, .bind true, .chat ⟨1, [113, 10]⟩]).last rfl
  exact absurd (hs.ready (.inl rfl)).1 (by decide)

end NetworkProgramming.QuizSockets

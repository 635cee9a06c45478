import Mathlib.Logic.Function.Basic
import NetworkProgramming.Library.Datagram
import NetworkProgramming.Library.Progress

/-!
# One server and many clients that wait for its replies

A client sends a request and waits, the server takes one request after the
other, and the network keeps no order. What the server has answered is a run of
the server alone, and each client sees its own part of it.
-/
namespace NetworkProgramming.RequestReply

open Datagram Transition

variable {ι γ σ α β : Type*}

/-- What a client does next; behind its last request it does not wait. -/
inductive Ask (α : Type*) where
  | leave
  | last (request : α)
  | send (request : α)

inductive Pc where
  | ready
  | waiting
  | left
  deriving DecidableEq, Repr

def Ask.pc : Ask α → Pc
  | .leave | .last _ => .left
  | .send _ => .waiting

def Ask.request : Ask α → Option α
  | .leave => none
  | .last r | .send r => some r

/-- What the programs compute. A client without a result does not go on; a server without one
ends. -/
structure Programs (γ σ α β : Type*) where
  ask : γ → Option (Ask α × γ)
  take : γ → β → Option γ
  serve : σ → α → Option (β × σ)

structure Client (γ α β : Type*) where
  pc : Pc
  memory : γ
  /-- History: the requests it has sent. -/
  asked : List α
  /-- History: the replies it has received. -/
  got : List β

inductive ServerPc (ι α : Type*) where
  | idle
  | serving (client : ι) (request : α)
  | ended (client : ι) (request : α)

/-- A request that the server has answered. -/
structure Entry (ι α β : Type*) where
  client : ι
  request : α
  reply : β

structure State (ι γ σ α β : Type*) where
  clients : ι → Client γ α β
  server : ServerPc ι α
  memory : σ
  /-- Under way, with the addresses of their senders. -/
  toServer : Multiset (ι × α)
  /-- Under way, with the addresses of their receivers. -/
  toClients : Multiset (ι × β)
  /-- History: what the server has answered. -/
  log : List (Entry ι α β)

def start (memories : ι → γ) (memory : σ) : State ι γ σ α β where
  clients i := ⟨.ready, memories i, [], []⟩
  server := .idle
  memory := memory
  toServer := 0
  toClients := 0
  log := []

inductive Label (ι α β : Type*) where
  | ask (i : ι)
  | receive (d : ι × α)
  | reply
  | take (d : ι × β)

def Client.ask (c : Client γ α β) (a : Ask α) (memory : γ) : Client γ α β :=
  { c with pc := a.pc, memory := memory, asked := c.asked ++ a.request.toList }

/-- The request of a client goes under way. -/
def post (i : ι) (net : Multiset (ι × α)) : Option α → Multiset (ι × α)
  | none => net
  | some r => (i, r) ::ₘ net

def Client.take (c : Client γ α β) (reply : β) (memory : γ) : Client γ α β :=
  { c with pc := .ready, memory := memory, got := c.got ++ [reply] }

/-- The server alone, on requests that come one by one. -/
def serial [DecidableEq β] (P : Programs γ σ α β) (v : σ) (e : Entry ι α β) : Option σ :=
  (P.serve v e.request).bind fun r => if r.1 = e.reply then some r.2 else none

section Log
variable [DecidableEq ι] {i a : ι}

/-- The requests of this client that were answered, in order. -/
def requests (i : ι) (log : List (Entry ι α β)) : List α :=
  (log.filter fun e => e.client = i).map Entry.request

/-- The replies to this client, in order. -/
def replies (i : ι) (log : List (Entry ι α β)) : List β :=
  (log.filter fun e => e.client = i).map Entry.reply

@[simp] theorem requests_append_self (log : List (Entry ι α β)) (r : α) (b : β) :
    requests i (log ++ [⟨i, r, b⟩]) = requests i log ++ [r] := by
  simp [requests]

@[simp] theorem requests_append_other (log : List (Entry ι α β)) (h : a ≠ i) (r : α) (b : β) :
    requests i (log ++ [⟨a, r, b⟩]) = requests i log := by
  simp [requests, h]

@[simp] theorem replies_append_self (log : List (Entry ι α β)) (r : α) (b : β) :
    replies i (log ++ [⟨i, r, b⟩]) = replies i log ++ [b] := by
  simp [replies]

@[simp] theorem replies_append_other (log : List (Entry ι α β)) (h : a ≠ i) (r : α) (b : β) :
    replies i (log ++ [⟨a, r, b⟩]) = replies i log := by
  simp [replies, h]

/-- What the server has taken from this client without having answered it. -/
def State.held (s : State ι γ σ α β) (i : ι) : Multiset α :=
  match s.server with
  | .idle => 0
  | .serving a r | .ended a r => if a = i then {r} else 0

/-- The requests of this client that are open. -/
def State.out (s : State ι γ σ α β) (i : ι) : Multiset α := s.held i + addressed i s.toServer

end Log

/-- A client's histories against its part of the log, its open requests and the replies on
their way to it. -/
inductive Stage (asked : List α) (got : List β) (asks : List α) (gets : List β) :
    Multiset α → Multiset β → Prop where
  | rest (asks_eq : asked = asks) (gets_eq : got = gets) : Stage asked got asks gets 0 0
  | asked (r) (asks_eq : asked = asks ++ [r]) (gets_eq : got = gets) :
      Stage asked got asks gets {r} 0
  | answered (b) (asks_eq : asked = asks) (gets_eq : gets = got ++ [b]) :
      Stage asked got asks gets 0 {b}

structure Client.Books (c : Client γ α β) (asks : List α) (gets : List β) (out : Multiset α)
    (back : Multiset β) : Prop where
  stage : Stage c.asked c.got asks gets out back
  ready : c.pc = .ready → out = 0 ∧ back = 0
  waiting : c.pc = .waiting → out ≠ 0 ∨ back ≠ 0

section Books
variable {c : Client γ α β} {asks : List α} {gets : List β} {out : Multiset α} {back : Multiset β}

theorem Client.Books.rest (h : c.Books asks gets out back) (pc : c.pc = .ready) :
    c.asked = asks ∧ c.got = gets := by
  obtain ⟨hout, hback⟩ := h.ready pc
  cases h.stage with
  | rest hasks hgets => exact ⟨hasks, hgets⟩
  | asked r => simp at hout
  | answered b => simp at hback

theorem Client.Books.ask (h : c.Books asks gets out back) (pc : c.pc = .ready) (a : Ask α)
    (memory : γ) : (c.ask a memory).Books asks gets (a.request.elim out (· ::ₘ out)) back := by
  obtain ⟨hasks, hgets⟩ := h.rest pc
  obtain ⟨rfl, rfl⟩ := h.ready pc
  cases a with
  | leave =>
    refine ⟨.rest ?_ hgets, by simp [Client.ask, Ask.pc], by simp [Client.ask, Ask.pc]⟩
    simp [Client.ask, Ask.request, hasks]
  | last r | send r =>
    refine ⟨.asked r ?_ hgets, by simp [Client.ask, Ask.pc], by simp [Ask.request]⟩
    simp [Client.ask, Ask.request, hasks]

/-- The request that is answered is the only open one. -/
theorem Client.Books.reply {r : α} (h : c.Books asks gets (r ::ₘ out) back) (b : β) :
    c.Books (asks ++ [r]) (gets ++ [b]) out (b ::ₘ back) := by
  have hready : c.pc ≠ .ready := fun pc => Multiset.cons_ne_zero (h.ready pc).1
  generalize hopen : r ::ₘ out = opened at h
  cases h.stage with
  | rest => exact absurd hopen Multiset.cons_ne_zero
  | asked r' hasks hgets =>
    obtain ⟨rfl, rfl⟩ := (Multiset.singleton_eq_cons_iff _).mp hopen.symm
    exact ⟨.answered b hasks (by rw [hgets]), fun pc => absurd pc hready, fun _ => .inr (by simp)⟩
  | answered => exact absurd hopen Multiset.cons_ne_zero

theorem Client.Books.take {b : β} (h : c.Books asks gets out (b ::ₘ back)) (memory : γ) :
    (c.take b memory).Books asks gets out back := by
  generalize hback : b ::ₘ back = coming at h
  cases h.stage with
  | rest => exact absurd hback Multiset.cons_ne_zero
  | asked => exact absurd hback Multiset.cons_ne_zero
  | answered b' hasks hgets =>
    obtain ⟨rfl, rfl⟩ := (Multiset.singleton_eq_cons_iff _).mp hback.symm
    exact ⟨.rest hasks hgets.symm, fun _ => ⟨rfl, rfl⟩, by simp [Client.take]⟩

end Books

section Step
variable [DecidableEq ι] [DecidableEq α] [DecidableEq β]

def State.set (s : State ι γ σ α β) (i : ι) (c : Client γ α β) : State ι γ σ α β :=
  { s with clients := Function.update s.clients i c }

def step (P : Programs γ σ α β) (s : State ι γ σ α β) : Label ι α β → Option (State ι γ σ α β)
  | .ask i =>
    if (s.clients i).pc = .ready then
      (P.ask (s.clients i).memory).map fun r =>
        { s.set i ((s.clients i).ask r.1 r.2) with toServer := post i s.toServer r.1.request }
    else none
  | .receive d =>
    match s.server with
    | .idle =>
      if d ∈ s.toServer then
        some { s with server := .serving d.1 d.2, toServer := s.toServer.erase d }
      else none
    | .serving .. | .ended .. => none
  | .reply =>
    match s.server with
    | .serving i r =>
      match P.serve s.memory r with
      | none => some { s with server := .ended i r }
      | some (b, memory) =>
        some { s with
          server := .idle, memory := memory
          toClients := (i, b) ::ₘ s.toClients
          log := s.log ++ [⟨i, r, b⟩] }
    | .idle | .ended .. => none
  | .take d =>
    if (s.clients d.1).pc = .waiting ∧ d ∈ s.toClients then
      (P.take (s.clients d.1).memory d.2).map fun memory =>
        { s.set d.1 ((s.clients d.1).take d.2 memory) with toClients := s.toClients.erase d }
    else none

/-- What a step can do. -/
inductive Move (P : Programs γ σ α β) (s : State ι γ σ α β) :
    Label ι α β → State ι γ σ α β → Prop where
  | ask (i a memory) (pc : (s.clients i).pc = .ready)
      (hask : P.ask (s.clients i).memory = some (a, memory)) :
      Move P s (.ask i)
        { s.set i ((s.clients i).ask a memory) with toServer := post i s.toServer a.request }
  | receive (i r net) (server : s.server = .idle) (toServer : s.toServer = (i, r) ::ₘ net) :
      Move P s (.receive (i, r)) { s with server := .serving i r, toServer := net }
  | endServer (i r) (server : s.server = .serving i r) (hserve : P.serve s.memory r = none) :
      Move P s .reply { s with server := .ended i r }
  | reply (i r b memory) (server : s.server = .serving i r)
      (hserve : P.serve s.memory r = some (b, memory)) :
      Move P s .reply
        { s with
          server := .idle, memory := memory
          toClients := (i, b) ::ₘ s.toClients
          log := s.log ++ [⟨i, r, b⟩] }
  | take (i b memory net) (pc : (s.clients i).pc = .waiting)
      (toClients : s.toClients = (i, b) ::ₘ net)
      (htake : P.take (s.clients i).memory b = some memory) :
      Move P s (.take (i, b))
        { s.set i ((s.clients i).take b memory) with toClients := net }

theorem move_of_step {P : Programs γ σ α β} {s t : State ι γ σ α β} {a : Label ι α β}
    (h : step P s a = some t) : Move P s a t := by
  cases a with
  | ask i =>
    obtain ⟨pc, h⟩ := Option.ite_none_right_eq_some.mp h
    obtain ⟨⟨a, memory⟩, hask, rfl⟩ := Option.map_eq_some_iff.mp h
    exact .ask i a memory pc hask
  | receive d =>
    cases server : s.server with
    | idle =>
      simp only [step, server] at h
      obtain ⟨hmem, h⟩ := Option.ite_none_right_eq_some.mp h
      obtain ⟨net, hnet⟩ := Multiset.exists_cons_of_mem hmem
      rw [hnet, Multiset.erase_cons_head] at h
      exact Option.some.inj h ▸ .receive d.1 d.2 net server hnet
    | serving i r => simp [step, server] at h
    | ended i r => simp [step, server] at h
  | reply =>
    cases server : s.server with
    | idle => simp [step, server] at h
    | serving i r =>
      simp only [step, server] at h
      split at h
      next hserve => exact Option.some.inj h ▸ .endServer i r server hserve
      next b memory hserve => exact Option.some.inj h ▸ .reply i r b memory server hserve
    | ended i r => simp [step, server] at h
  | take d =>
    obtain ⟨⟨pc, hmem⟩, h⟩ := Option.ite_none_right_eq_some.mp h
    obtain ⟨memory, htake, rfl⟩ := Option.map_eq_some_iff.mp h
    obtain ⟨net, hnet⟩ := Multiset.exists_cons_of_mem hmem
    rw [hnet, Multiset.erase_cons_head]
    exact .take d.1 d.2 memory net pc hnet htake

section Out
variable {s : State ι γ σ α β} {i : ι} {r : α}

omit [DecidableEq α] [DecidableEq β]

/-- What the server takes off the network stays open. -/
theorem out_receive {net : Multiset (ι × α)} (server : s.server = .idle)
    (toServer : s.toServer = (i, r) ::ₘ net) (j : ι) :
    State.out { s with server := .serving i r, toServer := net } j = s.out j := by
  by_cases hij : i = j
  · subst hij
    simp [State.out, State.held, server, toServer]
  · simp [State.out, State.held, server, toServer, hij]

/-- What is answered is open no more. -/
theorem out_reply (server : s.server = .serving i r) (memory : σ) (toClients : Multiset (ι × β))
    (log : List (Entry ι α β)) (j : ι) :
    s.out j = (if i = j then {r} else 0) +
      State.out ⟨s.clients, .idle, memory, s.toServer, toClients, log⟩ j := by
  simp [State.out, State.held, server]

theorem addressed_post_self (net : Multiset (ι × α)) (request : Option α) :
    addressed i (post i net request) = request.elim (addressed i net) (· ::ₘ addressed i net) := by
  cases request with
  | none => rfl
  | some r => exact addressed_cons_self

theorem addressed_post_other {j : ι} (h : j ≠ i) (net : Multiset (ι × α)) (request : Option α) :
    addressed j (post i net request) = addressed j net := by
  cases request with
  | none => rfl
  | some r => exact addressed_cons_of_ne (Ne.symm h)

theorem mem_addressed_post {j : ι} {net : Multiset (ι × α)} {request : Option α}
    (h : r ∈ addressed j (post i net request)) : r ∈ addressed j net ∨ r ∈ request := by
  cases request with
  | none => exact .inl h
  | some r' =>
    rcases Multiset.mem_cons.mp (mem_addressed.mp h) with heq | hmem
    · cases heq
      exact .inr rfl
    · exact .inl (mem_addressed.mpr hmem)

end Out

/-- The log is a run of the server alone, and each client's histories are its part of the log. -/
structure Linear (P : Programs γ σ α β) (v : σ) (s : State ι γ σ α β) : Prop where
  serial : run (serial P) v s.log = some s.memory
  books : ∀ i, (s.clients i).Books (requests i s.log) (replies i s.log) (s.out i)
    (addressed i s.toClients)

variable {P : Programs γ σ α β} {v : σ} {s t : State ι γ σ α β}

omit [DecidableEq α] in
/-- The books of one client change. -/
theorem Linear.set (h : Linear P v s) {i : ι} {c : Client γ α β} {toServer : Multiset (ι × α)}
    {toClients : Multiset (ι × β)}
    (hbooks : c.Books (requests i s.log) (replies i s.log)
      (s.held i + addressed i toServer) (addressed i toClients))
    (hothers : ∀ j, j ≠ i → addressed j toServer = addressed j s.toServer ∧
      addressed j toClients = addressed j s.toClients) :
    Linear P v { s.set i c with toServer := toServer, toClients := toClients } where
  serial := h.serial
  books := by
    refine (Function.forall_update_iff s.clients fun j c =>
      c.Books (requests j s.log) (replies j s.log) (s.held j + addressed j toServer)
        (addressed j toClients)).mpr ⟨hbooks, fun j hj => ?_⟩
    rw [(hothers j hj).1, (hothers j hj).2]
    exact h.books j

theorem Linear.step {a : Label ι α β} (h : Linear P v s)
    (hstep : RequestReply.step P s a = some t) : Linear P v t := by
  cases move_of_step hstep with
  | ask i a memory pc hask =>
    refine h.set ?_ fun j hj => ⟨addressed_post_other hj .., rfl⟩
    have hi := (h.books i).ask pc a memory
    rw [addressed_post_self]
    cases hr : a.request with
    | none =>
      rw [hr] at hi
      exact hi
    | some r =>
      rw [hr] at hi
      rw [Option.elim_some, Multiset.add_cons]
      exact hi
  | receive i r net server toServer =>
    refine ⟨h.serial, fun j => ?_⟩
    rw [out_receive server toServer]
    exact h.books j
  | endServer i r server hserve =>
    refine ⟨h.serial, fun j => ?_⟩
    have hj := h.books j
    simpa only [State.out, State.held, server] using hj
  | reply i r b memory server hserve =>
    refine ⟨run_append_some.mpr ⟨_, h.serial, ?_⟩, fun j => ?_⟩
    · simp [run, RequestReply.serial, hserve]
    · have hj := h.books j
      rw [out_reply server memory ((i, b) ::ₘ s.toClients) (s.log ++ [⟨i, r, b⟩])] at hj
      by_cases hij : i = j
      · subst hij
        rw [if_pos rfl, Multiset.singleton_add] at hj
        rw [requests_append_self, replies_append_self, addressed_cons_self]
        exact hj.reply b
      · rw [if_neg hij, Multiset.zero_add] at hj
        rw [requests_append_other _ hij, replies_append_other _ hij, addressed_cons_of_ne hij]
        exact hj
  | take i b memory net pc toClients =>
    refine h.set ?_ fun j hj => ⟨rfl, ?_⟩
    · have hi := h.books i
      rw [toClients, addressed_cons_self] at hi
      exact hi.take memory
    · rw [toClients, addressed_cons_of_ne (Ne.symm hj)]

/-- What a client's program keeps, by the place it is at and its histories, what every request
and every reply is like, and what the server's program keeps. -/
structure Contract (P : Programs γ σ α β) (client : ι → Pc → List α → List β → γ → Prop)
    (sound : α → Prop) (fits : β → Prop) (server : List (Entry ι α β) → σ → Prop) : Prop where
  ask : ∀ {i asked got c a c'}, client i .ready asked got c → P.ask c = some (a, c') →
    client i a.pc (asked ++ a.request.toList) got c' ∧ ∀ r ∈ a.request, sound r
  take : ∀ {i asked got c b}, client i .waiting asked got c → fits b →
    ∃ c', P.take c b = some c' ∧ client i .ready asked (got ++ [b]) c'
  serve : ∀ {log v i r b v'}, server log v → sound r → P.serve v r = some (b, v') →
    server (log ++ [⟨i, r, b⟩]) v' ∧ fits b

section Contract
variable {client : ι → Pc → List α → List β → γ → Prop} {sound : α → Prop} {fits : β → Prop}
  {server : List (Entry ι α β) → σ → Prop}

structure Kept (P : Programs γ σ α β) (client : ι → Pc → List α → List β → γ → Prop)
    (sound : α → Prop) (fits : β → Prop) (server : List (Entry ι α β) → σ → Prop)
    (s : State ι γ σ α β) : Prop where
  clients : ∀ i, client i (s.clients i).pc (s.clients i).asked (s.clients i).got
    (s.clients i).memory
  server : server s.log s.memory
  sound : ∀ i, ∀ r ∈ s.out i, sound r
  fits : ∀ i, ∀ b ∈ addressed i s.toClients, fits b
  ended : ∀ i r, s.server = .ended i r → P.serve s.memory r = none

omit [DecidableEq α] [DecidableEq β] in
theorem Kept.set (h : Kept P client sound fits server s) {i : ι} {c : Client γ α β}
    (hc : client i c.pc c.asked c.got c.memory) (j : ι) :
    client j (Function.update s.clients i c j).pc (Function.update s.clients i c j).asked
      (Function.update s.clients i c j).got (Function.update s.clients i c j).memory :=
  (Function.forall_update_iff s.clients fun j c => client j c.pc c.asked c.got c.memory).mpr
    ⟨hc, fun j _ => h.clients j⟩ j

theorem Kept.step {a : Label ι α β} (hP : Contract P client sound fits server)
    (h : Kept P client sound fits server s)
    (hstep : RequestReply.step P s a = some t) : Kept P client sound fits server t := by
  cases move_of_step hstep with
  | ask i a memory pc hask =>
    obtain ⟨hclient, hsound⟩ := hP.ask (pc ▸ h.clients i) hask
    refine ⟨h.set hclient, h.server, fun j r hr => ?_, h.fits, h.ended⟩
    rcases Multiset.mem_add.mp hr with hheld | hnet
    · exact h.sound j r (Multiset.mem_add.mpr (.inl hheld))
    · rcases mem_addressed_post hnet with hmem | hmem
      · exact h.sound j r (Multiset.mem_add.mpr (.inr hmem))
      · exact hsound r hmem
  | receive i r net server toServer =>
    refine ⟨h.clients, h.server, fun j r hr => ?_, h.fits, by simp⟩
    rw [out_receive server toServer] at hr
    exact h.sound j r hr
  | endServer i r server hserve =>
    refine ⟨h.clients, h.server, fun j r hr => ?_, h.fits, ?_⟩
    · refine h.sound j r ?_
      simpa only [State.out, State.held, server] using hr
    · rintro _ _ ⟨⟩
      exact hserve
  | reply i r b memory server hserve =>
    have hout := out_reply server memory ((i, b) ::ₘ s.toClients) (s.log ++ [⟨i, r, b⟩])
    obtain ⟨hserver, hfits⟩ := hP.serve h.server (h.sound i r (by simp [hout])) hserve
    refine ⟨h.clients, hserver, fun j r hr => h.sound j r ?_, fun j b' hb => ?_, by simp⟩
    · rw [hout j]
      exact Multiset.mem_add.mpr (.inr hr)
    · rcases Multiset.mem_cons.mp (mem_addressed.mp hb) with heq | hmem
      · cases heq
        exact hfits
      · exact h.fits j b' (mem_addressed.mpr hmem)
  | take i b memory net pc toClients htake =>
    have hb : b ∈ addressed i s.toClients := by simp [toClients]
    obtain ⟨memory', htake', hclient⟩ := hP.take (pc ▸ h.clients i) (h.fits i b hb)
    obtain rfl := Option.some.inj (htake.symm.trans htake')
    refine ⟨h.set hclient, h.server, h.sound, fun j b' hb' => h.fits j b' ?_, h.ended⟩
    rw [mem_addressed, toClients]
    exact Multiset.mem_cons_of_mem (mem_addressed.mp hb')

/-- The steps without a new request. -/
def Unprompted (_ : State ι γ σ α β) : Label ι α β → Prop
  | .ask _ => False
  | .receive _ | .reply | .take _ => True

/-- Nobody waits. -/
structure Settled (s : State ι γ σ α β) : Prop where
  server : s.server = .idle
  toServer : s.toServer = 0
  clients : ∀ i, (s.clients i).pc ≠ .waiting

/-- Three steps for each request on its way to the server. -/
def left (s : State ι γ σ α β) : Nat :=
  3 * s.toServer.card + s.toClients.card +
    match s.server with
    | .idle | .ended .. => 0
    | .serving .. => 2

theorem left_step {a : Label ι α β} (ha : Unprompted s a) (hstep : step P s a = some t) :
    left t < left s := by
  cases move_of_step hstep with
  | ask i a memory pc hask => exact ha.elim
  | receive i r net server toServer =>
    simp only [left, server, toServer, Multiset.card_cons]
    omega
  | endServer i r server hserve =>
    simp only [left, server]
    omega
  | reply i r b memory server hserve =>
    simp only [left, server, Multiset.card_cons]
    omega
  | take i b memory net pc toClients =>
    simp only [left, State.set, toClients, Multiset.card_cons]
    omega

/-- A client that waits takes what comes. -/
theorem Kept.coming (hP : Contract P client sound fits server)
    (h : Kept P client sound fits server s) (hstuck : Stuck (RequestReply.step P) Unprompted s)
    {i : ι} (pc : (s.clients i).pc = .waiting) : addressed i s.toClients = 0 := by
  refine Multiset.eq_zero_of_forall_notMem fun b hb => ?_
  obtain ⟨memory, htake, -⟩ := hP.take (pc ▸ h.clients i) (h.fits i b hb)
  have hnone := hstuck (.take (i, b)) trivial
  simp [RequestReply.step, pc, mem_addressed.mp hb, htake] at hnone

end Contract

end Step

end NetworkProgramming.RequestReply

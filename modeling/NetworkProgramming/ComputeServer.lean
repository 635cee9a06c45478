import NetworkProgramming.Calculator
import NetworkProgramming.Library.Transition

/-!
# The single-process calculator server

One client after the other sends a whole `MSG` or closes its connection. The
server answers, but it never closes a connection itself, and a division by zero
ends it for everybody.
-/
namespace NetworkProgramming.ComputeServer

open Buffer Transition Calculator

/-- The system's side: how many descriptors may be open, and which one `accept` takes. -/
structure Kernel where
  limit : Nat
  fresh : List Nat → Nat
  fresh_notMem : ∀ opened, fresh opened ∉ opened

/-- The server at `accept`. -/
structure State where
  opened : List Nat
  /-- History: the answers sent, one a session. -/
  answers : List (BitVec 32)

def start (serSock : Nat) : State := ⟨[serSock], []⟩

/-- `accept` fails only when the limit is reached. -/
def accept (kernel : Kernel) (opened : List Nat) : Option Nat :=
  if opened.length < kernel.limit then some (kernel.fresh opened) else none

/-- `cli_msg` after `memset` and `recv`; a client that sends nothing leaves it cleared. -/
def cliMsg (client : Option MSG) : MSG :=
  MSG.ofBytes <| match client with
    | some m => readInto (List.replicate 10 0) m.bytes
    | none => List.replicate 10 0

/-- A round of the loop with the next client; `none` is the end of the process, by
`exit(1)` after `accept` or by the trap of a division. -/
def step (kernel : Kernel) (s : State) (client : Option MSG) : Option State :=
  (accept kernel s.opened).bind fun accept_no =>
    (calculate (cliMsg client)).map fun sum => ⟨accept_no :: s.opened, s.answers ++ [sum]⟩

/-- What a session's answer should be; the record of a client that sends nothing has an
unknown operator. -/
def exactAnswer : Option MSG → Int
  | some m => exactResult m
  | none => 0

/-- All sessions are answered, exactly and in order. -/
def Answered (kernel : Kernel) (serSock : Nat) (clients : List (Option MSG)) : Prop :=
  ∃ t, run (step kernel) (start serSock) clients = some t ∧
    t.answers.map BitVec.toInt = clients.map exactAnswer

/-- All sessions are answered, and the server comes back to `accept` with nothing but its
listening socket. -/
def Serves (kernel : Kernel) (serSock : Nat) (clients : List (Option MSG)) : Prop :=
  Answered kernel serSock clients ∧
    Throughout (step kernel) (fun s => s.opened = [serSock]) (start serSock) clients

@[simp] theorem cliMsg_some (m : MSG) : cliMsg (some m) = m := by
  have h : readInto (List.replicate 10 0) m.bytes = m.bytes := readInto_full _ _ (by simp)
  rw [cliMsg]
  simp only [h, ofBytes_bytes]

/-- A session that does not divide by zero gets its exact answer, if the server can accept
it at all. -/
theorem calculate_cliMsg {client : Option MSG} (h : ∀ m ∈ client, ¬ m.DividesByZero) :
    ∃ sum, calculate (cliMsg client) = some sum ∧ sum.toInt = exactAnswer client := by
  cases client with
  | none => exact ⟨0, rfl, rfl⟩
  | some m =>
    obtain ⟨sum, hsum, hexact⟩ := calculate_exact m (h m rfl)
    exact ⟨sum, by rw [cliMsg_some, hsum], hexact⟩

/-- A round needs one more descriptor and a defined result. -/
theorem step_isSome_iff (kernel : Kernel) (s : State) (client : Option MSG) :
    (∃ t, step kernel s client = some t) ↔
      s.opened.length < kernel.limit ∧ ∀ m ∈ client, ¬ m.DividesByZero := by
  constructor
  · rintro ⟨t, ht⟩
    obtain ⟨fd, haccept, ht⟩ := Option.bind_eq_some_iff.mp ht
    obtain ⟨hlimit, -⟩ := Option.ite_none_right_eq_some.mp haccept
    refine ⟨hlimit, ?_⟩
    rintro m rfl hdiv
    rw [cliMsg_some, calculate_none hdiv] at ht
    cases ht
  · rintro ⟨hlimit, hdiv⟩
    obtain ⟨sum, hsum, -⟩ := calculate_cliMsg hdiv
    exact ⟨_, by rw [step, accept, if_pos hlimit, Option.bind_some, hsum]; rfl⟩

/-- A round leaves one more descriptor open and has sent the exact answer. -/
theorem step_spec {kernel : Kernel} {s t : State} {client : Option MSG}
    (h : step kernel s client = some t) :
    t.opened.length = s.opened.length + 1 ∧
      t.answers.map BitVec.toInt = s.answers.map BitVec.toInt ++ [exactAnswer client] := by
  have hdiv := ((step_isSome_iff kernel s client).mp ⟨t, h⟩).2
  obtain ⟨fd, -, h⟩ := Option.bind_eq_some_iff.mp h
  obtain ⟨sum, hsum, rfl⟩ := Option.map_eq_some_iff.mp h
  obtain ⟨sum', hsum', hexact⟩ := calculate_cliMsg hdiv
  rw [hsum'] at hsum
  obtain rfl := Option.some.inj hsum
  exact ⟨rfl, by simp [hexact]⟩

/-- How far the sessions are answered depends on nothing but the descriptors left and the
divisions by zero. -/
theorem run_isSome_iff (kernel : Kernel) (s : State) (clients : List (Option MSG)) :
    (∃ t, run (step kernel) s clients = some t) ↔
      (clients = [] ∨ s.opened.length + clients.length ≤ kernel.limit) ∧
        ∀ m, some m ∈ clients → ¬ m.DividesByZero := by
  induction clients generalizing s with
  | nil => simp
  | cons client clients ih =>
    simp only [run_cons_some]
    constructor
    · rintro ⟨t, u, hu, ht⟩
      obtain ⟨hlimit, hdiv⟩ := (step_isSome_iff kernel s client).mp ⟨u, hu⟩
      obtain ⟨hlen, hrest⟩ := (ih u).mp ⟨t, ht⟩
      rw [(step_spec hu).1] at hlen
      refine ⟨.inr ?_, fun m hm => ?_⟩
      · rcases hlen with rfl | hlen
        · exact Nat.succ_le_of_lt hlimit
        · simp only [List.length_cons]
          omega
      · rcases List.mem_cons.mp hm with rfl | hm
        · exact hdiv m rfl
        · exact hrest m hm
    · rintro ⟨hlen, hdiv⟩
      have hle := hlen.resolve_left (by simp)
      simp only [List.length_cons] at hle
      obtain ⟨u, hu⟩ := (step_isSome_iff kernel s client).mpr
        ⟨by omega, by rintro m rfl; exact hdiv m (by simp)⟩
      obtain ⟨t, ht⟩ := (ih u).mpr
        ⟨.inr (by rw [(step_spec hu).1]; omega), fun m hm => hdiv m (by simp [hm])⟩
      exact ⟨t, u, hu, ht⟩

theorem run_answers {kernel : Kernel} {s t : State} {clients : List (Option MSG)}
    (h : run (step kernel) s clients = some t) :
    t.answers.map BitVec.toInt = s.answers.map BitVec.toInt ++ clients.map exactAnswer := by
  induction clients generalizing s with
  | nil =>
    cases h
    simp
  | cons client clients ih =>
    obtain ⟨u, hu, ht⟩ := run_cons_some.mp h
    rw [ih ht, (step_spec hu).2, List.append_assoc]
    rfl

/-- The server comes back to `accept` as it started only if there is no client at all. It
answers every client as long as the descriptors last and nobody divides by zero. -/
theorem serves_iff (kernel : Kernel) (serSock : Nat) (clients : List (Option MSG)) :
    (Serves kernel serSock clients ↔ clients = []) ∧
    (Answered kernel serSock clients ↔
      (clients = [] ∨ clients.length < kernel.limit) ∧
        ∀ m, some m ∈ clients → ¬ m.DividesByZero) := by
  constructor
  · constructor
    · rintro ⟨⟨t, ht, -⟩, hopened⟩
      cases clients with
      | nil => rfl
      | cons client clients =>
        obtain ⟨u, hu, -⟩ := run_cons_some.mp ht
        have hlen := (step_spec hu).1
        rw [(hopened.2 u hu).first] at hlen
        simp [start] at hlen
    · rintro rfl
      exact ⟨⟨start serSock, rfl, rfl⟩, rfl⟩
  · have hiff := run_isSome_iff kernel (start serSock) clients
    have hlen : 1 + clients.length ≤ kernel.limit ↔ clients.length < kernel.limit := by omega
    simp only [start, List.length_singleton, hlen] at hiff
    rw [← hiff]
    constructor
    · rintro ⟨t, ht, -⟩
      exact ⟨t, ht⟩
    · rintro ⟨t, ht⟩
      exact ⟨t, ht, by simpa [start] using run_answers ht⟩

theorem sum_succ_notMem (opened : List Nat) : opened.sum + 1 ∉ opened := by
  intro hm
  have := List.single_le_sum (by simp) _ hm
  omega

/-- A system with 1024 descriptors that takes a number above all open ones. -/
def linux : Kernel where
  limit := 1024
  fresh opened := opened.sum + 1
  fresh_notMem := sum_succ_notMem

/-- A single addition already leaves its connection open. -/
theorem connection_left_open : ¬ ∀ kernel serSock clients, Serves kernel serSock clients := by
  intro h
  obtain ⟨-, hopened⟩ := h linux 3 [some ⟨2, 3, 4, 0, 43, 0⟩]
  exact absurd (hopened.2 _ rfl).first (by decide)

end NetworkProgramming.ComputeServer

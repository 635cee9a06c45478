import NetworkProgramming.EchoLoop
import NetworkProgramming.SelectServer.Watched

/-!
# The select server refines independent echo loops

What the server does on one connection is a run of the forking server's loop,
whatever happens on the others, although all of them share one buffer.
-/
namespace NetworkProgramming.SelectRefinement

open Buffer Transition SelectLoop SelectWatched

/-- What a step does on the connection numbered `c`. -/
def stepEvents (c : Nat) (s : Server) : Label → List EchoLoop.Event
  | .read res =>
    match s.pc with
    | .read i =>
      if s.connection i = some c then
        match res with
        | .data chunk => [.read chunk]
        | .eof => [.eof]
        | .error => []
      else []
    | _ => []
  | .next =>
    match s.pc with
    | .received i strLen =>
      if s.connection i = some c then
        if strLen = 0 then [.close] else [.write (s.buf.take strLen.toNat)]
      else []
    | _ => []
  | _ => []

/-- The projection of a run on the connection. -/
def events (servSock : Nat) (buf : List Byte) (c : Nat) (as : List Label) :
    List EchoLoop.Event :=
  trace (step servSock) (stepEvents c) (start servSock buf) as

/-- The numbers of the open connections are those given, each on one descriptor. -/
structure Numbered (s : Server) : Prop where
  given : ∀ d c, s.connection d = some c → c < s.accepted
  distinct : ∀ d e c, s.connection d = some c → s.connection e = some c → d = e

theorem Numbered.accept {s : Server} (h : Numbered s) (pc : Pc) (fd : Int)
    (handled : List Int) :
    Numbered { s with
      pc := pc, handled := handled
      connection := Function.update s.connection fd (some s.accepted)
      accepted := s.accepted + 1 } where
  given := by
    intro d c hd
    by_cases hfd : d = fd
    · simp only [hfd, Function.update_self, Option.some.injEq] at hd
      simp only
      omega
    · simp only [Function.update_of_ne hfd] at hd
      have := h.given d c hd
      simp only
      omega
  distinct := by
    intro d e c hd he
    by_cases hdf : d = fd <;> by_cases hef : e = fd
    · rw [hdf, hef]
    · simp only [hdf, Function.update_self, Function.update_of_ne hef, Option.some.injEq] at hd he
      have := h.given e c he
      omega
    · simp only [hef, Function.update_self, Function.update_of_ne hdf, Option.some.injEq] at hd he
      have := h.given d c hd
      omega
    · simp only [Function.update_of_ne hdf, Function.update_of_ne hef] at hd he
      exact h.distinct d e c hd he

/-- Closing a descriptor takes its number away and leaves the others. -/
theorem connection_close {s : Server} {i d : Int} {c : Nat}
    (h : Function.update s.connection i none d = some c) : d ≠ i ∧ s.connection d = some c := by
  by_cases hd : d = i
  · simp [hd] at h
  · rw [Function.update_of_ne hd] at h
    exact ⟨hd, h⟩

theorem numbered_step {servSock : Nat} {s t : Server} {a : Label} (h : Numbered s)
    (hm : Move servSock s a t) : Numbered t := by
  cases hm with
  | accept i fd => exact h.accept _ fd _
  | close i =>
    constructor
    · intro d c hd
      exact h.given d c (connection_close hd).2
    · intro d e c hd he
      exact h.distinct d e c (connection_close hd).2 (connection_close he).2
  | _ => exact ⟨h.given, h.distinct⟩

/-- The state of the connection's own loop while the server is in state `s`: it
reads but for the time between the server's read on this connection and the
answer, and it is closed when its descriptor is. -/
inductive Sim (c : Nat) (s : Server) (e : EchoLoop.State) : Prop where
  | reading (loop : e.pc = .reading)
      (other : ∀ i n, s.pc = .received i n → s.connection i ≠ some c)
  | writing (i n : Int) (loop : e.pc = .writing n.toNat) (pc : s.pc = .received i n)
      (own : s.connection i = some c) (some : n ≠ 0)
      (same : e.buf.take n.toNat = s.buf.take n.toNat)
  | closing (i : Int) (loop : e.pc = .closing) (pc : s.pc = .received i 0)
      (own : s.connection i = some c)
  | closed (loop : e.pc = .closed) (given : c < s.accepted)
      (gone : ∀ d, s.connection d ≠ some c)

section Steps
variable {servSock c : Nat} {s t : Server} {e : EchoLoop.State}

/-- A step away from reads and their answers shows nothing of the connection. -/
theorem Sim.quiet (h : Sim c s e) (hpc : ∀ i n, s.pc ≠ .received i n)
    (hpc' : ∀ i n, t.pc ≠ .received i n) (haccepted : s.accepted ≤ t.accepted)
    (hopen : c < s.accepted → ∀ d, t.connection d = some c → s.connection d = some c) :
    Sim c t e := by
  cases h with
  | reading loop => exact .reading loop fun i n ht => absurd ht (hpc' i n)
  | writing i n _ pc => exact absurd pc (hpc i n)
  | closing i _ pc => exact absurd pc (hpc i 0)
  | closed loop given gone =>
    exact .closed loop (by omega) fun d hd => gone d (hopen given d hd)

/-- A read on another connection leaves this one's loop where it is. -/
theorem Sim.readOther (h : Sim c s e) {i n : Int} (hpc : s.pc = .read i)
    (hpc' : t.pc = .received i n) (hother : s.connection i ≠ some c)
    (haccepted : t.accepted = s.accepted) (hopen : t.connection = s.connection) :
    Sim c t e := by
  cases h with
  | reading loop =>
    refine .reading loop fun j m ht => ?_
    rw [hpc'] at ht
    cases ht
    rwa [hopen]
  | writing j m _ pc => simp [hpc] at pc
  | closing j _ pc => simp [hpc] at pc
  | closed loop given gone => exact .closed loop (haccepted ▸ given) (hopen ▸ gone)

/-- A read on this connection finds its loop reading. -/
theorem Sim.readOwn (h : Sim c s e) {i : Int} (hpc : s.pc = .read i)
    (hown : s.connection i = some c) : e.pc = .reading := by
  cases h with
  | reading loop => exact loop
  | writing j m _ pc => simp [hpc] at pc
  | closing j _ pc => simp [hpc] at pc
  | closed _ _ gone => exact absurd hown (gone i)

theorem Sim.data (h : Sim c s e) {i : Int} {chunk : List Byte} (hpc : s.pc = .read i)
    (hsome : 0 < chunk.length) (hfits : chunk.length ≤ SelectLoop.bufSize) :
    ∃ e', run EchoLoop.step e (stepEvents c s (.read (.data chunk))) = some e' ∧
      Sim c { s with
        pc := .received i chunk.length, handled := s.handled ++ [i]
        buf := readInto s.buf chunk } e' := by
  by_cases hown : s.connection i = some c
  · have hloop := h.readOwn hpc hown
    refine ⟨⟨.writing chunk.length, readInto e.buf chunk⟩, ?_, ?_⟩
    · have hfits' : chunk.length ≤ EchoLoop.bufSize := hfits
      simp [stepEvents, hpc, hown, run, EchoLoop.step, hloop, hsome, hfits']
    · refine .writing i chunk.length rfl rfl hown (by omega) ?_
      simp only [Int.toNat_natCast, take_readInto]
  · exact ⟨e, by simp [stepEvents, hpc, hown], h.readOther hpc rfl hown rfl rfl⟩

theorem Sim.eof (h : Sim c s e) {i : Int} (hpc : s.pc = .read i) :
    ∃ e', run EchoLoop.step e (stepEvents c s (.read .eof)) = some e' ∧
      Sim c { s with pc := .received i 0, handled := s.handled ++ [i] } e' := by
  by_cases hown : s.connection i = some c
  · have hloop := h.readOwn hpc hown
    refine ⟨⟨.closing, e.buf⟩, ?_, .closing i rfl rfl hown⟩
    simp [stepEvents, hpc, hown, run, EchoLoop.step, hloop]
  · exact ⟨e, by simp [stepEvents, hpc, hown], h.readOther hpc rfl hown rfl rfl⟩

/-- While another connection is answered, this one's loop reads or is closed. -/
theorem Sim.away (h : Sim c s e) {i n : Int} (hpc : s.pc = .received i n)
    (hother : s.connection i ≠ some c) :
    e.pc = .reading ∨ (e.pc = .closed ∧ c < s.accepted ∧ ∀ d, s.connection d ≠ some c) := by
  cases h with
  | reading loop => exact .inl loop
  | closed loop given gone => exact .inr ⟨loop, given, gone⟩
  | writing j m _ pc own =>
    rw [hpc] at pc
    cases pc
    exact absurd own hother
  | closing j _ pc own =>
    rw [hpc] at pc
    cases pc
    exact absurd own hother

theorem Sim.close (h : Sim c s e) (hn : Numbered s) {i : Int} (hpc : s.pc = .received i 0) :
    ∃ e', run EchoLoop.step e (stepEvents c s .next) = some e' ∧
      Sim c { s with
        reads := s.reads.erase i, connection := Function.update s.connection i none
        pc := .scan (i + 1) } e' := by
  by_cases hown : s.connection i = some c
  · have hloop : e.pc = .closing := by
      cases h with
      | reading _ other => exact absurd hown (other i 0 hpc)
      | writing j n _ pc _ some =>
        rw [hpc] at pc
        cases pc
        exact absurd rfl some
      | closing _ loop => exact loop
      | closed _ _ gone => exact absurd hown (gone i)
    refine ⟨⟨.closed, e.buf⟩, ?_, .closed rfl (hn.given i c hown) fun d hd => ?_⟩
    · simp [stepEvents, hpc, hown, run, EchoLoop.step, hloop]
    · obtain ⟨hdi, hd⟩ := connection_close hd
      exact hdi (hn.distinct d i c hd hown)
  · refine ⟨e, by simp [stepEvents, hpc, hown], ?_⟩
    rcases h.away hpc hown with loop | ⟨loop, given, gone⟩
    · exact .reading loop (by simp)
    · exact .closed loop given fun d hd => gone d (connection_close hd).2

theorem Sim.echo (h : Sim c s e) {i n : Int} (hpc : s.pc = .received i n) (hn : n ≠ 0) :
    ∃ e', run EchoLoop.step e (stepEvents c s .next) = some e' ∧
      Sim c { s with pc := .scan (i + 1) } e' := by
  by_cases hown : s.connection i = some c
  · have hloop : e.pc = .writing n.toNat ∧ e.buf.take n.toNat = s.buf.take n.toNat := by
      cases h with
      | reading _ other => exact absurd hown (other i n hpc)
      | writing j m loop pc _ _ same =>
        rw [hpc] at pc
        cases pc
        exact ⟨loop, same⟩
      | closing j _ pc =>
        rw [hpc] at pc
        cases pc
        exact absurd rfl hn
      | closed _ _ gone => exact absurd hown (gone i)
    refine ⟨⟨.reading, e.buf⟩, ?_, .reading rfl (by simp)⟩
    simp [stepEvents, hpc, hown, hn, run, EchoLoop.step, hloop.1, hloop.2]
  · refine ⟨e, by simp [stepEvents, hpc, hown], ?_⟩
    rcases h.away hpc hown with loop | ⟨loop, given, gone⟩
    · exact .reading loop (by simp)
    · exact .closed loop given gone

/-- Every step of the server is a stutter or a few steps of the connection's loop. -/
theorem sim_step {a : Label} (h : Sim c s e) (hn : Numbered s) (hg : Succeeds s a)
    (hm : Move servSock s a t) :
    ∃ e', run EchoLoop.step e (stepEvents c s a) = some e' ∧ Sim c t e' := by
  cases hm with
  | data i chunk pc some fits => exact h.data pc some fits
  | eof i pc => exact h.eof pc
  | readFailed => exact absurd rfl hg
  | close i pc => exact h.close hn pc
  | echo i n pc some => exact h.echo pc some
  | accept i fd pc =>
    refine ⟨e, rfl, h.quiet (by simp [pc]) (by simp) (by simp) fun hc d hd => ?_⟩
    by_cases hdf : d = fd
    · simp only [hdf, Function.update_self, Option.some.injEq] at hd
      omega
    · simpa only [Function.update_of_ne hdf] using hd
  | timeout pc | selectError pc | ready _ pc | acceptFailed _ pc =>
    exact ⟨e, rfl, h.quiet (by simp [pc]) (by simp [pc]) (Nat.le_refl _) fun _ _ hd => hd⟩
  | skip _ pc | listener pc | client _ pc | passDone _ pc | watch _ _ pc =>
    refine ⟨e, by simp [stepEvents, pc], ?_⟩
    exact h.quiet (by simp [pc]) (by simp) (Nat.le_refl _) fun _ _ hd => hd

end Steps

/-- For every connection, the projection of a run whose system calls succeed is a
run of the echo loop on the same chunks. What is sent is what was received, but
for the answer under way, and at the top of the main loop every input has been
answered. The loop's own buffer may hold anything at its start. -/
theorem refines_echoLoop (servSock : Nat) (buf : List Byte) (as : List Label) (t : Server)
    (hg : Along (step servSock) Succeeds (start servSock buf) as)
    (hrun : run (step servSock) (start servSock buf) as = some t) (c : Nat)
    (buf' : List Byte) :
    ∃ e, run EchoLoop.step (EchoLoop.start buf') (events servSock buf c as) = some e ∧
      EchoLoop.sent (events servSock buf c as) ++ EchoLoop.sent (EchoLoop.pending e) =
        EchoLoop.received (events servSock buf c as) ∧
      (t.pc = .top → EchoLoop.pending e = [] ∧ events servSock buf c as =
        ((events servSock buf c as).filter EchoLoop.isInput).flatMap EchoLoop.respond) := by
  have hsim₀ : Sim c (start servSock buf) (EchoLoop.start buf') := .reading rfl (by simp [start])
  have hn₀ : Numbered (start servSock buf) := ⟨by simp [start], by simp [start]⟩
  obtain ⟨e, he, hsim, -⟩ := run_simulation EchoLoop.step (stepEvents c)
    (fun s e => Sim c s e ∧ Numbered s)
    (fun s a t e hR hg hs => by
      obtain ⟨e', he', hsim'⟩ := sim_step hR.1 hR.2 hg (step_move hs)
      exact ⟨e', he', hsim', numbered_step hR.2 (step_move hs)⟩) ⟨hsim₀, hn₀⟩ hg hrun
  refine ⟨e, he, EchoLoop.sent_eq_received he, fun htop => ?_⟩
  have hpending : EchoLoop.pending e = [] := by
    cases hsim with
    | reading loop | closed loop => simp [EchoLoop.pending, loop]
    | writing i n _ pc => simp [htop] at pc
    | closing i _ pc => simp [htop] at pc
  have hr := EchoLoop.run_responds he
  rw [hpending, List.append_nil] at hr
  exact ⟨hpending, hr⟩

/-- The run of two clients, seen from each connection. -/
theorem twoClients_refine :
    (∃ t, run (step 3) (start 3 (List.replicate 100 0)) twoClients = some t ∧ t.pc = .top) ∧
      events 3 (List.replicate 100 0) 0 twoClients = [.read [104], .write [104], .eof, .close] ∧
      events 3 (List.replicate 100 0) 1 twoClients = [.read [105, 10], .write [105, 10]] ∧
      ∀ c, ∃ e, run EchoLoop.step (EchoLoop.start (List.replicate 100 7))
          (events 3 (List.replicate 100 0) c twoClients) = some e ∧
        EchoLoop.sent (events 3 (List.replicate 100 0) c twoClients) ++
            EchoLoop.sent (EchoLoop.pending e) =
          EchoLoop.received (events 3 (List.replicate 100 0) c twoClients) ∧
        EchoLoop.pending e = [] := by
  refine ⟨⟨_, rfl, rfl⟩, rfl, rfl, fun c => ?_⟩
  obtain ⟨e, he, hsent, htop⟩ := refines_echoLoop 3 (List.replicate 100 0) twoClients _
    succeeds_twoClients rfl c (List.replicate 100 7)
  exact ⟨e, he, hsent, (htop rfl).1⟩

end NetworkProgramming.SelectRefinement

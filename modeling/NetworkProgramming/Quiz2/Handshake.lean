import Mathlib.Data.Finset.Basic
import NetworkProgramming.Library.Transition
import NetworkProgramming.Quiz2.Server

/-!
# The handshake of service 1

A client sends its selection and its request as two datagrams. The server takes
the next datagram from anybody for the second half of a handshake.
-/
namespace NetworkProgramming.QuizHandshake

open Buffer Transition QuizSelection QuizServer

variable {args : Nat → List Byte × List Byte} {port : Nat} {clients : Finset Nat}
  {order : List Nat} {ds : List Datagram} {s t : State}

/-- The datagram with which client `c` selects service 1. -/
def selection (c : Nat) : Datagram := ⟨c, ascii "1\n"⟩

/-- `"konkuk.txt, <group>, <port>"`, with the client's own arguments. -/
def request (args : Nat → List Byte × List Byte) (c : Nat) : Datagram :=
  ⟨c, ascii "konkuk.txt, " ++ (args c).1 ++ ascii ", " ++ (args c).2⟩

/-- The session that client `c` should have. -/
def session (args : Nat → List Byte × List Byte) (c : Nat) : Session :=
  ⟨selection c, request args c⟩

/-- All datagrams of these clients, in an order of arrival that keeps each client's own. -/
def Arrivals (args : Nat → List Byte × List Byte) (clients : Finset Nat) (ds : List Datagram) :
    Prop :=
  ∀ c, ds.filter (fun d => d.source = c) =
    if c ∈ clients then [selection c, request args c] else []

/-- No handshakes are mixed up, no request is taken for a selection, and every client
gets one reply. -/
structure Served (args : Nat → List Byte × List Byte) (port : Nat) (clients : Finset Nat)
    (s : State) : Prop where
  sessions : ∀ p ∈ s.sessions, ∃ c ∈ clients, p = session args c
  selections : ∀ d ∈ s.selections, ∃ c ∈ clients, d = selection c
  replies : s.replies <+: s.sessions.map fun p => (p.selection.source, replyText port)
  once : (s.replies.map Prod.fst).Nodup
  complete : s.inbox = [] → s.pc ≠ .request → s.pc ≠ .reply →
    ∀ c ∈ clients, (c, replyText port) ∈ s.replies

/-- Every client's request arrives directly behind its selection. -/
def Sequential : List Datagram → Prop
  | [] => True
  | [_] => False
  | a :: b :: ds => a.source = b.source ∧ Sequential ds

/-- The two datagrams of one client after the other. -/
def handshakes (args : Nat → List Byte × List Byte) (order : List Nat) : List Datagram :=
  order.flatMap fun c => [selection c, request args c]

/-- The first datagram to arrive is a selection, and its client's request is still to come. -/
theorem Arrivals.first {d : Datagram} (h : Arrivals args clients (d :: ds)) :
    d.source ∈ clients ∧ d = selection d.source ∧
      ds.filter (fun e => e.source = d.source) = [request args d.source] := by
  have hd := h d.source
  rw [List.filter_cons_of_pos (by simp)] at hd
  split at hd
  next hc => exact ⟨hc, (List.cons.inj hd).1, (List.cons.inj hd).2⟩
  next => cases hd

/-- Behind a whole handshake the other clients' datagrams arrive. -/
theorem Arrivals.rest {a b : Datagram} (h : Arrivals args clients (a :: b :: ds))
    (hab : a.source = b.source) :
    b = request args a.source ∧ Arrivals args (clients.erase a.source) ds := by
  obtain ⟨-, -, hb⟩ := h.first
  rw [List.filter_cons_of_pos (by simp [hab])] at hb
  refine ⟨(List.cons.inj hb).1, fun c => ?_⟩
  have hc := h c
  by_cases hca : c = a.source
  · rw [hca, (List.cons.inj hb).2, if_neg (Finset.notMem_erase _ _)]
  · rw [List.filter_cons_of_neg (by simpa using Ne.symm hca),
      List.filter_cons_of_neg (by simpa [← hab] using Ne.symm hca)] at hc
    rw [hc]
    simp [hca]

/-- Sequential arrivals are the clients' handshakes in some order. -/
theorem Arrivals.inTurn (h : Arrivals args clients ds) (hseq : Sequential ds) :
    ∃ order : List Nat, order.Nodup ∧ (∀ c, c ∈ order ↔ c ∈ clients) ∧
      ds = handshakes args order := by
  induction ds using Sequential.induct generalizing clients with
  | case1 =>
    refine ⟨[], List.nodup_nil, fun c => ?_, rfl⟩
    have hc := h c
    split at hc
    next => cases hc
    next hm => simp [hm]
  | case2 => exact hseq.elim
  | case3 a b ds ih =>
    obtain ⟨hmem, ha, -⟩ := h.first
    obtain ⟨hb, hrest⟩ := h.rest hseq.1
    obtain ⟨order, hnodup, hiff, rfl⟩ := ih hrest hseq.2
    refine ⟨a.source :: order, List.nodup_cons.mpr ⟨?_, hnodup⟩, fun c => ?_, ?_⟩
    · rw [hiff]
      exact Finset.notMem_erase _ _
    · rw [List.mem_cons, hiff, Finset.mem_erase]
      by_cases hc : c = a.source
      · simp [hc, hmem]
      · simp [hc]
    · have hcons : handshakes args (a.source :: order) =
          selection a.source :: request args a.source :: handshakes args order := rfl
      rw [hcons, ← ha, ← hb]

theorem selected_selection (s : State) (c : Nat) :
    selected s (selection c) = { s with
      buf := ascii "1\n"
      clntAdr := c
      selections := s.selections ++ [selection c]
      pc := .request } := by
  have htext : receivedText (ascii "1\n") = ascii "1\n" := by decide
  have hone : serverService (ascii "1\n") = .one := by decide
  simp only [selected, selection, htext, hone]

/-- What has been received and sent so far, client by client. -/
structure Histories (args : Nat → List Byte × List Byte) (port : Nat) (s : State)
    (selected served answered : List Nat) : Prop where
  selections : s.selections = selected.map selection
  sessions : s.sessions = served.map (session args)
  replies : s.replies = answered.map fun c => (c, replyText port)

/-- How far the server is in the clients' handshakes. -/
inductive Phase (args : Nat → List Byte × List Byte) (port : Nat) (order : List Nat)
    (s : State) : Prop where
  | between (done rest : List Nat) (split : order = done ++ rest)
      (pc : s.pc = .select ∨ s.pc = .listen ∨ s.pc = .accept ∨ s.pc = .fork ∨ s.pc = .exited)
      (inbox : s.inbox = handshakes args rest) (histories : Histories args port s done done done)
  | request (done rest : List Nat) (c : Nat) (split : order = done ++ c :: rest)
      (pc : s.pc = .request) (inbox : s.inbox = request args c :: handshakes args rest)
      (buf : s.buf = ascii "1\n") (adr : s.clntAdr = c)
      (histories : Histories args port s (done ++ [c]) done done)
  | reply (done rest : List Nat) (c : Nat) (split : order = done ++ c :: rest)
      (pc : s.pc = .reply) (inbox : s.inbox = handshakes args rest) (adr : s.clntAdr = c)
      (histories : Histories args port s (done ++ [c]) (done ++ [c]) done)

/-- What every step preserves when the handshakes arrive one after the other. -/
structure Invariant (args : Nat → List Byte × List Byte) (port : Nat) (order : List Nat)
    (s : State) : Prop where
  serv : s.servOpen = true
  phase : Phase args port order s

theorem invariant_start (args : Nat → List Byte × List Byte) (port : Nat) (order : List Nat) :
    Invariant args port order (start (handshakes args order)) :=
  ⟨rfl, .between [] order rfl (.inl rfl) rfl ⟨rfl, rfl, rfl⟩⟩

/-- The server goes on between two handshakes. -/
theorem Invariant.goOn (h : Invariant args port order s) {pc : Pc}
    (hs : s.pc ≠ .request ∧ s.pc ≠ .reply)
    (hpc : pc = .select ∨ pc = .listen ∨ pc = .accept ∨ pc = .fork ∨ pc = .exited) :
    Invariant args port order { s with pc := pc } := by
  refine ⟨h.serv, ?_⟩
  cases h.phase with
  | between done rest split _ inbox histories =>
    exact .between done rest split hpc inbox
      ⟨histories.selections, histories.sessions, histories.replies⟩
  | request _ _ _ _ hr => exact absurd hr hs.1
  | reply _ _ _ _ hr => exact absurd hr hs.2

theorem invariant_step (h : Invariant args port order s) {a : Label} (hm : Move port s a t) :
    Invariant args port order t := by
  cases hm with
  | select d inbox pc _ next =>
    cases h.phase with
    | between done rest split _ hin hist =>
      rw [next] at hin
      cases rest with
      | nil => cases hin
      | cons c rest =>
        obtain ⟨rfl, rfl⟩ := List.cons.inj hin
        rw [selected_selection]
        refine ⟨h.serv, .request done rest c split rfl rfl rfl rfl ?_⟩
        exact ⟨by simp [hist.selections], hist.sessions, hist.replies⟩
    | request _ _ _ _ hr => simp [hr] at pc
    | reply _ _ _ _ hr => simp [hr] at pc
  | selectClosed _ closed =>
    have hs := h.serv
    rw [closed] at hs
    cases hs
  | request d inbox pc next =>
    cases h.phase with
    | between _ _ _ hp => simp [pc] at hp
    | request done rest c split _ hin hbuf hadr hist =>
      rw [next] at hin
      obtain ⟨rfl, rfl⟩ := List.cons.inj hin
      refine ⟨h.serv, .reply done rest c split rfl rfl rfl ?_⟩
      refine ⟨hist.selections, ?_, hist.replies⟩
      simp [hist.sessions, hbuf, hadr, session, selection]
    | reply _ _ _ _ hr => simp [hr] at pc
  | reply pc =>
    cases h.phase with
    | between _ _ _ hp => simp [pc] at hp
    | request _ _ _ _ hr => simp [hr] at pc
    | reply done rest c split _ hin hadr hist =>
      refine ⟨h.serv, .between (done ++ [c]) rest (by simp [split]) (by simp) hin ?_⟩
      exact ⟨hist.selections, hist.sessions, by simp [hist.replies, hadr]⟩
  | listen ok pc | accept ok pc => exact h.goOn (by simp [pc]) (by cases ok <;> simp)
  | fork ok pc => exact h.goOn (by simp [pc]) (by simp)
  | socket _ pc | bind _ pc | chat _ pc | answer _ pc =>
    cases h.phase with
    | between _ _ _ hp => simp [pc] at hp
    | request _ _ _ _ hr => simp [hr] at pc
    | reply _ _ _ _ hr => simp [hr] at pc

/-- What has happened to clients of the order, served up to the same one or two apart. -/
theorem Histories.served {selected served answered : List Nat}
    (h : Histories args port s selected served answered) (hnodup : answered.Nodup)
    (hselected : ∀ c ∈ selected, c ∈ clients) (hserved : ∀ c ∈ served, c ∈ clients)
    (hinits : answered <+: served)
    (hall : s.inbox = [] → s.pc ≠ .request → s.pc ≠ .reply → ∀ c ∈ clients, c ∈ answered) :
    Served args port clients s where
  sessions := by
    intro p hp
    rw [h.sessions] at hp
    obtain ⟨c, hc, rfl⟩ := List.mem_map.mp hp
    exact ⟨c, hserved c hc, rfl⟩
  selections := by
    intro d hd
    rw [h.selections] at hd
    obtain ⟨c, hc, rfl⟩ := List.mem_map.mp hd
    exact ⟨c, hselected c hc, rfl⟩
  replies := by
    rw [h.replies, h.sessions, List.map_map]
    exact hinits.map _
  once := by
    rw [h.replies, List.map_map]
    simpa [Function.comp_def] using hnodup
  complete := by
    intro hin hr hp c hc
    rw [h.replies]
    exact List.mem_map.mpr ⟨c, hall hin hr hp c hc, rfl⟩

theorem Invariant.served (h : Invariant args port order s) (hnodup : order.Nodup)
    (hiff : ∀ c, c ∈ order ↔ c ∈ clients) : Served args port clients s := by
  have hpart : ∀ part rest : List Nat, order = part ++ rest →
      part.Nodup ∧ ∀ c ∈ part, c ∈ clients := by
    rintro part rest rfl
    exact ⟨hnodup.of_append_left, fun c hc => (hiff c).mp (by simp [hc])⟩
  cases h.phase with
  | between done rest split _ hin hist =>
    obtain ⟨hdone, hmem⟩ := hpart _ _ split
    refine hist.served hdone hmem hmem (List.prefix_refl _) ?_
    intro hnil _ _ c hc
    rw [hnil] at hin
    cases rest with
    | nil =>
      rw [List.append_nil] at split
      exact split ▸ (hiff c).mpr hc
    | cons c rest => cases hin
  | request done rest c split hpc _ _ _ hist =>
    obtain ⟨hdone, hmem⟩ := hpart _ _ split
    obtain ⟨-, hmem'⟩ := hpart (done ++ [c]) rest (by simp [split])
    exact hist.served hdone hmem' hmem (List.prefix_refl _) fun _ hr => absurd hpc hr
  | reply done rest c split hpc _ _ hist =>
    obtain ⟨hdone, -⟩ := hpart _ _ split
    obtain ⟨-, hmem'⟩ := hpart (done ++ [c]) rest (by simp [split])
    exact hist.served hdone hmem' hmem' (List.prefix_append _ _) fun _ _ hp => absurd hpc hp

/-- Unless the handshakes arrive one after the other, the server can come to a session
with two clients. -/
theorem Arrivals.mixed (h : Arrivals args clients ds) (hseq : ¬ Sequential ds)
    (hpc : s.pc = .select) (hopen : s.servOpen = true) (hin : s.inbox = ds) :
    ∃ as t, run (step port) s as = some t ∧
      ∃ p ∈ t.sessions, p.selection.source ≠ p.request.source := by
  induction ds using Sequential.induct generalizing clients s with
  | case1 => exact absurd trivial hseq
  | case2 a =>
    obtain ⟨-, -, hnil⟩ := h.first
    cases hnil
  | case3 a b ds ih =>
    obtain ⟨-, ha, -⟩ := h.first
    have hselect : step port s .receive = some { s with
        inbox := b :: ds
        buf := ascii "1\n"
        clntAdr := a.source
        selections := s.selections ++ [selection a.source]
        pc := .request } := by
      rw [ha] at hin
      simp [step, receiveStep, hpc, hopen, hin, selected_selection]
    by_cases hab : a.source = b.source
    · -- the next client comes after this session, whose `accept` fails
      obtain ⟨-, hrest⟩ := h.rest hab
      have hrun := fun s' => ih (s := s') hrest (fun hs => hseq ⟨hab, hs⟩)
      obtain ⟨as, t, ht, hmixed⟩ := hrun { s with
        inbox := ds
        buf := replyText port
        clntAdr := b.source
        selections := s.selections ++ [selection a.source]
        sessions := s.sessions ++ [⟨⟨a.source, ascii "1\n"⟩, b⟩]
        replies := s.replies ++ [(b.source, replyText port)] } hpc hopen rfl
      refine ⟨[.receive, .receive, .reply, .listen true, .accept false] ++ as, t, ?_, hmixed⟩
      refine run_append_some.mpr ⟨_, run_cons_some.mpr ⟨_, hselect, ?_⟩, ht⟩
      simp [run, step, receiveStep, hpc]
    · refine ⟨[.receive, .receive], _, run_cons_some.mpr ⟨_, hselect, rfl⟩, ?_⟩
      exact ⟨⟨⟨a.source, ascii "1\n"⟩, b⟩, by simp, hab⟩

/-- Every run of the server serves the clients as it should if and only if each client's
request is the datagram that arrives next after its selection. -/
theorem served_iff_sequential (args : Nat → List Byte × List Byte) (port : Nat)
    (clients : Finset Nat) (ds : List Datagram) (h : Arrivals args clients ds) :
    (∀ as, Throughout (step port) (Served args port clients) (start ds) as) ↔ Sequential ds := by
  constructor
  · intro hall
    by_contra hseq
    have hmixed : ∃ as t, run (step port) (start ds) as = some t ∧
        ∃ p ∈ t.sessions, p.selection.source ≠ p.request.source := h.mixed hseq rfl rfl rfl
    obtain ⟨as, t, ht, p, hp, hne⟩ := hmixed
    obtain ⟨c, -, rfl⟩ := ((hall as).last ht).sessions p hp
    exact hne rfl
  · intro hseq as
    obtain ⟨order, hnodup, hiff, rfl⟩ := h.inTurn hseq
    exact (throughout_invariant (fun s a t hi hs => invariant_step hi (step_move hs))
      (invariant_start args port order) as).mono
        fun _ hi => hi.served hnodup hiff

def groupAndPort (_ : Nat) : List Byte × List Byte := (ascii "239.0.0.1", ascii "9190")

theorem arrivals_two
    (h₁ : ds.filter (fun d => d.source = 1) = [selection 1, request groupAndPort 1])
    (h₂ : ds.filter (fun d => d.source = 2) = [selection 2, request groupAndPort 2])
    (honly : ∀ d ∈ ds, d.source = 1 ∨ d.source = 2) : Arrivals groupAndPort {1, 2} ds := by
  intro c
  by_cases hc₁ : c = 1
  · subst hc₁
    simpa using h₁
  · by_cases hc₂ : c = 2
    · subst hc₂
      simpa using h₂
    · rw [if_neg (by simp [hc₁, hc₂]), List.filter_eq_nil_iff]
      intro d hd
      rcases honly d hd with hs | hs <;> simp [hs, Ne.symm hc₁, Ne.symm hc₂]

/-- Two clients whose handshakes arrive one after the other. -/
theorem two_in_turn_served :
    Throughout (step 9190) (Served groupAndPort 9190 {1, 2})
      (start [selection 1, request groupAndPort 1, selection 2, request groupAndPort 2])
      [.receive, .receive, .reply, .listen true, .accept true, .fork true,
        .receive, .receive, .reply, .listen true, .accept true, .fork true] :=
  (served_iff_sequential groupAndPort 9190 {1, 2} _
    (arrivals_two (by decide) (by decide) (by decide))).mpr (by exact ⟨rfl, rfl, trivial⟩) _

/-- Two clients whose selections arrive before their requests: the selection of the second
is taken for the request of the first, and the reply goes to the second. -/
theorem selections_first_mixed :
    ¬ ∀ args port clients ds, Arrivals args clients ds →
      ∀ as, Throughout (step port) (Served args port clients) (start ds) as := by
  intro h
  have hserved := (h groupAndPort 9190 {1, 2}
    [selection 1, selection 2, request groupAndPort 1, request groupAndPort 2]
    (arrivals_two (by decide) (by decide) (by decide)) [.receive, .receive]).last rfl
  obtain ⟨c, -, hc⟩ := hserved.sessions ⟨selection 1, selection 2⟩ (by decide)
  have h₁ : 1 = c := congrArg (fun p => p.selection.source) hc
  have h₂ : 2 = c := congrArg (fun p => p.request.source) hc
  omega

end NetworkProgramming.QuizHandshake

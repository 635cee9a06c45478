import NetworkProgramming.Library.Buffer
import NetworkProgramming.Library.ByteStream
import NetworkProgramming.Library.Transition

/-!
# The lock-step echo session of chapter 10

The client sends a line without its newline and waits for an answer. The server
child answers every `recv` with the text it got and ":Server".
-/
namespace NetworkProgramming.EchoSession

open Buffer ByteStream Transition

/-- The size of the client's `data` and `temp` and of the server's `temp`. -/
def bufSize : Nat := 100

/-- What the user types in front of a newline. -/
structure Line where
  chars : List Byte
  short : chars.length ≤ 98
  oneLine : 10 ∉ chars

/-- `data` after `memset` and `fgets`; `none` is the end of the input. -/
def typed (input : Option Line) : List Byte :=
  (fgets bufSize (List.replicate bufSize 0) (input.elim [] (·.chars ++ [10]))).1

/-- `data[strlen(data) - 1] = '\0'`; with an empty text the zero goes in front of `data`. -/
def cutLast (data : List Byte) : List Byte :=
  match strlen data with
  | some (n + 1) => data.set n 0
  | _ => data

/-- The `strlen(data)` bytes of the client's `send`. -/
def sent (input : Option Line) : List Byte := (text (cutLast (typed input))).getD []

def suffix : List Byte := [58, 83, 101, 114, 118, 101, 114]

inductive ClientPc where
  | fgets | recv | gone
  deriving DecidableEq, Repr

inductive ServerPc where
  | recv | reply | closed
  deriving DecidableEq, Repr

structure State where
  client : ClientPc
  server : ServerPc
  /-- From the client to the server. -/
  up : Stream Byte
  down : Stream Byte
  /-- The server's `temp` and what lies behind it, which `strcat` can reach. -/
  mem : List Byte

def start (behind : List Byte) : State :=
  ⟨.fgets, .recv, .empty, .empty, List.replicate bufSize 0 ++ behind⟩

/-- The lengths are those that the `recv` calls return. -/
inductive Label where
  | fgets (input : Option Line)
  | clientRecv (len : Nat)
  | serverRecv (len : Nat)
  | serverSend
  /-- The user interrupts the client. -/
  | leave

def step (s : State) : Label → Option State
  | .fgets input =>
    if s.client = .fgets then some { s with client := .recv, up := s.up.send (sent input) }
    else none
  | .clientRecv len =>
    if s.client = .recv then
      (s.down.receive bufSize len).map fun (_, down) => { s with client := .fgets, down := down }
    else none
  | .serverRecv len =>
    if s.server = .recv then
      (s.up.receive bufSize len).map fun (chunk, up) =>
        if chunk = [] then { s with server := .closed, up := up, down := s.down.finish }
        else { s with server := .reply, up := up, mem := readInto s.mem chunk }
    else none
  | .serverSend =>
    if s.server = .reply then
      (strcat s.mem suffix).bind fun mem => (text mem).map fun temp =>
        -- behind `temp` the next round finds what `strcat` has left there
        { s with
          server := .recv
          down := s.down.send temp
          mem := List.replicate bufSize 0 ++ mem.drop bufSize }
    else none
  | .leave => if s.client = .gone then none else some { s with client := .gone, up := s.up.finish }

/-- The server waits, and no byte is in flight. -/
def Idle (s : State) : Prop := s.server = .recv ∧ s.up.queue = [] ∧ s.down.queue = []

instance : DecidablePred Idle := fun _ => inferInstanceAs (Decidable (_ ∧ _))

def Deadlocked (s : State) : Prop := s.client = .recv ∧ Idle s

instance : DecidablePred Deadlocked := fun _ => inferInstanceAs (Decidable (_ ∧ _))

/-- The input of which the client sends nothing: the end of the input, an empty line, or
one with a NUL among its first two characters. -/
def Silent : Option Line → Prop
  | none => True
  | some line => line.chars = [] ∨ 0 ∈ line.chars.take 2

/-- What the user enters while nothing is under way is not silent. -/
def Heard (s : State) : Label → Prop
  | .fgets input => s.client = .fgets → Idle s → ¬ Silent input
  | _ => True

theorem text_typed (line : Line) :
    text (typed (some line)) = some ((line.chars ++ [10]).takeWhile (· != 0)) := by
  have hfgets : fgetsLine (bufSize - 1) (line.chars ++ [10]) = line.chars ++ [10] :=
    fgetsLine_line (Nat.lt_succ_of_le line.short) line.oneLine
  have htyped : typed (some line) =
      line.chars ++ [10] ++ 0 :: List.replicate (bufSize - (line.chars.length + 2)) 0 := by
    simp [typed, fgets, hfgets, readInto]
  rw [htyped, text_ended]

/-- The client sends the text of the line. -/
theorem sent_line (line : Line) :
    sent (some line) = ((line.chars ++ [10]).takeWhile (· != 0)).dropLast := by
  have htext := text_typed line
  unfold sent cutLast strlen
  generalize (line.chars ++ [10]).takeWhile (· != 0) = t at htext
  cases t with
  | nil => simp [htext]
  | cons b t =>
    have hset := text_set_last htext (List.cons_ne_nil b t)
    simp only [List.length_cons, Nat.add_sub_cancel] at hset
    simp [htext, hset]

theorem sent_eq_nil_iff (input : Option Line) : sent input = [] ↔ Silent input := by
  cases input with
  | none => exact iff_of_true (by decide) trivial
  | some line =>
    rw [sent_line, Silent]
    match hc : line.chars with
    | [] => simp
    | [b] => by_cases hb : b = 0 <;> simp [hb, Ne.symm]
    | b :: c :: cs =>
      by_cases hb : b = 0 <;> by_cases hz : c = 0 <;> simp [hb, hz, Ne.symm]

/-- An answer has at least the suffix. -/
theorem serverSend_spec {s t : State} (h : step s .serverSend = some t) :
    t.client = s.client ∧ t.server = .recv ∧ t.up = s.up ∧ t.down.queue ≠ [] := by
  simp only [step] at h
  obtain ⟨-, h⟩ := Option.ite_none_right_eq_some.mp h
  obtain ⟨mem, hmem, h⟩ := Option.bind_eq_some_iff.mp h
  obtain ⟨temp, htemp, rfl⟩ := Option.map_eq_some_iff.mp h
  obtain ⟨t, -, ht⟩ := text_strcat (by decide) hmem
  obtain rfl := Option.some.inj (htemp.symm.trans ht)
  exact ⟨rfl, rfl, rfl, by simp [Stream.send, suffix]⟩

/-- The only step into a deadlock is a silent input while nothing is under way. -/
theorem step_deadlocked_iff {s t : State} {a : Label} (h : step s a = some t) :
    ¬ Deadlocked t ↔ Heard s a := by
  cases a with
  | fgets input =>
    obtain ⟨hclient, h⟩ := Option.ite_none_right_eq_some.mp h
    obtain rfl := Option.some.inj h
    simp only [Deadlocked, Idle, Heard, hclient, Stream.send, List.append_eq_nil_iff,
      ← sent_eq_nil_iff]
    tauto
  | clientRecv len =>
    obtain ⟨-, h⟩ := Option.ite_none_right_eq_some.mp h
    obtain ⟨p, -, rfl⟩ := Option.map_eq_some_iff.mp h
    exact iff_of_true (fun hd => nomatch hd.1) trivial
  | serverRecv len =>
    obtain ⟨-, h⟩ := Option.ite_none_right_eq_some.mp h
    obtain ⟨⟨chunk, up⟩, -, rfl⟩ := Option.map_eq_some_iff.mp h
    refine iff_of_true (fun hd => ?_) trivial
    have hserver := hd.2.1
    by_cases hc : chunk = [] <;> simp [hc] at hserver
  | serverSend => exact iff_of_true (fun hd => (serverSend_spec h).2.2.2 hd.2.2.2) trivial
  | leave =>
    obtain ⟨-, h⟩ := Option.ite_none_left_eq_some.mp h
    obtain rfl := Option.some.inj h
    exact iff_of_true (fun hd => nomatch hd.1) trivial

/-- A step that the program cannot take is not a silent input. -/
theorem heard_of_none {s : State} {a : Label} (h : step s a = none) : Heard s a := by
  cases a with
  | fgets input =>
    intro hclient
    simp [step, hclient] at h
  | _ => trivial

/-- While the connection is open and the client waits, a deadlock is a state from which only
the user can move on. -/
theorem deadlocked_iff_stuck {s : State} (hclient : s.client = .recv)
    (hup : s.up.ended = false) (hdown : s.down.ended = false) (hserver : s.server ≠ .closed)
    (hreply : s.server = .reply → ∃ t, step s .serverSend = some t) :
    Deadlocked s ↔ ∀ a, a ≠ .leave → step s a = none := by
  constructor
  · rintro ⟨-, hrecv, huq, hdq⟩ a ha
    cases a with
    | fgets input => simp [step, hclient]
    | clientRecv len => simp [step, hclient, Stream.receive_none_of_empty hdq hdown]
    | serverRecv len => simp [step, hrecv, Stream.receive_none_of_empty huq hup]
    | serverSend => simp [step, hrecv]
    | leave => exact absurd rfl ha
  · intro h
    have hwaits : s.server = .recv := by
      cases hs : s.server with
      | recv => rfl
      | reply =>
        obtain ⟨t, ht⟩ := hreply hs
        rw [h _ (by simp)] at ht
        cases ht
      | closed => exact absurd hs hserver
    refine ⟨hclient, hwaits, ?_, ?_⟩
    · by_contra hq
      have := h (.serverRecv 1) (by simp)
      simp [step, hwaits, Stream.receive_one hq (by decide : 0 < bufSize)] at this
    · by_contra hq
      have := h (.clientRecv 1) (by simp)
      simp [step, hclient, Stream.receive_one hq (by decide : 0 < bufSize)] at this

/-- Client and server block each other exactly when the user enters something silent while
nothing is under way. -/
theorem deadlock_free_iff (behind : List Byte) (labels : List Label) :
    Throughout step (fun s => ¬ Deadlocked s) (start behind) labels ↔
      Along step Heard (start behind) labels :=
  throughout_iff_along (I := fun _ => True)
    (fun _ _ _ _ _ h => ⟨trivial, step_deadlocked_iff h⟩) (fun _ _ => heard_of_none)
    trivial (fun h => nomatch h.1)

/-- The user only presses return. -/
theorem empty_line_deadlocks : ¬ ∀ behind labels,
    Throughout step (fun s => ¬ Deadlocked s) (start behind) labels := by
  intro h
  exact absurd (h [] [.fgets (some ⟨[], by decide, by decide⟩)]) (by decide)

end NetworkProgramming.EchoSession

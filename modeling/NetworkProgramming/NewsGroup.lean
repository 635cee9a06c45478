import Mathlib.Data.List.Perm.Subperm
import Mathlib.Logic.Function.Basic
import NetworkProgramming.Library.Transition
import NetworkProgramming.NewsSender

/-!
# The multicast group

The sender of `NewsSender` and any number of receivers, which join when they like.
The network copies each datagram for those that have joined; it may lose copies and
deliver them in any order.
-/
namespace NetworkProgramming.NewsGroup

open Buffer Columns Datagram NewsSender Transition

/-- `news_receiver.c` and the receiver of the final review. -/
inductive Receiver where
  | chapter14
  | review
  deriving DecidableEq, Repr

/-- `BUF_SIZE`. -/
def Receiver.size : Receiver → Nat
  | .chapter14 => 30
  | .review => 100

/-- What it asks `recvfrom` for. -/
def Receiver.limit : Receiver → Nat
  | .chapter14 => 29
  | .review => 100

structure State (ι : Type) where
  sendBuf : List Byte
  fp : File
  /-- History: the datagrams of the sender. -/
  sent : List (List Byte)
  /-- How many had been sent when the receiver joined. -/
  joined : ι → Option Nat
  /-- The copies under way, in the order of the sender. -/
  queue : ι → List (List Byte)
  buf : ι → List Byte
  printed : ι → List (List Byte)

/-- `lose` and `recv` take the copy `k` of those that are under way to the receiver. -/
inductive Label (ι : Type) where
  | join (i : ι)
  | send
  | lose (i : ι) (k : Nat)
  | recv (i : ι) (k : Nat)
  deriving DecidableEq, Repr

variable {ι : Type} [DecidableEq ι]

def start (content sendBuf : List Byte) (buf : ι → List Byte) : State ι where
  sendBuf := sendBuf
  fp := fopen content
  sent := []
  joined _ := none
  queue _ := []
  buf := buf
  printed _ := []

/-- A round of a loop; `none` where a buffer has no text, and where the zero byte of a receiver
lies outside of its buffer. -/
def step (program : ι → Receiver) (s : State ι) : Label ι → Option (State ι)
  | .join i =>
    if s.joined i = none then
      some { s with joined := Function.update s.joined i (some s.sent.length) }
    else none
  | .send =>
    if s.fp.eof then none
    else
      let read := fgetsFile s.sendBuf s.fp
      (text read.1).map fun datagram =>
        { s with
          sendBuf := read.1, fp := read.2, sent := s.sent ++ [datagram]
          queue := fun i => if s.joined i = none then s.queue i else s.queue i ++ [datagram] }
  | .lose i k =>
    if k < (s.queue i).length then
      some { s with queue := Function.update s.queue i ((s.queue i).eraseIdx k) }
    else none
  | .recv i k =>
    ((s.queue i)[k]?).bind fun datagram =>
      (receive (program i).limit (s.buf i) datagram).bind fun buf =>
        (text buf).map fun shown =>
          { s with
            queue := Function.update s.queue i ((s.queue i).eraseIdx k)
            buf := Function.update s.buf i buf
            printed := Function.update s.printed i (s.printed i ++ [shown]) }

/-- The datagrams that have been sent since the receiver has joined. -/
def State.since (s : State ι) (i : ι) : List (List Byte) :=
  (s.joined i).elim [] fun n => s.sent.drop n

/-- Everything a step can do. -/
inductive Move (program : ι → Receiver) (s : State ι) : Label ι → State ι → Prop where
  | join (i : ι) (outside : s.joined i = none) :
      Move program s (.join i)
        { s with joined := Function.update s.joined i (some s.sent.length) }
  | send (datagram : List Byte) (more : s.fp.eof = false)
      (read : text (fgetsFile s.sendBuf s.fp).1 = some datagram) :
      Move program s .send
        { s with
          sendBuf := (fgetsFile s.sendBuf s.fp).1, fp := (fgetsFile s.sendBuf s.fp).2
          sent := s.sent ++ [datagram]
          queue := fun i => if s.joined i = none then s.queue i else s.queue i ++ [datagram] }
  | lose (i : ι) (k : Nat) (underway : k < (s.queue i).length) :
      Move program s (.lose i k)
        { s with queue := Function.update s.queue i ((s.queue i).eraseIdx k) }
  | recv (i : ι) (k : Nat) (datagram buf shown : List Byte)
      (underway : (s.queue i)[k]? = some datagram)
      (receive : receive (program i).limit (s.buf i) datagram = some buf)
      (read : text buf = some shown) :
      Move program s (.recv i k)
        { s with
          queue := Function.update s.queue i ((s.queue i).eraseIdx k)
          buf := Function.update s.buf i buf
          printed := Function.update s.printed i (s.printed i ++ [shown]) }

theorem move_of_step {program : ι → Receiver} {s t : State ι} {a : Label ι}
    (h : step program s a = some t) : Move program s a t := by
  cases a with
  | join i =>
    obtain ⟨outside, h⟩ := Option.ite_none_right_eq_some.mp h
    exact Option.some.inj h ▸ .join i outside
  | send =>
    obtain ⟨more, h⟩ := Option.ite_none_left_eq_some.mp h
    obtain ⟨datagram, read, rfl⟩ := Option.map_eq_some_iff.mp h
    exact .send datagram (Bool.eq_false_iff.mpr more) read
  | lose i k =>
    obtain ⟨underway, h⟩ := Option.ite_none_right_eq_some.mp h
    exact Option.some.inj h ▸ .lose i k underway
  | recv i k =>
    obtain ⟨datagram, underway, h⟩ := Option.bind_eq_some_iff.mp h
    obtain ⟨buf, receive, h⟩ := Option.bind_eq_some_iff.mp h
    obtain ⟨shown, read, rfl⟩ := Option.map_eq_some_iff.mp h
    exact .recv i k datagram buf shown underway receive read

/-- The buffers keep their sizes, and what is under way fits into them. -/
structure Sound (program : ι → Receiver) (s : State ι) : Prop where
  sendBuf : s.sendBuf.length = bufSize
  buf : ∀ i, (s.buf i).length = (program i).size
  short : ∀ i, ∀ d ∈ s.queue i, d.length < bufSize ∧ 0 ∉ d
  joined : ∀ i n, s.joined i = some n → n ≤ s.sent.length

/-- Every copy that is printed or under way is one of those sent since the receiver has joined,
none of them twice, and whatever is under way can be received and printed. -/
structure Received (program : ι → Receiver) (s : State ι) : Prop where
  once : ∀ i, (s.printed i ++ s.queue i).Subperm (s.since i)
  takes : ∀ i k, k < (s.queue i).length → ∃ t, step program s (.recv i k) = some t

section Steps
variable {program : ι → Receiver} {s t : State ι} {a : Label ι} {i : ι}

omit [DecidableEq ι] in
/-- A datagram that is under way is printed as it is. -/
theorem Sound.receive (h : Sound program s) {datagram : List Byte} (hd : datagram ∈ s.queue i) :
    ∃ buf, Datagram.receive (program i).limit (s.buf i) datagram = some buf ∧
      buf.length = (program i).size ∧ text buf = some datagram := by
  obtain ⟨hshort, hnul⟩ := h.short i datagram hd
  have hbuf := h.buf i
  have hfits : datagram.length ≤ (program i).limit ∧ (program i).limit ≤ (s.buf i).length ∧
      datagram.length < (s.buf i).length := by
    rw [hbuf]
    rw [bufSize] at hshort
    cases program i <;> simp only [Receiver.limit, Receiver.size] <;> omega
  have hreceive := receive_of_short hfits.1 hfits.2.2
  exact ⟨_, hreceive, (length_receive hfits.2.1 hreceive).trans hbuf, text_append_zero _ _ hnul⟩

theorem Sound.step (h : Sound program s) (ht : NewsGroup.step program s a = some t) :
    Sound program t := by
  cases move_of_step ht with
  | join i outside =>
    refine ⟨h.sendBuf, h.buf, h.short, (Function.forall_update_iff s.joined fun _ o =>
      ∀ n, o = some n → n ≤ s.sent.length).mpr ⟨?_, fun j _ => h.joined j⟩⟩
    exact fun n hn => (Option.some.inj hn).ge
  | send datagram more read =>
    have hlen : (fgetsFile s.sendBuf s.fp).1.length = bufSize :=
      length_fgets _ (by decide) h.sendBuf
    have hd : datagram.length < bufSize ∧ 0 ∉ datagram :=
      ⟨hlen ▸ length_lt_of_text read, (text_eq_some_iff.mp read).1⟩
    refine ⟨hlen, h.buf, fun i => ?_, fun i n hn => ?_⟩
    swap
    · rw [List.length_append]
      exact (h.joined i n hn).trans (Nat.le_add_right _ _)
    by_cases hi : s.joined i = none
    · simpa only [hi, if_true] using h.short i
    · simpa only [hi, if_false, List.forall_mem_append, List.forall_mem_singleton] using
        ⟨h.short i, hd⟩
  | lose i k underway =>
    refine ⟨h.sendBuf, h.buf, (Function.forall_update_iff s.queue fun _ q =>
      ∀ d ∈ q, d.length < bufSize ∧ 0 ∉ d).mpr ⟨fun d hd => ?_, fun j _ => h.short j⟩, h.joined⟩
    exact h.short i d (List.mem_of_mem_eraseIdx hd)
  | recv i k datagram buf shown underway receive read =>
    obtain ⟨buf', hbuf', hlen, -⟩ := h.receive (List.mem_of_getElem? underway)
    obtain rfl := Option.some.inj (receive.symm.trans hbuf')
    refine ⟨h.sendBuf, ?_, ?_, h.joined⟩
    · exact (Function.forall_update_iff s.buf fun j b => b.length = (program j).size).mpr
        ⟨hlen, fun j _ => h.buf j⟩
    · refine (Function.forall_update_iff s.queue fun _ q =>
        ∀ d ∈ q, d.length < bufSize ∧ 0 ∉ d).mpr ⟨fun d hd => ?_, fun j _ => h.short j⟩
      exact h.short i d (List.mem_of_mem_eraseIdx hd)

/-- What a step can do to one receiver: to what it has printed, what is under way to it and
what has been sent since it has joined. -/
inductive View (i : ι) : Label ι → List (List Byte) → List (List Byte) → List (List Byte) →
    List (List Byte) → List (List Byte) → List (List Byte) → Prop where
  | same (a : Label ι) (p q w : List (List Byte)) : View i a p q w p q w
  | send (p q w : List (List Byte)) (d : List Byte) : View i .send p q w p (q ++ [d]) (w ++ [d])
  | lose (k : Nat) (p q w : List (List Byte)) : View i (.lose i k) p q w p (q.eraseIdx k) w
  | recv (k : Nat) (p q w : List (List Byte)) (d : List Byte) (underway : q[k]? = some d) :
      View i (.recv i k) p q w (p ++ [d]) (q.eraseIdx k) w

theorem Sound.view (h : Sound program s) (ht : NewsGroup.step program s a = some t) (i : ι) :
    View i a (s.printed i) (s.queue i) (s.since i) (t.printed i) (t.queue i) (t.since i) := by
  cases move_of_step ht with
  | join j outside =>
    have hsince :
        State.since { s with joined := Function.update s.joined j (some s.sent.length) } i =
          s.since i := by
      by_cases hi : i = j
      · subst hi
        simp [State.since, outside]
      · simp [State.since, hi]
    rw [hsince]
    exact .same _ _ _ _
  | send datagram more read =>
    cases hi : s.joined i with
    | none =>
      simp only [State.since, hi, if_true, Option.elim]
      exact .same _ _ _ _
    | some n =>
      simp only [State.since, hi, reduceCtorEq, if_false, Option.elim,
        List.drop_append_of_le_length (h.joined i n hi)]
      exact .send _ _ _ _
  | lose j k underway =>
    by_cases hi : i = j
    · subst hi
      simp only [Function.update_self]
      exact .lose _ _ _ _
    · simp only [Function.update_of_ne hi]
      exact .same _ _ _ _
  | recv j k datagram buf shown underway receive read =>
    obtain ⟨buf', hbuf', -, htext⟩ := h.receive (List.mem_of_getElem? underway)
    obtain rfl := Option.some.inj (receive.symm.trans hbuf')
    obtain rfl := Option.some.inj (read.symm.trans htext)
    by_cases hi : i = j
    · subst hi
      simp only [Function.update_self]
      exact .recv _ _ _ _ _ underway
    · simp only [Function.update_of_ne hi]
      exact .same _ _ _ _

omit [DecidableEq ι] in
/-- Nothing is printed twice, whatever the network does. -/
theorem View.subperm {p q w p' q' w' : List (List Byte)} (h : View i a p q w p' q' w')
    (hpq : (p ++ q).Subperm w) : (p' ++ q').Subperm w' := by
  cases h with
  | same => exact hpq
  | send p q w d =>
    rw [← List.append_assoc]
    exact (List.subperm_append_right [d]).mpr hpq
  | lose k => exact ((List.eraseIdx_sublist _ k).append_left p).subperm.trans hpq
  | recv k p q w d underway =>
    obtain ⟨hk, rfl⟩ := List.getElem?_eq_some_iff.mp underway
    have hperm : (p ++ [q[k]] ++ q.eraseIdx k).Perm (p ++ q) := by
      rw [List.append_assoc]
      exact (List.getElem_cons_eraseIdx_perm hk).append_left p
    exact hperm.subperm.trans hpq

/-- The network loses nothing on the way to the receiver and keeps the order. -/
def Orderly (i : ι) : State ι → Label ι → Prop
  | _, .lose j _ => j ≠ i
  | _, .recv j k => j = i → k = 0
  | _, .join _ | _, .send => True

omit [DecidableEq ι] in
theorem View.append_eq {p q w p' q' w' : List (List Byte)} (h : View i a p q w p' q' w')
    (ha : Orderly i s a) (hpq : p ++ q = w) : p' ++ q' = w' := by
  cases h with
  | same => exact hpq
  | send p q w d => rw [← hpq, List.append_assoc]
  | lose => exact absurd rfl ha
  | recv k p q w d underway =>
    obtain rfl : k = 0 := ha rfl
    cases q with
    | nil => cases underway
    | cons e q =>
      cases underway
      rw [← hpq, List.append_assoc]
      rfl

omit [DecidableEq ι] in
theorem sound_start {content sendBuf : List Byte} {buf : ι → List Byte}
    (hsend : sendBuf.length = bufSize) (hbuf : ∀ i, (buf i).length = (program i).size) :
    Sound program (start content sendBuf buf) :=
  ⟨hsend, hbuf, by simp [start], by simp [start]⟩

theorem Sound.received (h : Sound program s)
    (honce : ∀ i, (s.printed i ++ s.queue i).Subperm (s.since i)) : Received program s := by
  refine ⟨honce, fun i k hk => ?_⟩
  obtain ⟨buf, hbuf, -, htext⟩ := h.receive (List.getElem_mem hk)
  simp only [NewsGroup.step, List.getElem?_eq_getElem hk, Option.bind_some, hbuf, htext,
    Option.map_some]
  exact ⟨_, rfl⟩

/-- With any number of receivers, whenever they join, and whatever the network loses or
overtakes: each of them prints datagrams that were sent since it has joined, unchanged and none
more often than it was sent. -/
theorem receives (program : ι → Receiver) (content sendBuf : List Byte) (buf : ι → List Byte)
    (hsend : sendBuf.length = bufSize) (hbuf : ∀ i, (buf i).length = (program i).size)
    (labels : List (Label ι)) :
    Throughout (NewsGroup.step program) (Received program) (start content sendBuf buf) labels := by
  refine (throughout_invariant
    (I := fun s => Sound program s ∧ ∀ i, (s.printed i ++ s.queue i).Subperm (s.since i))
    (fun s a t h ht => ⟨h.1.step ht, fun i => (h.1.view ht i).subperm (h.2 i)⟩)
    ⟨sound_start hsend hbuf, fun i => List.Subperm.refl _⟩ labels).mono fun s h => ?_
  exact h.1.received h.2

/-- A round of a sender that comes to the end of its file sends the next piece of it. -/
theorem sends_next {buf datagram : List Byte} {fp : File} (h : Sends buf fp)
    (more : fp.eof = false) (hnul : 0 ∉ fp.rest)
    (read : text (fgetsFile buf fp).1 = some datagram) :
    Sends (fgetsFile buf fp).1 (fgetsFile buf fp).2 ∧
      datagram ++ (fgetsFile buf fp).2.rest = fp.rest := by
  obtain ⟨rest, eof⟩ := fp
  cases more
  have hne : rest ≠ [] := by
    rintro rfl
    exact not_sends_nil buf h
  obtain ⟨b, tail, rest', hrest, hline, htext, hleft⟩ :=
    fgets_spec buf (show 1 < bufSize by decide) hne hnul
  obtain rfl := Option.some.inj (htext.symm.trans read)
  have hlen : (b :: tail).length ≤ bufSize - 1 := hline ▸ length_fgetsLine_le _ _
  have hround : rest = (b :: tail) ++ (fgetsFile buf ⟨rest, false⟩).2.rest := by
    rw [fgetsFile, hleft]
    exact hrest
  exact ⟨(sends_round rfl read hround ⟨Nat.succ_pos _, hlen⟩).mp h, hround.symm⟩

/-- The sender goes through its file. -/
structure Reads (content : List Byte) (s : State ι) : Prop where
  sends : Sends s.sendBuf s.fp
  sent : s.sent.flatten ++ s.fp.rest = content

theorem Reads.step {content : List Byte} (h : Reads content s) (hnul : 0 ∉ content)
    (ht : NewsGroup.step program s a = some t) : Reads content t := by
  cases move_of_step ht with
  | join | lose | recv => exact ⟨h.sends, h.sent⟩
  | send datagram more read =>
    have hrest : 0 ∉ s.fp.rest := fun h0 => hnul (h.sent ▸ List.mem_append_right _ h0)
    obtain ⟨hsends, hpiece⟩ := sends_next h.sends more hrest read
    refine ⟨hsends, ?_⟩
    rw [← h.sent, ← hpiece, List.flatten_append, List.flatten_singleton, List.append_assoc]

/-- What was sent before the receiver has joined, what it has printed, what is under way to it and
what is left of the file are the file. -/
def Relays (content : List Byte) (i : ι) (s : State ι) : Prop :=
  ∀ n, s.joined i = some n →
    (s.sent.take n).flatten ++ (s.printed i).flatten ++ (s.queue i).flatten ++ s.fp.rest = content

omit [DecidableEq ι] in
theorem Reads.relays_file {content : List Byte} (h : Reads content s)
    (hi : s.printed i ++ s.queue i = s.since i) : Relays content i s := by
  intro n hn
  have hsince : s.since i = s.sent.drop n := by rw [State.since, hn, Option.elim]
  rw [← h.sent, List.append_assoc _ (s.printed i).flatten, ← List.flatten_append, hi, hsince,
    ← List.flatten_append, List.take_append_drop]

/-- If the network is orderly to a receiver, it prints the file from where the sender was when
it joined, as long as the last piece of the file is none that the sender would send again. -/
theorem relays (program : ι → Receiver) (content sendBuf : List Byte) (buf : ι → List Byte)
    (hsend : sendBuf.length = bufSize) (hbuf : ∀ i, (buf i).length = (program i).size)
    (hnul : 0 ∉ content) (hlast : ¬ bufSize - 1 ∣ columnAfter 0 content) (i : ι)
    (labels : List (Label ι))
    (horderly : Along (NewsGroup.step program) (Orderly i) (start content sendBuf buf) labels) :
    Throughout (NewsGroup.step program) (Relays content i) (start content sendBuf buf) labels := by
  refine (throughout_of_step
    (I := fun s => Sound program s ∧ s.printed i ++ s.queue i = s.since i ∧ Reads content s)
    (fun s a t h ha ht => ⟨h.1.step ht, (h.1.view ht i).append_eq ha h.2.1, h.2.2.step hnul ht⟩)
    ⟨sound_start hsend hbuf, rfl, (sends_iff (Nat.dvd_zero _) hnul).mpr hlast, rfl⟩
    horderly).mono fun s h => ?_
  exact h.2.2.relays_file h.2.1

end Steps

/-- Both programs. -/
def two : Bool → Receiver
  | true => .chapter14
  | false => .review

/-- "a" and "b" on two lines: the second datagram overtakes the first one, which is lost. -/
theorem receives_two_lines :
    Throughout (step two) (Received two)
      (start [97, 10, 98] (List.replicate 30 0) fun i => List.replicate (two i).size 0)
      [.join true, .send, .join false, .send, .recv true 1, .lose true 0, .recv false 0] :=
  receives two _ _ _ List.length_replicate (fun _ => List.length_replicate) _

/-- The second receiver joins behind the first line. -/
theorem relays_two_lines :
    Throughout (step two) (Relays [97, 10, 98] false)
      (start [97, 10, 98] (List.replicate 30 0) fun i => List.replicate (two i).size 0)
      [.join true, .send, .join false, .send, .recv true 1, .recv false 0] :=
  relays two _ _ _ List.length_replicate (fun _ => List.length_replicate) (by decide) (by decide)
    false _ (by simp [Along, Orderly])

end NetworkProgramming.NewsGroup

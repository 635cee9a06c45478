import Mathlib.Data.Multiset.Filter
import NetworkProgramming.Library.Buffer

/-!
# Datagrams in character buffers

`recvfrom` cuts a datagram that is longer than it is asked for. The programs then
put a zero byte behind what they got, which may lie outside of the buffer.
Datagrams under way have no order.
-/
namespace NetworkProgramming.Datagram

open Buffer

/-- `strLen = recvfrom(sock, buf, limit, …)`. -/
def recvfrom (limit : Nat) (buf bytes : List Byte) : List Byte × Nat :=
  (readInto buf (bytes.take limit), (bytes.take limit).length)

/-- `buf[strLen] = 0`; `none` where that is not a place of the buffer. -/
def endText (buf : List Byte) (strLen : Nat) : Option (List Byte) :=
  if strLen < buf.length then some (buf.set strLen 0) else none

/-- Both together. -/
def receive (limit : Nat) (buf bytes : List Byte) : Option (List Byte) :=
  endText (recvfrom limit buf bytes).1 (recvfrom limit buf bytes).2

variable {limit : Nat} {buf buf' bytes : List Byte}

theorem recvfrom_of_short (h : bytes.length ≤ limit) :
    recvfrom limit buf bytes = (readInto buf bytes, bytes.length) := by
  rw [recvfrom, List.take_of_length_le h]

theorem length_recvfrom (h : limit ≤ buf.length) :
    (recvfrom limit buf bytes).1.length = buf.length := by
  refine length_readInto ?_
  rw [List.length_take]
  omega

theorem length_endText {strLen : Nat} (h : endText buf strLen = some buf') :
    buf'.length = buf.length := by
  obtain ⟨-, h⟩ := Option.ite_none_right_eq_some.mp h
  cases h
  exact List.length_set

/-- The text in front of the zero byte stays. -/
theorem take_endText {strLen : Nat} (h : endText buf strLen = some buf') :
    buf'.take strLen = buf.take strLen := by
  obtain ⟨-, h⟩ := Option.ite_none_right_eq_some.mp h
  rw [← Option.some.inj h, List.take_set_of_le (Nat.le_refl strLen)]

/-- The zero byte ends what `recvfrom` has stored. -/
theorem endText_readInto (h : bytes.length < buf.length) :
    endText (readInto buf bytes) bytes.length =
      some (bytes ++ 0 :: buf.drop (bytes.length + 1)) := by
  rw [endText, if_pos (by rwa [length_readInto (Nat.le_of_lt h)]), set_readInto 0 h,
    List.append_assoc, List.singleton_append]

/-- A datagram that fits is received with the bytes behind it untouched. -/
theorem receive_of_short (hlimit : bytes.length ≤ limit) (h : bytes.length < buf.length) :
    receive limit buf bytes = some (bytes ++ 0 :: buf.drop (bytes.length + 1)) := by
  rw [receive, recvfrom_of_short hlimit]
  exact endText_readInto h

theorem length_receive (hlimit : limit ≤ buf.length) (h : receive limit buf bytes = some buf') :
    buf'.length = buf.length :=
  (length_endText h).trans (length_recvfrom hlimit)

section UnderWay
variable {ι β : Type*} [DecidableEq ι] {i a : ι} {b : β} {net : Multiset (ι × β)}

/-- What is under way with this address. -/
def addressed (i : ι) (net : Multiset (ι × β)) : Multiset β :=
  (net.filter fun d => d.1 = i).map Prod.snd

@[simp] theorem addressed_cons_self :
    addressed i ((i, b) ::ₘ net) = b ::ₘ addressed i net := by
  simp [addressed]

@[simp] theorem addressed_cons_of_ne (h : a ≠ i) :
    addressed i ((a, b) ::ₘ net) = addressed i net := by
  simp [addressed, h]

@[simp] theorem mem_addressed : b ∈ addressed i net ↔ (i, b) ∈ net := by
  simp [addressed]

end UnderWay

end NetworkProgramming.Datagram

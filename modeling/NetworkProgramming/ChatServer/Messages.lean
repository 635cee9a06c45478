import NetworkProgramming.Library.Buffer

/-!
# Messages of the chat server

What `handle_clnt` makes of one read result before it passes it to `send_msg`.
-/
namespace NetworkProgramming.ChatMessages

open Buffer

def bufSize : Nat := 100

/-- Behind `memset(msg, 0, sizeof(msg))`. -/
def cleared : List Byte := zeros bufSize

/-- `msg[strlen(msg) - 1] = '\0'` and the text that is left. It is `none` where the code leaves
the buffer: no zero byte ends the text, or the text is empty and the index is -1. -/
def cutLast (msg : List Byte) : Option (List Byte) :=
  (strlen msg).bind fun n => if n = 0 then none else text (msg.set (n - 1) 0)

/-- What a round makes of a piece. -/
def relayText (chunk : List Byte) : Option (List Byte) := cutLast (readInto cleared chunk)

/-- Of a piece that leaves room for the zero byte, the last byte is dropped. -/
theorem relayText_of_short (chunk : List Byte) (hne : chunk ≠ []) (hl : chunk.length < bufSize)
    (h0 : 0 ∉ chunk) : relayText chunk = some chunk.dropLast := by
  have htext : text (readInto cleared chunk) = some chunk := text_cleared hl h0
  have hlen : chunk.length ≠ 0 := fun h => hne (List.length_eq_zero_iff.mp h)
  simp only [relayText, cutLast, strlen, htext, Option.map_some, Option.bind_some, if_neg hlen]
  exact text_set_last htext hne

end NetworkProgramming.ChatMessages

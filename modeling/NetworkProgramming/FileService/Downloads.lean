import NetworkProgramming.FileService.Missing
import NetworkProgramming.FileService.Request
import NetworkProgramming.Library.FreshKeys

/-!
# Downloads one after the other

Whole runs of the week-11 client, in one directory: it looks for a free name, asks
the server for a file and stores what it gets. The server's files are elsewhere.
-/
namespace NetworkProgramming.FileDownloads

open Buffer ByteStream Transition FreshKeys EchoSession FileTransfer FileNames FileMissing
  FileRequest QuizServer

/-- The files of the client's directory. -/
abbrev Directory := Map Name (List Byte)

/-- One run of the client: what is typed, what its stack held, and what the `recv` of the server
and the `read` calls of the client return. -/
structure Download where
  line : Line
  stack : Fin nameSize → Byte
  buf : List Byte
  requestPieces : List (List Byte)
  answerPieces : List (List Byte)

/-- A client with an empty name sends nothing, and the server waits for it. -/
def step (files : Files) (d : Directory) (dl : Download) : Option Directory :=
  match Client.week11.newFileName d.keys dl.stack (d.keys.card + 2) with
  | .found name =>
    if dl.requestPieces ≠ [] ∧ Segmentation tempSize (request dl.line) dl.requestPieces then
      (fopenArgument (dl.requestPieces.map .data)).bind fun path =>
        if Segmentation week11.clientBlock (clientStream (serve .week11 files path))
            dl.answerPieces then
          some (d.insert name (recvLoop dl.buf dl.answerPieces))
        else none
    else none
  | .overrun | .unfinished => none

/-- What the server has under a name. -/
def answer (files : Files) (path : Name) : List Byte := (files path).getD notice

/-- The request reaches the server in one piece, and the file fits in a block. -/
structure Whole (files : Files) (dl : Download) : Prop where
  nonempty : dl.line.chars ≠ []
  noNul : 0 ∉ dl.line.chars
  onePiece : dl.requestPieces = [dl.line.chars]
  short : ∀ content ∈ files dl.line.chars, content.length < week11.serverBlock
  pieces : Segmentation week11.clientBlock (answer files dl.line.chars) dl.answerPieces

/-- The loop ends with a name that is free. -/
theorem newFileName_free (c : Client) (dir : Finset Name) (stack : Fin nameSize → Byte)
    (hdir : dir.card < 2 ^ 30) :
    ∃ name, name ∉ dir ∧ c.newFileName dir stack (dir.card + 2) = .found name := by
  obtain ⟨v, hv, hholds, hnum⟩ := start_spec c stack
  obtain ⟨name, hname, hfree, -⟩ := pick_start c dir hdir hholds hnum
  exact ⟨name, hfree, (newFileName_of_start hv dir _).trans hname⟩

theorem clientStream_serve {files : Files} (s : Server) {request : Name}
    (hshort : ∀ content ∈ files (s.path request), content.length < s.service.serverBlock) :
    clientStream (serve s files request) = answer files (s.path request) := by
  rw [serve, answer]
  cases hfile : files (s.path request) with
  | none =>
    rw [child_missing]
    rfl
  | some content =>
    rw [Option.getD_some]
    exact clientStream_short (hshort content hfile)

theorem Whole.step {files : Files} {dl : Download} (h : Whole files dl) {d : Directory}
    (hd : d.keys.card < 2 ^ 30) :
    ∃ name, name ∉ d ∧
      step files d dl = some (d.insert name (answer files dl.line.chars)) := by
  obtain ⟨name, hfree, hname⟩ := newFileName_free .week11 d.keys dl.stack hd
  have hlen : dl.line.chars.length < tempSize := Nat.lt_of_le_of_lt dl.line.short (by decide)
  have hrequest : Segmentation tempSize (request dl.line) dl.requestPieces := by
    rw [request_eq_chars h.noNul, h.onePiece]
    refine ⟨List.flatten_singleton, fun c hc => ?_⟩
    obtain rfl := List.mem_singleton.mp hc
    exact ⟨List.length_pos_iff.mpr h.nonempty, Nat.le_of_lt hlen⟩
  have hpath : fopenArgument (dl.requestPieces.map .data) = some dl.line.chars := by
    rw [h.onePiece, List.map_singleton, fopenArgument_data hlen h.noNul]
  have hstream : clientStream (serve .week11 files dl.line.chars) = answer files dl.line.chars :=
    clientStream_serve .week11 h.short
  refine ⟨name, by rwa [Finmap.mem_keys] at hfree, ?_⟩
  rw [FileDownloads.step, hname]
  simp only [h.onePiece ▸ List.cons_ne_nil _ _, hrequest, hpath, hstream, h.pieces,
    recvLoop_eq_flatten, h.pieces.flatten, ne_eq, not_false_eq_true, and_self, if_true,
    Option.bind_some]

end NetworkProgramming.FileDownloads

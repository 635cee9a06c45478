import NetworkProgramming.FileService.Downloads
import NetworkProgramming.Quiz2.Handshake

/-!
# Service 1 from end to end

One client after the other, each from its user's answer to the file that it has
stored: the choice on both sides, the handshake, the name and the transfer.
-/
namespace NetworkProgramming.QuizServiceOne

open Buffer Numeral ByteStream Transition UserInput FreshKeys FileTransfer FileNames FileMissing
  FileDownloads QuizSelection QuizServer

/-- What a client does not decide itself: its port, what its user answers, its arguments, what
its stack held and what its `read` calls return. -/
structure Client where
  port : Nat
  answer : Piece answerSize
  args : List Byte × List Byte
  stack : Fin nameSize → Byte
  buf : List Byte
  pieces : List (List Byte)

def Client.selection (c : Client) : Datagram := ⟨c.port, c.answer.chars⟩

def Client.request (c : Client) : Datagram := QuizHandshake.request (fun _ => c.args) c.port

structure System where
  server : QuizServer.State
  directory : Directory

/-- The calls of the server in a session. -/
def sessionCalls : List Label :=
  [.receive, .receive, .reply, .listen true, .accept true, .fork true]

/-- The client behind the reply: a free name, and what the server's child sends. -/
def download (files : Files) (d : Directory) (c : Client) : Option Directory :=
  match Client.quiz2.newFileName d.keys c.stack (d.keys.card + 2) with
  | .found name =>
    if Segmentation quiz2.clientBlock (clientStream (serve .quiz2 files c.request.data)) c.pieces
    then some (d.insert name (recvLoop c.buf c.pieces))
    else none
  | .overrun | .unfinished => none

/-- A client that chooses service 1 from its start to its end; it waits for the reply that is
addressed to it. A request that fills the server's `buf` would put the zero byte behind it. -/
def step (overflow : Int → Int) (port : Nat) (files : Files) (s : System) (c : Client) :
    Option System :=
  if clientService overflow c.answer.chars = .one ∧ c.request.data.length < bufSize then
    (run (QuizServer.step port)
        { s.server with inbox := s.server.inbox ++ [c.selection, c.request] } sessionCalls).bind
      fun server =>
        if server.replies.getLast? = some (c.port, replyText port) then
          (download files s.directory c).map fun directory => ⟨server, directory⟩
        else none
  else none

/-- The name that the server opens for everybody. -/
def fileName : Name := ascii "konkuk.txt"

/-- The answer is a 1 for both sides, the request fits, and the client reads the file, or the
notice, to its end. -/
structure Client.Chooses (c : Client) (files : Files) : Prop where
  one : SaysOne c.answer.chars
  short : c.request.data.length < bufSize
  pieces : Segmentation quiz2.clientBlock (FileDownloads.answer files fileName) c.pieces

/-- The server waits for a selection. -/
structure AtSelect (s : QuizServer.State) : Prop where
  pc : s.pc = .select
  servOpen : s.servOpen = true
  inbox : s.inbox = []

/-- The session that the server notes down. -/
def Client.session (c : Client) : Session :=
  ⟨⟨c.port, receivedText c.answer.chars⟩, c.request⟩

variable {files : Files} {c : Client} {s : System}

/-- The server's part. -/
theorem run_session (port : Nat) {server : QuizServer.State} (h : AtSelect server)
    (hone : serverService (receivedText c.answer.chars) = .one) :
    ∃ t, run (QuizServer.step port)
        { server with inbox := server.inbox ++ [c.selection, c.request] } sessionCalls = some t ∧
      AtSelect t ∧ t.sessions = server.sessions ++ [c.session] ∧
      t.replies = server.replies ++ [(c.port, replyText port)] := by
  refine ⟨{ server with
    pc := .select
    inbox := []
    buf := replyText port
    clntAdr := c.port
    selections := server.selections ++ [c.selection]
    sessions := server.sessions ++ [c.session]
    replies := server.replies ++ [(c.port, replyText port)] }, ?_, ⟨rfl, h.servOpen, rfl⟩, rfl, rfl⟩
  simp [sessionCalls, run, QuizServer.step, receiveStep, h.pc, h.servOpen, h.inbox, selected, hone,
    Client.selection, Client.session, Client.request, QuizHandshake.request]

theorem Client.Chooses.download (h : c.Chooses files)
    (hshort : ∀ content ∈ files fileName, content.length < quiz2.serverBlock) {d : Directory}
    (hd : d.keys.card < 2 ^ 30) :
    ∃ name, name ∉ d ∧
      download files d c = some (d.insert name (FileDownloads.answer files fileName)) := by
  obtain ⟨name, hfree, hname⟩ := newFileName_free .quiz2 d.keys c.stack hd
  have hstream : clientStream (serve .quiz2 files c.request.data) =
      FileDownloads.answer files fileName := clientStream_serve .quiz2 hshort
  refine ⟨name, by rwa [Finmap.mem_keys] at hfree, ?_⟩
  rw [QuizServiceOne.download, hname]
  simp only [hstream, h.pieces, if_true, recvLoop_eq_flatten, h.pieces.flatten]

theorem Client.Chooses.step (h : c.Chooses files) (overflow : Int → Int) (port : Nat)
    (hshort : ∀ content ∈ files fileName, content.length < quiz2.serverBlock)
    (hserver : AtSelect s.server) (hd : s.directory.keys.card < 2 ^ 30) :
    ∃ t name, step overflow port files s c = some t ∧ name ∉ s.directory ∧
      t.directory = s.directory.insert name (FileDownloads.answer files fileName) ∧
      AtSelect t.server ∧ t.server.sessions = s.server.sessions ++ [c.session] ∧
      t.server.replies = s.server.replies ++ [(c.port, replyText port)] := by
  obtain ⟨hnumber, hone⟩ := h.one.services
  have hclient : clientService overflow c.answer.chars = .one := by
    rw [clientService_fits (fitsInt_one hnumber), if_pos hnumber]
  rw [← receivedText_piece] at hone
  obtain ⟨server, hrun, hready, hsessions, hreplies⟩ := run_session port hserver hone
  obtain ⟨name, hfree, hdownload⟩ := h.download hshort hd
  refine ⟨⟨server, s.directory.insert name (FileDownloads.answer files fileName)⟩, name, ?_, hfree,
    rfl, hready, hsessions, hreplies⟩
  rw [QuizServiceOne.step, if_pos ⟨hclient, h.short⟩, hrun, Option.bind_some, hreplies,
    List.getLast?_concat, if_pos rfl, hdownload, Option.map_some]

def plain : Client :=
  ⟨40001, ⟨ascii "1\n", by decide, by decide, by decide, by decide⟩,
    (ascii "239.0.0.1", ascii "9190"), fun _ => 0, [], [ascii "hi"]⟩

end NetworkProgramming.QuizServiceOne

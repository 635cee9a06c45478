import NetworkProgramming.Library.Transition
import NetworkProgramming.Library.ByteStream
import NetworkProgramming.Library.Buffer
import NetworkProgramming.UserInput
import NetworkProgramming.FileTransfer
import NetworkProgramming.Calculator
import NetworkProgramming.ChatServer.Registry
import NetworkProgramming.ChatServer.Membership
import NetworkProgramming.ChatServer.Messages
import NetworkProgramming.ChatServer.Threads
import NetworkProgramming.ChatServer.Handoff
import NetworkProgramming.ChatServer.Broadcast
import NetworkProgramming.EchoLoop
import NetworkProgramming.SelectServer.Loop
import NetworkProgramming.SelectServer.Watched
import NetworkProgramming.SelectServer.Refinement
import NetworkProgramming.Library.Ledger
import NetworkProgramming.StoreServer.Processes
import NetworkProgramming.StoreServer.Backlog
import NetworkProgramming.StoreServer.HalfClose
import NetworkProgramming.Library.Frames
import NetworkProgramming.ChatServer.Lines
import NetworkProgramming.ChatServer.EndToEnd
import NetworkProgramming.Library.Numeral
import NetworkProgramming.Quiz2.Selection
import NetworkProgramming.Quiz2.Server
import NetworkProgramming.Quiz2.Sockets
import NetworkProgramming.Quiz2.Handshake
import NetworkProgramming.ForkServer.Processes
import NetworkProgramming.ForkServer.Services
import NetworkProgramming.ForkServer.Tables
import NetworkProgramming.ForkServer.Ownership
import NetworkProgramming.ForkServer.Children
import NetworkProgramming.StoreServer.Reaping
import NetworkProgramming.StoreServer.Log
import NetworkProgramming.ComputeServer
import NetworkProgramming.EchoSession
import NetworkProgramming.ChatServer.Underway
import NetworkProgramming.ChatServer.Backpressure
import NetworkProgramming.ChatServer.Disconnects
import NetworkProgramming.ChatServer.Bounds
import NetworkProgramming.ChatServer.HandleClnt
import NetworkProgramming.SelectServer.Failures
import NetworkProgramming.FileService.Names
import NetworkProgramming.FileService.Race
import NetworkProgramming.FileService.Request
import NetworkProgramming.FileService.Missing
import NetworkProgramming.Library.Columns
import NetworkProgramming.LineClients
import NetworkProgramming.Library.Datagram
import NetworkProgramming.NewsSender
import NetworkProgramming.Quiz2.Chat
import NetworkProgramming.UdpChat
import NetworkProgramming.ChatServer.RecvMsg
import NetworkProgramming.SuffixEcho
import NetworkProgramming.UdpEcho
import NetworkProgramming.ConnectedClient
import NetworkProgramming.MutexCounter
import NetworkProgramming.Library.Progress
import NetworkProgramming.Pipe
import NetworkProgramming.Library.LockStep
import NetworkProgramming.ChatSession
import NetworkProgramming.EchoTurns
import NetworkProgramming.CalculatorSession
import NetworkProgramming.NewsGroup
import NetworkProgramming.Library.FreshKeys
import NetworkProgramming.FileService.Downloads
import NetworkProgramming.SelectServer.Rounds
import NetworkProgramming.ChatServer.Progress
import NetworkProgramming.StoreServer.Shutdown
import NetworkProgramming.Library.RequestReply
import NetworkProgramming.ChatRooms
import NetworkProgramming.Console
import NetworkProgramming.Quiz2.ServiceOne

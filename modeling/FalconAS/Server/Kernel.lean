import FalconAS.Machine.Readiness
import FalconAS.Server.Loop

/-!
# The kernel under the server

What the kernel may answer to the system calls of the server loop. This is no translation of the repository, it is what
the server can rely on: a connection is a queue of bytes with an end, `epoll` is edge-triggered, and apart from that a
call may fail, `read` may return any part of what is there, and `accept` any file descriptor that is not in use.
-/

namespace FalconAS.Server

open FalconAS.Http FalconAS.Machine

/-! ## Connections -/

structure Connection where
  /-- What `read` has returned so far. -/
  delivered : Bytes
  /-- What has arrived behind that. -/
  unread : Bytes
  /-- The peer sends nothing more. -/
  finished : Bool
  /-- The connection has failed. -/
  broken : Bool
  deriving DecidableEq

/-- What the other end of a connection does. -/
inductive Activity where
  | send (bytes : Bytes)
  | finish
  | reset
  deriving DecidableEq

namespace Connection

def new : Connection := ⟨[], [], false, false⟩

/-- All that has arrived from the peer. -/
def arrived (c : Connection) : Bytes := c.delivered ++ c.unread

/-- `read` would not answer `EAGAIN`. -/
def readable (c : Connection) : Bool := !c.unread.isEmpty || c.finished || c.broken

def act (c : Connection) : Activity → Option Connection
  | .send bytes => if c.finished then none else some { c with unread := c.unread ++ bytes }
  | .finish => some { c with finished := true }
  | .reset => some { c with broken := true }

def read (c : Connection) (count : Nat) : ReadResult → Option Connection
  | .bytes received =>
      if received ≠ [] ∧ received.length ≤ count ∧ received.isPrefixOf c.unread = true then
        some { c with delivered := c.delivered ++ received, unread := c.unread.drop received.length }
      else none
  | .zero => if c.unread = [] ∧ c.finished = true then some c else none
  | .error .interrupted => some c
  | .error .other => if c.broken = true then some c else none
  | .error .again | .error .wouldBlock => if c.readable = true then none else some c

end Connection

/-! ## The kernel -/

structure Kernel where
  /-- Connections that are to be accepted. -/
  backlog : List Connection
  sockets : Filedescriptor → Option Connection
  epoll : Readiness Filedescriptor

/-- A connection that waits to be accepted, or one that is open. -/
inductive Peer where
  | queued (index : Nat)
  | opened (fd : Filedescriptor)
  deriving DecidableEq

namespace Kernel

def empty : Kernel := ⟨[], fun _ => none, .empty⟩

def readable (k : Kernel) (fd : Filedescriptor) : Bool := (k.sockets fd).any Connection.readable

def connect (k : Kernel) : Kernel := { k with backlog := k.backlog ++ [.new] }

def act (k : Kernel) : Peer → Activity → Option Kernel
  | .queued index, a =>
      (k.backlog[index]?).bind fun c => (c.act a).map fun c => { k with backlog := k.backlog.set index c }
  | .opened fd, a =>
      (k.sockets fd).bind fun c => (c.act a).map fun c =>
        { k with sockets := Function.update k.sockets fd (some c), epoll := k.epoll.wake fd }

/-- The state behind an answer, where the kernel can give it. -/
def answer (k : Kernel) : Call → Answer → Option Kernel
  | .poll, .poll none => some k
  | .poll, .poll (some incoming) => if incoming = !k.backlog.isEmpty then some k else none
  | .sleep, .sleep => some k
  | .accept, .accept fd =>
      if fd < 0 then some k
      else
        match k.backlog, k.sockets fd with
        | c :: backlog, none => some { k with backlog := backlog, sockets := Function.update k.sockets fd (some c) }
        | _, _ => none
  -- the connection is gone
  | .accept, .aborted =>
      match k.backlog with
      | _ :: backlog => some { k with backlog := backlog }
      | [] => none
  | .fcntl _, .fcntl _ => some k
  | .epollCtl fd, .epollCtl true =>
      if fd ∈ k.epoll.watched then none
      else (k.sockets fd).map fun c => { k with epoll := k.epoll.add fd c.readable }
  | .epollCtl _, .epollCtl false => some k
  | .epollWait _, .epollWait none => some k
  | .epollWait maxEvents, .epollWait (some events) =>
      if events = (k.epoll.take k.readable maxEvents).1 then
        some { k with epoll := (k.epoll.take k.readable maxEvents).2 }
      else none
  | .read fd _ count, .read result =>
      (k.sockets fd).bind fun c => (c.read count result).map fun c =>
        { k with sockets := Function.update k.sockets fd (some c) }
  | .close fd, .close =>
      some { k with sockets := Function.update k.sockets fd none, epoll := k.epoll.remove fd }
  | _, _ => none

end Kernel

end FalconAS.Server

import Mathlib.Logic.Function.Basic
import FalconAS.Http.Parser
import FalconAS.Server.MemoryManager

/-!
# The server loop

`ServerLoop` and `acceptClient` of `src/Server.cpp`, `src/ClientHandler.cpp` and `src/Client.cpp`. The process runs from
one system call to the next: a `Point` is the place where it waits for the answer to a call, and `resume` is the code
behind it, up to the next call. What the kernel answers is in `Kernel.lean`.
-/

namespace FalconAS.Server

open FalconAS.Http FalconAS.Memory

/-! ## System calls -/

/-- `Filedescriptor_t`. -/
abbrev Filedescriptor := Int

/-- `CLIENTS_MAX`. -/
def clientsMax : UInt16 := 4096 * 2

def socketReceiveBufferSize : UInt16 := 4096

def epollFdCountMax : Nat := 512

/-- What `receiveData` tells apart of `errno`. -/
inductive Errno where
  | again
  | wouldBlock
  | interrupted
  | other
  deriving DecidableEq

/-- What `read` returns: a positive number of bytes, which are in the buffer, or zero, or less. -/
inductive ReadResult where
  | bytes (received : Bytes)
  | zero
  | error (errno : Errno)
  deriving DecidableEq

inductive Call where
  | poll
  | sleep
  | accept
  /-- `fcntl` with `O_NONBLOCK`. -/
  | fcntl (fd : Filedescriptor)
  /-- `epoll_ctl` with `EPOLL_CTL_ADD` and `EPOLLIN | EPOLLET`. -/
  | epollCtl (fd : Filedescriptor)
  | epollWait (maxEvents : Nat)
  | read (fd : Filedescriptor) (address count : Nat)
  | close (fd : Filedescriptor)
  deriving DecidableEq

inductive Answer where
  /-- `none` is an error, else whether `revents` has `POLLIN`. -/
  | poll (incoming : Option Bool)
  | sleep
  /-- A negative number is an error. -/
  | accept (fd : Filedescriptor)
  /-- `accept` fails with `ECONNABORTED`. -/
  | aborted
  | fcntl (done : Bool)
  | epollCtl (done : Bool)
  /-- `none` is an error, else the file descriptors of the events. -/
  | epollWait (events : Option (List Filedescriptor))
  | read (result : ReadResult)
  | close
  deriving DecidableEq

/-! ## The process -/

structure Client extends HTTPParser where
  clientFD : Filedescriptor
  receiveBuffer : Nat

def Client.fresh (clientFD : Filedescriptor) (bufferAddress : Nat) : Client where
  toHTTPParser := HTTPParser.fresh 4096
  clientFD := clientFD
  receiveBuffer := bufferAddress

/-- Where the process is. -/
inductive Point where
  | polling
  | sleeping
  | accepting
  /-- In `makeNonblocking`, called by `addClient`. -/
  | unblocking (fd : Filedescriptor)
  | registering (fd : Filedescriptor)
  | waiting
  /-- In `receiveData` of a client, with the events that `readClientData` has still to handle. -/
  | receiving (fd : Filedescriptor) (rest : List Filedescriptor)
  | closing (fd : Filedescriptor) (rest : List Filedescriptor)
  /-- `ServerLoop` has returned. -/
  | returned
  /-- `exit(EXIT_FAILURE)`. -/
  | exited
  /-- An exception that nobody catches. -/
  | terminated (e : Exception)
  deriving DecidableEq

/-- The members of `Server` and `ClientHandler`, and the memory that the receive buffers are in. -/
structure Process where
  runServer : Bool
  processedClients : UInt16
  bufferMemory : MemoryManager
  clients : Filedescriptor → Option Client
  memory : Nat → UInt8
  point : Point

theorem length_load_lt (memory : Nat → UInt8) (address : Nat) (recvBytes : UInt16) :
    (Heap.load memory address recvBytes.toNat).length < UInt16.size := by
  rw [Heap.length_load]
  exact recvBytes.toNat_lt

/-- The arguments of `appendBuffer`: an address and a number of bytes. -/
def chunkAt (memory : Nat → UInt8) (address : Nat) (recvBytes : UInt16) : Chunk :=
  ⟨Heap.load memory address recvBytes.toNat, length_load_lt memory address recvBytes⟩

namespace Process

/-- `while(RunServer)`, up to `poll`. -/
def serverLoop (s : Process) : Process :=
  { s with point := if s.runServer then .polling else .returned }

/-- Up to `epoll_wait`. -/
def processClients (s : Process) : Process :=
  { s with processedClients := 0, point := .waiting }

/-- `ServerLoop` behind `poll`. -/
def polled (s : Process) : Option Bool → Process
  | none => s.processClients
  | some true => { s with point := .accepting }
  | some false => if s.processedClients = 0 then { s with point := .sleeping } else s.processClients

/-- `acceptClient` behind `accept`. -/
def acceptClient (s : Process) (clientFD : Filedescriptor) : Process :=
  if clientFD > 0 then { s with point := .unblocking clientFD } else s.processClients

/-- `emplace` of the map: a key that is already there keeps its client. -/
def emplace (clients : Filedescriptor → Option Client) (fd : Filedescriptor) (client : Client) :
    Filedescriptor → Option Client :=
  if (clients fd).isSome then clients else Function.update clients fd (some client)

/-- `addClient` behind `makeNonblocking`, which ends the process where it fails. -/
def addClient (s : Process) (clientFD : Filedescriptor) (nonblocking : Bool) : Process :=
  if nonblocking then
    let (address, bufferMemory) := s.bufferMemory.getNextMemPointer 1
    { s with
      bufferMemory := bufferMemory
      clients := emplace s.clients clientFD (Client.fresh clientFD address)
      point := .registering clientFD }
  else { s with point := .exited }

/-- `readClientData` over the events that are left, up to the next `read`. -/
def readClientData (s : Process) : List Filedescriptor → Process
  | [] => s.serverLoop
  | fd :: rest => if (s.clients fd).isSome then { s with point := .receiving fd rest } else s.readClientData rest

/-- `receiveData` behind `read`, and what `readClientData` does with its result. -/
def receiveData (R : Readers) (s : Process) (client : Client) (fd : Filedescriptor) (rest : List Filedescriptor) :
    ReadResult → Process
  | .bytes received =>
      let memory := Heap.store s.memory client.receiveBuffer received
      -- `RcvBytes` becomes a `uint16_t`
      match client.appendBuffer R (chunkAt memory client.receiveBuffer (UInt16.ofNat received.length)) with
      | .ok _ parser =>
          { s with
            memory := memory
            clients := Function.update s.clients fd (some { client with toHTTPParser := parser }) }
      | .error e parser =>
          { s with
            memory := memory
            clients := Function.update s.clients fd (some { client with toHTTPParser := parser })
            point := .terminated e }
  | .zero => { s with clients := Function.update s.clients fd none, point := .closing fd rest }
  | .error .other => { s with clients := Function.update s.clients fd none, point := .closing fd rest }
  | .error .again | .error .wouldBlock | .error .interrupted => s.readClientData rest

/-- The system call that the process waits for. -/
def call (s : Process) : Option Call :=
  match s.point with
  | .polling => some .poll
  | .sleeping => some .sleep
  | .accepting => some .accept
  | .unblocking fd => some (.fcntl fd)
  | .registering fd => some (.epollCtl fd)
  | .waiting => some (.epollWait epollFdCountMax)
  | .receiving fd _ =>
      (s.clients fd).map fun client => .read client.clientFD client.receiveBuffer socketReceiveBufferSize.toNat
  | .closing fd _ => some (.close fd)
  | .returned | .exited | .terminated _ => none

/-- The code behind the system call, up to the next one. -/
def resume (R : Readers) (s : Process) (a : Answer) : Option Process :=
  match s.point, a with
  | .polling, .poll incoming => some (s.polled incoming)
  | .sleeping, .sleep => some s.processClients
  | .accepting, .accept fd => some (s.acceptClient fd)
  | .accepting, .aborted => some (s.acceptClient (-1))
  | .unblocking fd, .fcntl done => some (s.addClient fd done)
  -- the result of `epoll_ctl` is not looked at
  | .registering _, .epollCtl _ => some s.processClients
  | .waiting, .epollWait none => some s.serverLoop
  -- `FDCount` becomes a `uint16_t`
  | .waiting, .epollWait (some events) => some (s.readClientData (events.take (UInt16.ofNat events.length).toNat))
  | .receiving fd rest, .read result => (s.clients fd).map fun client => s.receiveData R client fd rest result
  | .closing _ rest, .close => some (s.readClientData rest)
  | _, _ => none

/-- `ServerLoop` is entered with an empty client handler. -/
def start (bufferMemory : MemoryManager) (memory : Nat → UInt8) : Process :=
  serverLoop
    { runServer := true
      processedClients := 0
      bufferMemory := bufferMemory
      clients := fun _ => none
      memory := memory
      point := .polling }

end Process

end FalconAS.Server

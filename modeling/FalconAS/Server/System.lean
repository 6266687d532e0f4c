import FalconAS.Machine.Events
import FalconAS.Server.Kernel

/-!
# The server and its peers

The process, the kernel, and all that can happen to them: peers connect, send, finish and fail, the process is told to
terminate, and the kernel answers the system call that the process waits for. These come in any order.
-/

namespace FalconAS.Server

open FalconAS.Http FalconAS.Machine

structure System where
  process : Process
  kernel : Kernel

inductive Event where
  | connect
  | peer (peer : Peer) (activity : Activity)
  /-- `SIGTERM`, whose handler resets `RunServer`. -/
  | terminate
  | answer (a : Answer)
  deriving DecidableEq

namespace System

def start (bufferMemory : MemoryManager) (memory : Nat → UInt8) : System :=
  ⟨.start bufferMemory memory, .empty⟩

def step (R : Readers) (s : System) : Event → Option System
  | .connect => some { s with kernel := s.kernel.connect }
  | .peer peer a => (s.kernel.act peer a).map fun kernel => { s with kernel := kernel }
  | .terminate => some { s with process := { s.process with runServer := false } }
  | .answer a =>
      s.process.call.bind fun call => (s.kernel.answer call a).bind fun kernel =>
        (s.process.resume R a).map fun process => ⟨process, kernel⟩

end System

/-- A connection is made and accepted. -/
def connected (fd : Filedescriptor) : List Event :=
  [.connect, .answer (.poll (some true)), .answer (.accept fd), .answer (.fcntl true), .answer (.epollCtl true)]

/-! ## What an event does -/

/-- The process is between two clients, or has left the loop. -/
def Point.Idle : Point → Prop
  | .polling | .sleeping | .accepting | .waiting | .returned => True
  | _ => False

theorem Point.Idle.ne_receiving {q : Point} (h : q.Idle) (fd : Filedescriptor) (rest : List Filedescriptor) :
    q ≠ .receiving fd rest := by
  rintro rfl
  exact h

theorem Point.Idle.ne_closing {q : Point} (h : q.Idle) (fd : Filedescriptor) (rest : List Filedescriptor) :
    q ≠ .closing fd rest := by
  rintro rfl
  exact h

theorem Point.Idle.ne_terminated {q : Point} (h : q.Idle) (e : Exception) : q ≠ .terminated e := by
  rintro rfl
  exact h

/-- At most so many calls are answered up to the next `epoll_wait`, the clients in hand left aside. -/
def Point.callsLeft : Point → Nat
  | .receiving _ _ | .closing _ _ => 6
  | .polling => 5
  | .accepting => 4
  | .unblocking _ => 3
  | .registering _ | .sleeping => 2
  | .waiting => 1
  | .returned | .exited | .terminated _ => 0

/-- The process goes on to a point where no client is handled, and its clients stay as they are. -/
def Process.MovesOn (p p' : Process) : Prop :=
  ∃ processed q, q.Idle ∧ p' = { p with processedClients := processed, point := q }

theorem Process.movesOn_serverLoop (p : Process) : p.MovesOn p.serverLoop := by
  refine ⟨p.processedClients, if p.runServer then .polling else .returned, ?_, rfl⟩
  cases p.runServer <;> exact trivial

theorem Process.movesOn_processClients (p : Process) : p.MovesOn p.processClients :=
  ⟨0, .waiting, trivial, rfl⟩

theorem Process.callsLeft_processClients (p : Process)
    (h : p.point = .polling ∨ p.point = .sleeping ∨ p.point = .accepting) :
    p.processClients.point.callsLeft < p.point.callsLeft := by
  rcases h with h | h | h <;> simp [h, processClients, Point.callsLeft]

/-- The connection gets to its end: the peer has finished and all of it is read, or it has failed. -/
def Connection.Over (c : Connection) : Prop := c.unread = [] ∧ c.finished = true ∨ c.broken = true

/-- All that an event can do. -/
inductive System.Does (R : Readers) : System → Event → System → Prop where
  | connect {p : Process} {k : Kernel} : Does R ⟨p, k⟩ .connect ⟨p, k.connect⟩
  | queued {p : Process} {k : Kernel} {index : Nat} {a : Activity} {c c' : Connection}
      (hc : k.backlog[index]? = some c) (ha : c.act a = some c') :
      Does R ⟨p, k⟩ (.peer (.queued index) a) ⟨p, { k with backlog := k.backlog.set index c' }⟩
  | opened {p : Process} {k : Kernel} {fd : Filedescriptor} {a : Activity} {c c' : Connection}
      (hc : k.sockets fd = some c) (ha : c.act a = some c') :
      Does R ⟨p, k⟩ (.peer (.opened fd) a)
        ⟨p, { k with sockets := Function.update k.sockets fd (some c'), epoll := k.epoll.wake fd }⟩
  | terminate {p : Process} {k : Kernel} : Does R ⟨p, k⟩ .terminate ⟨{ p with runServer := false }, k⟩
  | movesOn {p p' : Process} {k : Kernel} {a : Answer} (hp : p.point.Idle) (hp' : p.MovesOn p')
      (hleft : p'.point.callsLeft < p.point.callsLeft ∨ a = .epollWait none) :
      Does R ⟨p, k⟩ (.answer a) ⟨p', k⟩
  | accepted {p : Process} {k : Kernel} {fd : Filedescriptor} {c : Connection} {backlog : List Connection}
      (hp : p.point = .accepting) (hb : k.backlog = c :: backlog) (hfd : k.sockets fd = none) :
      Does R ⟨p, k⟩ (.answer (.accept fd))
        ⟨p.acceptClient fd, { k with backlog := backlog, sockets := Function.update k.sockets fd (some c) }⟩
  | aborted {p : Process} {k : Kernel} {c : Connection} {backlog : List Connection} (hp : p.point = .accepting)
      (hb : k.backlog = c :: backlog) :
      Does R ⟨p, k⟩ (.answer .aborted) ⟨p.processClients, { k with backlog := backlog }⟩
  | unblocked {p : Process} {k : Kernel} {fd : Filedescriptor} {done : Bool} (hp : p.point = .unblocking fd) :
      Does R ⟨p, k⟩ (.answer (.fcntl done)) ⟨p.addClient fd done, k⟩
  | registered {p : Process} {k : Kernel} {fd : Filedescriptor} {c : Connection} (hp : p.point = .registering fd)
      (hw : fd ∉ k.epoll.watched) (hc : k.sockets fd = some c) :
      Does R ⟨p, k⟩ (.answer (.epollCtl true)) ⟨p.processClients, { k with epoll := k.epoll.add fd c.readable }⟩
  | unregistered {p : Process} {k : Kernel} {fd : Filedescriptor} (hp : p.point = .registering fd) :
      Does R ⟨p, k⟩ (.answer (.epollCtl false)) ⟨p.processClients, k⟩
  | waited {p : Process} {k : Kernel} {events : List Filedescriptor} (hp : p.point = .waiting)
      (he : events = (k.epoll.take k.readable epollFdCountMax).1) :
      Does R ⟨p, k⟩ (.answer (.epollWait (some events)))
        ⟨p.readClientData events, { k with epoll := (k.epoll.take k.readable epollFdCountMax).2 }⟩
  | received {p : Process} {k : Kernel} {fd : Filedescriptor} {rest : List Filedescriptor} {client : Client}
      {c : Connection} {chunk : Chunk} {unread : Bytes} (hp : p.point = .receiving fd rest)
      (hclient : p.clients fd = some client) (hc : k.sockets client.clientFD = some c)
      (hne : chunk.bytes ≠ []) (hlen : chunk.bytes.length ≤ socketReceiveBufferSize.toNat)
      (hunread : c.unread = chunk.bytes ++ unread) {p' : Process}
      (hp' : p' = p.receiveData R client fd rest (.bytes chunk.bytes)) :
      Does R ⟨p, k⟩ (.answer (.read (.bytes chunk.bytes))) ⟨p', { k with
        sockets := Function.update k.sockets client.clientFD
          (some { c with delivered := c.delivered ++ chunk.bytes, unread := unread }) }⟩
  | ended {p : Process} {k : Kernel} {fd : Filedescriptor} {rest : List Filedescriptor} {client : Client}
      {c : Connection} {result : ReadResult} (hp : p.point = .receiving fd rest)
      (hclient : p.clients fd = some client) (hc : k.sockets client.clientFD = some c) (hover : c.Over) :
      Does R ⟨p, k⟩ (.answer (.read result))
        ⟨{ p with clients := Function.update p.clients fd none, point := .closing fd rest }, k⟩
  | drained {p : Process} {k : Kernel} {fd : Filedescriptor} {rest : List Filedescriptor} {client : Client}
      {c : Connection} {result : ReadResult} (hp : p.point = .receiving fd rest)
      (hclient : p.clients fd = some client) (hc : k.sockets client.clientFD = some c)
      (hread : c.readable = false ∨ result = .error .interrupted) :
      Does R ⟨p, k⟩ (.answer (.read result)) ⟨p.readClientData rest, k⟩
  | closed {p : Process} {k : Kernel} {fd : Filedescriptor} {rest : List Filedescriptor}
      (hp : p.point = .closing fd rest) :
      Does R ⟨p, k⟩ (.answer .close) ⟨p.readClientData rest,
        { k with sockets := Function.update k.sockets fd none, epoll := k.epoll.remove fd }⟩

namespace System

variable {R : Readers}

private theorem does_poll {p p' : Process} {k k' : Kernel} {a : Answer} (hp : p.point = .polling)
    (hk : k.answer .poll a = some k') (hp' : p.resume R a = some p') : Does R ⟨p, k⟩ (.answer a) ⟨p', k'⟩ := by
  cases a with
  | poll incoming =>
      have hkeep : k' = k := by
        cases incoming with
        | none => exact (Option.some.inj hk).symm
        | some b =>
            rw [Kernel.answer] at hk
            split at hk
            · exact (Option.some.inj hk).symm
            · cases hk
      simp only [Process.resume, hp] at hp'
      cases hp'
      rw [hkeep]
      have hidle : p.point.Idle := by rw [hp]; trivial
      match incoming with
      | none => exact .movesOn hidle p.movesOn_processClients (.inl (p.callsLeft_processClients (by simp [hp])))
      | some true =>
          exact .movesOn hidle ⟨p.processedClients, .accepting, trivial, rfl⟩
            (.inl (by simp [hp, Process.polled, Point.callsLeft]))
      | some false =>
          rw [Process.polled]
          split
          · exact .movesOn hidle ⟨p.processedClients, .sleeping, trivial, rfl⟩ (.inl (by simp [hp, Point.callsLeft]))
          · exact .movesOn hidle p.movesOn_processClients (.inl (p.callsLeft_processClients (by simp [hp])))
  | _ => cases hk

private theorem does_accept {p p' : Process} {k k' : Kernel} {a : Answer} (hp : p.point = .accepting)
    (hk : k.answer .accept a = some k') (hp' : p.resume R a = some p') : Does R ⟨p, k⟩ (.answer a) ⟨p', k'⟩ := by
  cases a with
  | accept fd =>
      simp only [Process.resume, hp] at hp'
      cases hp'
      rw [Kernel.answer] at hk
      split at hk
      · rename_i hneg
        cases hk
        rw [Process.acceptClient, if_neg (Int.lt_asymm hneg)]
        exact .movesOn (by rw [hp]; trivial) p.movesOn_processClients (.inl (p.callsLeft_processClients (by simp [hp])))
      · split at hk
        · cases hk
          exact .accepted hp ‹_› ‹_›
        · cases hk
  | aborted =>
      simp only [Process.resume, hp] at hp'
      cases hp'
      rw [Kernel.answer] at hk
      split at hk
      · cases hk
        exact .aborted hp ‹_›
      · cases hk
  | _ => cases hk

private theorem does_register {p p' : Process} {k k' : Kernel} {a : Answer} {fd : Filedescriptor}
    (hp : p.point = .registering fd) (hk : k.answer (.epollCtl fd) a = some k') (hp' : p.resume R a = some p') :
    Does R ⟨p, k⟩ (.answer a) ⟨p', k'⟩ := by
  cases a with
  | epollCtl done =>
      simp only [Process.resume, hp] at hp'
      cases hp'
      cases done with
      | false => cases hk; exact .unregistered hp
      | true =>
          rw [Kernel.answer] at hk
          split at hk
          · cases hk
          · rename_i hw
            obtain ⟨c, hc, rfl⟩ := Option.map_eq_some_iff.mp hk
            exact .registered hp hw hc
  | _ => cases hk

private theorem does_wait {p p' : Process} {k k' : Kernel} {a : Answer} (hp : p.point = .waiting)
    (hk : k.answer (.epollWait epollFdCountMax) a = some k') (hp' : p.resume R a = some p') :
    Does R ⟨p, k⟩ (.answer a) ⟨p', k'⟩ := by
  cases a with
  | epollWait events =>
      cases events with
      | none =>
          simp only [Process.resume, hp] at hp'
          cases hp'
          cases hk
          exact .movesOn (by rw [hp]; trivial) p.movesOn_serverLoop (.inr rfl)
      | some events =>
          rw [Kernel.answer] at hk
          split at hk
          · rename_i he
            cases hk
            -- `FDCount` is not narrowed: `epoll_wait` reports no more than it is asked for
            have hle : events.length ≤ epollFdCountMax := by
              rw [he]
              exact Readiness.length_collect_le _ _
            have hall : events.take (UInt16.ofNat events.length).toNat = events := by
              rw [UInt16.toNat_ofNat_of_lt' (Nat.lt_of_le_of_lt hle (by decide)), List.take_length]
            simp only [Process.resume, hp] at hp'
            simp only [hall, Option.some.injEq] at hp'
            rw [← hp']
            exact .waited hp he
          · cases hk
  | _ => cases hk

private theorem does_read {p p' : Process} {k k' : Kernel} {a : Answer} {fd : Filedescriptor}
    {rest : List Filedescriptor} {client : Client} (hp : p.point = .receiving fd rest)
    (hclient : p.clients fd = some client)
    (hk : k.answer (.read client.clientFD client.receiveBuffer socketReceiveBufferSize.toNat) a = some k')
    (hp' : p.resume R a = some p') : Does R ⟨p, k⟩ (.answer a) ⟨p', k'⟩ := by
  cases a with
  | read result =>
      simp only [Process.resume, hp] at hp'
      simp only [hclient, Option.map_some, Option.some.injEq] at hp'
      subst hp'
      rw [Kernel.answer, Option.bind_eq_some_iff] at hk
      obtain ⟨c, hc, hk⟩ := hk
      obtain ⟨c', hread, rfl⟩ := Option.map_eq_some_iff.mp hk
      have hsame : c' = c → { k with sockets := Function.update k.sockets client.clientFD (some c') } = k := by
        rintro rfl
        rw [← hc, Function.update_eq_self]
      match result with
      | .bytes received =>
          rw [Connection.read] at hread
          split at hread
          · rename_i hcond
            cases hread
            obtain ⟨hne, hlen, hpre⟩ := hcond
            obtain ⟨unread, hunread⟩ := List.isPrefixOf_iff_prefix.mp hpre
            have hdrop : c.unread.drop received.length = unread := by rw [← hunread, List.drop_left]
            rw [hdrop]
            obtain ⟨chunk, rfl⟩ : ∃ chunk : Chunk, chunk.bytes = received :=
              ⟨⟨received, Nat.lt_of_le_of_lt hlen (by decide)⟩, rfl⟩
            exact .received hp hclient hc hne hlen hunread.symm rfl
          · cases hread
      | .zero =>
          rw [Connection.read] at hread
          split at hread
          · cases hread
            rw [hsame rfl]
            exact .ended hp hclient hc (.inl ‹_›)
          · cases hread
      | .error .other =>
          rw [Connection.read] at hread
          split at hread
          · cases hread
            rw [hsame rfl]
            exact .ended hp hclient hc (.inr ‹_›)
          · cases hread
      | .error .interrupted =>
          cases hread
          rw [hsame rfl]
          exact .drained hp hclient hc (.inr rfl)
      | .error .again | .error .wouldBlock =>
          rw [Connection.read] at hread
          split at hread
          · cases hread
          · cases hread
            rw [hsame rfl]
            exact .drained hp hclient hc (.inl (Bool.eq_false_iff.mpr ‹_›))
  | _ => cases hk

theorem step_does {s s' : System} {e : Event} (h : s.step R e = some s') : Does R s e s' := by
  obtain ⟨p, k⟩ := s
  cases e with
  | connect => cases h; exact .connect
  | terminate => cases h; exact .terminate
  | peer peer a =>
      obtain ⟨k', hk, rfl⟩ := Option.map_eq_some_iff.mp h
      cases peer with
      | queued index =>
          obtain ⟨c, hc, hk⟩ := Option.bind_eq_some_iff.mp hk
          obtain ⟨c', ha, rfl⟩ := Option.map_eq_some_iff.mp hk
          exact .queued hc ha
      | opened fd =>
          obtain ⟨c, hc, hk⟩ := Option.bind_eq_some_iff.mp hk
          obtain ⟨c', ha, rfl⟩ := Option.map_eq_some_iff.mp hk
          exact .opened hc ha
  | answer a =>
      obtain ⟨call, hcall, h⟩ := Option.bind_eq_some_iff.mp h
      obtain ⟨k', hk, h⟩ := Option.bind_eq_some_iff.mp h
      obtain ⟨p', hp', rfl⟩ := Option.map_eq_some_iff.mp h
      rw [Process.call] at hcall
      cases hp : p.point with
      | polling => simp only [hp] at hcall; cases hcall; exact does_poll hp hk hp'
      | accepting => simp only [hp] at hcall; cases hcall; exact does_accept hp hk hp'
      | registering fd => simp only [hp] at hcall; cases hcall; exact does_register hp hk hp'
      | waiting => simp only [hp] at hcall; cases hcall; exact does_wait hp hk hp'
      | receiving fd rest =>
          simp only [hp] at hcall
          obtain ⟨client, hclient, rfl⟩ := Option.map_eq_some_iff.mp hcall
          exact does_read hp hclient hk hp'
      | sleeping =>
          simp only [hp] at hcall
          cases hcall
          cases a <;> cases hk
          simp only [Process.resume, hp] at hp'
          cases hp'
          exact .movesOn (by rw [hp]; trivial) p.movesOn_processClients
            (.inl (p.callsLeft_processClients (by simp [hp])))
      | unblocking fd =>
          simp only [hp] at hcall
          cases hcall
          cases a <;> cases hk
          simp only [Process.resume, hp] at hp'
          cases hp'
          exact .unblocked hp
      | closing fd rest =>
          simp only [hp] at hcall
          cases hcall
          cases a <;> cases hk
          simp only [Process.resume, hp] at hp'
          cases hp'
          exact .closed hp
      | returned => simp [hp] at hcall
      | exited => simp [hp] at hcall
      | terminated e => simp [hp] at hcall

/-- What `epoll_wait` reports. -/
theorem events_of_step {s s' : System} {events : List Filedescriptor} (hp : s.process.point = .waiting)
    (h : s.step R (.answer (.epollWait (some events))) = some s') :
    events = (s.kernel.epoll.take s.kernel.readable epollFdCountMax).1 := by
  obtain ⟨call, hcall, h⟩ := Option.bind_eq_some_iff.mp h
  obtain ⟨kernel, hk, -⟩ := Option.bind_eq_some_iff.mp h
  simp only [Process.call, hp, Option.some.injEq] at hcall
  subst hcall
  rw [Kernel.answer] at hk
  split at hk
  · assumption
  · cases hk

end System

end FalconAS.Server

import Mathlib.Algebra.Order.BigOperators.Group.List
import Mathlib.Algebra.Order.Ring.Nat
import FalconAS.Server.Theorems.Wakeups

/-!
# What has arrived is parsed

When the peers fall silent, the loop comes to a turn in which nothing is left to be read, after a number of system calls
that is bounded by the bytes that were there.
-/

namespace FalconAS.Server

open FalconAS.Http FalconAS.Machine

/-! ## Work -/

abbrev Sockets := Filedescriptor → Option Connection

/-- The bytes that are to be read from a connection. -/
def unreadLength (sockets : Sockets) (fd : Filedescriptor) : Nat :=
  match sockets fd with
  | some c => c.unread.length
  | none => 0

section

variable {sockets : Sockets} {fd fd' : Filedescriptor} {v : Option Connection}

theorem unreadLength_some {c : Connection} (h : sockets fd = some c) : unreadLength sockets fd = c.unread.length := by
  rw [unreadLength, h]

theorem unreadLength_of_ne (hne : fd' ≠ fd) :
    unreadLength (Function.update sockets fd v) fd' = unreadLength sockets fd' := by
  rw [unreadLength, Function.update_of_ne hne, unreadLength]

/-- Where less is left of one connection, nothing more is left of any. -/
theorem unreadLength_update_le (h : unreadLength (Function.update sockets fd v) fd ≤ unreadLength sockets fd)
    (fd' : Filedescriptor) : unreadLength (Function.update sockets fd v) fd' ≤ unreadLength sockets fd' := by
  by_cases heq : fd' = fd
  · rw [heq]
    exact h
  · exact Nat.le_of_eq (unreadLength_of_ne heq)

end

/-- A bound for the calls for these connections: one for every byte, and so many more for each connection. -/
def callsFor (more : Nat) (sockets : Sockets) (fds : List Filedescriptor) : Nat :=
  (fds.map (unreadLength sockets · + more)).sum

theorem callsFor_cons (more : Nat) (sockets : Sockets) (fd : Filedescriptor) (fds : List Filedescriptor) :
    callsFor more sockets (fd :: fds) = unreadLength sockets fd + more + callsFor more sockets fds :=
  List.sum_cons

/-- It is no more where no more is left of any of them. -/
theorem callsFor_mono {more : Nat} {sockets sockets' : Sockets} {fds : List Filedescriptor}
    (h : ∀ fd ∈ fds, unreadLength sockets fd ≤ unreadLength sockets' fd) :
    callsFor more sockets fds ≤ callsFor more sockets' fds :=
  List.sum_le_sum fun fd hfd => Nat.add_le_add_right (h fd hfd) more

theorem callsFor_sublist {more : Nat} {sockets : Sockets} {fds fds' : List Filedescriptor} (h : fds.Sublist fds') :
    callsFor more sockets fds ≤ callsFor more sockets fds' :=
  (h.map _).sum_le_sum fun _ _ => Nat.zero_le _

namespace System

/-- How many system calls are left to be made at a point, for the connections that were reported or are just being
added, and up to the next `epoll_wait`. -/
def workInHand (sockets : Sockets) (q : Point) : Nat :=
  q.callsLeft +
    match q with
    | .unblocking fd | .registering fd => unreadLength sockets fd + 8
    | .receiving fd rest => callsFor 2 sockets (fd :: rest)
    | .closing _ rest => 1 + callsFor 2 sockets rest
    | _ => 0

/-- A bound for the system calls up to the turn in which nothing is left to be read. -/
def work (s : System) : Nat :=
  workInHand s.kernel.sockets s.process.point + callsFor 8 s.kernel.sockets s.kernel.epoll.ready +
    (s.kernel.backlog.map fun c => c.unread.length + 8).sum

theorem workInHand_idle {sockets : Sockets} {q : Point} (h : q.Idle) : workInHand sockets q = q.callsLeft := by
  cases q <;> first | rfl | exact h.elim

theorem workInHand_serverLoop (p : Process) (sockets : Sockets) :
    workInHand sockets p.serverLoop.point = if p.runServer then 5 else 0 := by
  rw [Process.serverLoop]
  cases p.runServer <;> rfl

/-- Behind a client the next one in hand is taken up, or the loop begins again. -/
theorem workInHand_readClientData {p : Process} {rest : List Filedescriptor}
    (h : ∀ fd ∈ rest, (p.clients fd).isSome = true) (sockets : Sockets) :
    workInHand sockets (p.readClientData rest).point ≤ 6 + callsFor 2 sockets rest := by
  cases rest with
  | nil =>
      rw [Process.readClientData, workInHand_serverLoop]
      split <;> simp [callsFor]
  | cons fd rest =>
      rw [Process.readClientData, if_pos (h fd List.mem_cons_self)]
      exact Nat.le_refl _

variable {R : Readers} {m : MemoryManager}

/-- The new connection takes its work along from the backlog. -/
theorem work_accepted {p : Process} {k : Kernel} {fd : Filedescriptor} {c : Connection} {backlog : List Connection}
    (hkept : Kept R m ⟨p, k⟩) (hp : p.point = .accepting) (hb : k.backlog = c :: backlog)
    (hfd : k.sockets fd = none) :
    work ⟨p.acceptClient fd, { k with backlog := backlog, sockets := Function.update k.sockets fd (some c) }⟩ <
      work ⟨p, k⟩ := by
  have hready : callsFor 8 (Function.update k.sockets fd (some c)) k.epoll.ready ≤
      callsFor 8 k.sockets k.epoll.ready := by
    refine callsFor_mono fun fd' hfd' => ?_
    have hne : fd' ≠ fd := by
      rintro rfl
      obtain ⟨d, hd⟩ := hkept.socket_of_watched (k.epoll.watched_of_ready _ hfd')
      rw [hfd] at hd
      cases hd
    rw [unreadLength_of_ne hne]
  have hnew : unreadLength (Function.update k.sockets fd (some c)) fd = c.unread.length :=
    unreadLength_some (Function.update_self _ _ _)
  rw [Process.acceptClient]
  split
  · simp only [work, hp, hb, Point.callsLeft, workInHand, hnew, List.map_cons, List.sum_cons]
    omega
  · simp only [work, Process.processClients, hp, hb, Point.callsLeft, workInHand, List.map_cons, List.sum_cons]
    omega

theorem work_registered {p : Process} {k : Kernel} {fd : Filedescriptor} {now : Bool}
    (hp : p.point = .registering fd) :
    work ⟨p.processClients, { k with epoll := k.epoll.add fd now }⟩ < work ⟨p, k⟩ := by
  have hready : callsFor 8 k.sockets (k.epoll.add fd now).ready ≤
      callsFor 8 k.sockets k.epoll.ready + (unreadLength k.sockets fd + 8) := by
    rcases k.epoll.ready_add fd now with h | h
    · rw [h]
      exact Nat.le_add_right _ _
    · simp [h, callsFor]
  simp only [work, Process.processClients, hp, Point.callsLeft, workInHand]
  omega

/-- What is reported is moved from the queue into the hand, where it weighs less. -/
theorem work_waited {p : Process} {k : Kernel} {events : List Filedescriptor} (hp : p.point = .waiting)
    (hmore : p.runServer = true → k.epoll.ready ≠ []) (he : events = (k.epoll.take k.readable epollFdCountMax).1)
    (hclients : ∀ fd ∈ events, (p.clients fd).isSome = true) :
    work ⟨p.readClientData events, { k with epoll := (k.epoll.take k.readable epollFdCountMax).2 }⟩ <
      work ⟨p, k⟩ := by
  have hhand := workInHand_readClientData hclients k.sockets
  have hold : workInHand k.sockets p.point = 1 := by rw [hp]; rfl
  have hqueue : callsFor 8 k.sockets (events ++ (k.epoll.take k.readable epollFdCountMax).2.ready) ≤
      callsFor 8 k.sockets k.epoll.ready :=
    callsFor_sublist (by rw [he]; exact Readiness.collect_sublist _ _)
  have hlighter : callsFor 8 k.sockets events =
      callsFor 2 k.sockets events + events.length * 6 := by
    simp only [callsFor, List.sum_map_add, List.map_const', List.sum_replicate_nat]
    omega
  rw [callsFor, List.map_append, List.sum_append, ← callsFor, ← callsFor, hlighter] at hqueue
  cases hevents : events with
  | nil =>
      -- nothing could be read of what was queued, and the queue is empty now
      have hempty : (k.epoll.take k.readable epollFdCountMax).2.ready = [] :=
        Readiness.collect_eq_nil (he.symm.trans hevents)
      simp only [work, hold, hempty, Process.readClientData, workInHand_serverLoop, callsFor, List.map_nil,
        List.sum_nil]
      split
      · rename_i hrun
        obtain ⟨fd, ready, hready⟩ := List.exists_cons_of_ne_nil (hmore hrun)
        simp only [hready, List.map_cons, List.sum_cons]
        omega
      · omega
  | cons fd rest =>
      rw [hevents] at hhand
      rw [hevents, List.length_cons] at hqueue
      simp only [work, hold]
      omega

/-- Bytes were read, or the process is gone. -/
theorem work_received {p : Process} {k : Kernel} {fd : Filedescriptor} {rest : List Filedescriptor} {client : Client}
    {c : Connection} {chunk : Chunk} {unread : Bytes} (hp : p.point = .receiving fd rest)
    (hc : k.sockets fd = some c) (hne : chunk.bytes ≠ []) (hunread : c.unread = chunk.bytes ++ unread) :
    work ⟨p.receiveData R client fd rest (.bytes chunk.bytes), { k with
      sockets := Function.update k.sockets fd
        (some { c with delivered := c.delivered ++ chunk.bytes, unread := unread }) }⟩ < work ⟨p, k⟩ := by
  generalize hsockets : Function.update k.sockets fd
    (some { c with delivered := c.delivered ++ chunk.bytes, unread := unread }) = sockets
  have hless : unreadLength sockets fd < unreadLength k.sockets fd := by
    rw [← hsockets, unreadLength_some (Function.update_self _ _ _), unreadLength_some hc, hunread, List.length_append]
    exact Nat.lt_add_of_pos_left (List.length_pos_iff.mpr hne)
  have hle : ∀ n fds, callsFor n sockets fds ≤ callsFor n k.sockets fds := by
    intro n fds
    refine callsFor_mono fun fd' _ => ?_
    rw [← hsockets] at hless ⊢
    exact unreadLength_update_le (Nat.le_of_lt hless) fd'
  have hrest := hle 2 rest
  have hready := hle 8 k.epoll.ready
  cases happend : client.appendBuffer R chunk with
  | ok u parser =>
      rw [Process.receiveData_ok happend]
      simp only [work, hp, Point.callsLeft, workInHand, callsFor_cons]
      omega
  | error e parser =>
      rw [Process.receiveData_error happend]
      simp only [work, hp, Point.callsLeft, workInHand, callsFor_cons]
      omega

theorem work_closed {p : Process} {k : Kernel} {fd : Filedescriptor} {rest : List Filedescriptor}
    (hp : p.point = .closing fd rest) (hclients : ∀ fd ∈ rest, (p.clients fd).isSome = true) :
    work ⟨p.readClientData rest,
      { k with sockets := Function.update k.sockets fd none, epoll := k.epoll.remove fd }⟩ < work ⟨p, k⟩ := by
  generalize hsockets : Function.update k.sockets fd none = sockets
  have hle : ∀ n fds, callsFor n sockets fds ≤ callsFor n k.sockets fds := by
    intro n fds
    refine callsFor_mono fun fd' _ => ?_
    rw [← hsockets]
    refine unreadLength_update_le ?_ fd'
    rw [unreadLength, Function.update_self]
    exact Nat.zero_le _
  have hhand := workInHand_readClientData hclients sockets
  have hold : workInHand k.sockets p.point = 6 + (1 + callsFor 2 k.sockets rest) := by rw [hp]; rfl
  have hrest := hle 2 rest
  have hready : callsFor 8 sockets (k.epoll.remove fd).ready ≤
      callsFor 8 k.sockets k.epoll.ready :=
    Nat.le_trans (callsFor_sublist List.filter_sublist) (hle 8 _)
  simp only [work, hold]
  omega

/-- Where `epoll_wait` fails, the loop begins again. -/
theorem step_epollWait_none {s s' : System} (h : s.step R (.answer (.epollWait none)) = some s') :
    s.process.point = .waiting ∧ s' = ⟨s.process.serverLoop, s.kernel⟩ := by
  cases hp : s.process.point with
  | waiting =>
      simp only [step, Process.call, Kernel.answer, Process.resume, hp, Option.bind_some, Option.map_some,
        Option.some.injEq] at h
      exact ⟨rfl, h.symm⟩
  | receiving fd rest => simp [step, Process.call, Kernel.answer, Process.resume, hp] at h
  | _ => simp [step, Process.call, Kernel.answer, hp] at h

theorem work_failed {s s' : System} (h : s.step R (.answer (.epollWait none)) = some s')
    (hrun : ¬ s.process.runServer = true) : s'.work < s.work := by
  obtain ⟨hp, rfl⟩ := step_epollWait_none h
  have hold : workInHand s.kernel.sockets s.process.point = 1 := by rw [hp]; rfl
  simp only [work, workInHand_serverLoop, if_neg hrun, hold]
  omega

/-- Every answer leaves less work, unless the loop is to begin again behind an `epoll_wait` that has nothing to report
or fails. -/
theorem work_decreases {s s' : System} {a : Answer} (hkept : Kept R m s)
    (hmore : s.process.runServer = true →
      a ≠ .epollWait none ∧ ¬ (s.process.point = .waiting ∧ s.kernel.epoll.ready = []))
    (hstep : s.step R (.answer a) = some s') : s'.work < s.work := by
  have hpoint := hkept.point
  cases step_does hstep with
  | movesOn hp hp' hleft =>
      rcases hleft with hless | rfl
      · obtain ⟨processed, q, hq, rfl⟩ := hp'
        simp only [work, workInHand_idle hp, workInHand_idle hq] at hless ⊢
        omega
      · exact work_failed hstep fun hrun => (hmore hrun).1 rfl
  | accepted hp hb hfd => exact work_accepted hkept hp hb hfd
  | aborted hp hb =>
      simp only [work, Process.processClients, hp, hb, Point.callsLeft, workInHand, List.map_cons, List.sum_cons]
      omega
  | @unblocked p k fd done hp =>
      cases done with
      | false =>
          simp only [work, Process.addClient, hp, Point.callsLeft, workInHand, Bool.false_eq_true, ↓reduceIte]
          omega
      | true =>
          simp only [work, Process.addClient, hp, Point.callsLeft, workInHand, ↓reduceIte]
          omega
  | registered hp => exact work_registered hp
  | unregistered hp =>
      simp only [work, Process.processClients, hp, Point.callsLeft, workInHand]
      omega
  | @waited p k events hp he =>
      refine work_waited hp (fun hrun hready => (hmore hrun).2 ⟨hp, hready⟩) he fun fd hfd => ?_
      rw [he] at hfd
      exact hkept.isSome_of_reported hp hfd
  | received hp hclient hc hne hlen hunread hp' =>
      obtain ⟨hown, -⟩ := hkept.client _ _ hclient
      rw [hown] at hc ⊢
      rw [hp']
      exact work_received hp hc hne hunread
  | ended hp =>
      simp only [work, hp, Point.callsLeft, workInHand, callsFor_cons]
      omega
  | @drained p k fd rest client c result hp =>
      rw [hp] at hpoint
      have hhand : workInHand k.sockets (p.readClientData rest).point ≤ _ :=
        workInHand_readClientData (fun fd' hfd' => hpoint.2 fd' (List.mem_cons_of_mem _ hfd')) k.sockets
      have hold : workInHand k.sockets p.point =
          6 + (unreadLength k.sockets fd + 2 + callsFor 2 k.sockets rest) := by rw [hp]; rfl
      simp only [work, hold]
      omega
  | closed hp =>
      rw [hp] at hpoint
      exact work_closed hp hpoint.2.1

end System

/-! ## Silence -/

/-- The process makes no more system calls in the loop. -/
def Point.Ended : Point → Prop
  | .returned | .exited | .terminated _ => True
  | _ => False

/-- A `read` can be answered without an interruption. -/
theorem Connection.exists_read (c : Connection) :
    ∃ result c', result ≠ .error .interrupted ∧ c.read socketReceiveBufferSize.toNat result = some c' := by
  cases hunread : c.unread with
  | cons b unread => exact ⟨.bytes [b], _, by simp, by simp [read, hunread, socketReceiveBufferSize]; rfl⟩
  | nil =>
      by_cases hfinished : c.finished = true
      · exact ⟨.zero, c, by simp, by simp [read, hunread, hfinished]⟩
      · by_cases hbroken : c.broken = true
        · exact ⟨.error .other, c, by simp, by simp [read, hbroken]⟩
        · exact ⟨.error .again, c, by simp, by simp [read, readable, hunread, hfinished, hbroken]⟩

namespace System

variable {R : Readers} {m : MemoryManager}

/-- An answer of the kernel by which the loop goes on: no `read` is interrupted, and `epoll_wait` does not fail. -/
def GoesOn : Event → Prop
  | .answer a => a ≠ .epollWait none ∧ a ≠ .read (.error .interrupted)
  | _ => False

instance : DecidablePred GoesOn
  | .answer _ => inferInstanceAs (Decidable (_ ∧ _))
  | .connect => isFalse id
  | .peer _ _ => isFalse id
  | .terminate => isFalse id

theorem GoesOn.not_interrupts {e : Event} (h : GoesOn e) : ¬ e.Interrupts := by
  rintro rfl
  exact h.2 rfl

theorem GoesOn.exists_answer {e : Event} (h : GoesOn e) : ∃ a, e = .answer a ∧ a ≠ .epollWait none := by
  cases e with
  | answer a => exact ⟨a, rfl, h.1⟩
  | _ => exact h.elim

/-- The kernel has an answer to the system call, as long as the loop has not ended. -/
theorem exists_answer {s : System} (h : Kept R m s) (hended : ¬ s.process.point.Ended) :
    ∃ a, GoesOn (.answer a) ∧ (s.step R (.answer a)).isSome = true := by
  have hpoint := h.point
  cases hp : s.process.point with
  | returned | exited | terminated e => exact (hended (by rw [hp]; trivial)).elim
  | polling =>
      exact ⟨.poll (some !s.kernel.backlog.isEmpty), by simp [GoesOn],
        by simp [step, Process.call, Kernel.answer, Process.resume, hp]⟩
  | sleeping => exact ⟨.sleep, by simp [GoesOn], by simp [step, Process.call, Kernel.answer, Process.resume, hp]⟩
  | accepting => exact ⟨.accept (-1), by simp [GoesOn], by simp [step, Process.call, Kernel.answer, Process.resume, hp]⟩
  | unblocking fd =>
      exact ⟨.fcntl true, by simp [GoesOn], by simp [step, Process.call, Kernel.answer, Process.resume, hp]⟩
  | registering fd =>
      exact ⟨.epollCtl false, by simp [GoesOn], by simp [step, Process.call, Kernel.answer, Process.resume, hp]⟩
  | waiting =>
      exact ⟨.epollWait (some (s.kernel.epoll.take s.kernel.readable epollFdCountMax).1), by simp [GoesOn],
        by simp [step, Process.call, Kernel.answer, Process.resume, hp]⟩
  | closing fd rest =>
      exact ⟨.close, by simp [GoesOn], by simp [step, Process.call, Kernel.answer, Process.resume, hp]⟩
  | receiving fd rest =>
      rw [hp] at hpoint
      obtain ⟨client, hclient⟩ := Option.isSome_iff_exists.mp (hpoint.2 fd List.mem_cons_self)
      obtain ⟨rfl, -, c, hc, -⟩ := h.client fd client hclient
      obtain ⟨result, c', hresult, hread⟩ := c.exists_read
      exact ⟨.read result, by simp [GoesOn, hresult],
        by simp [step, Process.call, Kernel.answer, Process.resume, hp, hclient, hc, hread]⟩

/-- When the peers fall silent, the server comes to a turn at which every client has been given all that has arrived,
within a number of system calls that is bounded by the bytes that were left to be read. Up to there the kernel always
has an answer, unless the loop has ended. -/
theorem up_to_date_within_work {memory : Nat → UInt8} {es es' : List Event} {s s' : System}
    (h : es.foldlM (step R) (start m memory) = some s) (hint : ∀ e ∈ es, ¬ e.Interrupts)
    (h' : es'.foldlM (step R) s = some s') (hsilent : ∀ e ∈ es', GoesOn e) :
    (s.work < es'.length →
      ∃ es₁ es₂ t, es' = es₁ ++ es₂ ∧ es₁.foldlM (step R) s = some t ∧ t.process.point = .waiting ∧ t.UpToDate R) ∧
    (s'.process.point.Ended ∨ ∃ a, GoesOn (.answer a) ∧ (s'.step R (.answer a)).isSome = true) := by
  have htended := tended_of_events h hint
  have hkeeps : ∀ s e s', Tended R m s → GoesOn e → s.step R e = some s' → Tended R m s' :=
    fun _ _ _ hs he hstep => hs.step he.not_interrupts hstep
  refine ⟨fun hlen => ?_, ?_⟩
  · obtain ⟨es₁, es₂, t, hes, ht, htended, hp, hready⟩ :=
      events_rank hkeeps (fun _ _ _ hs he hmore hstep => by
        obtain ⟨a, rfl, ha⟩ := he.exists_answer
        exact work_decreases hs.kept (fun _ => ⟨ha, hmore⟩) hstep) htended hsilent h' hlen
    refine ⟨es₁, es₂, t, hes, ht, hp, ?_⟩
    rcases htended.covered with ⟨x, hx⟩ | hcovered
    · simp [hp] at hx
    · exact hcovered.upToDate htended.kept hp hready
  · by_cases hended : s'.process.point.Ended
    · exact .inl hended
    · exact .inr (exists_answer (events_invariant hkeeps htended hsilent h').kept hended)

/-- The loop goes round without a client. -/
def idleTurn : List Event := [.answer (.poll (some false)), .answer .sleep, .answer (.epollWait (some []))]

/-- The rest of the two requests is read, and then the loop goes round. -/
def restOfRequests : List Event :=
  [.answer (.read (.bytes ((sent [HTTPParser.getHost, HTTPParser.getHost]).drop 40))),
    .answer (.read (.error .again))] ++ (List.replicate 11 idleTurn).flatten

theorem up_to_date_after_two_requests :
    ∃ s s' es₁ es₂ t, twoRequests.foldlM (step Cpp23.readers) (start bufferMemory fun _ => 0) = some s ∧
      restOfRequests.foldlM (step Cpp23.readers) s = some s' ∧ restOfRequests = es₁ ++ es₂ ∧
      es₁.foldlM (step Cpp23.readers) s = some t ∧ t.UpToDate Cpp23.readers ∧
      (s'.process.point.Ended ∨
        ∃ a, GoesOn (.answer a) ∧ (s'.step Cpp23.readers (.answer a)).isSome = true) := by
  have hrun : ((twoRequests.foldlM (step Cpp23.readers) (start bufferMemory fun _ => 0)).bind fun s =>
      (restOfRequests.foldlM (step Cpp23.readers) s).map fun _ => s.work) = some 32 := by decide +kernel
  obtain ⟨s, hs, hrun⟩ := Option.bind_eq_some_iff.mp hrun
  obtain ⟨s', hs', hwork⟩ := Option.map_eq_some_iff.mp hrun
  obtain ⟨hdone, hmore⟩ := up_to_date_within_work hs (by decide +kernel) hs' (by decide +kernel)
  obtain ⟨es₁, es₂, t, hes, ht, -, hup⟩ := hdone (by rw [hwork]; decide)
  exact ⟨s, s', es₁, es₂, t, hs, hs', hes, ht, hup, hmore⟩

end System

end FalconAS.Server

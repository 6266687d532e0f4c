import FalconAS.Http.Theorems.Exceptions
import FalconAS.Http.Theorems.Pipelines
import FalconAS.Server.Lemmas.Kept

/-!
# One parser for every connection

All clients share the loop, the map of clients, and, once there were more connections than segments, the receive
buffers. Nevertheless each of them is served as if it were alone: its parser has seen the bytes that its peer has sent,
in order and without a gap, and nothing else.
-/

namespace FalconAS.Http

open FalconAS.Machine

/-- A pipeline of which the bytes `t` are still to come. -/
theorem HTTPParser.Reading.runs {done rs : List WireRequest} {cs : List Chunk} {t : Bytes} {p : HTTPParser}
    (h : Reading done rs (stream cs ++ t) p) (hget : ∀ r ∈ rs, r.body = none) :
    ∃ p' next rs', rs = next ++ rs' ∧ Machine.run (HTTPParser.call Cpp23.readers) p cs = .ok () p' ∧
      Reading (done ++ next) rs' t p' := by
  induction cs generalizing p done rs with
  | nil => exact ⟨p, [], rs, rfl, rfl, by rw [List.append_nil]; exact h⟩
  | cons c cs ih =>
      rw [stream_cons, List.append_assoc] at h
      obtain ⟨p', next, rs', rfl, hcall, hp'⟩ := h.call hget
      obtain ⟨p'', next', rs'', rfl, hrun, hp''⟩ := ih hp' fun r hr => hget r (List.mem_append_right _ hr)
      refine ⟨p'', next ++ next', rs'', by rw [List.append_assoc], ?_, by rw [← List.append_assoc]; exact hp''⟩
      rw [run_cons_ok hcall]
      exact hrun

end FalconAS.Http

namespace FalconAS.Server

open FalconAS.Http FalconAS.Machine

namespace System

variable {R : Readers} {m : MemoryManager} {memory : Nat → UInt8} {es : List Event} {s : System}

/-- The parser of a client is a new parser that was called with the bytes of its own connection, as far as they are
read, in chunks of at most the size of the receive buffer. -/
theorem client_fed_with_own_bytes (h : es.foldlM (step R) (start m memory) = some s) {fd : Filedescriptor}
    {client : Client} (hclient : s.process.clients fd = some client) :
    ∃ c cs, s.kernel.sockets fd = some c ∧ stream cs ++ c.unread = c.arrived ∧
      (∀ chunk ∈ cs, chunk.bytes ≠ [] ∧ chunk.bytes.length ≤ socketReceiveBufferSize.toNat) ∧
      (run (HTTPParser.appendBuffer R) (.fresh 4096) cs = .ok () client.toHTTPParser ∨
        ∃ e, s.process.point = .terminated e ∧
          run (HTTPParser.appendBuffer R) (.fresh 4096) cs = .error e client.toHTTPParser) := by
  obtain ⟨-, -, c, hc, cs, hcs, hrun⟩ := (kept_of_events h).client fd client hclient
  exact ⟨c, cs, hc, by rw [hcs.stream, Connection.arrived], hcs.size, hrun⟩

/-- The buffers of `ClientHandler`, at some address. -/
def bufferMemory : MemoryManager := ⟨clientsMax, socketReceiveBufferSize, 0, 4096⟩

/-- Two requests arrive, and 40 bytes of them are read. -/
def twoRequests : List Event :=
  connected 5 ++
    [.peer (.opened 5) (.send (sent [HTTPParser.getHost, HTTPParser.getHost])), .answer (.epollWait (some [5])),
      .answer (.read (.bytes ((sent [HTTPParser.getHost, HTTPParser.getHost]).take 40)))]

theorem twoRequests_run :
    ∃ s client c, twoRequests.foldlM (step Cpp23.readers) (start bufferMemory fun _ => 0) = some s ∧
      s.process.clients 5 = some client ∧ s.kernel.sockets 5 = some c ∧
      c.arrived = sent [HTTPParser.getHost, HTTPParser.getHost] := by
  have hrun : ((twoRequests.foldlM (step Cpp23.readers) (start bufferMemory fun _ => 0)).bind fun s =>
      (s.process.clients 5).bind fun _ => (s.kernel.sockets 5).map Connection.arrived) =
        some (sent [HTTPParser.getHost, HTTPParser.getHost]) := by decide +kernel
  obtain ⟨s, hs, hrun⟩ := Option.bind_eq_some_iff.mp hrun
  obtain ⟨client, hclient, hrun⟩ := Option.bind_eq_some_iff.mp hrun
  obtain ⟨c, hc, harrived⟩ := Option.map_eq_some_iff.mp hrun
  exact ⟨s, client, c, hs, hclient, hc, harrived⟩

theorem client_fed_with_forty_bytes :
    ∃ s client c cs, twoRequests.foldlM (step Cpp23.readers) (start bufferMemory fun _ => 0) = some s ∧
      s.process.clients 5 = some client ∧ s.kernel.sockets 5 = some c ∧ stream cs ++ c.unread = c.arrived := by
  obtain ⟨s, client, -, hs, hclient, -⟩ := twoRequests_run
  obtain ⟨c, cs, hc, hstream, -⟩ := client_fed_with_own_bytes hs hclient
  exact ⟨s, client, c, cs, hs, hclient, hc, hstream⟩

/-- An exception ends the process only if the bytes of a single connection make a new parser throw it. -/
theorem terminated_by_one_connection (h : es.foldlM (step R) (start m memory) = some s) {e : Exception}
    (he : s.process.point = .terminated e) :
    ∃ fd client c cs, s.process.clients fd = some client ∧ s.kernel.sockets fd = some c ∧
      stream cs = c.delivered ∧
      run (HTTPParser.appendBuffer R) (.fresh 4096) cs = .error e client.toHTTPParser := by
  have hpoint := (kept_of_events h).point
  rw [he] at hpoint
  obtain ⟨fd, client, c, cs, hclient, hc, hcs, hrun⟩ := hpoint
  exact ⟨fd, client, c, cs, hclient, hc, hcs.stream, hrun⟩

/-- A peer announces more bytes than an `int` can hold. -/
def beyondInt : List Event :=
  connected 5 ++
    [.peer (.opened 5) (.send HTTPParser.postBeyondInt.bytes), .answer (.epollWait (some [5])),
      .answer (.read (.bytes HTTPParser.postBeyondInt.bytes))]

theorem terminated_beyond_int :
    ∃ s e fd client c cs, beyondInt.foldlM (step Cpp23.readers) (start bufferMemory fun _ => 0) = some s ∧
      s.process.point = .terminated e ∧ s.process.clients fd = some client ∧ s.kernel.sockets fd = some c ∧
      stream cs = c.delivered := by
  have hrun : (beyondInt.foldlM (step Cpp23.readers) (start bufferMemory fun _ => 0)).map (·.process.point) =
      some (.terminated .outOfRangeStoi) := by decide +kernel
  obtain ⟨s, hs, hp⟩ := Option.map_eq_some_iff.mp hrun
  obtain ⟨fd, client, c, cs, hclient, hc, hstream, -⟩ := terminated_by_one_connection hs hp
  exact ⟨s, _, fd, client, c, cs, hs, hp, hclient, hc, hstream⟩

/-- The events that `epoll_wait` reports, and those of them that are still to be handled, are events of different
clients, so that the test whether there is a client never fails; and a new connection never gets the file descriptor of
a client, so that it always has a new parser. -/
theorem events_are_of_clients (h : es.foldlM (step R) (start m memory) = some s) :
    (s.process.point = .waiting → ∀ events s', s.step R (.answer (.epollWait (some events))) = some s' →
      events.Nodup ∧ ∀ fd ∈ events, (s.process.clients fd).isSome = true) ∧
    (∀ fd rest, s.process.point = .receiving fd rest →
      (fd :: rest).Nodup ∧ ∀ fd' ∈ fd :: rest, (s.process.clients fd').isSome = true) ∧
    (∀ fd rest, s.process.point = .closing fd rest →
      (fd :: rest).Nodup ∧ ∀ fd' ∈ rest, (s.process.clients fd').isSome = true) ∧
    ∀ fd, s.process.point = .unblocking fd → s.process.clients fd = none := by
  have hkept := kept_of_events h
  have hpoint := hkept.point
  refine ⟨fun hp events s' hstep => ?_, fun fd rest hp => ?_, fun fd rest hp => ?_, fun fd hp => ?_⟩
  · obtain rfl := events_of_step hp hstep
    exact ⟨Readiness.nodup_take _ _ _, fun fd hfd => hkept.isSome_of_reported hp hfd⟩
  · rw [hp] at hpoint
    exact hpoint
  · rw [hp] at hpoint
    exact ⟨hpoint.1, hpoint.2.1⟩
  · rw [hp] at hpoint
    exact hpoint.1

/-- The second of two connections is accepted. -/
def secondAccepted : List Event :=
  connected 5 ++
    [.answer (.epollWait (some [])), .connect, .answer (.poll (some true)), .answer (.accept 6)]

/-- Both peers send something. -/
def twoPeers : List Event :=
  secondAccepted ++
    [.answer (.fcntl true), .answer (.epollCtl true), .peer (.opened 5) (.send (sent [HTTPParser.getHost])),
      .peer (.opened 6) (.send (sent [HTTPParser.getHost]))]

theorem events_of_two_clients :
    (∃ s, secondAccepted.foldlM (step Cpp23.readers) (start bufferMemory fun _ => 0) = some s ∧
      s.process.point = .unblocking 6 ∧ s.process.clients 6 = none) ∧
    ∃ s s', twoPeers.foldlM (step Cpp23.readers) (start bufferMemory fun _ => 0) = some s ∧
      s.step Cpp23.readers (.answer (.epollWait (some [5, 6]))) = some s' ∧
      (∀ fd ∈ [5, 6], (s.process.clients fd).isSome = true) ∧
      s'.process.point = .receiving 5 [6] ∧ ∀ fd ∈ [5, 6], (s'.process.clients fd).isSome = true := by
  constructor
  · have hrun : (secondAccepted.foldlM (step Cpp23.readers) (start bufferMemory fun _ => 0)).map (·.process.point) =
        some (.unblocking 6) := by decide +kernel
    obtain ⟨s, hs, hp⟩ := Option.map_eq_some_iff.mp hrun
    exact ⟨s, hs, hp, (events_are_of_clients hs).2.2.2 6 hp⟩
  · have hrun : ((twoPeers.foldlM (step Cpp23.readers) (start bufferMemory fun _ => 0)).bind fun s =>
        (s.step Cpp23.readers (.answer (.epollWait (some [5, 6])))).map fun s' => (s.process.point, s'.process.point)) =
          some (.waiting, .receiving 5 [6]) := by decide +kernel
    obtain ⟨s, hs, hrun⟩ := Option.bind_eq_some_iff.mp hrun
    obtain ⟨s', hs', hrun⟩ := Option.map_eq_some_iff.mp hrun
    obtain ⟨hp, hp'⟩ := Prod.mk.inj hrun
    have hafter : (twoPeers ++ [Event.answer (.epollWait (some [5, 6]))]).foldlM (step Cpp23.readers)
        (start bufferMemory fun _ => 0) = some s' := by
      rw [List.foldlM_append, hs]
      simpa using hs'
    exact ⟨s, s', hs, hs', ((events_are_of_clients hs).1 hp _ _ hs').2, hp',
      ((events_are_of_clients hafter).2.1 5 [6] hp').2⟩

/-- Every `read` has room for all bytes that it asks for inside of the memory that was allocated. -/
theorem read_inside_allocation {malloc : Nat → Option Nat}
    (hm : MemoryManager.construct clientsMax socketReceiveBufferSize malloc = .ok m)
    (h : es.foldlM (step R) (start m memory) = some s) {fd : Filedescriptor} {address count : Nat}
    (hcall : s.process.call = some (.read fd address count)) :
    m.memoryBaseAddress ≤ address ∧
      address + count ≤ m.memoryBaseAddress + clientsMax.toNat * socketReceiveBufferSize.toNat := by
  obtain ⟨hcount, hsize, h0, hfits⟩ := MemoryManager.construct_eq_ok hm
  have hsegments : m.HandsOutSegments 1 :=
    MemoryManager.handsOutSegments_of_one h0 (by rw [hcount]; decide) (by rw [hcount, hsize]; exact hfits)
  rw [Process.call] at hcall
  cases hp : s.process.point with
  | receiving fd' rest =>
      simp only [hp] at hcall
      obtain ⟨client, hclient, hread⟩ := Option.map_eq_some_iff.mp hcall
      cases hread
      obtain ⟨-, ⟨n, hn⟩, -⟩ := (kept_of_events h).client _ client hclient
      have hinside := hsegments.inside n
      rw [hcount, hsize, ← hn] at hinside
      exact hinside
  | _ => simp [hp] at hcall

theorem read_of_first_segment :
    ∃ s, twoRequests.foldlM (step Cpp23.readers) (start bufferMemory fun _ => 0) = some s ∧
      s.process.call = some (.read 5 4096 4096) ∧ 4096 + 4096 ≤ 4096 + clientsMax.toNat * 4096 := by
  have hrun : ((twoRequests.foldlM (step Cpp23.readers) (start bufferMemory fun _ => 0)).bind fun s =>
      s.process.call) = some (.read 5 4096 4096) := by decide +kernel
  obtain ⟨s, hs, hcall⟩ := Option.bind_eq_some_iff.mp hrun
  have hm : MemoryManager.construct clientsMax socketReceiveBufferSize (fun _ => some 4096) = .ok bufferMemory := rfl
  exact ⟨s, hs, hcall, (read_inside_allocation hm hs hcall).2⟩

end System

/-! ## Requests -/

namespace System

variable {m : MemoryManager} {memory : Nat → UInt8} {es : List Event} {s : System}

/-- A peer that sends GET requests, one behind the other and no more than the buffer holds, has those recorded whose
last byte was read, whatever else goes on. -/
theorem get_requests_recorded (h : es.foldlM (step Cpp23.readers) (start m memory) = some s) {fd : Filedescriptor}
    {client : Client} {c : Connection} (hclient : s.process.clients fd = some client)
    (hc : s.kernel.sockets fd = some c) {rs : List WireRequest} (hget : ∀ r ∈ rs, r.body = none)
    (hlen : (sent rs).length ≤ 4096) (harrived : c.arrived <+: sent rs) :
    ∃ done rest, rs = done ++ rest ∧ client.requests = done.map WireRequest.props ∧
      c.delivered = sent done ++ client.httpRequestBuffer ∧ ¬ http11EndMarker <:+: client.httpRequestBuffer := by
  obtain ⟨-, -, d, hd, cs, hcs, hrun⟩ := (kept_of_events h).client fd client hclient
  rw [hc] at hd
  cases hd
  obtain ⟨t, ht⟩ := harrived
  rw [Connection.arrived, List.append_assoc, ← hcs.stream] at ht
  have hstart : HTTPParser.Reading [] rs (stream cs ++ (c.unread ++ t)) (HTTPParser.fresh 4096).clear :=
    ⟨rfl, ht, not_marker_nil, rfl, rfl, hlen⟩
  obtain ⟨q, done, rest, rfl, hq, hreading⟩ := hstart.runs hget
  obtain ⟨p, hp, rfl⟩ := HTTPParser.run_appendBuffer_ok hq
  have hparser : p = client.toHTTPParser := by
    rcases hrun with hrun | ⟨e, -, hrun⟩
    · rw [hp] at hrun
      cases hrun
      rfl
    · rw [hp] at hrun
      cases hrun
  subst hparser
  refine ⟨done, rest, rfl, hreading.requests, ?_, hreading.plain⟩
  have hsplit : stream cs ++ (c.unread ++ t) = (sent done ++ client.httpRequestBuffer) ++ (c.unread ++ t) := by
    rw [ht, sent_append, List.append_assoc]
    exact congrArg (sent done ++ ·) hreading.buffer.symm
  rw [← hcs.stream]
  exact List.append_cancel_right hsplit

/-- The second request is not complete after 40 bytes. -/
theorem get_requests_recorded_first :
    ∃ s client done rest, twoRequests.foldlM (step Cpp23.readers) (start bufferMemory fun _ => 0) = some s ∧
      s.process.clients 5 = some client ∧ [HTTPParser.getHost, HTTPParser.getHost] = done ++ rest ∧
      client.requests = done.map WireRequest.props := by
  obtain ⟨s, client, c, hs, hclient, hc, harrived⟩ := twoRequests_run
  have hget : ∀ r ∈ [HTTPParser.getHost, HTTPParser.getHost], r.body = none := by decide +kernel
  obtain ⟨done, rest, hrs, hrequests, -⟩ :=
    get_requests_recorded hs hclient hc hget (by decide +kernel) (by rw [harrived])
  exact ⟨s, client, done, rest, hs, hclient, hrs, hrequests⟩

end System

end FalconAS.Server

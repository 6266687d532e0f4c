import FalconAS.Server.Theorems.Sessions

/-!
# No wake-up is lost

`epoll` is edge-triggered: it reports a connection once for what has arrived, and `receiveData` has to read all of it.
It does, unless a `read` is interrupted.
-/

namespace FalconAS.Server

open FalconAS.Http FalconAS.Machine

/-- The file descriptors that were reported and are not handled yet. -/
def Point.inHand : Point → List Filedescriptor
  | .receiving fd rest => fd :: rest
  | .closing fd rest => fd :: rest
  | _ => []

theorem Point.Idle.inHand {q : Point} (h : q.Idle) : q.inHand = [] := by
  cases q <;> first | rfl | exact h.elim

theorem Process.inHand_readClientData {p : Process} {rest : List Filedescriptor}
    (h : ∀ fd ∈ rest, (p.clients fd).isSome = true) : (p.readClientData rest).point.inHand = rest := by
  rcases p.point_readClientData h with ⟨rfl, hidle⟩ | ⟨fd, rest', rfl, hpoint⟩
  · exact hidle.inHand
  · rw [hpoint]
    rfl

/-- The answer that makes `receiveData` return while there may be bytes to read. -/
def Event.Interrupts (e : Event) : Prop := e = .answer (.read (.error .interrupted))

instance : DecidablePred Event.Interrupts := fun e => inferInstanceAs (Decidable (e = _))

namespace System

variable {R : Readers} {m : MemoryManager}

/-- Every connection that is watched and can be read is queued or in hand. -/
def Covered (s : System) : Prop :=
  s.kernel.epoll.Covers (s.kernel.readable · = true) s.process.point.inHand

theorem readable_update {k : Kernel} {sockets : Filedescriptor → Option Connection} {fd fd' : Filedescriptor}
    {v : Option Connection} {epoll : Readiness Filedescriptor} {backlog : List Connection}
    (hs : sockets = Function.update k.sockets fd v) (hne : fd' ≠ fd)
    (h : Kernel.readable ⟨backlog, sockets, epoll⟩ fd' = true) : k.readable fd' = true := by
  simp only [Kernel.readable, hs, Function.update_of_ne hne] at h
  exact h

theorem Covered.step {s s' : System} {e : Event} (hkept : Kept R m s) (h : s.Covered) (hint : ¬ e.Interrupts)
    (hstep : s.step R e = some s') : (∃ e, s'.process.point = .terminated e) ∨ s'.Covered := by
  have hpoint := hkept.point
  cases step_does hstep with
  | connect => exact .inr h
  | queued => exact .inr h
  | terminate => exact .inr h
  | opened hc ha => exact .inr (h.wake fun fd' hne hread => readable_update rfl hne hread)
  | movesOn hp hp' =>
      obtain ⟨processed, q, hq, rfl⟩ := hp'
      refine .inr (h.mono (fun _ _ hread => hread) ?_)
      simp [hp.inHand]
  | @accepted p k fd c backlog hp hb hfd =>
      right
      refine Readiness.Covers.mono h ?_ (by simp [hp, Point.inHand])
      intro fd' hfd' hread
      refine readable_update rfl ?_ hread
      rintro rfl
      obtain ⟨d, hd⟩ := hkept.socket_of_watched hfd'
      rw [hfd] at hd
      cases hd
  | aborted hp hb =>
      right
      rw [Covered, hp] at h
      exact h
  | @unblocked p k fd done hp =>
      right
      refine Readiness.Covers.mono h (fun _ _ hread => hread) (by simp [hp, Point.inHand])
  | registered hp hw hc =>
      right
      rw [Covered, hp] at h
      refine Readiness.Covers.add h fun hread => ?_
      rw [Kernel.readable, hc] at hread
      exact hread
  | unregistered hp =>
      right
      rw [Covered, hp] at h
      exact h
  | @waited p k events hp he =>
      right
      rw [Covered, hp] at h
      have hclients : ∀ fd ∈ events, (p.clients fd).isSome = true := by
        intro fd hfd
        rw [he] at hfd
        exact hkept.isSome_of_reported hp hfd
      rw [Covered, Process.inHand_readClientData hclients, he]
      exact h.take epollFdCountMax
  | @received p k fd rest client c chunk unread hp hclient hc hne hlen hunread p' hp' =>
      cases happend : client.appendBuffer R chunk with
      | error e parser =>
          rw [Process.receiveData_error happend] at hp'
          exact .inl ⟨e, by rw [hp']⟩
      | ok u parser =>
          rw [Process.receiveData_ok happend] at hp'
          right
          obtain ⟨hown, -⟩ := hkept.client _ _ hclient
          rw [Covered, hp']
          intro fd' hfd' hread
          by_cases heq : fd' = fd
          · right
            rw [hp, heq]
            exact List.mem_cons_self
          · exact h fd' hfd' (readable_update rfl (hown ▸ heq) hread)
  | ended hp =>
      right
      rw [Covered, hp] at h
      exact h
  | @drained p k fd rest client c result hp hclient hc hread =>
      right
      rw [hp] at hpoint
      obtain ⟨-, hall⟩ := hpoint
      obtain ⟨hown, -⟩ := hkept.client _ _ hclient
      rw [hown] at hc
      have hnot : k.readable fd = false := by
        rw [Kernel.readable, hc]
        refine hread.resolve_right ?_
        rintro rfl
        exact hint rfl
      rw [Covered, Process.inHand_readClientData fun fd' hfd' => hall fd' (List.mem_cons_of_mem _ hfd')]
      rw [Covered, hp] at h
      refine h.mono (fun _ _ hread => hread) fun fd' hfd' hread => ?_
      rcases List.mem_cons.mp hfd' with rfl | hfd'
      · simp [hnot] at hread
      · exact hfd'
  | @closed p k fd rest hp =>
      right
      rw [hp] at hpoint
      obtain ⟨-, hall, -⟩ := hpoint
      rw [Covered, Process.inHand_readClientData hall]
      rw [Covered, hp] at h
      refine h.remove (fun fd' hne hread => readable_update rfl hne hread) fun fd' hfd' hne => ?_
      exact (List.mem_cons.mp hfd').resolve_left hne

/-! ## Whole runs -/

theorem terminated_step {s s' : System} {e : Event} {x : Exception} (h : s.process.point = .terminated x)
    (hstep : s.step R e = some s') : s'.process.point = .terminated x := by
  cases step_does hstep with
  | movesOn hp => exact absurd h (hp.ne_terminated x)
  | connect | queued | opened | terminate => exact h
  | accepted hp | aborted hp | unblocked hp | registered hp | unregistered hp | waited hp | received hp | ended hp
  | drained hp | closed hp =>
      rw [h] at hp
      cases hp

/-- The invariant of the server as long as no `read` is interrupted. -/
structure Tended (R : Readers) (m : MemoryManager) (s : System) : Prop where
  kept : Kept R m s
  covered : (∃ e, s.process.point = .terminated e) ∨ s.Covered

theorem Tended.step {s s' : System} {e : Event} (h : Tended R m s) (hint : ¬ e.Interrupts)
    (hstep : s.step R e = some s') : Tended R m s' := by
  refine ⟨h.kept.step hstep, ?_⟩
  rcases h.covered with ⟨x, hx⟩ | hcovered
  · exact .inl ⟨x, terminated_step hx hstep⟩
  · exact hcovered.step h.kept hint hstep

theorem tended_of_events {memory : Nat → UInt8} {es : List Event} {s : System}
    (h : es.foldlM (step R) (start m memory) = some s) (hint : ∀ e ∈ es, ¬ e.Interrupts) : Tended R m s := by
  refine events_invariant (fun _ _ _ hs he hstep => hs.step he hstep) ⟨kept_start R m memory, .inr ?_⟩ hint h
  intro fd hfd
  cases hfd

variable {memory : Nat → UInt8} {es : List Event} {s s' : System}

/-- As long as no `read` is interrupted, a connection that can be read is reported by the next `epoll_wait` or one
behind it, or is being handled already. -/
theorem readable_connection_covered (h : es.foldlM (step R) (start m memory) = some s)
    (hint : ∀ e ∈ es, ¬ e.Interrupts) (hterm : ∀ e, s.process.point ≠ .terminated e) {fd : Filedescriptor}
    (hfd : fd ∈ s.kernel.epoll.watched) (hread : s.kernel.readable fd = true) :
    fd ∈ s.kernel.epoll.ready ∨ fd ∈ s.process.point.inHand := by
  rcases (tended_of_events h hint).covered with ⟨e, he⟩ | hcovered
  · exact absurd he (hterm e)
  · exact hcovered fd hfd hread

/-- Between the first 40 bytes and the rest, the connection is in hand. -/
theorem rest_of_requests_covered :
    ∃ s, twoRequests.foldlM (step Cpp23.readers) (start bufferMemory fun _ => 0) = some s ∧
      s.kernel.readable 5 = true ∧ (5 ∈ s.kernel.epoll.ready ∨ 5 ∈ s.process.point.inHand) := by
  have hrun : (twoRequests.foldlM (step Cpp23.readers) (start bufferMemory fun _ => 0)).map (fun s =>
      (s.kernel.epoll.watched, s.kernel.readable 5, s.process.point)) =
        some ([5], true, .receiving 5 []) := by decide +kernel
  obtain ⟨s, hs, hrun⟩ := Option.map_eq_some_iff.mp hrun
  simp only [Prod.mk.injEq] at hrun
  obtain ⟨hwatched, hread, hp⟩ := hrun
  exact ⟨s, hs, hread, readable_connection_covered hs (by decide +kernel) (by simp [hp]) (by simp [hwatched]) hread⟩

/-- If the next `read` is interrupted, the process goes back to `poll`, and nobody is told of the rest. -/
example :
    ((twoRequests ++ [Event.answer (.read (.error .interrupted))]).foldlM (step Cpp23.readers)
      (start bufferMemory fun _ => 0)).map (fun s =>
        (s.process.point, s.kernel.epoll.watched, s.kernel.readable 5, s.kernel.epoll.ready)) =
          some (.polling, [5], true, []) := by
  decide +kernel

/-- The parser of every client that is watched has seen all that has arrived from its peer, and no peer has finished or
failed. -/
def UpToDate (R : Readers) (s : System) : Prop :=
  ∀ fd ∈ s.kernel.epoll.watched, ∃ client c cs, s.process.clients fd = some client ∧
    s.kernel.sockets fd = some c ∧ c.finished = false ∧ c.broken = false ∧ stream cs = c.arrived ∧
    run (HTTPParser.appendBuffer R) (.fresh 4096) cs = .ok () client.toHTTPParser

/-- So it is whenever nothing is queued at `epoll_wait`. -/
theorem Covered.upToDate (h : s.Covered) (hkept : Kept R m s) (hp : s.process.point = .waiting)
    (hready : s.kernel.epoll.ready = []) : s.UpToDate R := by
  intro fd hfd
  have hsome := hkept.isSome_of_watched (by simp [hp]) hfd
  obtain ⟨client, hclient⟩ := Option.isSome_iff_exists.mp hsome
  obtain ⟨-, -, c, hc, hfed⟩ := hkept.client fd client hclient
  obtain ⟨cs, hcs, hrun⟩ := hfed.running (by simp [hp])
  have hnot : c.readable = false := by
    rw [Bool.eq_false_iff]
    intro hread
    have hmem := h fd hfd (by simpa [Kernel.readable, hc] using hread)
    rw [hready, hp] at hmem
    rcases hmem with hmem | hmem <;> cases hmem
  simp only [Connection.readable, Bool.or_eq_false_iff, Bool.not_eq_false', List.isEmpty_iff] at hnot
  exact ⟨client, c, cs, hclient, hc, hnot.1.2, hnot.2,
    by rw [hcs.stream, Connection.arrived, hnot.1.1, List.append_nil], hrun⟩

/-- A connection is closed only when it has failed, or when the peer has finished and the parser has seen all of it. -/
theorem closed_after_last_byte (h : es.foldlM (step R) (start m memory) = some s) {e : Event}
    (hstep : s.step R e = some s') {fd fd' : Filedescriptor} {rest rest' : List Filedescriptor}
    (hp : s.process.point = .receiving fd rest) (hp' : s'.process.point = .closing fd' rest') :
    fd' = fd ∧ ∃ client c, s.process.clients fd = some client ∧ s.kernel.sockets fd = some c ∧
      (c.broken = true ∨ c.finished = true ∧ ∃ cs, stream cs = c.arrived ∧
        run (HTTPParser.appendBuffer R) (.fresh 4096) cs = .ok () client.toHTTPParser) := by
  have hkept := kept_of_events h
  cases step_does hstep with
  | movesOn hidle => exact absurd hp (hidle.ne_receiving fd rest)
  | connect | queued | opened | terminate =>
      rw [hp] at hp'
      cases hp'
  | accepted hq | aborted hq | unblocked hq | registered hq | unregistered hq | waited hq | closed hq =>
      rw [hp] at hq
      cases hq
  | @received p k fd'' rest'' client c chunk unread hq hclient hc hne hlen hunread p' hp'' =>
      cases happend : client.appendBuffer R chunk with
      | ok u parser =>
          rw [Process.receiveData_ok happend] at hp''
          rw [hp'', hp] at hp'
          cases hp'
      | error x parser =>
          rw [Process.receiveData_error happend] at hp''
          rw [hp''] at hp'
          cases hp'
  | @drained p k fd'' rest'' client c result hq =>
      have hpoint := hkept.point
      rw [hp] at hpoint hq
      cases hq
      have hall := fun fd' hfd' => hpoint.2 fd' (List.mem_cons_of_mem _ hfd')
      rcases p.point_readClientData hall with ⟨-, hidle⟩ | ⟨fd', rest', -, hpoint'⟩
      · exact absurd hp' (hidle.ne_closing _ _)
      · rw [hpoint'] at hp'
        cases hp'
  | @ended p k fd'' rest'' client c result hq hclient hc hover =>
      rw [hp] at hq
      cases hq
      cases hp'
      obtain ⟨hown, -, d, hd, hfed⟩ := hkept.client _ client hclient
      rw [hown] at hc
      rw [hc] at hd
      cases hd
      refine ⟨rfl, client, c, hclient, hc, ?_⟩
      rcases hover with ⟨hunread, hfinished⟩ | hbroken
      · obtain ⟨cs, hcs, hrun⟩ := hfed.running fun x => by rw [hp]; simp
        exact .inr ⟨hfinished, cs, by rw [hcs.stream, Connection.arrived, hunread, List.append_nil], hrun⟩
      · exact .inl hbroken

/-- The peer finishes before the process has read anything. -/
def finishedRequests : List Event :=
  connected 5 ++
    [.peer (.opened 5) (.send (sent [HTTPParser.getHost])), .peer (.opened 5) .finish, .answer (.epollWait (some [5])),
      .answer (.read (.bytes (sent [HTTPParser.getHost])))]

theorem closed_after_one_request :
    ∃ s s' client c, finishedRequests.foldlM (step Cpp23.readers) (start bufferMemory fun _ => 0) = some s ∧
      s.step Cpp23.readers (.answer (.read .zero)) = some s' ∧ s'.process.point = .closing 5 [] ∧
      s.process.clients 5 = some client ∧ s.kernel.sockets 5 = some c ∧
      (c.broken = true ∨ c.finished = true ∧ ∃ cs, stream cs = c.arrived ∧
        run (HTTPParser.appendBuffer Cpp23.readers) (.fresh 4096) cs = .ok () client.toHTTPParser) := by
  have hrun : ((finishedRequests.foldlM (step Cpp23.readers) (start bufferMemory fun _ => 0)).bind fun s =>
      (s.step Cpp23.readers (.answer (.read .zero))).map fun s' => (s.process.point, s'.process.point)) =
        some (.receiving 5 [], .closing 5 []) := by decide +kernel
  obtain ⟨s, hs, hrun⟩ := Option.bind_eq_some_iff.mp hrun
  obtain ⟨s', hs', hrun⟩ := Option.map_eq_some_iff.mp hrun
  simp only [Prod.mk.injEq] at hrun
  obtain ⟨-, client, c, hclient, hc, hlast⟩ := closed_after_last_byte hs hs' hrun.1 hrun.2
  exact ⟨s, s', client, c, hs, hs', hrun.2, hclient, hc, hlast⟩

end System

end FalconAS.Server

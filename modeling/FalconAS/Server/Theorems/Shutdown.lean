import FalconAS.Server.Theorems.Progress

/-!
# The end of the loop

`ServerLoop` returns only when the process was told to terminate. Then it does return, after a number of system calls
that is bounded by what was left to be read.
-/

namespace FalconAS.Server

open FalconAS.Http FalconAS.Machine

variable {R : Readers} {m : MemoryManager}

/-! ## Why the loop ends -/

/-- The code between two system calls never touches `RunServer`. It returns only where that was reset, and exits only
where `fcntl` has failed. -/
structure Process.Resumed (p : Process) (a : Answer) (p' : Process) : Prop where
  runServer : p'.runServer = p.runServer
  returned : p'.point = .returned → p.runServer = false
  exited : p'.point = .exited → a = .fcntl false

namespace Process

variable {p p' : Process} {a : Answer}

theorem resumed_at {q : Point} (hp : p'.runServer = p.runServer) (hq : p'.point = q) (hended : ¬ q.Ended) :
    p.Resumed a p' := by
  refine ⟨hp, fun h => ?_, fun h => ?_⟩
  all_goals
    rw [← hq, h] at hended
    exact (hended trivial).elim

theorem resumed_serverLoop (p : Process) (a : Answer) : p.Resumed a p.serverLoop := by
  cases h : p.runServer with
  | false => exact ⟨rfl, fun _ => h, by simp [serverLoop, h]⟩
  | true => exact resumed_at rfl (q := .polling) (by simp [serverLoop, h]) id

theorem resumed_processClients (p : Process) (a : Answer) : p.Resumed a p.processClients :=
  resumed_at rfl rfl id

theorem resumed_polled (p : Process) (incoming : Option Bool) (a : Answer) : p.Resumed a (p.polled incoming) := by
  match incoming with
  | none => exact p.resumed_processClients a
  | some true => exact resumed_at rfl rfl id
  | some false =>
      rw [polled]
      split
      · exact resumed_at rfl rfl id
      · exact p.resumed_processClients a

theorem resumed_acceptClient (p : Process) (fd : Filedescriptor) (a : Answer) : p.Resumed a (p.acceptClient fd) := by
  rw [acceptClient]
  split
  · exact resumed_at rfl rfl id
  · exact p.resumed_processClients a

theorem resumed_addClient (p : Process) (fd : Filedescriptor) (done : Bool) :
    p.Resumed (.fcntl done) (p.addClient fd done) := by
  cases done with
  | false => exact ⟨rfl, Point.noConfusion, fun _ => rfl⟩
  | true => exact resumed_at rfl rfl id

theorem resumed_readClientData (p : Process) (rest : List Filedescriptor) (a : Answer) :
    p.Resumed a (p.readClientData rest) := by
  rcases p.readClientData_eq rest with h | ⟨fd, rest', h⟩
  · rw [h]
    exact p.resumed_serverLoop a
  · rw [h]
    exact resumed_at rfl rfl id

theorem resumed_receiveData (p : Process) (client : Client) (fd : Filedescriptor) (rest : List Filedescriptor)
    (hp : p.point = .receiving fd rest) (result : ReadResult) (a : Answer) :
    p.Resumed a (p.receiveData R client fd rest result) := by
  cases result with
  | bytes received =>
      rw [receiveData]
      split
      · exact resumed_at rfl hp id
      · exact ⟨rfl, Point.noConfusion, Point.noConfusion⟩
  | zero => exact resumed_at rfl rfl id
  | error e =>
      cases e with
      | other => exact resumed_at rfl rfl id
      | _ => exact p.resumed_readClientData rest a

theorem resumed_of_resume (h : p.resume R a = some p') : p.Resumed a p' := by
  unfold resume at h
  split at h
  · cases h; exact p.resumed_polled _ _
  · cases h; exact p.resumed_processClients _
  · cases h; exact p.resumed_acceptClient _ _
  · cases h; exact p.resumed_acceptClient _ _
  · cases h; exact p.resumed_addClient _ _
  · cases h; exact p.resumed_processClients _
  · cases h; exact p.resumed_serverLoop _
  · cases h; exact p.resumed_readClientData _ _
  · obtain ⟨client, -, rfl⟩ := Option.map_eq_some_iff.mp h
    exact p.resumed_receiveData client _ _ ‹_› _ _
  · cases h; exact p.resumed_readClientData _ _
  · cases h

end Process

namespace System

variable {s s' : System}

theorem resumed_of_step {a : Answer} (h : s.step R (.answer a) = some s') : s.process.Resumed a s'.process := by
  obtain ⟨call, -, h⟩ := Option.bind_eq_some_iff.mp h
  obtain ⟨kernel, -, h⟩ := Option.bind_eq_some_iff.mp h
  obtain ⟨process, hp, rfl⟩ := Option.map_eq_some_iff.mp h
  exact Process.resumed_of_resume hp

/-- What happens outside of the process does not move it. -/
theorem process_of_step {e : Event} (h : s.step R e = some s') (hterm : e ≠ .terminate) (ha : ∀ a, e ≠ .answer a) :
    s'.process = s.process := by
  cases e with
  | connect => cases h; rfl
  | peer peer a =>
      obtain ⟨kernel, -, rfl⟩ := Option.map_eq_some_iff.mp h
      rfl
  | terminate => exact (hterm rfl).elim
  | answer a => exact (ha a rfl).elim

/-- `RunServer` is still set, and the loop has not returned. -/
def Looping (s : System) : Prop := s.process.runServer = true ∧ s.process.point ≠ .returned

theorem Looping.step {e : Event} (h : s.Looping) (he : e ≠ .terminate) (hstep : s.step R e = some s') : s'.Looping := by
  by_cases ha : ∃ a, e = .answer a
  · obtain ⟨a, rfl⟩ := ha
    have hresumed := resumed_of_step hstep
    refine ⟨hresumed.runServer.trans h.1, fun hreturned => ?_⟩
    have hreset := hresumed.returned hreturned
    rw [h.1] at hreset
    cases hreset
  · rw [Looping, process_of_step hstep he (not_exists.mp ha)]
    exact h

theorem ne_exited_of_step {e : Event} (h : s.process.point ≠ .exited) (he : e ≠ .answer (.fcntl false))
    (hstep : s.step R e = some s') : s'.process.point ≠ .exited := by
  by_cases ha : ∃ a, e = .answer a
  · obtain ⟨a, rfl⟩ := ha
    intro hexited
    exact he (congrArg _ ((resumed_of_step hstep).exited hexited))
  · by_cases hterm : e = .terminate
    · subst hterm
      cases hstep
      exact h
    · rw [process_of_step hstep hterm (not_exists.mp ha)]
      exact h

/-- The loop never ends by itself: it returns only if the process was told to terminate, and exits only if a new
connection could not be made nonblocking. -/
theorem loop_ends_only {memory : Nat → UInt8} {es : List Event}
    (h : es.foldlM (step R) (start m memory) = some s) :
    (s.process.point = .returned → .terminate ∈ es) ∧
      (s.process.point = .exited → .answer (.fcntl false) ∈ es) := by
  refine ⟨fun hreturned => ?_, fun hexited => ?_⟩
  · by_contra hnone
    have hlooping : s.Looping := events_invariant (P := fun e => e ≠ .terminate)
      (fun _ _ _ hs he hstep => hs.step he hstep) ⟨rfl, Point.noConfusion⟩ (List.forall_mem_ne'.mpr hnone) h
    exact hlooping.2 hreturned
  · by_contra hnone
    exact events_invariant (P := fun e => e ≠ .answer (.fcntl false)) (I := fun s => s.process.point ≠ .exited)
      (fun _ _ _ hs he hstep => ne_exited_of_step hs he hstep) Point.noConfusion
      (List.forall_mem_ne'.mpr hnone) h hexited

/-- A connection is accepted, the process is told to terminate, and there is nothing to be read. -/
def terminatedIdle : List Event :=
  connected 4 ++ [.terminate, .answer (.epollWait (some []))]

theorem loop_ends_only_idle :
    ∃ s, terminatedIdle.foldlM (step Cpp23.readers) (start bufferMemory fun _ => 0) = some s ∧
      s.process.point = .returned ∧ .terminate ∈ terminatedIdle := by
  have hrun : (terminatedIdle.foldlM (step Cpp23.readers) (start bufferMemory fun _ => 0)).map
      (fun s => s.process.point) = some .returned := by decide +kernel
  obtain ⟨s, hs, hpoint⟩ := Option.map_eq_some_iff.mp hrun
  exact ⟨s, hs, hpoint, (loop_ends_only hs).1 hpoint⟩

/-! ## That the loop ends -/

/-- Once the process was told to terminate, and while the peers are silent, at most `work` more system calls are
answered, and up to the end of the loop there is always an answer: the loop ends. -/
theorem loop_ends_within_work {memory : Nat → UInt8} {es : List Event} {as : List Answer}
    (h : es.foldlM (step R) (start m memory) = some s) (hreset : s.process.runServer = false)
    (h' : (as.map Event.answer).foldlM (step R) s = some s') :
    as.length ≤ s.work ∧
      (s'.process.point.Ended ∨ ∃ a, GoesOn (.answer a) ∧ (s'.step R (.answer a)).isSome = true) := by
  have hanswers : ∀ e ∈ as.map Event.answer, ∃ a, e = .answer a := by
    intro e he
    obtain ⟨a, -, rfl⟩ := List.mem_map.mp he
    exact ⟨a, rfl⟩
  have hkeeps : ∀ s e s', Kept R m s ∧ s.process.runServer = false → (∃ a, e = .answer a) →
      s.step R e = some s' → Kept R m s' ∧ s'.process.runServer = false := by
    rintro s e s' ⟨hkept, hreset⟩ ⟨a, rfl⟩ hstep
    exact ⟨hkept.step hstep, (resumed_of_step hstep).runServer.trans hreset⟩
  have hstart := And.intro (kept_of_events h) hreset
  constructor
  · rw [← List.length_map (f := Event.answer)]
    refine events_length_le hkeeps (fun s e s' hs he hstep => ?_) hstart hanswers h'
    obtain ⟨a, rfl⟩ := he
    exact work_decreases hs.1 (fun hrun => absurd (hrun.symm.trans hs.2) (by decide)) hstep
  · obtain ⟨hkept, -⟩ := events_invariant hkeeps hstart hanswers h'
    by_cases hended : s'.process.point.Ended
    · exact .inl hended
    · exact .inr (exists_answer hkept hended)

/-- The two requests are read to the end. -/
def lastReads : List Answer :=
  [.read (.bytes ((sent [HTTPParser.getHost, HTTPParser.getHost]).drop 40)), .read (.error .again)]

theorem loop_ends_behind_two_requests :
    ∃ s s', (twoRequests ++ [Event.terminate]).foldlM (step Cpp23.readers) (start bufferMemory fun _ => 0) = some s ∧
      (lastReads.map Event.answer).foldlM (step Cpp23.readers) s = some s' ∧ lastReads.length ≤ s.work ∧
      (s'.process.point.Ended ∨
        ∃ a, GoesOn (.answer a) ∧ (s'.step Cpp23.readers (.answer a)).isSome = true) := by
  have hrun : (((twoRequests ++ [Event.terminate]).foldlM (step Cpp23.readers) (start bufferMemory fun _ => 0)).bind
      fun s => ((lastReads.map Event.answer).foldlM (step Cpp23.readers) s).map fun _ => s.process.runServer) =
        some false := by decide +kernel
  obtain ⟨s, hs, hrun⟩ := Option.bind_eq_some_iff.mp hrun
  obtain ⟨s', hs', hreset⟩ := Option.map_eq_some_iff.mp hrun
  exact ⟨s, s', hs, hs', loop_ends_within_work hs hreset hs'⟩

end System

end FalconAS.Server

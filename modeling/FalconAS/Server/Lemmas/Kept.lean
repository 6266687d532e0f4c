import FalconAS.Http.Lemmas.Walk
import FalconAS.Server.System

/-!
# What the server keeps

The clients of the process and the sockets of the kernel belong together whatever happens: every client has its own
open connection and was fed with what was read from it, and the events that are in hand are events of clients.
-/

namespace FalconAS.Server

open FalconAS.Http FalconAS.Machine

variable {R : Readers} {m : MemoryManager}

/-- Chunks as `receiveData` hands them over, of the bytes that were read from the connection. -/
structure Chunked (c : Connection) (cs : List Chunk) : Prop where
  stream : stream cs = c.delivered
  size : ∀ chunk ∈ cs, chunk.bytes ≠ [] ∧ chunk.bytes.length ≤ socketReceiveBufferSize.toNat

/-- The parser of the client is what the bytes of its connection have made of a new one. If they made it throw, the
process is gone. -/
def Fed (R : Readers) (point : Point) (client : Client) (c : Connection) : Prop :=
  ∃ cs, Chunked c cs ∧
    (run (HTTPParser.appendBuffer R) (.fresh 4096) cs = .ok () client.toHTTPParser ∨
      ∃ e, point = .terminated e ∧
        run (HTTPParser.appendBuffer R) (.fresh 4096) cs = .error e client.toHTTPParser)

namespace System

/-- What holds at a point of the process. -/
def At (R : Readers) (s : System) : Point → Prop
  | .unblocking fd =>
      s.process.clients fd = none ∧ ∃ c, s.kernel.sockets fd = some c ∧ c.delivered = []
  | .registering fd => (s.process.clients fd).isSome = true
  | .receiving fd rest => (fd :: rest).Nodup ∧ ∀ fd' ∈ fd :: rest, (s.process.clients fd').isSome = true
  | .closing fd rest =>
      (fd :: rest).Nodup ∧ (∀ fd' ∈ rest, (s.process.clients fd').isSome = true) ∧ s.process.clients fd = none ∧
        ∃ c, s.kernel.sockets fd = some c ∧ c.Over
  | .terminated e =>
      ∃ fd client c cs, s.process.clients fd = some client ∧ s.kernel.sockets fd = some c ∧ Chunked c cs ∧
        run (HTTPParser.appendBuffer R) (.fresh 4096) cs = .error e client.toHTTPParser
  | _ => True

/-- The invariant of the server. -/
structure Kept (R : Readers) (m : MemoryManager) (s : System) : Prop where
  backlog : ∀ c ∈ s.kernel.backlog, c.delivered = []
  bufferMemory : ∃ n, s.process.bufferMemory = m.after 1 n
  client : ∀ fd client, s.process.clients fd = some client →
    client.clientFD = fd ∧ (∃ n, client.receiveBuffer = m.pointer 1 n) ∧
      ∃ c, s.kernel.sockets fd = some c ∧ Fed R s.process.point client c
  watched : ∀ fd ∈ s.kernel.epoll.watched,
    (s.process.clients fd).isSome = true ∨ ∃ rest, s.process.point = .closing fd rest
  point : s.At R s.process.point

end System

/-! ## Connections -/

theorem Connection.delivered_act {c c' : Connection} {a : Activity} (h : c.act a = some c') :
    c'.delivered = c.delivered := by
  cases a with
  | send bytes =>
      rw [act] at h
      split at h
      · cases h
      · cases h; rfl
  | finish => cases h; rfl
  | reset => cases h; rfl

theorem Connection.Over.act {c c' : Connection} {a : Activity} (h : c.Over) (ha : c.act a = some c') : c'.Over := by
  cases a with
  | send bytes =>
      rw [Connection.act] at ha
      split at ha
      · cases ha
      · rename_i hfin
        cases ha
        exact .inr (h.resolve_left fun hover => hfin hover.2)
  | finish => cases ha; exact h.imp_left fun hover => ⟨hover.1, rfl⟩
  | reset => cases ha; exact .inr rfl

theorem Chunked.congr {c c' : Connection} {cs : List Chunk} (h : Chunked c cs) (hc : c'.delivered = c.delivered) :
    Chunked c' cs :=
  ⟨h.stream.trans hc.symm, h.size⟩

theorem Fed.congr {point : Point} {client : Client} {c c' : Connection} (h : Fed R point client c)
    (hc : c'.delivered = c.delivered) : Fed R point client c' := by
  obtain ⟨cs, hcs, hrun⟩ := h
  exact ⟨cs, hcs.congr hc, hrun⟩

/-- As long as the process is there, no parser has thrown. -/
theorem Fed.running {point : Point} {client : Client} {c : Connection} (h : Fed R point client c)
    (hp : ∀ e, point ≠ .terminated e) :
    ∃ cs, Chunked c cs ∧ run (HTTPParser.appendBuffer R) (.fresh 4096) cs = .ok () client.toHTTPParser := by
  obtain ⟨cs, hcs, hrun | ⟨e, he, -⟩⟩ := h
  · exact ⟨cs, hcs, hrun⟩
  · exact absurd he (hp e)

theorem Fed.move {point point' : Point} {client : Client} {c : Connection} (h : Fed R point client c)
    (hp : ∀ e, point ≠ .terminated e) : Fed R point' client c := by
  obtain ⟨cs, hcs, hrun⟩ := h.running hp
  exact ⟨cs, hcs, .inl hrun⟩

/-! ## Clients -/

/-- The next client in hand is taken up, or the loop begins again. -/
theorem Process.readClientData_eq (p : Process) (rest : List Filedescriptor) :
    p.readClientData rest = p.serverLoop ∨
      ∃ fd rest', p.readClientData rest = { p with point := .receiving fd rest' } := by
  induction rest with
  | nil => exact .inl rfl
  | cons fd rest ih =>
      rw [readClientData]
      split
      · exact .inr ⟨fd, rest, rfl⟩
      · exact ih

@[simp] theorem Process.clients_readClientData (p : Process) (rest : List Filedescriptor) :
    (p.readClientData rest).clients = p.clients := by
  rcases p.readClientData_eq rest with h | ⟨_, _, h⟩ <;> rw [h]
  rfl

@[simp] theorem Process.bufferMemory_readClientData (p : Process) (rest : List Filedescriptor) :
    (p.readClientData rest).bufferMemory = p.bufferMemory := by
  rcases p.readClientData_eq rest with h | ⟨_, _, h⟩ <;> rw [h]
  rfl

/-- The rest of the events is taken up at the first one, as all of them are of clients. -/
theorem Process.point_readClientData (p : Process) {rest : List Filedescriptor}
    (h : ∀ fd ∈ rest, (p.clients fd).isSome = true) :
    (rest = [] ∧ (p.readClientData rest).point.Idle) ∨
      ∃ fd rest', rest = fd :: rest' ∧ (p.readClientData rest).point = .receiving fd rest' := by
  cases rest with
  | nil =>
      refine .inl ⟨rfl, ?_⟩
      rw [readClientData, serverLoop]
      cases p.runServer <;> exact trivial
  | cons fd rest => exact .inr ⟨fd, rest, rfl, by rw [readClientData, if_pos (h fd List.mem_cons_self)]⟩

/-- What was stored at the address of a buffer is what `appendBuffer` gets. -/
theorem chunkAt_store (memory : Nat → UInt8) (address : Nat) (chunk : Chunk) :
    chunkAt (Memory.Heap.store memory address chunk.bytes) address (UInt16.ofNat chunk.bytes.length) = chunk := by
  obtain ⟨bytes, hlt⟩ := chunk
  simp only [chunkAt, UInt16.toNat_ofNat_of_lt' hlt, Memory.Heap.load_store_same]

theorem Process.receiveData_ok {p : Process} {client : Client} {fd : Filedescriptor} {rest : List Filedescriptor}
    {chunk : Chunk} {parser : HTTPParser} (h : client.appendBuffer R chunk = .ok () parser) :
    p.receiveData R client fd rest (.bytes chunk.bytes) =
      { p with
        memory := Memory.Heap.store p.memory client.receiveBuffer chunk.bytes
        clients := Function.update p.clients fd (some { client with toHTTPParser := parser }) } := by
  simp only [receiveData, chunkAt_store, h]

theorem Process.receiveData_error {p : Process} {client : Client} {fd : Filedescriptor} {rest : List Filedescriptor}
    {chunk : Chunk} {parser : HTTPParser} {e : Exception} (h : client.appendBuffer R chunk = .error e parser) :
    p.receiveData R client fd rest (.bytes chunk.bytes) =
      { p with
        memory := Memory.Heap.store p.memory client.receiveBuffer chunk.bytes
        clients := Function.update p.clients fd (some { client with toHTTPParser := parser })
        point := .terminated e } := by
  simp only [receiveData, chunkAt_store, h]

theorem eq_some_of_update_none {clients : Filedescriptor → Option Client} {fd fd' : Filedescriptor} {client : Client}
    (h : Function.update clients fd none fd' = some client) : fd' ≠ fd ∧ clients fd' = some client := by
  by_cases heq : fd' = fd
  · rw [heq, Function.update_self] at h
    cases h
  · exact ⟨heq, by rwa [Function.update_of_ne heq] at h⟩

theorem isSome_update_of_ne {clients : Filedescriptor → Option Client} {fd fd' : Filedescriptor} {v : Option Client}
    (hne : fd' ≠ fd) (h : (clients fd').isSome = true) : (Function.update clients fd v fd').isSome = true := by
  rwa [Function.update_of_ne hne]

theorem Process.emplace_new {clients : Filedescriptor → Option Client} {fd : Filedescriptor} {client : Client}
    (h : clients fd = none) : emplace clients fd client = Function.update clients fd (some client) := by
  rw [emplace, h, if_neg (by simp)]

/-! ## The invariant -/

namespace System

theorem At.idle {s : System} {q : Point} (h : q.Idle) : s.At R q := by
  cases q <;> trivial

theorem At.readClientData {p : Process} {k : Kernel} {rest : List Filedescriptor} (hnodup : rest.Nodup)
    (h : ∀ fd ∈ rest, (p.clients fd).isSome = true) :
    At R ⟨p.readClientData rest, k⟩ (p.readClientData rest).point := by
  rcases p.point_readClientData h with ⟨-, hidle⟩ | ⟨fd, rest', rfl, hpoint⟩
  · exact .idle hidle
  · rw [hpoint]
    exact ⟨hnodup, by simpa using h⟩

/-- A file descriptor that is watched is one of a client, unless it is just being closed. -/
theorem Kept.isSome_of_watched {s : System} (h : Kept R m s) (hp : ∀ fd rest, s.process.point ≠ .closing fd rest)
    {fd : Filedescriptor} (hfd : fd ∈ s.kernel.epoll.watched) : (s.process.clients fd).isSome = true := by
  rcases h.watched fd hfd with hsome | ⟨rest, hrest⟩
  · exact hsome
  · exact absurd hrest (hp fd rest)

/-- A file descriptor that is watched is one of an open connection. -/
theorem Kept.socket_of_watched {s : System} (h : Kept R m s) {fd : Filedescriptor}
    (hfd : fd ∈ s.kernel.epoll.watched) : ∃ c, s.kernel.sockets fd = some c := by
  rcases h.watched fd hfd with hsome | ⟨rest, hrest⟩
  · obtain ⟨client, hclient⟩ := Option.isSome_iff_exists.mp hsome
    obtain ⟨-, -, c, hc, -⟩ := h.client fd client hclient
    exact ⟨c, hc⟩
  · have hpoint := h.point
    rw [hrest] at hpoint
    obtain ⟨-, -, -, c, hc, -⟩ := hpoint
    exact ⟨c, hc⟩

/-- The process goes on and leaves its clients alone. -/
theorem Kept.move {p p' : Process} {k : Kernel} (h : Kept R m ⟨p, k⟩) (hterm : ∀ e, p.point ≠ .terminated e)
    (hclosing : ∀ fd rest, p.point ≠ .closing fd rest) (hclients : p'.clients = p.clients)
    (hmemory : p'.bufferMemory = p.bufferMemory) (hpoint : At R ⟨p', k⟩ p'.point) : Kept R m ⟨p', k⟩ where
  backlog := h.backlog
  bufferMemory := hmemory ▸ h.bufferMemory
  client := by
    intro fd client hfd
    rw [hclients] at hfd
    obtain ⟨hown, hbuffer, c, hc, hfed⟩ := h.client fd client hfd
    exact ⟨hown, hbuffer, c, hc, hfed.move hterm⟩
  watched := by
    intro fd hfd
    rw [hclients]
    exact .inl (h.isSome_of_watched hclosing hfd)
  point := hpoint

theorem Kept.movesOn {p p' : Process} {k : Kernel} (h : Kept R m ⟨p, k⟩) (hterm : ∀ e, p.point ≠ .terminated e)
    (hclosing : ∀ fd rest, p.point ≠ .closing fd rest) (hp' : p.MovesOn p') : Kept R m ⟨p', k⟩ := by
  obtain ⟨processed, q, hq, rfl⟩ := hp'
  exact h.move hterm hclosing rfl rfl (.idle hq)

/-- Connections change that are not open. -/
theorem Kept.setBacklog {p : Process} {k : Kernel} (h : Kept R m ⟨p, k⟩) {backlog : List Connection}
    (hb : ∀ c ∈ backlog, c.delivered = []) : Kept R m ⟨p, { k with backlog := backlog }⟩ where
  backlog := hb
  bufferMemory := h.bufferMemory
  client := h.client
  watched := h.watched
  point := by
    have hpoint := h.point
    revert hpoint
    cases p.point <;> exact id

theorem exists_update {sockets : Filedescriptor → Option Connection} {fd fd' : Filedescriptor} {c c' : Connection}
    {P : Connection → Prop} (hc : sockets fd = some c) (hP : P c → P c')
    (h : ∃ c, sockets fd' = some c ∧ P c) : ∃ c, Function.update sockets fd (some c') fd' = some c ∧ P c := by
  obtain ⟨d, hd, hPd⟩ := h
  by_cases heq : fd' = fd
  · subst heq
    rw [hc] at hd
    cases hd
    exact ⟨c', Function.update_self _ _ _, hP hPd⟩
  · exact ⟨d, by rw [Function.update_of_ne heq, hd], hPd⟩

/-- The peer of an open connection does something. -/
theorem Kept.opened {p : Process} {k : Kernel} {fd : Filedescriptor} {c c' : Connection} {a : Activity}
    (h : Kept R m ⟨p, k⟩) (hc : k.sockets fd = some c) (ha : c.act a = some c') :
    Kept R m ⟨p, { k with sockets := Function.update k.sockets fd (some c'), epoll := k.epoll.wake fd }⟩ where
  backlog := h.backlog
  bufferMemory := h.bufferMemory
  client := by
    intro fd' client hfd'
    obtain ⟨hown, hbuffer, hfed⟩ := h.client fd' client hfd'
    exact ⟨hown, hbuffer, exists_update hc (fun hfed => hfed.congr (Connection.delivered_act ha)) hfed⟩
  watched := by simpa using h.watched
  point := by
    have hpoint := h.point
    revert hpoint
    cases p.point with
    | unblocking fd' =>
        rintro ⟨hnone, hnew⟩
        exact ⟨hnone, exists_update hc (fun hd => (Connection.delivered_act ha).trans hd) hnew⟩
    | closing fd' rest =>
        rintro ⟨hnodup, hrest, hnone, hover⟩
        exact ⟨hnodup, hrest, hnone, exists_update hc (fun hover => hover.act ha) hover⟩
    | terminated e =>
        rintro ⟨fd', client, d, cs, hclient, hd, hcs, hrun⟩
        obtain ⟨d', hd', hcs'⟩ :=
          exists_update (P := (Chunked · cs)) hc (fun hcs => hcs.congr (Connection.delivered_act ha)) ⟨d, hd, hcs⟩
        exact ⟨fd', client, d', cs, hclient, hd', hcs', hrun⟩
    | _ => exact id

/-- The new connection gets a file descriptor that no client has. -/
theorem Kept.accepted {p : Process} {k : Kernel} {fd : Filedescriptor} {c : Connection} {backlog : List Connection}
    (h : Kept R m ⟨p, k⟩) (hp : p.point = .accepting) (hb : k.backlog = c :: backlog) (hfd : k.sockets fd = none) :
    Kept R m
      ⟨p.acceptClient fd, { k with backlog := backlog, sockets := Function.update k.sockets fd (some c) }⟩ := by
  have hnone : p.clients fd = none := by
    cases hclient : p.clients fd with
    | none => rfl
    | some client =>
        obtain ⟨-, -, d, hd, -⟩ := h.client fd client hclient
        rw [hfd] at hd
        cases hd
  have hc : c.delivered = [] := h.backlog c (by rw [hb]; exact List.mem_cons_self)
  -- the connection is open before the process goes on
  have hkept : Kept R m ⟨p, { k with backlog := backlog, sockets := Function.update k.sockets fd (some c) }⟩ := by
    refine ⟨fun d hd => h.backlog d (by rw [hb]; exact List.mem_cons_of_mem _ hd), h.bufferMemory, ?_, h.watched, ?_⟩
    · intro fd' client hclient
      obtain ⟨hown, hbuffer, d, hd, hfed⟩ := h.client fd' client hclient
      have hne : fd' ≠ fd := by
        rintro rfl
        rw [hnone] at hclient
        cases hclient
      exact ⟨hown, hbuffer, d, (Function.update_of_ne hne _ _).trans hd, hfed⟩
    · rw [hp]
      trivial
  have hterm : ∀ e, p.point ≠ .terminated e := by simp [hp]
  have hclosing : ∀ fd rest, p.point ≠ .closing fd rest := by simp [hp]
  rw [Process.acceptClient]
  split
  · exact hkept.move hterm hclosing rfl rfl ⟨hnone, c, Function.update_self _ _ _, hc⟩
  · exact hkept.movesOn hterm hclosing p.movesOn_processClients

/-- The client gets a new parser and the next segment of the buffer memory. -/
theorem Kept.unblocked {p : Process} {k : Kernel} {fd : Filedescriptor} {done : Bool} (h : Kept R m ⟨p, k⟩)
    (hp : p.point = .unblocking fd) : Kept R m ⟨p.addClient fd done, k⟩ := by
  have hterm : ∀ e, p.point ≠ .terminated e := by simp [hp]
  have hclosing : ∀ fd rest, p.point ≠ .closing fd rest := by simp [hp]
  have hpoint := h.point
  rw [hp] at hpoint
  obtain ⟨hnone, c, hc, hnew⟩ := hpoint
  cases done with
  | false => exact h.move hterm hclosing rfl rfl trivial
  | true =>
      obtain ⟨n, hn⟩ := h.bufferMemory
      have hclients : (p.addClient fd true).clients =
          Function.update p.clients fd (some (Client.fresh fd (m.pointer 1 n))) := by
        rw [MemoryManager.pointer, ← hn]
        exact Process.emplace_new hnone
      refine ⟨h.backlog, ⟨n + 1, by rw [MemoryManager.after, ← hn]; rfl⟩, ?_, ?_, ?_⟩
      · intro fd' client hclient
        rw [hclients] at hclient
        by_cases heq : fd' = fd
        · subst heq
          rw [Function.update_self] at hclient
          cases hclient
          exact ⟨rfl, ⟨n, rfl⟩, c, hc, [], ⟨hnew.symm, by simp⟩, .inl rfl⟩
        · rw [Function.update_of_ne heq] at hclient
          obtain ⟨hown, hbuffer, d, hd, hfed⟩ := h.client fd' client hclient
          exact ⟨hown, hbuffer, d, hd, hfed.move hterm⟩
      · intro fd' hfd'
        rw [hclients]
        have hsome := h.isSome_of_watched hclosing hfd'
        by_cases heq : fd' = fd
        · exact .inl (by rw [heq, Function.update_self]; rfl)
        · exact .inl (isSome_update_of_ne heq hsome)
      · have hsome : ((p.addClient fd true).clients fd).isSome = true := by
          rw [hclients, Function.update_self]
          rfl
        exact hsome

theorem Kept.registered {p : Process} {k : Kernel} {fd : Filedescriptor} {now : Bool} (h : Kept R m ⟨p, k⟩)
    (hp : p.point = .registering fd) :
    Kept R m ⟨p.processClients, { k with epoll := k.epoll.add fd now }⟩ := by
  have hsome := h.point
  rw [hp] at hsome
  have hmoved := h.movesOn (by simp [hp]) (by simp [hp]) p.movesOn_processClients
  refine ⟨hmoved.backlog, hmoved.bufferMemory, hmoved.client, ?_, trivial⟩
  intro fd' hfd'
  rw [Readiness.watched_add] at hfd'
  rcases List.mem_cons.mp hfd' with rfl | hfd'
  · exact .inl hsome
  · exact hmoved.watched fd' hfd'

/-- All reported file descriptors are watched, and so they are clients. -/
theorem Kept.isSome_of_reported {s : System} (h : Kept R m s) (hp : s.process.point = .waiting) {n : Nat}
    {fd : Filedescriptor} (hfd : fd ∈ (s.kernel.epoll.take s.kernel.readable n).1) :
    (s.process.clients fd).isSome = true :=
  h.isSome_of_watched (by simp [hp]) (s.kernel.epoll.watched_of_ready fd (Readiness.take_subset hfd))

theorem Kept.waited {p : Process} {k : Kernel} (h : Kept R m ⟨p, k⟩) (hp : p.point = .waiting) {n : Nat} :
    Kept R m
      ⟨p.readClientData (k.epoll.take k.readable n).1, { k with epoll := (k.epoll.take k.readable n).2 }⟩ := by
  have hclients : ∀ fd ∈ (k.epoll.take k.readable n).1, (p.clients fd).isSome = true :=
    fun fd hfd => h.isSome_of_reported hp hfd
  have hkept : Kept R m ⟨p, { k with epoll := (k.epoll.take k.readable n).2 }⟩ :=
    ⟨h.backlog, h.bufferMemory, h.client, h.watched, by rw [hp]; trivial⟩
  exact hkept.move (by simp [hp]) (by simp [hp]) (p.clients_readClientData _) (p.bufferMemory_readClientData _)
    (.readClientData (Readiness.nodup_take _ _ _) hclients)

/-- Nothing is left of the client but an open connection that has come to its end. -/
theorem Kept.ended {p : Process} {k : Kernel} {fd : Filedescriptor} {rest : List Filedescriptor} {c : Connection}
    (h : Kept R m ⟨p, k⟩) (hp : p.point = .receiving fd rest) (hc : k.sockets fd = some c) (hover : c.Over) :
    Kept R m ⟨{ p with clients := Function.update p.clients fd none, point := .closing fd rest }, k⟩ := by
  have hpoint := h.point
  rw [hp] at hpoint
  obtain ⟨hnodup, hall⟩ := hpoint
  refine ⟨h.backlog, h.bufferMemory, ?_, ?_, hnodup, ?_, Function.update_self _ _ _, c, hc, hover⟩
  · intro fd' client hclient
    obtain ⟨-, hclient⟩ := eq_some_of_update_none hclient
    obtain ⟨hown, hbuffer, d, hd, hfed⟩ := h.client fd' client hclient
    exact ⟨hown, hbuffer, d, hd, hfed.move (by simp [hp])⟩
  · intro fd' hfd'
    by_cases heq : fd' = fd
    · exact .inr ⟨rest, by rw [heq]⟩
    · exact .inl (isSome_update_of_ne heq (h.isSome_of_watched (by simp [hp]) hfd'))
  · intro fd' hfd'
    have hne : fd' ≠ fd := fun heq => (List.nodup_cons.mp hnodup).1 (heq ▸ hfd')
    exact isSome_update_of_ne hne (hall fd' (List.mem_cons_of_mem _ hfd'))

theorem Kept.drained {p : Process} {k : Kernel} {fd : Filedescriptor} {rest : List Filedescriptor}
    (h : Kept R m ⟨p, k⟩) (hp : p.point = .receiving fd rest) : Kept R m ⟨p.readClientData rest, k⟩ := by
  have hpoint := h.point
  rw [hp] at hpoint
  obtain ⟨hnodup, hall⟩ := hpoint
  exact h.move (by simp [hp]) (by simp [hp]) (p.clients_readClientData _) (p.bufferMemory_readClientData _)
    (.readClientData (List.nodup_cons.mp hnodup).2 fun fd' hfd' => hall fd' (List.mem_cons_of_mem _ hfd'))

theorem Kept.closed {p : Process} {k : Kernel} {fd : Filedescriptor} {rest : List Filedescriptor}
    (h : Kept R m ⟨p, k⟩) (hp : p.point = .closing fd rest) :
    Kept R m ⟨p.readClientData rest,
      { k with sockets := Function.update k.sockets fd none, epoll := k.epoll.remove fd }⟩ := by
  have hpoint := h.point
  rw [hp] at hpoint
  obtain ⟨hnodup, hall, hnone, -⟩ := hpoint
  refine ⟨h.backlog, (p.bufferMemory_readClientData rest).symm ▸ h.bufferMemory, ?_, ?_,
    .readClientData (List.nodup_cons.mp hnodup).2 hall⟩
  · intro fd' client hclient
    rw [Process.clients_readClientData] at hclient
    obtain ⟨hown, hbuffer, d, hd, hfed⟩ := h.client fd' client hclient
    have hne : fd' ≠ fd := by
      rintro rfl
      rw [hnone] at hclient
      cases hclient
    exact ⟨hown, hbuffer, d, (Function.update_of_ne hne _ _).trans hd, hfed.move (by simp [hp])⟩
  · intro fd' hfd'
    rw [Process.clients_readClientData]
    obtain ⟨hwatched, hne⟩ := Readiness.mem_watched_remove.mp hfd'
    refine .inl ((h.watched fd' hwatched).resolve_right ?_)
    rintro ⟨rest', hrest'⟩
    rw [hp] at hrest'
    exact hne (Point.closing.inj hrest').1.symm

/-- One more chunk of its own connection for one client; the others keep their parsers. -/
theorem Kept.received {p : Process} {k : Kernel} {fd : Filedescriptor} {rest : List Filedescriptor} {client : Client}
    {c : Connection} {chunk : Chunk} {unread : Bytes} (h : Kept R m ⟨p, k⟩) (hp : p.point = .receiving fd rest)
    (hclient : p.clients fd = some client) (hc : k.sockets fd = some c) (hne : chunk.bytes ≠ [])
    (hlen : chunk.bytes.length ≤ socketReceiveBufferSize.toNat) :
    Kept R m ⟨p.receiveData R client fd rest (.bytes chunk.bytes), { k with
      sockets := Function.update k.sockets fd
        (some { c with delivered := c.delivered ++ chunk.bytes, unread := unread }) }⟩ := by
  have hpoint := h.point
  rw [hp] at hpoint
  obtain ⟨hnodup, hall⟩ := hpoint
  obtain ⟨hown, hbuffer, d, hd, hfed⟩ := h.client fd client hclient
  rw [hc] at hd
  cases hd
  have hterm : ∀ e, p.point ≠ .terminated e := by simp [hp]
  obtain ⟨cs, hcs, hrun⟩ := hfed.running hterm
  have hcs' : Chunked { c with delivered := c.delivered ++ chunk.bytes, unread := unread } (cs ++ [chunk]) := by
    constructor
    · rw [stream_append, hcs.stream]
      simp
    · intro chunk' hchunk'
      rcases List.mem_append.mp hchunk' with hchunk' | hchunk'
      · exact hcs.size chunk' hchunk'
      · rw [List.mem_singleton.mp hchunk']
        exact ⟨hne, hlen⟩
  have hlast := run_concat hrun chunk
  -- what holds of the clients, whether the parser returns or throws
  have hclients : ∀ (parser : HTTPParser) (q : Point),
      Fed R q { client with toHTTPParser := parser }
        { c with delivered := c.delivered ++ chunk.bytes, unread := unread } →
      ∀ fd' client', Function.update p.clients fd (some { client with toHTTPParser := parser }) fd' = some client' →
        client'.clientFD = fd' ∧ (∃ n, client'.receiveBuffer = m.pointer 1 n) ∧
          ∃ c', Function.update k.sockets fd
            (some { c with delivered := c.delivered ++ chunk.bytes, unread := unread }) fd' = some c' ∧
              Fed R q client' c' := by
    intro parser q hparser fd' client' hclient'
    by_cases heq : fd' = fd
    · subst heq
      rw [Function.update_self] at hclient'
      cases hclient'
      exact ⟨hown, hbuffer, _, Function.update_self _ _ _, hparser⟩
    · rw [Function.update_of_ne heq] at hclient'
      obtain ⟨hown', hbuffer', d, hd, hfed'⟩ := h.client fd' client' hclient'
      exact ⟨hown', hbuffer', d, (Function.update_of_ne heq _ _).trans hd, hfed'.move hterm⟩
  have hsome : ∀ (v : Client) fd', (p.clients fd').isSome = true →
      (Function.update p.clients fd (some v) fd').isSome = true := by
    intro v fd' hfd'
    by_cases heq : fd' = fd
    · rw [heq, Function.update_self]
      rfl
    · exact isSome_update_of_ne heq hfd'
  have hwatched : ∀ fd' ∈ k.epoll.watched, (p.clients fd').isSome = true := fun fd' hfd' =>
    h.isSome_of_watched (by simp [hp]) hfd'
  cases happend : client.appendBuffer R chunk with
  | ok u parser =>
      rw [Process.receiveData_ok happend]
      refine ⟨h.backlog, h.bufferMemory, hclients parser p.point ⟨_, hcs', .inl (hlast.trans happend)⟩,
        fun fd' hfd' => .inl (hsome _ fd' (hwatched fd' hfd')), ?_⟩
      rw [hp]
      exact ⟨hnodup, fun fd' hfd' => hsome _ fd' (hall fd' hfd')⟩
  | error e parser =>
      rw [Process.receiveData_error happend]
      exact ⟨h.backlog, h.bufferMemory,
        hclients parser (.terminated e) ⟨_, hcs', .inr ⟨e, rfl, hlast.trans happend⟩⟩,
        fun fd' hfd' => .inl (hsome _ fd' (hwatched fd' hfd')),
        fd, _, _, _, Function.update_self _ _ _, Function.update_self _ _ _, hcs', hlast.trans happend⟩

/-- Every event keeps the invariant. -/
theorem Kept.step {s s' : System} {e : Event} (h : Kept R m s) (hstep : s.step R e = some s') : Kept R m s' := by
  cases step_does hstep with
  | connect =>
      refine h.setBacklog fun c hc => ?_
      rcases List.mem_append.mp hc with hc | hc
      · exact h.backlog c hc
      · rw [List.mem_singleton.mp hc]
        rfl
  | queued hc ha =>
      refine h.setBacklog fun d hd => ?_
      rcases List.mem_or_eq_of_mem_set hd with hd | rfl
      · exact h.backlog d hd
      · rw [Connection.delivered_act ha]
        exact h.backlog _ (List.mem_of_getElem? hc)
  | opened hc ha => exact h.opened hc ha
  | terminate => exact ⟨h.backlog, h.bufferMemory, h.client, h.watched, h.point⟩
  | movesOn hp hp' => exact h.movesOn hp.ne_terminated hp.ne_closing hp'
  | accepted hp hb hfd => exact h.accepted hp hb hfd
  | aborted hp hb =>
      have hkept := h.setBacklog fun c hc => h.backlog c (by rw [hb]; exact List.mem_cons_of_mem _ hc)
      exact hkept.movesOn (by simp [hp]) (by simp [hp]) (Process.movesOn_processClients _)
  | unblocked hp => exact h.unblocked hp
  | registered hp => exact h.registered hp
  | unregistered hp => exact h.movesOn (by simp [hp]) (by simp [hp]) (Process.movesOn_processClients _)
  | waited hp he => rw [he]; exact h.waited hp
  | received hp hclient hc hne hlen hunread hp' =>
      obtain ⟨hown, -⟩ := h.client _ _ hclient
      rw [hown] at hc ⊢
      rw [hp']
      exact h.received hp hclient hc hne hlen
  | ended hp hclient hc hover =>
      obtain ⟨hown, -⟩ := h.client _ _ hclient
      rw [hown] at hc
      exact h.ended hp hc hover
  | drained hp => exact h.drained hp
  | closed hp => exact h.closed hp

theorem kept_start (R : Readers) (m : MemoryManager) (memory : Nat → UInt8) : Kept R m (start m memory) where
  backlog := by simp [start, Kernel.empty]
  bufferMemory := ⟨0, rfl⟩
  client := by
    intro fd client hfd
    cases hfd
  watched := by simp [start, Kernel.empty, Readiness.empty]
  point := trivial

/-- The invariant holds behind whatever happens. -/
theorem kept_of_events {memory : Nat → UInt8} {es : List Event} {s : System}
    (h : es.foldlM (step R) (start m memory) = some s) : Kept R m s :=
  events_invariant (P := fun _ => True) (fun _ _ _ hs _ hstep => hs.step hstep) (kept_start R m memory)
    (fun _ _ => trivial) h

end System

end FalconAS.Server

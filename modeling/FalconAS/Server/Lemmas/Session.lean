import FalconAS.Server.Lemmas.Kept

/-!
# One client among others

What an event does to a client and its connection, seen from this client: nothing, or it is the event that makes the
client, or a chunk is read from its connection.
-/

namespace FalconAS.Server

open FalconAS.Http FalconAS.Machine

variable {R : Readers} {m : MemoryManager}

theorem Process.clients_receiveData {p : Process} {client : Client} {fd : Filedescriptor}
    {rest : List Filedescriptor} {chunk : Chunk} :
    (p.receiveData R client fd rest (.bytes chunk.bytes)).clients =
      Function.update p.clients fd
        (some { client with toHTTPParser := stateOf (client.appendBuffer R chunk) }) := by
  cases h : client.appendBuffer R chunk with
  | ok u parser => rw [receiveData_ok h]; rfl
  | error e parser => rw [receiveData_error h]; rfl

theorem Process.clients_acceptClient (p : Process) (fd : Filedescriptor) : (p.acceptClient fd).clients = p.clients := by
  rw [acceptClient]
  split <;> rfl

namespace System

/-- The client and the connection of a file descriptor behind an event, by what they were in front of it. -/
inductive Session (R : Readers) (s : System) (fd : Filedescriptor) (client' : Client) (c' : Connection) : Prop where
  | same {client : Client} {c : Connection} (hclient : s.process.clients fd = some client)
      (hc : s.kernel.sockets fd = some c) (hparser : client'.toHTTPParser = client.toHTTPParser)
      (hdelivered : c'.delivered = c.delivered) : Session R s fd client' c'
  | new (hparser : client'.toHTTPParser = .fresh 4096) (hdelivered : c'.delivered = []) : Session R s fd client' c'
  | read {client : Client} {c : Connection} {chunk : Chunk} (hclient : s.process.clients fd = some client)
      (hc : s.kernel.sockets fd = some c) (hne : chunk.bytes ≠ []) (hunread : chunk.bytes <+: c.unread)
      (hparser : client'.toHTTPParser = stateOf (client.appendBuffer R chunk))
      (hdelivered : c'.delivered = c.delivered ++ chunk.bytes) : Session R s fd client' c'

theorem Session.unchanged {s : System} {fd : Filedescriptor} {client : Client} {c : Connection}
    (hclient : s.process.clients fd = some client) (hc : s.kernel.sockets fd = some c) :
    Session R s fd client c :=
  .same hclient hc rfl rfl

theorem Kept.session {s s' : System} {e : Event} (h : Kept R m s) (hdoes : Does R s e s') {fd : Filedescriptor}
    {client' : Client} {c' : Connection} (hclient : s'.process.clients fd = some client')
    (hc : s'.kernel.sockets fd = some c') : Session R s fd client' c' := by
  cases hdoes with
  | connect => exact .unchanged hclient hc
  | queued _ _ => exact .unchanged hclient hc
  | terminate => exact .unchanged hclient hc
  | aborted _ _ => exact .unchanged hclient hc
  | registered _ _ _ => exact .unchanged hclient hc
  | unregistered _ => exact .unchanged hclient hc
  | movesOn _ hmoves _ =>
      obtain ⟨processed, q, _, rfl⟩ := hmoves
      exact .unchanged hclient hc
  | waited _ _ => exact .unchanged (by rwa [Process.clients_readClientData] at hclient) hc
  | drained _ _ _ _ => exact .unchanged (by rwa [Process.clients_readClientData] at hclient) hc
  | @opened p k fd' a d d' hd ha =>
      have hc : Function.update k.sockets fd' (some d') fd = some c' := hc
      by_cases heq : fd = fd'
      · subst heq
        rw [Function.update_self] at hc
        cases hc
        exact .same hclient hd rfl (Connection.delivered_act ha)
      · rw [Function.update_of_ne heq] at hc
        exact .unchanged hclient hc
  | @accepted p k fd' d backlog hp hb hnone =>
      have hc : Function.update k.sockets fd' (some d) fd = some c' := hc
      rw [Process.clients_acceptClient] at hclient
      have hne : fd ≠ fd' := by
        rintro rfl
        obtain ⟨-, -, e, he, -⟩ := h.client fd client' hclient
        rw [hnone] at he
        cases he
      rw [Function.update_of_ne hne] at hc
      exact .unchanged hclient hc
  | @unblocked p k fd' done hp =>
      have hpoint := h.point
      rw [hp] at hpoint
      obtain ⟨hnone, d, hd, hnew⟩ := hpoint
      cases done with
      | false => exact .unchanged hclient hc
      | true =>
          have hclient : Process.emplace p.clients fd' (Client.fresh fd' _) fd = some client' := hclient
          rw [Process.emplace_new hnone] at hclient
          by_cases heq : fd = fd'
          · subst heq
            rw [Function.update_self] at hclient
            cases hclient
            cases hd.symm.trans hc
            exact .new rfl hnew
          · rw [Function.update_of_ne heq] at hclient
            exact .unchanged hclient hc
  | @received p k fd' rest client d chunk unread hp hclient' hd hne hlen hunread p' hp' =>
      obtain ⟨hown, -⟩ := h.client fd' client hclient'
      have hc : Function.update k.sockets client.clientFD _ fd = some c' := hc
      rw [hp', Process.clients_receiveData] at hclient
      rw [hown] at hc hd
      by_cases heq : fd = fd'
      · subst heq
        rw [Function.update_self] at hclient hc
        cases hclient
        cases hc
        exact .read hclient' hd hne ⟨unread, hunread.symm⟩ rfl rfl
      · rw [Function.update_of_ne heq] at hclient hc
        exact .unchanged hclient hc
  | ended _ _ _ _ =>
      obtain ⟨-, hclient⟩ := eq_some_of_update_none hclient
      exact .unchanged hclient hc
  | @closed p k fd' rest hp =>
      have hc : Function.update k.sockets fd' none fd = some c' := hc
      rw [Process.clients_readClientData] at hclient
      have hne : fd ≠ fd' := by
        rintro rfl
        rw [Function.update_self] at hc
        cases hc
      rw [Function.update_of_ne hne] at hc
      exact .unchanged hclient hc

end System

end FalconAS.Server

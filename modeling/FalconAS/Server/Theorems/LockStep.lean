import FalconAS.Http.Theorems.LockStep
import FalconAS.Server.Theorems.Sessions
import FalconAS.Server.Lemmas.Session

/-!
# Peers that wait

A peer that waits until the server has read a POST request, before it sends anything more, is served correctly for as
long as it likes, whatever other peers do and however the kernel cuts what it sends.
-/

namespace FalconAS.Server

open FalconAS.Http FalconAS.Machine

/-! ## Bursts -/

/-- The bytes of the first `k` bursts. -/
def upTo (bs : List (List WireRequest)) (k : Nat) : Bytes := sent (bs.take k).flatten

/-- Of a burst nothing has arrived before all of the earlier ones was read. -/
def LockStep (bs : List (List WireRequest)) (c : Connection) : Prop :=
  ∃ k, upTo bs k <+: c.delivered ∧ c.arrived <+: upTo bs (k + 1)

section

variable (bs : List (List WireRequest))

theorem flatten_take_succ (k : Nat) : (bs.take (k + 1)).flatten = (bs.take k).flatten ++ bs[k]?.getD [] := by
  rw [List.take_add_one, List.flatten_append]
  cases bs[k]? with
  | none => simp
  | some b => simp

theorem upTo_succ (k : Nat) : upTo bs (k + 1) = upTo bs k ++ sent (bs[k]?.getD []) := by
  rw [upTo, flatten_take_succ, sent_append, upTo]

theorem upTo_mono {k k' : Nat} (h : k ≤ k') : upTo bs k <+: upTo bs k' := by
  induction h with
  | refl => exact List.prefix_rfl
  | step _ ih =>
      rw [upTo_succ]
      exact ih.trans (List.prefix_append _ _)

end

theorem marker_infix_render (r : WireRequest) : http11EndMarker <:+: r.render :=
  ⟨r.block, r.payload, rfl⟩

theorem sent_eq_nil {rs : List WireRequest} (h : sent rs = []) : rs = [] := by
  cases rs with
  | nil => rfl
  | cons r rs =>
      rw [sent, List.flatMap_cons, List.append_eq_nil_iff] at h
      have hin := marker_infix_render r
      rw [h.1] at hin
      exact absurd hin not_marker_nil

/-- Bursts that bring no byte bring no request. -/
theorem flatten_take_of_upTo_eq {bs : List (List WireRequest)} {k k' : Nat} (hle : k ≤ k')
    (h : upTo bs k' = upTo bs k) : (bs.take k').flatten = (bs.take k).flatten := by
  have hsplit : bs.take k' = bs.take k ++ (bs.take k').drop k := by
    have htake := List.take_append_drop k (bs.take k')
    rw [List.take_take, Nat.min_eq_left hle] at htake
    exact htake.symm
  rw [upTo, hsplit, List.flatten_append, sent_append] at h
  have hnil := sent_eq_nil (List.append_right_eq_self.mp h)
  rw [hsplit, List.flatten_append, hnil, List.append_nil]

/-! ## The parser of a client -/

/-- The parser is somewhere in the burst that is read. -/
structure Serving (bs : List (List WireRequest)) (p : HTTPParser) (delivered : Bytes) (k : Nat) (t : Bytes) : Prop where
  room : p.httpRequestBufferMax = 4096
  eq : delivered ++ t = upTo bs (k + 1)
  earlier : upTo bs k <+: delivered
  amid : HTTPParser.Amid (bs.take k).flatten (bs[k]?.getD []) t p.clear

variable {bs : List (List WireRequest)} {p : HTTPParser} {delivered t : Bytes} {k : Nat}

theorem burst_getD (hbs : ∀ b ∈ bs, Burst b ∧ (sent b).length ≤ 4096) (k : Nat) :
    Burst (bs[k]?.getD []) ∧ (sent (bs[k]?.getD [])).length ≤ 4096 := by
  cases hb : bs[k]? with
  | none => exact ⟨.inl fun r hr => absurd hr List.not_mem_nil, Nat.zero_le _⟩
  | some b => exact hbs b (List.mem_of_getElem? hb)

/-- The peer goes on in the burst that is read, or has started one behind it. -/
theorem Serving.next (h : Serving bs p delivered k t) (hbs : ∀ b ∈ bs, Burst b ∧ (sent b).length ≤ 4096)
    {chunk : Bytes} (hne : chunk ≠ []) {k' : Nat} (hearlier : upTo bs k' <+: delivered)
    (hchunk : delivered ++ chunk <+: upTo bs (k' + 1)) : ∃ t', Serving bs p delivered k' (chunk ++ t') := by
  have hpos := List.length_pos_iff.mpr hne
  rcases Nat.lt_trichotomy k' k with hlt | rfl | hgt
  · -- more was read than the peer would have sent
    have hlen := (hchunk.trans ((upTo_mono bs hlt).trans h.earlier)).length_le
    rw [List.length_append] at hlen
    omega
  · rw [← h.eq, List.prefix_append_right_inj] at hchunk
    obtain ⟨t', rfl⟩ := hchunk
    exact ⟨t', h⟩
  · have hall : delivered ++ t <+: delivered := by
      rw [h.eq]
      exact (upTo_mono bs hgt).trans hearlier
    have hlen := hall.length_le
    rw [List.length_append] at hlen
    obtain rfl : t = [] := List.eq_nil_of_length_eq_zero (by omega)
    have hdelivered := h.eq
    rw [List.append_nil] at hdelivered
    have hsame : upTo bs k' = upTo bs (k + 1) := by
      refine (hearlier.eq_of_length_le ?_).trans hdelivered
      rw [hdelivered]
      exact (upTo_mono bs hgt).length_le
    have hbetween := h.amid.done
    rw [← flatten_take_succ, ← flatten_take_of_upTo_eq hgt hsame] at hbetween
    have hroom : (sent (bs[k']?.getD [])).length ≤ p.clear.httpRequestBufferMax.toNat := by
      rw [HTTPParser.clear_httpRequestBufferMax, h.room]
      exact (burst_getD hbs k').2
    have hnext : delivered ++ sent (bs[k']?.getD []) = upTo bs (k' + 1) := by rw [upTo_succ, hsame, hdelivered]
    rw [← hnext, List.prefix_append_right_inj] at hchunk
    obtain ⟨t', ht'⟩ := hchunk
    refine ⟨t', h.room, by rw [ht']; exact hnext, hearlier, ?_⟩
    rw [ht']
    exact hbetween.amid hroom

theorem Serving.read {chunk : Chunk} (h : Serving bs p delivered k (chunk.bytes ++ t))
    (hburst : Burst (bs[k]?.getD [])) :
    ∃ p', p.appendBuffer Cpp23.readers chunk = .ok () p' ∧ Serving bs p' (delivered ++ chunk.bytes) k t := by
  obtain ⟨q, hcall, hq⟩ := h.amid.call hburst
  obtain ⟨p', hp', rfl⟩ := mapState_eq_ok ((HTTPParser.appendBuffer_eq_call p chunk).trans hcall)
  have hrun : run (HTTPParser.call Cpp23.readers) p.clear [chunk] = .ok () p'.clear := by
    rw [run_cons_ok hcall]
    rfl
  exact ⟨p', hp', (HTTPParser.max_of_run hrun).trans h.room, by rw [List.append_assoc]; exact h.eq,
    h.earlier.trans (List.prefix_append _ _), hq⟩

/-- Recorded are the requests whose last byte was read. -/
theorem Serving.recorded (h : Serving bs p delivered k t) :
    ∃ done rest, bs.flatten = done ++ rest ∧ p.requests = done.map WireRequest.props ∧ sent done <+: delivered ∧
      ∀ r ∈ rest.head?, ¬ sent (done ++ [r]) <+: delivered := by
  have hflatten : bs.flatten = (bs.take k).flatten ++ bs[k]?.getD [] ++ (bs.drop (k + 1)).flatten := by
    rw [← flatten_take_succ, ← List.flatten_append, List.take_append_drop]
  have hdelivered := h.eq
  rw [upTo_succ, upTo] at hdelivered
  cases h.amid with
  | @reading done rest hrs hread =>
      rw [hrs, sent_append, ← hread.buffer, ← List.append_assoc, ← List.append_assoc, ← sent_append] at hdelivered
      have hd := List.append_cancel_right hdelivered
      refine ⟨(bs.take k).flatten ++ done, rest ++ (bs.drop (k + 1)).flatten, ?_, hread.requests, ?_, ?_⟩
      · rw [hflatten, hrs]
        simp only [List.append_assoc]
      · rw [hd]
        exact List.prefix_append _ _
      · intro r _ hpre
        rw [hd, sent_append, List.prefix_append_right_inj] at hpre
        refine hread.plain ((marker_infix_render r).trans (List.IsInfix.trans ?_ hpre.isInfix))
        simp [sent]
  | @receiving r hrs hrec =>
      have hbuf : p.clear.httpRequestBuffer ++ t = r.payload := by
        rw [hrec.buffer, sent_nil, List.append_nil]
      rw [hrs, sent_cons, sent_nil, List.append_nil, ← hbuf, ← List.append_assoc, ← List.append_assoc] at hdelivered
      have hd := List.append_cancel_right hdelivered
      refine ⟨(bs.take k).flatten, r :: (bs.drop (k + 1)).flatten, ?_, hrec.requests, ?_, ?_⟩
      · rw [hflatten, hrs]
        simp
      · rw [hd, List.append_assoc]
        exact List.prefix_append _ _
      · intro r' hr' hpre
        cases hr'
        have hlen := hpre.length_le
        have hshort := hrec.short
        rw [hd, sent_append, sent_cons, sent_nil] at hlen
        simp only [List.length_append, List.append_nil] at hlen
        omega

/-! ## The server -/

namespace System

variable {m : MemoryManager} {memory : Nat → UInt8} {es₁ es₂ : List Event} {s₁ s : System}

/-- The client with this file descriptor, if there is one, is served with the bursts. -/
def Serves (bs : List (List WireRequest)) (fd : Filedescriptor) (s : System) : Prop :=
  ∀ client c, s.process.clients fd = some client → s.kernel.sockets fd = some c →
    ∃ k t, Serving bs client.toHTTPParser c.delivered k t

theorem Serves.step {bs : List (List WireRequest)} {fd : Filedescriptor} {s s' : System} {e : Event}
    (h : Serves bs fd s) (hbs : ∀ b ∈ bs, Burst b ∧ (sent b).length ≤ 4096) (hkept : Kept Cpp23.readers m s)
    (hlock : ∀ c, s.kernel.sockets fd = some c → LockStep bs c) (hs' : s.step Cpp23.readers e = some s') :
    Serves bs fd s' := by
  intro client' c' hclient' hc'
  cases hkept.session (step_does hs') hclient' hc' with
  | same hclient hc hparser hdelivered =>
      rw [hparser, hdelivered]
      exact h _ _ hclient hc
  | new hparser hdelivered =>
      rw [hparser, hdelivered]
      have hbetween : HTTPParser.Between [] (HTTPParser.fresh 4096).clear := ⟨rfl, rfl, rfl, rfl⟩
      exact ⟨0, sent (bs[0]?.getD []), rfl, by rw [upTo_succ]; rfl, List.prefix_rfl,
        hbetween.amid (burst_getD hbs 0).2⟩
  | @read client c chunk hclient hc hne hunread hparser hdelivered =>
      obtain ⟨k, t, hk⟩ := h client c hclient hc
      obtain ⟨k', hearlier, harrived⟩ := hlock c hc
      have hchunk : c.delivered ++ chunk.bytes <+: upTo bs (k' + 1) :=
        ((List.prefix_append_right_inj _).mpr hunread).trans harrived
      obtain ⟨t', hk'⟩ := hk.next hbs hne hearlier hchunk
      obtain ⟨p', hp', hread⟩ := hk'.read (burst_getD hbs k').1
      rw [hparser, hdelivered, hp']
      exact ⟨k', t', hread⟩

/-- A peer that keeps in step has exactly those requests recorded whose last byte was read. -/
theorem lockStep_requests_recorded (h₁ : es₁.foldlM (step Cpp23.readers) (start m memory) = some s₁)
    {fd : Filedescriptor} (hnone : s₁.process.clients fd = none) {bs : List (List WireRequest)}
    (hbs : ∀ b ∈ bs, Burst b ∧ (sent b).length ≤ 4096)
    (hstep : Through (step Cpp23.readers) (fun s => ∀ c, s.kernel.sockets fd = some c → LockStep bs c) s₁ es₂)
    (h₂ : es₂.foldlM (step Cpp23.readers) s₁ = some s) {client : Client} {c : Connection}
    (hclient : s.process.clients fd = some client) (hc : s.kernel.sockets fd = some c) :
    ∃ done rest, bs.flatten = done ++ rest ∧ client.requests = done.map WireRequest.props ∧
      sent done <+: c.delivered ∧ ∀ r ∈ rest.head?, ¬ sent (done ++ [r]) <+: c.delivered := by
  have hstart : Serves bs fd s₁ := by
    intro client c hclient
    rw [hnone] at hclient
    cases hclient
  obtain ⟨-, hserves⟩ := Through.invariant (I := fun s => Kept Cpp23.readers m s ∧ Serves bs fd s)
    (fun s e s' hs hlock hs' => ⟨hs.1.step hs', hs.2.step hbs hs.1 hlock hs'⟩) hstep ⟨kept_of_events h₁, hstart⟩ h₂
  obtain ⟨k, t, hk⟩ := hserves client c hclient hc
  exact hk.recorded

/-- A POST request is sent in two parts, and a GET request when it has been read. -/
def postThenGet : List Event :=
  connected 5 ++
    [.peer (.opened 5) (.send (HTTPParser.postAbc.render.take 40)), .answer (.epollWait (some [5])),
      .answer (.read (.bytes (HTTPParser.postAbc.render.take 40))),
      .peer (.opened 5) (.send (HTTPParser.postAbc.render.drop 40)),
      .answer (.read (.bytes (HTTPParser.postAbc.render.drop 40))),
      .peer (.opened 5) (.send HTTPParser.getHost.render), .answer (.read (.bytes HTTPParser.getHost.render))]

theorem lockStep_requests_recorded_two :
    ∃ s client c done rest, postThenGet.foldlM (step Cpp23.readers) (start bufferMemory fun _ => 0) = some s ∧
      s.process.clients 5 = some client ∧ s.kernel.sockets 5 = some c ∧
      c.delivered = sent [HTTPParser.postAbc, HTTPParser.getHost] ∧
      [HTTPParser.postAbc, HTTPParser.getHost] = done ++ rest ∧ client.requests = done.map WireRequest.props := by
  have hrun : ((postThenGet.foldlM (step Cpp23.readers) (start bufferMemory fun _ => 0)).bind fun s =>
      (s.process.clients 5).bind fun _ => (s.kernel.sockets 5).map Connection.delivered) =
        some (sent [HTTPParser.postAbc, HTTPParser.getHost]) := by decide +kernel
  obtain ⟨s, hs, hrun⟩ := Option.bind_eq_some_iff.mp hrun
  obtain ⟨client, hclient, hrun⟩ := Option.bind_eq_some_iff.mp hrun
  obtain ⟨c, hc, hdelivered⟩ := Option.map_eq_some_iff.mp hrun
  have hbs : ∀ b ∈ [[HTTPParser.postAbc], [HTTPParser.getHost]], Burst b ∧ (sent b).length ≤ 4096 := by
    intro b hb
    rcases List.mem_cons.mp hb with rfl | hb
    · exact ⟨.inr ⟨_, rfl⟩, by decide +kernel⟩
    · rw [List.mem_singleton.mp hb]
      exact ⟨.inr ⟨_, rfl⟩, by decide +kernel⟩
  have hall : (List.range 13).all (fun n =>
      ((postThenGet.take n).foldlM (step Cpp23.readers) (start bufferMemory fun _ => 0)).all fun s =>
        (s.kernel.sockets 5).all fun c => (List.range 2).any fun k =>
          (upTo [[HTTPParser.postAbc], [HTTPParser.getHost]] k).isPrefixOf c.delivered &&
            c.arrived.isPrefixOf (upTo [[HTTPParser.postAbc], [HTTPParser.getHost]] (k + 1))) = true := by
    decide +kernel
  have hthrough : Through (step Cpp23.readers)
      (fun s => ∀ c, s.kernel.sockets 5 = some c → LockStep [[HTTPParser.postAbc], [HTTPParser.getHost]] c)
      (start bufferMemory fun _ => 0) postThenGet := by
    intro es' t hes' ht c hc
    rw [List.prefix_iff_eq_take.mp hes'] at ht
    have hn := List.all_eq_true.mp hall es'.length
      (List.mem_range.mpr (Nat.lt_succ_of_le (Nat.le_trans hes'.length_le (by decide))))
    rw [ht, Option.all_some, hc, Option.all_some, List.any_eq_true] at hn
    obtain ⟨k, -, hk⟩ := hn
    rw [Bool.and_eq_true] at hk
    exact ⟨k, List.isPrefixOf_iff_prefix.mp hk.1, List.isPrefixOf_iff_prefix.mp hk.2⟩
  have hnew : ([] : List Event).foldlM (step Cpp23.readers) (start bufferMemory fun _ => 0) =
      some (start bufferMemory fun _ => 0) := rfl
  obtain ⟨done, rest, hsplit, hrequests, -⟩ := lockStep_requests_recorded hnew rfl hbs hthrough hs hclient hc
  exact ⟨s, client, c, done, rest, hs, hclient, hc, hdelivered, hsplit, hrequests⟩

end System

end FalconAS.Server

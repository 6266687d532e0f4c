import FalconAS.Http.Theorems.Chunking
import FalconAS.Http.Theorems.Pipelines

/-!
# Clients that wait

A client that sends a POST request on its own, with nothing of another request before the server has read it all, and
GET requests one behind the other as long as they fit into the buffer, is understood whatever the chunks are in which
the bytes come and however many requests there are.
-/

namespace FalconAS.Http

open FalconAS.Seq FalconAS.Machine

/-- Requests that may come at one go: GET requests, or a single request. -/
def Burst (rs : List WireRequest) : Prop := (∀ r ∈ rs, r.body = none) ∨ ∃ r, rs = [r]

namespace HTTPParser

/-- Amid a burst, behind the requests `before`, with the bytes `t` of it still to come. -/
inductive Amid (before rs : List WireRequest) (t : Bytes) (p : HTTPParser) : Prop where
  | reading {done rest} : rs = done ++ rest → Reading (before ++ done) rest t p → Amid before rs t p
  | receiving {r} : rs = [r] → Receiving before r [] t p → Amid before rs t p

section

variable {before : List WireRequest} {r : WireRequest} {c : Chunk} {t v : Bytes} {p : HTTPParser}

/-- The chunk brings the end of the block, and `v` of the payload. -/
theorem Reading.cut (h : Reading before [r] (c.bytes ++ t) p)
    (hbuf : p.httpRequestBuffer ++ c.bytes = r.block ++ http11EndMarker ++ v) (hv : r.payload = v ++ t) :
    ∃ p', HTTPParser.call Cpp23.readers p c = .ok () p' ∧ Amid before [r] t p' := by
  have hplain : ¬ http11EndMarker <:+: v :=
    fun hin => r.payload_plain (hin.trans (List.IsPrefix.isInfix ⟨t, hv.symm⟩))
  have hroom : r.payload.length ≤ p.httpRequestBufferMax.toNat := by
    have hroom := h.room
    rw [sent_cons, sent_nil, List.append_nil, List.length_append] at hroom
    exact Nat.le_trans (Nat.le_add_left _ _) hroom
  have hs := splits_block_append r (.done hplain)
  rw [← hbuf] at hs
  rw [call_of_splits (not_refuses_of_room h.buffer h.room) (not_completes h.wait) hs]
  cases hb : r.body with
  | none =>
      rw [WireRequest.payload_of_get hb] at hv
      obtain ⟨rfl, rfl⟩ := List.append_eq_nil_iff.mp hv.symm
      refine ⟨_, walk_get (WireRequest.examine_get hb) [] _,
        .reading (List.append_nil [r]).symm ⟨?_, rfl, not_marker_nil, h.wait, h.error, Nat.zero_le _⟩⟩
      simp [h.requests]
  | some body =>
      obtain ⟨props, length, hexamine, hlength, hprops⟩ := WireRequest.exists_examine_post hb
      refine ⟨_, walk_post_single hexamine [] _, ?_⟩
      have hlen := congrArg List.length hv
      rw [List.length_append] at hlen
      split
      case isTrue hle =>
          -- the whole payload is there
          have hle : length.toNat ≤ v.length := hle
          obtain rfl : t = [] := List.eq_nil_of_length_eq_zero (by omega)
          rw [List.append_nil] at hv
          refine .reading (List.append_nil [r]).symm ⟨?_, ?_, ?_, h.wait, h.error, Nat.zero_le _⟩
          · simp [h.requests, ← hprops, ← hv, hlength]
          · simp [← hv, hlength]
          · simpa [← hv, hlength] using not_marker_nil
      case isFalse hlt =>
          have hlt : v.length < length.toNat := Nat.lt_of_not_le hlt
          refine .receiving rfl ⟨h.requests, hprops, hlength, ?_, by rw [← hlength]; exact hlt, rfl, h.error, ?_⟩
          · rw [sent_nil, List.append_nil]
            exact hv.symm
          · rw [sent_nil, List.append_nil]
            exact hroom

theorem Reading.chunk (h : Reading before [r] (c.bytes ++ t) p) :
    ∃ p', HTTPParser.call Cpp23.readers p c = .ok () p' ∧ Amid before [r] t p' := by
  have hassoc : p.httpRequestBuffer ++ c.bytes ++ t = r.block ++ http11EndMarker ++ r.payload := by
    rw [List.append_assoc, h.buffer, sent_cons, sent_nil, List.append_nil]
  rcases cut_or_short r hassoc with ⟨v, hbuf, hv⟩ | hno
  · exact h.cut hbuf hv
  · have hrest : p.httpRequestBuffer ++ c.bytes ++ t = sent [r] := by rw [List.append_assoc]; exact h.buffer
    have hread : Reading (before ++ []) [r] t { p with httpRequestBuffer := p.httpRequestBuffer ++ c.bytes } := by
      rw [List.append_nil]
      exact ⟨h.requests, hrest, hno, h.wait, h.error, h.room⟩
    exact ⟨_, call_of_no_marker (not_refuses_of_room h.buffer h.room) (not_completes h.wait) hno,
      .reading (List.nil_append [r]).symm hread⟩

theorem Receiving.chunk (h : Receiving before r [] (c.bytes ++ t) p) :
    ∃ p', HTTPParser.call Cpp23.readers p c = .ok () p' ∧ Amid before [r] t p' := by
  have hr : ¬ p.Refuses c := not_refuses_of_room h.buffer h.room
  have hassoc : p.httpRequestBuffer ++ c.bytes ++ t = r.payload := by
    rw [List.append_assoc, h.buffer, sent_nil, List.append_nil]
  have hpre : p.httpRequestBuffer ++ c.bytes <+: r.payload := ⟨t, hassoc⟩
  rcases Nat.lt_or_eq_of_le hpre.length_le with hlt | heq
  · have hc : ¬ p.Completes c := fun hc => Nat.not_lt.mpr hc.2 (by rw [h.length]; exact hlt)
    refine ⟨_, call_of_no_marker hr hc fun hin => r.payload_plain (hin.trans hpre.isInfix),
      .receiving rfl ⟨h.requests, h.props, h.length, ?_, hlt, h.wait, h.error, h.room⟩⟩
    rw [sent_nil, List.append_nil]
    exact hassoc
  · have hbuf : p.httpRequestBuffer ++ c.bytes = r.payload := hpre.eq_of_length heq
    obtain rfl : t = [] := by
      rw [hbuf] at hassoc
      exact List.append_right_eq_self.mp hassoc
    have hc : p.Completes c := ⟨h.wait, by rw [h.length]; exact heq.ge⟩
    refine ⟨_, call_of_completes hr hc,
      .reading (List.append_nil [r]).symm ⟨?_, ?_, ?_, rfl, h.error, Nat.zero_le _⟩⟩
    · simp [hbuf, h.length, h.props, h.requests]
    · simp [hbuf, h.length]
    · simpa [hbuf, h.length] using not_marker_nil

end

section

variable {before rs : List WireRequest} {t : Bytes} {p : HTTPParser}

/-- A chunk that brings nothing beyond the burst. -/
theorem Amid.call {c : Chunk} (h : Amid before rs (c.bytes ++ t) p) (hburst : Burst rs) :
    ∃ p', HTTPParser.call Cpp23.readers p c = .ok () p' ∧ Amid before rs t p' := by
  -- outside of a payload with nothing but GET requests to come
  have hget : ∀ {done rest}, rs = done ++ rest → (∀ r ∈ rest, r.body = none) →
      Reading (before ++ done) rest (c.bytes ++ t) p →
      ∃ p', HTTPParser.call Cpp23.readers p c = .ok () p' ∧ Amid before rs t p' := by
    intro done rest hrs hget h
    obtain ⟨p', next, rest', rfl, hcall, hp'⟩ := h.call hget
    rw [List.append_assoc] at hp'
    exact ⟨p', hcall, .reading (hrs.trans (List.append_assoc _ _ _).symm) hp'⟩
  cases h with
  | receiving hrs h =>
      subst hrs
      exact h.chunk
  | @reading done rest hrs h =>
      rcases hburst with hall | ⟨r, rfl⟩
      · exact hget hrs (fun r hr => hall r (by rw [hrs]; exact List.mem_append_right _ hr)) h
      · cases done with
        | nil =>
            obtain rfl : [r] = rest := hrs
            rw [List.append_nil] at h
            exact h.chunk
        | cons r' done =>
            obtain ⟨rfl, hnil⟩ := List.cons.inj hrs
            obtain ⟨rfl, rfl⟩ := List.append_eq_nil_iff.mp hnil.symm
            exact hget hrs (fun r hr => absurd hr List.not_mem_nil) h

theorem Amid.run {cs : List Chunk} (h : Amid before rs (stream cs ++ t) p) (hburst : Burst rs) :
    ∃ p', Machine.run (HTTPParser.call Cpp23.readers) p cs = .ok () p' ∧ Amid before rs t p' := by
  induction cs generalizing p with
  | nil => exact ⟨p, rfl, h⟩
  | cons c cs ih =>
      rw [stream_cons, List.append_assoc] at h
      obtain ⟨p', hcall, hp'⟩ := h.call hburst
      rw [run_cons_ok hcall]
      exact ih hp'

/-- Nothing is under way, and these requests are recorded. -/
structure Between (before : List WireRequest) (p : HTTPParser) : Prop where
  requests : p.requests = before.map WireRequest.props
  buffer : p.httpRequestBuffer = []
  wait : p.postWaitContentLength = false
  error : p.requestParseError = 0

theorem Amid.done (h : Amid before rs [] p) : Between (before ++ rs) p := by
  cases h with
  | reading hrs h =>
      obtain ⟨rfl, hbuf⟩ := h.done
      rw [List.append_nil] at hrs
      rw [hrs]
      exact ⟨h.requests, hbuf, h.wait, h.error⟩
  | receiving hrs h =>
      have hlen := congrArg List.length h.buffer
      have hshort := h.short
      rw [List.append_nil, List.length_append] at hlen
      omega

theorem Between.amid (h : Between before p) (hroom : (sent rs).length ≤ p.httpRequestBufferMax.toNat) :
    Amid before rs (sent rs) p := by
  refine .reading (List.nil_append rs).symm ?_
  rw [List.append_nil]
  exact ⟨h.requests, by rw [h.buffer]; rfl, by rw [h.buffer]; exact not_marker_nil, h.wait, h.error, hroom⟩

end

/-! ## Bursts one after another -/

theorem max_of_run {p p' : HTTPParser} {cs : List Chunk}
    (h : Machine.run (HTTPParser.call Cpp23.readers) p cs = .ok () p') :
    p'.httpRequestBufferMax = p.httpRequestBufferMax := by
  induction cs generalizing p with
  | nil => cases h; rfl
  | cons c cs ih =>
      have hmax := (call_buffer_le (R := Cpp23.readers) p c).2
      cases hcall : HTTPParser.call Cpp23.readers p c with
      | ok u q =>
          rw [run_cons_ok hcall] at h
          rw [hcall] at hmax
          exact (ih h).trans hmax
      | error e q =>
          rw [run_cons_error hcall] at h
          cases h

/-- A burst, and the chunks in which it comes. -/
structure Cut (room : Nat) (b : List WireRequest × List Chunk) : Prop where
  burst : Burst b.1
  stream : Http.stream b.2 = sent b.1
  room : (sent b.1).length ≤ room

theorem Between.run {bs : List (List WireRequest × List Chunk)} {before : List WireRequest} {p : HTTPParser}
    (h : Between before p) (hbs : ∀ b ∈ bs, Cut p.httpRequestBufferMax.toNat b) :
    ∃ p', Machine.run (HTTPParser.call Cpp23.readers) p (bs.flatMap Prod.snd) = .ok () p' ∧
      Between (before ++ bs.flatMap Prod.fst) p' := by
  induction bs generalizing before p with
  | nil => exact ⟨p, rfl, by rw [List.flatMap_nil, List.append_nil]; exact h⟩
  | cons b bs ih =>
      obtain ⟨rs, cs⟩ := b
      obtain ⟨hburst, hstream, hroom⟩ := hbs _ List.mem_cons_self
      have hamid : Amid before rs (Http.stream cs ++ []) p := by
        rw [List.append_nil, hstream]
        exact h.amid hroom
      obtain ⟨q, hrun, hq⟩ := hamid.run hburst
      have hmax := max_of_run hrun
      obtain ⟨p', hrest, hp'⟩ := ih hq.done fun b hb => by
        rw [hmax]
        exact hbs b (List.mem_cons_of_mem _ hb)
      refine ⟨p', ?_, ?_⟩
      · rw [List.flatMap_cons, run_append hrun]
        exact hrest
      · rw [List.flatMap_cons, ← List.append_assoc]
        exact hp'

/-- However long the stream is, bursts that each fit into the buffer are recorded one after another, if no chunk holds
bytes of two of them. -/
theorem bursts_decoded {bufferSize : UInt16} {bs : List (List WireRequest × List Chunk)}
    (hbs : ∀ b ∈ bs, Cut bufferSize.toNat b) :
    ∃ p, run (appendBuffer Cpp23.readers) (fresh bufferSize) (bs.flatMap Prod.snd) = .ok () p ∧
      p.requests = (bs.flatMap Prod.fst).map WireRequest.props ∧ p.httpRequestBuffer = [] ∧
      p.postWaitContentLength = false ∧ p.requestParseError = 0 := by
  have hstart : Between [] (fresh bufferSize).clear := ⟨rfl, rfl, rfl, rfl⟩
  obtain ⟨q, hrun, hq⟩ := hstart.run hbs
  obtain ⟨p, hp, rfl⟩ := run_appendBuffer_ok hrun
  exact ⟨p, hp, hq.requests, hq.buffer, hq.wait, hq.error⟩

/-- A POST request cut within its payload, and a GET request behind it, in a buffer that does not hold both. -/
theorem bursts_decoded_post_get :
    (sent [postAbc, getHost]).length > 60 ∧
    ∃ p, run (appendBuffer Cpp23.readers) (fresh 60)
        [⟨postAbc.render.take 40, by decide +kernel⟩, ⟨postAbc.render.drop 40, by decide +kernel⟩,
          ⟨getHost.render, by decide +kernel⟩] = .ok () p ∧
      p.requests = [postAbc.props, getHost.props] := by
  have hbs : ∀ b ∈ [([postAbc], [⟨postAbc.render.take 40, by decide +kernel⟩,
      ⟨postAbc.render.drop 40, by decide +kernel⟩]), ([getHost], [⟨getHost.render, by decide +kernel⟩])],
      Cut (60 : UInt16).toNat b := by
    intro b hb
    rcases List.mem_cons.mp hb with rfl | hb
    · exact ⟨.inr ⟨_, rfl⟩, by decide +kernel, by decide +kernel⟩
    · rw [List.mem_singleton.mp hb]
      exact ⟨.inr ⟨_, rfl⟩, by decide +kernel, by decide +kernel⟩
  obtain ⟨p, hp, hrequests, -⟩ := bursts_decoded hbs
  exact ⟨by decide +kernel, p, hp, hrequests⟩

end HTTPParser

end FalconAS.Http

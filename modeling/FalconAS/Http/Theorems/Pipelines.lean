import FalconAS.Http.Lemmas.Rendering
import FalconAS.Http.Lemmas.Walk

/-!
# Pipelines are decoded

GET requests one after another are recorded whatever the chunks are. Requests of both kinds are recorded when they
come byte by byte, and in one chunk if the last of them is a GET request.
-/

namespace FalconAS.Http

open FalconAS.Seq FalconAS.Machine

@[simp] theorem sent_nil : sent [] = [] := rfl

theorem sent_append (rs rs' : List WireRequest) : sent (rs ++ rs') = sent rs ++ sent rs' := List.flatMap_append

theorem sent_cons (r : WireRequest) (rs : List WireRequest) :
    sent (r :: rs) = r.block ++ http11EndMarker ++ (r.payload ++ sent rs) := by
  rw [sent, List.flatMap_cons, WireRequest.render, List.append_assoc]
  rfl

theorem WireRequest.payload_of_get {r : WireRequest} (h : r.body = none) : r.payload = [] := by
  rw [payload, h, Option.getD_none]

theorem WireRequest.payload_plain (r : WireRequest) : ¬ http11EndMarker <:+: r.payload := by
  cases hb : r.body with
  | none =>
      rw [payload_of_get hb]
      exact not_marker_nil
  | some body =>
      rw [payload, hb]
      exact (r.body_plain body (by rw [hb]; rfl)).2

/-- The start of a stream that begins with the request `r` holds all of its block, or no end marker yet. -/
theorem cut_or_short (r : WireRequest) {s t rest : Bytes} (h : s ++ t = r.block ++ http11EndMarker ++ rest) :
    (∃ v, s = r.block ++ http11EndMarker ++ v ∧ rest = v ++ t) ∨ ¬ http11EndMarker <:+: s := by
  rcases List.append_eq_append_iff.mp h with ⟨w, hw, ht⟩ | ⟨v, hs, hrest⟩
  · cases w with
    | nil => exact Or.inl ⟨[], by rw [List.append_nil] at hw ⊢; exact hw.symm, by simpa using ht.symm⟩
    | cons b w =>
        refine Or.inr fun hin => r.not_marker_block ?_
        have hpre : s <+: r.block ++ http11EndMarker.dropLast := by
          rw [← List.dropLast_append_of_ne_nil http11EndMarker_ne_nil, hw,
            List.dropLast_append_of_ne_nil (List.cons_ne_nil b w)]
          exact List.prefix_append _ _
        exact hin.trans hpre.isInfix
  · exact Or.inl ⟨v, hs, hrest⟩

theorem splits_block_append (r : WireRequest) {v rest : Bytes} {ts : List Bytes}
    (h : Splits http11EndMarker v ts rest) :
    Splits http11EndMarker (r.block ++ http11EndMarker ++ v) (r.block :: ts) rest :=
  .cut (r.firstCut_block not_marker_nil v) h

/-! ## The blocks of a pipeline -/

/-- The blocks into which a pipeline is split behind the payload `pre`: each has the payload of the request before it
in front. -/
def glued : Bytes → List WireRequest → List Bytes
  | _, [] => []
  | pre, r :: rs => (pre ++ r.block) :: glued r.payload rs

theorem glued_length (pre : Bytes) (rs : List WireRequest) : (glued pre rs).length = rs.length := by
  induction rs generalizing pre with
  | nil => rfl
  | cons r rs ih => rw [glued, List.length_cons, List.length_cons, ih]

theorem glued_get {rs : List WireRequest} (hget : ∀ r ∈ rs, r.body = none) :
    glued [] rs = rs.map WireRequest.block := by
  induction rs with
  | nil => rfl
  | cons r rs ih =>
      rw [glued, WireRequest.payload_of_get (hget r List.mem_cons_self),
        ih fun r hr => hget r (List.mem_cons_of_mem _ hr)]
      rfl

theorem splits_glued {pre : Bytes} (hpre : ¬ http11EndMarker <:+: pre) (rs : List WireRequest) :
    ∃ rest, Splits http11EndMarker (pre ++ sent rs) (glued pre rs) rest := by
  induction rs generalizing pre with
  | nil =>
      rw [sent_nil, List.append_nil]
      exact ⟨pre, .done hpre⟩
  | cons r rs ih =>
      obtain ⟨rest, hrest⟩ := ih r.payload_plain
      refine ⟨rest, .cut ?_ hrest⟩
      have heq : pre ++ sent (r :: rs) = pre ++ r.block ++ http11EndMarker ++ (r.payload ++ sent rs) := by
        rw [sent_cons, List.append_assoc, List.append_assoc, List.append_assoc]
      rw [heq]
      exact r.firstCut_block hpre _

namespace WireRequest

theorem exists_examine_post {r : WireRequest} {body : Bytes} (h : r.body = some body) :
    ∃ props length, examine Cpp23.readers r.block = .post props length ∧ length.toNat = r.payload.length ∧
      { props with payload := r.payload } = r.props := by
  have hpayload : r.payload = body := by rw [payload, h, Option.getD_some]
  have hle : body.length ≤ 2048 := (r.body_plain body (by rw [h]; rfl)).1
  refine ⟨_, _, examine_post h, ?_, rfl⟩
  rw [hpayload, toNat_ofNat_lt (by omega)]

end WireRequest

namespace HTTPParser

/-- The loop takes a payload off the front of the block behind it, so it records every request of a pipeline that ends
with a GET request. -/
theorem walk_glued {single : Bool} (pre : Bytes) {rs : List WireRequest}
    (hlast : ∀ r ∈ rs.getLast?, r.body = none) (hsingle : single = true → rs.length ≤ 1) (p : HTTPParser) :
    ∃ props length, walk Cpp23.readers single pre.length (glued pre rs) p = .ok () { p with
      requests := p.requests ++ rs.map WireRequest.props
      requestProperties := props
      postContentLength := length } := by
  induction rs generalizing pre p with
  | nil => exact ⟨p.requestProperties, p.postContentLength, by simp [glued, walk]⟩
  | cons r rs ih =>
      have hdrop : (pre ++ r.block).drop pre.length = r.block := List.drop_left
      have hlast' : ∀ q ∈ rs.getLast?, q.body = none := by
        intro q hq
        cases rs with
        | nil => cases hq
        | cons _ _ => exact hlast q hq
      have hsingle' : single = true → rs.length ≤ 1 := fun h => Nat.le_of_succ_le (hsingle h)
      cases hb : r.body with
      | none =>
          obtain ⟨props, length, hwalk⟩ := ih r.payload hlast' hsingle' (p.record r.props)
          refine ⟨props, length, ?_⟩
          rw [WireRequest.payload_of_get hb, List.length_nil] at hwalk
          rw [glued, walk_get (by rw [hdrop]; exact WireRequest.examine_get hb), WireRequest.payload_of_get hb, hwalk]
          simp
      | some body =>
          obtain ⟨props, length, hexamine, hlength, hprops⟩ := WireRequest.exists_examine_post hb
          cases rs with
          | nil => cases hb.symm.trans (hlast r rfl)
          | cons next rs =>
              cases single with
              | true => exact absurd (hsingle rfl) (by simp)
              | false =>
                  obtain ⟨props', length', hwalk⟩ := ih r.payload hlast' hsingle'
                    ((p.expect props length).record r.props)
                  refine ⟨props', length', ?_⟩
                  rw [glued] at hwalk
                  rw [glued, glued, walk_post_next (by rw [hdrop]; exact hexamine) (by simp [hlength]), hlength,
                    List.take_left, hprops, hwalk]
                  simp

theorem call_glued {rs : List WireRequest} (hlast : ∀ r ∈ rs.getLast?, r.body = none) {p : HTTPParser} {c : Chunk}
    {rest : Bytes} (hr : ¬ p.Refuses c) (hwait : p.postWaitContentLength = false)
    (hs : Splits http11EndMarker (p.httpRequestBuffer ++ c.bytes) (glued [] rs) rest) :
    ∃ props length, call Cpp23.readers p c = .ok () { p with
      httpRequestBuffer := rest
      requests := p.requests ++ rs.map WireRequest.props
      requestProperties := props
      postContentLength := length } := by
  rw [call_of_splits hr (not_completes hwait) hs, glued_length]
  exact walk_glued [] hlast (fun hone => (beq_iff_eq.mp hone).le) _

theorem not_refuses_of_room {p : HTTPParser} {c : Chunk} {s t : Bytes}
    (h : p.httpRequestBuffer ++ (c.bytes ++ t) = s) (hroom : s.length ≤ p.httpRequestBufferMax.toNat) :
    ¬ p.Refuses c := by
  have hlen := congrArg List.length h
  simp only [List.length_append] at hlen
  rw [Refuses]
  omega

end HTTPParser

/-! ## GET requests in any chunks -/

theorem splits_get {rs : List WireRequest} (hget : ∀ r ∈ rs, r.body = none) {s t : Bytes} (h : s ++ t = sent rs) :
    ∃ done rs' rest, rs = done ++ rs' ∧ Splits http11EndMarker s (done.map WireRequest.block) rest ∧
      rest ++ t = sent rs' := by
  induction rs generalizing s with
  | nil =>
      obtain ⟨rfl, rfl⟩ := List.append_eq_nil_iff.mp h
      exact ⟨[], [], [], rfl, .done not_marker_nil, rfl⟩
  | cons r rs ih =>
      have hstart := h
      rw [sent_cons, WireRequest.payload_of_get (hget r List.mem_cons_self), List.nil_append] at h
      rcases cut_or_short r h with ⟨v, rfl, hv⟩ | hno
      · obtain ⟨done, rs', rest, rfl, hs, hrest⟩ := ih (fun r hr => hget r (List.mem_cons_of_mem _ hr)) hv.symm
        exact ⟨r :: done, rs', rest, rfl, splits_block_append r hs, hrest⟩
      · exact ⟨[], r :: rs, s, rfl, .done hno, hstart⟩

namespace HTTPParser

/-- The parser outside of any payload: `done` is recorded, `rs` is to come, and of it the
bytes `t` have not been received. -/
structure Reading (done rs : List WireRequest) (t : Bytes) (p : HTTPParser) : Prop where
  requests : p.requests = done.map WireRequest.props
  buffer : p.httpRequestBuffer ++ t = sent rs
  plain : ¬ http11EndMarker <:+: p.httpRequestBuffer
  wait : p.postWaitContentLength = false
  error : p.requestParseError = 0
  room : (sent rs).length ≤ p.httpRequestBufferMax.toNat

theorem Reading.call {done rs : List WireRequest} {c : Chunk} {t : Bytes} {p : HTTPParser}
    (h : Reading done rs (c.bytes ++ t) p) (hget : ∀ r ∈ rs, r.body = none) :
    ∃ p' next rs', rs = next ++ rs' ∧ HTTPParser.call Cpp23.readers p c = .ok () p' ∧
      Reading (done ++ next) rs' t p' := by
  obtain ⟨next, rs', rest, rfl, hs, hrest⟩ := splits_get hget (by rw [List.append_assoc]; exact h.buffer)
  have hnext : ∀ r ∈ next, r.body = none := fun r hr => hget r (List.mem_append_left _ hr)
  rw [← glued_get hnext] at hs
  obtain ⟨props, length, hcall⟩ := call_glued (fun r hr => hnext r (List.mem_of_getLast? hr))
    (not_refuses_of_room h.buffer h.room) h.wait hs
  refine ⟨_, next, rs', rfl, hcall, ?_, hrest, hs.not_infix_rest, h.wait, h.error, ?_⟩
  · rw [h.requests, List.map_append]
  · have hroom := h.room
    rw [sent_append, List.length_append] at hroom
    exact Nat.le_trans (Nat.le_add_left _ _) hroom

theorem Reading.run {done rs : List WireRequest} {cs : List Chunk} {p : HTTPParser}
    (h : Reading done rs (stream cs) p) (hget : ∀ r ∈ rs, r.body = none) :
    ∃ p' next rs', rs = next ++ rs' ∧ Machine.run (HTTPParser.call Cpp23.readers) p cs = .ok () p' ∧
      Reading (done ++ next) rs' [] p' := by
  induction cs generalizing p done rs with
  | nil => exact ⟨p, [], rs, rfl, rfl, by rw [List.append_nil]; exact h⟩
  | cons c cs ih =>
      obtain ⟨p', next, rs', rfl, hcall, hp'⟩ := h.call hget
      obtain ⟨p'', next', rs'', rfl, hrun, hp''⟩ :=
        ih hp' fun r hr => hget r (List.mem_append_right _ hr)
      refine ⟨p'', next ++ next', rs'', by rw [List.append_assoc], ?_, by rw [← List.append_assoc]; exact hp''⟩
      rw [run_cons_ok hcall]
      exact hrun

theorem Reading.done {done rs : List WireRequest} {p : HTTPParser} (h : Reading done rs [] p) :
    rs = [] ∧ p.httpRequestBuffer = [] := by
  have hbuf := h.buffer
  rw [List.append_nil] at hbuf
  cases rs with
  | nil => exact ⟨rfl, hbuf⟩
  | cons r rs =>
      refine absurd ?_ h.plain
      rw [hbuf, sent_cons, List.append_assoc]
      exact ⟨r.block, r.payload ++ sent rs, by simp only [List.append_assoc]⟩

/-- A pipeline of GET requests is recorded whatever the chunks are in which it comes. -/
theorem get_pipeline_decoded {bufferSize : UInt16} {rs : List WireRequest} {cs : List Chunk}
    (hget : ∀ r ∈ rs, r.body = none) (hstream : stream cs = sent rs)
    (hlen : (sent rs).length ≤ bufferSize.toNat) :
    ∃ p, run (appendBuffer Cpp23.readers) (fresh bufferSize) cs = .ok () p ∧
      p.requests = rs.map WireRequest.props ∧ p.httpRequestBuffer = [] ∧ p.requestParseError = 0 ∧
      p.postWaitContentLength = false := by
  have hstart : Reading [] rs (stream cs) (fresh bufferSize).clear :=
    ⟨rfl, hstream, not_marker_nil, rfl, rfl, hlen⟩
  obtain ⟨q, next, rs', rfl, hrun, hq⟩ := hstart.run hget
  obtain ⟨rfl, hbuf⟩ := hq.done
  obtain ⟨p, hp, rfl⟩ := run_appendBuffer_ok hrun
  refine ⟨p, hp, ?_, hbuf, hq.error, hq.wait⟩
  rw [List.append_nil]
  exact hq.requests

def getHost : WireRequest where
  url := ofString "/a?x=1"
  headers := [(ofString "Host", ofString "h")]
  body := none
  url_plain := by decide +kernel
  url_end := by decide +kernel
  key_plain := by decide +kernel
  value_plain := by decide +kernel
  nodup := by decide +kernel
  announced := by decide +kernel
  body_plain := by decide +kernel

/-- Two requests, cut within the first end marker. -/
theorem get_pipeline_decoded_cut :
    ∃ p, run (appendBuffer Cpp23.readers) (fresh 128) [⟨(sent [getHost, getHost]).take 30, by decide +kernel⟩,
        ⟨(sent [getHost, getHost]).drop 30, by decide +kernel⟩] = .ok () p ∧
      p.requests = [getHost, getHost].map WireRequest.props ∧ p.httpRequestBuffer = [] ∧ p.requestParseError = 0 ∧
      p.postWaitContentLength = false :=
  get_pipeline_decoded (by decide +kernel) (by decide +kernel) (by decide +kernel)

/-! ## Requests of both kinds, byte by byte -/

/-- The parser within the payload of `r`. -/
structure Receiving (done : List WireRequest) (r : WireRequest) (rs : List WireRequest) (t : Bytes)
    (p : HTTPParser) : Prop where
  requests : p.requests = done.map WireRequest.props
  props : { p.requestProperties with payload := r.payload } = r.props
  length : p.postContentLength.toNat = r.payload.length
  buffer : p.httpRequestBuffer ++ t = r.payload ++ sent rs
  short : p.httpRequestBuffer.length < r.payload.length
  wait : p.postWaitContentLength = true
  error : p.requestParseError = 0
  room : (r.payload ++ sent rs).length ≤ p.httpRequestBufferMax.toNat

/-- Somewhere in the pipeline `rs`, with the bytes `t` still to come. -/
inductive Midway (rs : List WireRequest) (t : Bytes) (p : HTTPParser) : Prop where
  | reading {done rest} : rs = done ++ rest → Reading done rest t p → Midway rs t p
  | receiving {done r rest} : rs = done ++ r :: rest → Receiving done r rest t p → Midway rs t p

def byteChunk (b : UInt8) : Chunk := ⟨[b], (by decide : 1 < UInt16.size)⟩

theorem Reading.block {done rs : List WireRequest} {r : WireRequest} {c : Chunk} {t : Bytes} {p : HTTPParser}
    (h : Reading done (r :: rs) (c.bytes ++ t) p)
    (hbuf : p.httpRequestBuffer ++ c.bytes = r.block ++ http11EndMarker) :
    ∃ p', HTTPParser.call Cpp23.readers p c = .ok () p' ∧ Midway (done ++ r :: rs) t p' := by
  have ht : t = r.payload ++ sent rs := by
    have hstart := h.buffer
    rw [← List.append_assoc, hbuf, sent_cons] at hstart
    exact List.append_cancel_left hstart
  have hroom : (r.payload ++ sent rs).length ≤ p.httpRequestBufferMax.toNat := by
    have hroom := h.room
    rw [sent_cons, List.length_append] at hroom
    exact Nat.le_trans (Nat.le_add_left _ _) hroom
  have hs := splits_block_append r (.done not_marker_nil)
  rw [List.append_nil, ← hbuf] at hs
  rw [call_of_splits (not_refuses_of_room h.buffer h.room) (not_completes h.wait) hs]
  have hsplit : done ++ r :: rs = done ++ [r] ++ rs := by rw [List.append_assoc]; rfl
  cases hb : r.body with
  | none =>
      rw [WireRequest.payload_of_get hb, List.nil_append] at ht hroom
      refine ⟨_, walk_get (WireRequest.examine_get hb) [] _,
        .reading hsplit ⟨?_, ht, not_marker_nil, h.wait, h.error, hroom⟩⟩
      simp [h.requests]
  | some body =>
      obtain ⟨props, length, hexamine, hlength, hprops⟩ := WireRequest.exists_examine_post hb
      refine ⟨_, walk_post_single hexamine [] _, ?_⟩
      split
      case isTrue hle =>
          rw [hlength] at hle
          have hnil : r.payload = [] := List.eq_nil_of_length_eq_zero (Nat.le_zero.mp hle)
          rw [hnil, List.nil_append] at ht hroom
          refine .reading hsplit ⟨?_, ?_, ?_, h.wait, h.error, hroom⟩
          · simp [h.requests, ← hprops, hnil]
          · simp [ht]
          · simpa using not_marker_nil
      case isFalse hlt =>
          rw [hlength] at hlt
          exact .receiving rfl ⟨h.requests, hprops, hlength, ht, Nat.lt_of_not_le hlt, rfl, h.error, hroom⟩

theorem Reading.byte {done rs : List WireRequest} {b : UInt8} {t : Bytes} {p : HTTPParser}
    (h : Reading done rs (b :: t) p) :
    ∃ p', HTTPParser.call Cpp23.readers p (byteChunk b) = .ok () p' ∧ Midway (done ++ rs) t p' := by
  have hassoc : p.httpRequestBuffer ++ [b] ++ t = sent rs := by rw [List.append_assoc]; exact h.buffer
  cases rs with
  | nil => exact absurd h.buffer (by simp)
  | cons r rs =>
      rw [sent_cons] at hassoc
      rcases cut_or_short r hassoc with ⟨v, hv, _⟩ | hno
      · -- the byte before `b` did not complete an end marker, so nothing follows this one
        have hnil : v = [] := by
          by_contra hne
          have hbuf := congrArg List.dropLast hv
          rw [List.dropLast_concat, List.dropLast_append_of_ne_nil hne] at hbuf
          exact h.plain ⟨r.block, v.dropLast, hbuf.symm⟩
        rw [hnil, List.append_nil] at hv
        exact Reading.block (c := byteChunk b) h hv
      · exact ⟨_, call_of_no_marker (not_refuses_of_room h.buffer h.room) (not_completes h.wait) hno,
          .reading rfl ⟨h.requests, by rw [← h.buffer]; simp [byteChunk], hno, h.wait, h.error, h.room⟩⟩

theorem Receiving.byte {done rs : List WireRequest} {r : WireRequest} {b : UInt8} {t : Bytes} {p : HTTPParser}
    (h : Receiving done r rs (b :: t) p) :
    ∃ p', HTTPParser.call Cpp23.readers p (byteChunk b) = .ok () p' ∧ Midway (done ++ r :: rs) t p' := by
  have hr : ¬ p.Refuses (byteChunk b) := not_refuses_of_room h.buffer h.room
  have hassoc : p.httpRequestBuffer ++ [b] ++ t = r.payload ++ sent rs := by rw [List.append_assoc]; exact h.buffer
  have hlen : (p.httpRequestBuffer ++ [b]).length ≤ r.payload.length := by
    rw [List.length_append]
    exact h.short
  rcases Nat.lt_or_eq_of_le hlen with hlt | heq
  · have hc : ¬ p.Completes (byteChunk b) := fun hc => Nat.not_lt.mpr hc.2 (by rw [h.length]; exact hlt)
    have hpre : p.httpRequestBuffer ++ [b] <+: r.payload :=
      List.prefix_of_prefix_length_le ⟨t, hassoc⟩ (List.prefix_append _ _) hlen
    exact ⟨_, call_of_no_marker hr hc fun hin => r.payload_plain (hin.trans hpre.isInfix),
      .receiving rfl ⟨h.requests, h.props, h.length, hassoc, hlt, h.wait, h.error, h.room⟩⟩
  · obtain ⟨hbuf, ht⟩ := List.append_inj hassoc heq
    have hc : p.Completes (byteChunk b) := ⟨h.wait, by rw [h.length]; exact heq.ge⟩
    have hdone : done ++ r :: rs = done ++ [r] ++ rs := by rw [List.append_assoc]; rfl
    have hroom : (sent rs).length ≤ p.httpRequestBufferMax.toNat :=
      Nat.le_trans (by rw [List.length_append]; exact Nat.le_add_left _ _) h.room
    refine ⟨_, call_of_completes hr hc, .reading hdone ⟨?_, ?_, ?_, rfl, h.error, hroom⟩⟩
    · simp [byteChunk, hbuf, h.length, h.props, h.requests]
    · simp [byteChunk, hbuf, h.length, ht]
    · simpa [byteChunk, hbuf, h.length] using not_marker_nil

theorem Midway.run {rs : List WireRequest} {t : Bytes} {p : HTTPParser} (h : Midway rs t p) :
    ∃ p', Machine.run (HTTPParser.call Cpp23.readers) p (t.map byteChunk) = .ok () p' ∧ Midway rs [] p' := by
  induction t generalizing p with
  | nil => exact ⟨p, rfl, h⟩
  | cons b t ih =>
      have hbyte : ∃ p', HTTPParser.call Cpp23.readers p (byteChunk b) = .ok () p' ∧ Midway rs t p' := by
        cases h with
        | reading heq h => rw [heq]; exact h.byte
        | receiving heq h => rw [heq]; exact h.byte
      obtain ⟨p', hcall, hp'⟩ := hbyte
      rw [List.map_cons, run_cons_ok hcall]
      exact ih hp'

theorem Midway.done {rs : List WireRequest} {p : HTTPParser} (h : Midway rs [] p) :
    p.requests = rs.map WireRequest.props := by
  cases h with
  | reading heq h =>
      rw [heq, h.done.1, List.append_nil]
      exact h.requests
  | receiving heq h =>
      have hlen := congrArg List.length h.buffer
      have hshort := h.short
      rw [List.append_nil, List.length_append] at hlen
      omega

/-- A pipeline is recorded if it comes byte by byte, and if it comes in one chunk and ends with a GET request. -/
theorem pipeline_decoded {bufferSize : UInt16} {rs : List WireRequest}
    (hlen : (sent rs).length ≤ bufferSize.toNat) :
    (∃ p, run (appendBuffer Cpp23.readers) (fresh bufferSize) ((sent rs).map byteChunk) = .ok () p ∧
      p.requests = rs.map WireRequest.props) ∧
    ((∀ r ∈ rs.getLast?, r.body = none) → ∀ c : Chunk, c.bytes = sent rs →
      ∃ p, (fresh bufferSize).appendBuffer Cpp23.readers c = .ok () p ∧
        p.requests = rs.map WireRequest.props) := by
  constructor
  · have hstart : Midway rs (sent rs) (fresh bufferSize).clear :=
      .reading (List.nil_append rs).symm ⟨rfl, rfl, not_marker_nil, rfl, rfl, hlen⟩
    obtain ⟨q, hrun, hq⟩ := hstart.run
    obtain ⟨p, hp, rfl⟩ := run_appendBuffer_ok hrun
    exact ⟨p, hp, hq.done⟩
  · intro hlast c hc
    obtain ⟨rest, hs⟩ := splits_glued not_marker_nil rs
    have hr : ¬ (fresh bufferSize).clear.Refuses c :=
      not_refuses_of_room (t := []) (by rw [List.append_nil, hc]; rfl) hlen
    obtain ⟨props, length, hcall⟩ := call_glued hlast hr rfl (by rw [hc]; exact hs)
    obtain ⟨p, hp, heq⟩ := mapState_eq_ok ((appendBuffer_eq_call _ c).trans hcall)
    refine ⟨p, hp, ?_⟩
    have hrequests := congrArg HTTPParser.requests heq
    exact hrequests

def postAbc : WireRequest where
  url := ofString "/p"
  headers := [(httpHeaderContentLength, ofString "3")]
  body := some (ofString "abc")
  url_plain := by decide +kernel
  url_end := by decide +kernel
  key_plain := by decide +kernel
  value_plain := by decide +kernel
  nodup := by decide +kernel
  announced := by decide +kernel
  body_plain := by decide +kernel

theorem pipeline_decoded_post_get :
    (∃ p, run (appendBuffer Cpp23.readers) (fresh 128) ((sent [postAbc, getHost]).map byteChunk) = .ok () p ∧
      p.requests = [postAbc.props, getHost.props]) ∧
    ∃ p, (fresh 128).appendBuffer Cpp23.readers ⟨sent [postAbc, getHost], by decide +kernel⟩ = .ok () p ∧
      p.requests = [postAbc.props, getHost.props] :=
  have h := @pipeline_decoded 128 [postAbc, getHost] (by decide +kernel)
  ⟨h.1, h.2 (by decide +kernel) _ rfl⟩

end HTTPParser

end FalconAS.Http

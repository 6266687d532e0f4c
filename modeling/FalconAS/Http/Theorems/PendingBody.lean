import FalconAS.Http.Cpp23
import FalconAS.Http.Lemmas.Walk
import FalconAS.Http.Lemmas.Examine

/-!
# The pending body

A POST request whose body has not arrived yet is recorded with the bytes that follow its end marker, whatever they
are, as long as no call finds an end marker in a body that is still incomplete: such a call takes the body apart as
if it were requests.
-/

namespace FalconAS.Http

open FalconAS.Seq FalconAS.Machine

namespace HTTPParser

variable {R : Readers}

/-- The call takes up the POST request `r`, which announces `n` bytes, and finds only the bytes `rest` behind its
end marker. -/
structure BeginsWait (R : Readers) (p : HTTPParser) (c : Chunk) (r : RequestProperties) (n : UInt16)
    (rest : Bytes) : Prop where
  accepts : ¬ p.Refuses c ∧ ¬ p.Completes c
  block : ∃ b, split (p.httpRequestBuffer ++ c.bytes) http11EndMarker [] = (rest, [b]) ∧ examine R b = .post r n
  short : rest.length < n.toNat

/-- The parser waits for the rest of the body `body` of `r`, and has recorded `old` before. -/
structure Waits (old : List RequestProperties) (r : RequestProperties) (n : UInt16) (body : Bytes)
    (p : HTTPParser) : Prop where
  wait : p.postWaitContentLength = true
  props : p.requestProperties = r
  length : p.postContentLength = n
  buffer : p.httpRequestBuffer = body
  short : body.length < n.toNat
  requests : p.requests = old

/-- The body `body` of `r` is complete, and `r` is the first request recorded after `old`. -/
def Delivered (old : List RequestProperties) (r : RequestProperties) (n : UInt16) (body : Bytes)
    (p : HTTPParser) : Prop :=
  n.toNat ≤ body.length ∧ old ++ [{ r with payload := body.take n.toNat }] <+: p.requests

theorem BeginsWait.call_eq {p : HTTPParser} {c : Chunk} {r : RequestProperties} {n : UInt16} {rest : Bytes}
    (h : BeginsWait R p c r n rest) : ∃ p', call R p c = .ok () p' ∧ Waits p.requests r n rest p' := by
  obtain ⟨b, hsplit, hv⟩ := h.block
  obtain ⟨ts, rest', hs⟩ := exists_splits http11EndMarker_ne_nil (p.httpRequestBuffer ++ c.bytes)
  rw [split_of_splits http11EndMarker_ne_nil hs [], List.nil_append, Prod.mk.injEq] at hsplit
  obtain ⟨rfl, rfl⟩ := hsplit
  refine ⟨{ expect { p with httpRequestBuffer := rest' } r n with postWaitContentLength := true }, ?_,
    rfl, rfl, rfl, rfl, h.short, rfl⟩
  rw [call_of_splits h.accepts.1 h.accepts.2 hs]
  exact (walk_post_single hv [] _).trans (congrArg _ (if_neg (Nat.not_le.mpr h.short)))

theorem Waits.call {old : List RequestProperties} {r : RequestProperties} {n : UInt16} {body : Bytes}
    {p : HTTPParser} (h : Waits old r n body p) {c : Chunk} (hr : ¬ p.Refuses c) (hplain : PlainBody p c) :
    ∃ p', call R p c = .ok () p' ∧
      (Waits old r n (body ++ c.bytes) p' ∨ Delivered old r n (body ++ c.bytes) p') := by
  by_cases hc : p.Completes c
  · refine ⟨p.completed c, call_of_completes hr hc, Or.inr ⟨?_, ?_⟩⟩
    · rw [← h.buffer, ← h.length]
      exact hc.2
    · rw [completed_requests, h.requests, h.props, h.length, h.buffer]
  · have hlt : (p.httpRequestBuffer ++ c.bytes).length < p.postContentLength.toNat :=
      Nat.lt_of_not_le fun hle => hc ⟨h.wait, hle⟩
    refine ⟨_, call_of_no_marker hr hc (hplain h.wait hlt), Or.inl ⟨h.wait, h.props, h.length, ?_, ?_, h.requests⟩⟩
    · rw [← h.buffer]
    · rw [← h.buffer, ← h.length]
      exact hlt

theorem Delivered.append {old : List RequestProperties} {r : RequestProperties} {n : UInt16} {body more : Bytes}
    {p p' : HTTPParser} (h : Delivered old r n body p) (hp : p.requests <+: p'.requests) :
    Delivered old r n (body ++ more) p' := by
  refine ⟨h.1.trans (by simp), ?_⟩
  rw [List.take_append_of_le_length h.1]
  exact h.2.trans hp

theorem run_pending {old : List RequestProperties} {r : RequestProperties} {n : UInt16} {body : Bytes}
    {p : HTTPParser} {cs : List Chunk} (h : Waits old r n body p ∨ Delivered old r n body p)
    (hcont : Along (HTTPParser.call R) (fun q d => q.requests = old → ¬ q.Refuses d ∧ PlainBody q d) p cs) :
    Waits old r n (body ++ stream cs) (stateOf (run (HTTPParser.call R) p cs)) ∨
      Delivered old r n (body ++ stream cs) (stateOf (run (HTTPParser.call R) p cs)) := by
  induction cs generalizing p body with
  | nil => simpa [run, stateOf] using h
  | cons c cs ih =>
      rw [stream_cons, ← List.append_assoc]
      rcases h with h | h
      · obtain ⟨hr, hplain⟩ := hcont.1 h.requests
        obtain ⟨p', hcall, hp'⟩ := h.call (R := R) hr hplain
        rw [run_cons_ok hcall]
        exact ih hp' (hcont.2 p' hcall)
      · have hgrow := call_requests_grow (R := R) p c
        cases hcall : HTTPParser.call R p c with
        | ok u p' =>
            rw [hcall] at hgrow
            rw [run_cons_ok hcall]
            exact ih (Or.inr (h.append hgrow)) (hcont.2 p' hcall)
        | error e p' =>
            rw [hcall] at hgrow
            rw [run_cons_error hcall, List.append_assoc]
            exact Or.inr (h.append hgrow)

/-- Once a POST request waits for its body, nothing is recorded before the body is complete, and the first request
recorded then is this one with the body as its payload, if of the calls before that none refuses its chunk and none
finds an end marker in the incomplete body. -/
theorem pending_body_delivered (R : Readers) {p p' : HTTPParser} {c : Chunk} {r : RequestProperties} {n : UInt16}
    {rest : Bytes} {cs : List Chunk} (hset : BeginsWait R p c r n rest) (hcall : p.appendBuffer R c = .ok () p')
    (hcont : Along (appendBuffer R) (fun q d => q.requests = p'.requests → ¬ q.Refuses d ∧ PlainBody q d) p' cs) :
    p'.postWaitContentLength = true ∧ p'.postContentLength = n ∧
    ((rest ++ stream cs).length < n.toNat →
      (stateOf (run (appendBuffer R) p' cs)).requests = p'.requests) ∧
    (n.toNat ≤ (rest ++ stream cs).length →
      p'.requests ++ [{ r with payload := (rest ++ stream cs).take n.toNat }] <+:
        (stateOf (run (appendBuffer R) p' cs)).requests) := by
  obtain ⟨q, hq, hwaits⟩ := BeginsWait.call_eq (p := p.clear) ⟨hset.accepts, hset.block, hset.short⟩
  obtain rfl : q = p'.clear := by
    rw [call_of_appendBuffer hcall] at hq
    cases hq
    rfl
  have hold : p.requests = p'.requests := hwaits.requests.symm
  have hrun := run_pending (R := R) (Or.inl hwaits) (along_appendBuffer.mp (by rw [← hold] at hcont; exact hcont))
  rw [requests_run_appendBuffer, ← hold]
  refine ⟨hwaits.wait, hwaits.length, fun hlt => ?_, fun hle => ?_⟩
  · rcases hrun with hrun | hrun
    · exact hrun.requests
    · exact absurd hrun.1 (Nat.not_le.mpr hlt)
  · rcases hrun with hrun | hrun
    · exact absurd hrun.short (Nat.not_lt.mpr hle)
    · exact hrun.2

def postFiftyBlock : Bytes := ofString "POST / HTTP/1.1\r\nContent-Length: 50"

def postFifty : Chunk := ⟨postFiftyBlock ++ http11EndMarker, by decide⟩

def fiftyBytes : Chunk := ⟨List.replicate 50 97, by decide⟩

theorem getInBody_lt : (ofString "GET /smuggled HTTP/1.1\r\n\r\n").length < UInt16.size := by decide

def getInBody : Chunk := ⟨ofString "GET /smuggled HTTP/1.1\r\n\r\n", getInBody_lt⟩

def postFiftyProps : RequestProperties := (posted Cpp23.readers postFiftyBlock).getD .unparsed

theorem beginsWait_postFifty : BeginsWait Cpp23.readers (fresh 4096) postFifty postFiftyProps 50 [] where
  accepts := by decide
  block := ⟨postFiftyBlock, by decide +kernel, by decide +kernel⟩
  short := by decide

def waitingFifty : HTTPParser := stateOf ((fresh 4096).appendBuffer Cpp23.readers postFifty)

theorem appendBuffer_postFifty : (fresh 4096).appendBuffer Cpp23.readers postFifty = .ok () waitingFifty :=
  Returns.eq_ok (by decide +kernel)

theorem pending_body_delivered_fifty :
    waitingFifty.requests ++ [{ postFiftyProps with payload := ([] ++ stream [fiftyBytes]).take (50 : UInt16).toNat }]
      <+: (stateOf (run (appendBuffer Cpp23.readers) waitingFifty [fiftyBytes])).requests := by
  have hcont : Along (appendBuffer Cpp23.readers)
      (fun q d => q.requests = waitingFifty.requests → ¬ q.Refuses d ∧ PlainBody q d) waitingFifty [fiftyBytes] := by
    decide +kernel
  exact (pending_body_delivered Cpp23.readers beginsWait_postFifty appendBuffer_postFifty hcont).2.2.2 (by decide)

/-- A GET request inside the body is recorded although only 26 of the 50 bytes have arrived. -/
theorem pending_body_processed :
    BeginsWait Cpp23.readers (fresh 4096) postFifty postFiftyProps 50 [] ∧
      (fresh 4096).appendBuffer Cpp23.readers postFifty = .ok () waitingFifty ∧
      ¬ waitingFifty.Refuses getInBody ∧ (stream [getInBody]).length < 50 ∧
      (stateOf (run (appendBuffer Cpp23.readers) waitingFifty [getInBody])).requests ≠ waitingFifty.requests :=
  ⟨beginsWait_postFifty, appendBuffer_postFifty, by decide +kernel, by decide, by decide +kernel⟩

end HTTPParser

end FalconAS.Http

import FalconAS.Http.Cpp23
import FalconAS.Http.Lemmas.Walk
import FalconAS.Http.Lemmas.Examine

/-!
# Where recorded requests come from

A chunk that does not fit into the buffer is dropped, and the bytes before and after it become neighbours. So the
header block, the end marker and the payload of a recorded request are one piece of the chunks that were accepted,
not of all chunks. This needs that no call finds an end marker in an incomplete body.
-/

namespace FalconAS.Http

open FalconAS.Seq FalconAS.Machine

namespace HTTPParser

variable {R : Readers}

/-- The chunks that the run takes into the buffer. -/
def accepted (R : Readers) : HTTPParser → List Chunk → List Chunk
  | _, [] => []
  | p, c :: cs =>
      (if p.Refuses c then [] else [c]) ++
        match p.appendBuffer R c with
        | .ok _ p' => accepted R p' cs
        | .error _ _ => []

/-- The request was read off a header block, and the block, the end marker and the payload are one piece of `s`. -/
def ReadFrom (R : Readers) (s : Bytes) (r : RequestProperties) : Prop :=
  ∃ b props, (examine R b = .get props ∧ r.payload = [] ∨
      ∃ length, examine R b = .post props length ∧ r.payload.length = length.toNat) ∧
    r = { props with payload := r.payload } ∧ b ++ http11EndMarker ++ r.payload <:+: s

theorem ReadFrom.append {s : Bytes} {r : RequestProperties} (h : ReadFrom R s r) (t : Bytes) :
    ReadFrom R (s ++ t) r := by
  obtain ⟨b, props, hv, hr, hin⟩ := h
  exact ⟨b, props, hv, hr, hin.trans (List.prefix_append s t).isInfix⟩

theorem readFrom_get {b s : Bytes} {props : RequestProperties} (hv : examine R b = .get props)
    (hin : b ++ http11EndMarker <:+: s) : ReadFrom R s props := by
  have hpay := (examine_get_spec hv).2
  refine ⟨b, props, Or.inl ⟨hv, hpay⟩, rfl, ?_⟩
  rw [hpay, List.append_nil]
  exact hin

theorem readFrom_post {b body s : Bytes} {props : RequestProperties} {length : UInt16}
    (hv : examine R b = .post props length) (hle : length.toNat ≤ body.length)
    (hin : b ++ http11EndMarker ++ body <:+: s) :
    ReadFrom R s { props with payload := body.take length.toNat } := by
  refine ⟨b, props, Or.inr ⟨length, hv, ?_⟩, rfl, List.IsInfix.trans ?_ hin⟩
  · rw [List.length_take, Nat.min_eq_left hle]
  · exact ((List.prefix_append_right_inj _).mpr (List.take_prefix length.toNat body)).isInfix

/-- What is known between two calls when the bytes `s` have been accepted. -/
structure Traced (R : Readers) (s : Bytes) (p : HTTPParser) : Prop where
  requests : ∀ r ∈ p.requests, ReadFrom R s r
  buffer : p.httpRequestBuffer <:+ s
  pending : p.postWaitContentLength = true → ∃ b,
    examine R b = .post p.requestProperties p.postContentLength ∧ b ++ http11EndMarker ++ p.httpRequestBuffer <:+ s

theorem Walks.traced {single : Bool} {k : Nat} {bs : List Bytes} {p : HTTPParser}
    {tr : List (Bytes × List Bytes)} {r : Result Unit} (h : Walks R single k bs p tr r) {s : Bytes}
    (hreq : ∀ q ∈ p.requests, ReadFrom R s q) (hwait : p.postWaitContentLength = false)
    (hsingle : single = true → bs.length ≤ 1) (hbuf : p.httpRequestBuffer <:+ s)
    (hsuf : ∀ b bs', bs = b :: bs' →
      b.drop k ++ http11EndMarker ++ (bs'.flatMap (· ++ http11EndMarker) ++ p.httpRequestBuffer) <:+ s) :
    (∀ q ∈ (stateOf r).requests, ReadFrom R s q) ∧ ∀ p', r = .ok () p' → Traced R s p' := by
  have notWaiting : ∀ {q : HTTPParser}, q.postWaitContentLength = false →
      q.postWaitContentLength = true → ∃ b, examine R b = .post q.requestProperties q.postContentLength ∧
        b ++ http11EndMarker ++ q.httpRequestBuffer <:+ s := by
    intro q hf ht
    rw [hf] at ht
    cases ht
  induction h with
  | done => exact ⟨hreq, by rintro _ ⟨⟩; exact ⟨hreq, hbuf, notWaiting hwait⟩⟩
  | empty _ => exact ⟨hreq, by rintro _ ⟨⟩; exact ⟨hreq, hbuf, notWaiting hwait⟩⟩
  | rejected _ => exact ⟨hreq, by rintro _ ⟨⟩; exact ⟨hreq, hbuf, notWaiting hwait⟩⟩
  | throws _ => exact ⟨hreq, by rintro _ ⟨⟩⟩
  | @get k b bs p props tr r hv _ ih =>
      have hb := hsuf b bs rfl
      refine ih (List.forall_mem_append.mpr ⟨hreq, List.forall_mem_singleton.mpr (readFrom_get hv ?_)⟩)
        hwait ?_ hbuf ?_
      · exact (List.prefix_append _ _).isInfix.trans hb.isInfix
      · intro hs
        exact Nat.le_trans (Nat.le_succ _) (hsingle hs)
      · rintro b' bs' rfl
        rw [List.drop_zero]
        rw [List.flatMap_cons, List.append_assoc (b' ++ http11EndMarker)] at hb
        exact (List.suffix_append _ _).trans hb
  | @ready k b bs p props length hs hv hle =>
      obtain rfl : bs = [] := List.eq_nil_of_length_eq_zero (by have := hsingle hs; simpa using this)
      have hb : b.drop k ++ http11EndMarker ++ p.httpRequestBuffer <:+ s := hsuf b [] rfl
      have hall := List.forall_mem_append.mpr ⟨hreq, List.forall_mem_singleton.mpr (readFrom_post hv hle hb.isInfix)⟩
      refine ⟨hall, ?_⟩
      rintro _ ⟨⟩
      exact ⟨hall, (List.drop_suffix _ _).trans hbuf, notWaiting hwait⟩
  | @wait k b bs p props length hs hv _ =>
      obtain rfl : bs = [] := List.eq_nil_of_length_eq_zero (by have := hsingle hs; simpa using this)
      have hb : b.drop k ++ http11EndMarker ++ p.httpRequestBuffer <:+ s := hsuf b [] rfl
      exact ⟨hreq, by rintro _ ⟨⟩; exact ⟨hreq, hbuf, fun _ => ⟨b.drop k, hv, hb⟩⟩⟩
  | last _ _ => exact ⟨hreq, by rintro _ ⟨⟩⟩
  | @next k b next bs p props length tr r hs hv hle _ ih =>
      have hb : b.drop k ++ http11EndMarker ++
          (next ++ (http11EndMarker ++ (bs.flatMap (· ++ http11EndMarker) ++ p.httpRequestBuffer))) <:+ s := by
        simpa only [List.flatMap_cons, List.append_assoc] using hsuf b (next :: bs) rfl
      refine ih (List.forall_mem_append.mpr ⟨hreq, List.forall_mem_singleton.mpr (readFrom_post hv hle ?_)⟩) hwait
        (fun ht => ?_) hbuf ?_
      · rw [← List.append_assoc (b.drop k ++ http11EndMarker)] at hb
        exact (List.prefix_append _ _).isInfix.trans hb.isInfix
      · rw [hs] at ht
        cases ht
      · rintro b' bs' ⟨⟩
        have hdrop : next.drop length.toNat ++ http11EndMarker ++
            (bs.flatMap (· ++ http11EndMarker) ++ p.httpRequestBuffer) <:+
            next ++ (http11EndMarker ++ (bs.flatMap (· ++ http11EndMarker) ++ p.httpRequestBuffer)) := by
          refine ⟨next.take length.toNat, ?_⟩
          rw [List.append_assoc (next.drop _), ← List.append_assoc (next.take _), List.take_append_drop]
        exact hdrop.trans ((List.suffix_append _ _).trans hb)
  | short _ _ _ => exact ⟨hreq, by rintro _ ⟨⟩; exact ⟨hreq, hbuf, notWaiting hwait⟩⟩

theorem Traced.grow {s t : Bytes} {p : HTTPParser} (h : Traced R s p) :
    (∀ r ∈ p.requests, ReadFrom R (s ++ t) r) ∧ p.httpRequestBuffer ++ t <:+ s ++ t :=
  ⟨fun r hr => (h.requests r hr).append t, List.suffix_append_self_iff.mpr h.buffer⟩

theorem call_traced {s : Bytes} {p : HTTPParser} {c : Chunk} (hp : Traced R s p) (hr : ¬ p.Refuses c)
    (hplain : PlainBody p c) :
    (∀ r ∈ (stateOf (call R p c)).requests, ReadFrom R (s ++ c.bytes) r) ∧
      ∀ p', call R p c = .ok () p' → Traced R (s ++ c.bytes) p' := by
  obtain ⟨hreq, hbuf⟩ := hp.grow (t := c.bytes)
  rcases call_cases R p c with ⟨hr', _⟩ | ⟨_, hc, heq, _⟩ | ⟨_, hc, rest, hs, hw⟩
  · exact absurd hr' hr
  · obtain ⟨b, hv, hb⟩ := hp.pending hc.1
    have hb' : b ++ http11EndMarker ++ (p.httpRequestBuffer ++ c.bytes) <:+ s ++ c.bytes := by
      rw [← List.append_assoc]
      exact List.suffix_append_self_iff.mpr hb
    have hall := List.forall_mem_append.mpr
      ⟨hreq, List.forall_mem_singleton.mpr (readFrom_post hv hc.2 hb'.isInfix)⟩
    rw [heq]
    refine ⟨hall, ?_⟩
    rintro _ ⟨⟩
    exact ⟨hall, (List.drop_suffix _ _).trans hbuf, fun hf => Bool.noConfusion hf⟩
  · cases hwait : p.postWaitContentLength with
    | true =>
        obtain ⟨b, hv, hb⟩ := hp.pending hwait
        have hm := hplain hwait (Nat.lt_of_not_le fun hle => hc ⟨hwait, hle⟩)
        rw [call_of_no_marker hr hc hm]
        refine ⟨hreq, ?_⟩
        rintro _ ⟨⟩
        refine ⟨hreq, hbuf, fun _ => ⟨b, hv, ?_⟩⟩
        rw [← List.append_assoc]
        exact List.suffix_append_self_iff.mpr hb
    | false =>
        refine hw.traced hreq hwait (fun h => (beq_iff_eq.mp h).le) (hs.suffix.trans hbuf) fun b bs hbs => ?_
        have heq := hs.eq_flatMap
        rw [hbs, List.flatMap_cons, List.append_assoc] at heq
        rw [List.drop_zero, ← heq]
        exact hbuf

theorem run_traced {s : Bytes} {p : HTTPParser} {cs : List Chunk} (hp : Traced R s p)
    (hplain : Along (appendBuffer R) PlainBody p cs) :
    ∀ r ∈ (stateOf (run (appendBuffer R) p cs)).requests, ReadFrom R (s ++ stream (accepted R p cs)) r := by
  induction cs generalizing p s with
  | nil =>
      intro r hr
      exact (hp.requests r hr).append _
  | cons c cs ih =>
      have hclear : Traced R s p.clear := ⟨hp.requests, hp.buffer, hp.pending⟩
      by_cases hr : p.Refuses c
      · have hcall : p.appendBuffer R c = .ok () p := by
          rw [appendBuffer]
          exact if_pos hr
        rw [run_cons_ok hcall, accepted, if_pos hr, hcall]
        exact ih hp (hplain.2 p hcall)
      · obtain ⟨hall, hok⟩ := call_traced hclear hr hplain.1
        rw [accepted, if_neg hr]
        cases hcall : p.appendBuffer R c with
        | ok u p' =>
            rw [run_cons_ok hcall, List.singleton_append, stream_cons, ← List.append_assoc]
            have hp' := hok _ (call_of_appendBuffer hcall)
            exact ih ⟨hp'.requests, hp'.buffer, hp'.pending⟩ (hplain.2 p' hcall)
        | error e p' =>
            rw [call_of_appendBuffer_error hcall] at hall
            rw [run_cons_error hcall, List.append_nil, stream_cons, ← List.append_assoc]
            intro r hr
            exact (hall r hr).append _

/-- In a run in which no call finds an end marker in an incomplete body, the header block, the end marker and the
payload of a recorded request are one piece of the accepted chunks. -/
theorem run_readFrom_accepted (R : Readers) {bufferSize : UInt16} {cs : List Chunk}
    (hplain : Along (appendBuffer R) PlainBody (fresh bufferSize) cs) :
    ∀ r ∈ (stateOf (run (appendBuffer R) (fresh bufferSize) cs)).requests,
      ReadFrom R (stream (accepted R (fresh bufferSize) cs)) r :=
  run_traced (s := []) ⟨fun _ hr => absurd hr List.not_mem_nil, List.suffix_rfl, fun hf => Bool.noConfusion hf⟩ hplain

def getFirstHalf : Chunk := ⟨ofString "GET / HTT", by decide⟩

def getSecondHalf : Chunk := ⟨ofString "P/1.1\r\n\r\n", by decide⟩

def oversized : Chunk := ⟨List.replicate 10 88, by decide⟩

theorem run_readFrom_accepted_halves :
    stream (accepted Cpp23.readers (fresh 18) [getFirstHalf, oversized, getSecondHalf]) =
      stream [getFirstHalf, getSecondHalf] ∧
    ∀ r ∈ (stateOf (run (appendBuffer Cpp23.readers) (fresh 18) [getFirstHalf, oversized, getSecondHalf])).requests,
      ReadFrom Cpp23.readers
        (stream (accepted Cpp23.readers (fresh 18) [getFirstHalf, oversized, getSecondHalf])) r :=
  ⟨by decide +kernel, run_readFrom_accepted Cpp23.readers (by decide +kernel)⟩

def isRequest (R : Readers) (b : Bytes) : Bool :=
  match examine R b with
  | .get _ => true
  | .post _ _ => true
  | _ => false

theorem not_readFrom {s : Bytes} (h : ∀ t ∈ s.tails, ∀ b ∈ t.inits, isRequest R b = false)
    (r : RequestProperties) : ¬ ReadFrom R s r := by
  rintro ⟨b, props, hv, _, hin⟩
  have hb : b <:+: s := by
    rw [List.append_assoc] at hin
    exact (List.prefix_append b _).isInfix.trans hin
  obtain ⟨t, hbt, hts⟩ := List.infix_iff_prefix_suffix.mp hb
  have hno := h t ((List.mem_tails t s).mpr hts) b ((List.mem_inits b t).mpr hbt)
  rcases hv with ⟨hv, _⟩ | ⟨_, hv, _⟩
  · simp [isRequest, hv] at hno
  · simp [isRequest, hv] at hno

/-- The chunk between the two halves of a request is refused, and the halves are glued together. -/
theorem halves_glued :
    ∃ r ∈ (stateOf (run (appendBuffer Cpp23.readers) (fresh 18) [getFirstHalf, oversized, getSecondHalf])).requests,
      ¬ ReadFrom Cpp23.readers (stream [getFirstHalf, oversized, getSecondHalf]) r := by
  have hne : (stateOf (run (appendBuffer Cpp23.readers) (fresh 18)
      [getFirstHalf, oversized, getSecondHalf])).requests ≠ [] := by decide +kernel
  obtain ⟨r, hr⟩ := List.exists_mem_of_ne_nil _ hne
  exact ⟨r, hr, not_readFrom (by decide +kernel) r⟩

end HTTPParser

end FalconAS.Http

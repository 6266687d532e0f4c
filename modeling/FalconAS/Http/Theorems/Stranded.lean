import FalconAS.Http.Cpp23
import FalconAS.Http.Lemmas.Walk
import FalconAS.Http.Lemmas.Examine

/-!
# Stranded requests

After a call the buffer should hold nothing that could be processed already. Two calls break this: one that
completes a pending body and finds an end marker in the bytes behind it, which it leaves for the next call; and
one that walks through blocks inside a pending body and so overwrites the length the parser waits for.
-/

namespace FalconAS.Http

open FalconAS.Seq FalconAS.Machine

namespace HTTPParser

variable {R : Readers}

/-- Nothing in the buffer could be processed without more input. -/
def Settled (p : HTTPParser) : Prop :=
  (p.postWaitContentLength = false → ¬ http11EndMarker <:+: p.httpRequestBuffer) ∧
    (p.postWaitContentLength = true → p.httpRequestBuffer.length < p.postContentLength.toNat)

instance (p : HTTPParser) : Decidable p.Settled := inferInstanceAs (Decidable (_ ∧ _))

/-- The block is no POST block whose announced length is stored. -/
def StoresNoLength (R : Readers) (b : Bytes) : Prop :=
  ∀ props ∈ posted R b, ∀ v ∈ announced props, intMax < v

instance (R : Readers) (b : Bytes) : Decidable (StoresNoLength R b) :=
  inferInstanceAs (Decidable (∀ props ∈ posted R b, ∀ v ∈ announced props, intMax < v))

/-- Behind a body that the call completes there is no end marker, and while a body is pending the call comes to
no block that stores an announced length. -/
def KeepsSettled (R : Readers) (p : HTTPParser) (c : Chunk) : Prop :=
  (¬ p.Refuses c → p.Completes c →
    ¬ http11EndMarker <:+: (p.httpRequestBuffer ++ c.bytes).drop p.postContentLength.toNat) ∧
  (p.postWaitContentLength = true → ∀ x ∈ p.visited R c, StoresNoLength R x.1)

instance (R : Readers) (p : HTTPParser) (c : Chunk) : Decidable (KeepsSettled R p c) :=
  inferInstanceAs (Decidable (_ ∧ _))

theorem StoresNoLength.not_post {b : Bytes} (h : StoresNoLength R b) (props : RequestProperties)
    (length : UInt16) : examine R b ≠ .post props length := by
  intro hv
  obtain ⟨hp, v, ha, hmax, _⟩ := examine_post_iff.mp hv
  have hlt := h props hp v ha
  omega

theorem StoresNoLength.getD {b : Bytes} (h : StoresNoLength R b) {props : RequestProperties}
    {length : Option UInt16} (hv : examine R b = .rejected props length) (n : UInt16) : length.getD n = n := by
  cases length with
  | none => rfl
  | some l =>
      obtain ⟨hp, v, ha, hmax, _⟩ := examine_rejected_length hv
      have hlt := h props hp v ha
      omega

theorem Walks.settled {single : Bool} {k : Nat} {bs : List Bytes} {p p' : HTTPParser}
    {tr : List (Bytes × List Bytes)} {r : Result Unit} (h : Walks R single k bs p tr r) (hr : r = .ok () p')
    (hbuf : ¬ http11EndMarker <:+: p.httpRequestBuffer)
    (hwait : p.postWaitContentLength = true → p.httpRequestBuffer.length < p.postContentLength.toNat ∧
      ∀ x ∈ tr, StoresNoLength R x.1) : p'.Settled := by
  induction h with
  | done => cases hr; exact ⟨fun _ => hbuf, fun hw => (hwait hw).1⟩
  | empty _ => cases hr; exact ⟨fun _ => hbuf, fun hw => (hwait hw).1⟩
  | @rejected k b bs p props length hv =>
      cases hr
      refine ⟨fun _ => hbuf, fun hw => ?_⟩
      obtain ⟨hlt, hno⟩ := hwait hw
      rw [reject_postContentLength, (hno (b.drop k, bs) (by simp)).getD hv]
      exact hlt
  | throws _ => cases hr
  | get _ _ ih =>
      apply ih hr hbuf
      intro hw
      obtain ⟨hlt, hno⟩ := hwait hw
      exact ⟨hlt, fun x hx => hno x (List.mem_cons_of_mem _ hx)⟩
  | @ready k b bs p props length _ hv hle =>
      cases hr
      refine ⟨fun _ hin => hbuf (hin.trans (List.drop_suffix _ _).isInfix), fun hw => ?_⟩
      exact absurd hv ((hwait hw).2 (b.drop k, bs) (by simp) |>.not_post props length)
  | wait _ _ hlt =>
      cases hr
      exact ⟨fun hf => Bool.noConfusion hf, fun _ => hlt⟩
  | last _ _ => cases hr
  | @next k b next bs p props length tr r _ hv _ _ ih =>
      apply ih hr hbuf
      intro hw
      exact absurd hv ((hwait hw).2 (b.drop k, next :: bs) (by simp) |>.not_post props length)
  | @short k b next bs p props length _ hv _ =>
      cases hr
      refine ⟨fun _ => hbuf, fun hw => ?_⟩
      exact absurd hv ((hwait hw).2 (b.drop k, next :: bs) (by simp) |>.not_post props length)

theorem call_settled {p p' : HTTPParser} {c : Chunk} (hp : p.Settled) (hk : KeepsSettled R p c)
    (h : call R p c = .ok () p') : p'.Settled := by
  rcases call_cases R p c with ⟨_, heq, _⟩ | ⟨hr, hc, heq, _⟩ | ⟨_, hc, rest, hs, hw⟩
  · rw [heq] at h
    cases h
    exact hp
  · rw [heq] at h
    cases h
    exact ⟨fun _ => hk.1 hr hc, fun hf => Bool.noConfusion hf⟩
  · refine hw.settled h hs.not_infix_rest fun hwait => ⟨?_, hk.2 hwait⟩
    have hlt : (p.httpRequestBuffer ++ c.bytes).length < p.postContentLength.toNat := by
      by_contra hge
      exact hc ⟨hwait, Nat.le_of_not_lt hge⟩
    exact Nat.lt_of_le_of_lt hs.suffix.length_le hlt

/-- In a run whose calls all meet `KeepsSettled`, no complete request is left in the buffer. -/
theorem run_settled (R : Readers) {bufferSize : UInt16} {cs : List Chunk} {p : HTTPParser}
    (hP : Along (appendBuffer R) (KeepsSettled R) (fresh bufferSize) cs)
    (hrun : run (appendBuffer R) (fresh bufferSize) cs = .ok () p) : p.Settled := by
  have hfresh : (fresh bufferSize).clear.Settled := ⟨fun _ => not_marker_nil, fun h => Bool.noConfusion h⟩
  have hcall : run (call R) (fresh bufferSize).clear cs = .ok () p.clear := by
    rw [← run_appendBuffer, hrun]
    rfl
  have hclear : p.clear.Settled :=
    run_invariant (fun _ _ _ hp hk h => call_settled hp hk h) hfresh (along_appendBuffer.mp hP) hcall
  exact hclear

def postFive : Chunk := ⟨ofString "POST / HTTP/1.1\r\nContent-Length: 5\r\n\r\n", by decide⟩

def helloThenGet : Chunk := ⟨ofString "helloGET / HTTP/1.1\r\n\r\n", by decide⟩

def hello : Chunk := ⟨ofString "hello", by decide⟩

theorem run_settled_hello :
    (stateOf (run (appendBuffer Cpp23.readers) (fresh 4096) [postFive, hello])).Settled :=
  run_settled Cpp23.readers (by decide +kernel) (Returns.eq_ok (by decide +kernel))

/-- The GET request behind the body stays in the buffer. -/
theorem request_stranded :
    ∃ p, run (appendBuffer Cpp23.readers) (fresh 4096) [postFive, helloThenGet] = .ok () p ∧ ¬ p.Settled :=
  ⟨_, Returns.eq_ok (by decide +kernel), by decide +kernel⟩

end HTTPParser

end FalconAS.Http

import FalconAS.Http.Cpp23
import FalconAS.Http.Reader
import FalconAS.Http.Lemmas.Walk

/-!
# Independence of the chunks

As long as every call treats its blocks in sequence, the parser does what the reader of `Reader.lean` does, and the
reader does not see the chunks. A call leaves the sequence where it stops at a block although others follow, where
it looks for a body in a block that is too short for it or that is not there, where it finds an end marker in an
incomplete body, and where it leaves an end marker behind a completed one.
-/

namespace FalconAS.Http

open FalconAS.Seq FalconAS.Machine

namespace HTTPParser

variable {R : Readers}

/-- The reader that the parser implements. -/
def reader (p : HTTPParser) : Reader where
  requests := p.requests
  input := p.httpRequestBuffer
  pending := if p.postWaitContentLength then some (p.requestProperties, p.postContentLength.toNat) else none
  halted := false

/-- What the loop does with the block and what the reader does are the same: a block that ends the loop is the last
one, and the body of a POST request is found in the block behind it. -/
def inSequence (R : Readers) (single : Bool) (x : Bytes × List Bytes) : Bool :=
  match examine R x.1 with
  | .empty => x.2.isEmpty
  | .rejected _ _ => x.2.isEmpty
  | .throws _ _ => true
  | .get _ => true
  | .post _ length =>
      single ||
        match x.2 with
        | [] => false
        | next :: _ => length.toNat ≤ next.length

def Sequential (R : Readers) (p : HTTPParser) (c : Chunk) : Prop :=
  PlainBody p c ∧
    (p.Completes c → ¬ http11EndMarker <:+: (p.httpRequestBuffer ++ c.bytes).drop p.postContentLength.toNat) ∧
    (p.postWaitContentLength = false → ∀ x ∈ p.visited R c, inSequence R ((p.batch c).length == 1) x = true)

instance (R : Readers) (p : HTTPParser) (c : Chunk) : Decidable (Sequential R p c) :=
  inferInstanceAs (Decidable (_ ∧ _ ∧ _))

/-- The reader comes to rest where the parser ends, or halts where the parser throws. -/
def Follows (R : Readers) (ρ : Reader) : Result Unit → Prop
  | .ok _ p => (Reader.machine R).Settles ρ p.reader
  | .error _ p => ∃ ρ', (Reader.machine R).Settles ρ ρ' ∧ ρ'.halted = true ∧ ρ'.requests = p.requests

theorem Follows.head {ρ ρ' : Reader} {r : Result Unit} (hstep : Reader.step R ρ = some ρ') (h : Follows R ρ' r) :
    Follows R ρ r := by
  cases r with
  | ok u p => exact ⟨.head hstep h.1, h.2⟩
  | error e p =>
      obtain ⟨ρ'', hsettles, hhalted⟩ := h
      exact ⟨ρ'', ⟨.head hstep hsettles.1, hsettles.2⟩, hhalted⟩

theorem reader_of_not_waiting {p : HTTPParser} (h : p.postWaitContentLength = false) :
    p.reader = ⟨p.requests, p.httpRequestBuffer, none, false⟩ := by
  simp [reader, h]

theorem follows_rest {p : HTTPParser} (h : p.postWaitContentLength = false)
    (hm : ¬ http11EndMarker <:+: p.httpRequestBuffer) :
    Follows R ⟨p.requests, p.httpRequestBuffer, none, false⟩ (.ok () p) := by
  rw [Follows, reader_of_not_waiting h]
  exact Reader.settles_self (Reader.step_no_marker rfl hm)

theorem Walks.follows {single : Bool} {k : Nat} {bs : List Bytes} {p : HTTPParser}
    {tr : List (Bytes × List Bytes)} {r : Result Unit} (h : Walks R single k bs p tr r) {input : Bytes}
    (hin : Splits http11EndMarker input (bs.modifyHead (·.drop k)) p.httpRequestBuffer)
    (hwait : p.postWaitContentLength = false) (hsingle : single = true → bs.length ≤ 1)
    (hseq : ∀ x ∈ tr, inSequence R single x = true) : Follows R ⟨p.requests, input, none, false⟩ r := by
  induction h generalizing input with
  | done =>
      cases hin with
      | done hm => exact follows_rest hwait hm
  | @empty k b bs p hv =>
      have hbs : bs = [] := by simpa [inSequence, hv] using hseq _ (List.mem_singleton_self _)
      subst hbs
      obtain ⟨hcut, hm⟩ := hin.singleton
      refine .head (Reader.step_cut rfl rfl hcut) ?_
      simp only [Reader.takeBlock, hv]
      exact follows_rest (p := { p with requestParseError := httpErrorBadRequest }) hwait hm
  | @rejected k b bs p props length hv =>
      have hbs : bs = [] := by simpa [inSequence, hv] using hseq _ (List.mem_singleton_self _)
      subst hbs
      obtain ⟨hcut, hm⟩ := hin.singleton
      refine .head (Reader.step_cut rfl rfl hcut) ?_
      simp only [Reader.takeBlock, hv]
      exact follows_rest (p := p.reject props length) hwait hm
  | throws hv =>
      cases hin with
      | cut hcut _ =>
          refine .head (Reader.step_cut rfl rfl hcut) ?_
          simp only [Reader.takeBlock, hv]
          exact ⟨_, Reader.settles_self (Reader.step_halted rfl), rfl, rfl⟩
  | @get k b bs p props tr r hv _ ih =>
      cases hin with
      | cut hcut hrest =>
          refine .head (Reader.step_cut rfl rfl hcut) ?_
          simp only [Reader.takeBlock, hv]
          refine ih ?_ hwait (fun hs => Nat.le_trans (Nat.le_succ _) (hsingle hs))
            (fun x hx => hseq x (List.mem_cons_of_mem _ hx))
          cases bs with
          | nil => exact hrest
          | cons b' bs => exact hrest
  | @ready k b bs p props length hs hv hle =>
      obtain rfl : bs = [] := List.eq_nil_of_length_eq_zero (by have := hsingle hs; simpa using this)
      obtain ⟨hcut, hm⟩ := hin.singleton
      refine .head (Reader.step_cut rfl rfl hcut) ?_
      simp only [Reader.takeBlock, hv]
      refine .head (Reader.step_pending rfl rfl hle) ?_
      refine follows_rest (p := (p.expect props length).completePOST) hwait fun hmd => hm ?_
      exact hmd.trans (List.drop_suffix _ _).isInfix
  | @wait k b bs p props length hs hv hlt =>
      obtain rfl : bs = [] := List.eq_nil_of_length_eq_zero (by have := hsingle hs; simpa using this)
      obtain ⟨hcut, _⟩ := hin.singleton
      refine .head (Reader.step_cut rfl rfl hcut) ?_
      simp only [Reader.takeBlock, hv]
      exact Reader.settles_self (Reader.step_short rfl hlt)
  | last hs hv =>
      have hno := hseq _ (List.mem_singleton_self _)
      simp [inSequence, hv, hs] at hno
  | @next k b next bs p props length tr r hs hv hle _ ih =>
      cases hin with
      | @cut _ _ v _ _ hcut hrest =>
          cases hrest with
          | cut hnext hrest =>
              refine .head (Reader.step_cut rfl rfl hcut) ?_
              simp only [Reader.takeBlock, hv]
              have htake : v.take length.toNat = next.take length.toNat := by
                rw [hnext.eq, List.append_assoc, List.take_append_of_le_length hle]
              have hlen : length.toNat ≤ v.length := by
                rw [hnext.eq, List.append_assoc, List.length_append]
                omega
              refine .head (Reader.step_pending rfl rfl hlen) ?_
              rw [htake]
              refine ih (.cut (hnext.drop hle) hrest) hwait (fun ht => ?_)
                (fun x hx => hseq x (List.mem_cons_of_mem _ hx))
              rw [hs] at ht
              cases ht
  | short hs hv hlt =>
      have hno := hseq _ (List.mem_singleton_self _)
      simp [inSequence, hv, hs, Nat.not_le.mpr hlt] at hno

theorem call_follows {p : HTTPParser} {c : Chunk} (hr : ¬ p.Refuses c) (hseq : Sequential R p c) :
    Follows R (p.reader.feed c.bytes) (call R p c) := by
  obtain ⟨hplain, hbehind, hblocks⟩ := hseq
  rcases call_cases R p c with ⟨hr', _⟩ | ⟨_, hc, heq, _⟩ | ⟨_, hc, rest, hs, hw⟩
  · exact absurd hr' hr
  · rw [heq]
    have hfeed : p.reader.feed c.bytes = ⟨p.requests, p.httpRequestBuffer ++ c.bytes,
        some (p.requestProperties, p.postContentLength.toNat), false⟩ := by
      simp [reader, Reader.feed, hc.1]
    rw [hfeed]
    refine .head (Reader.step_pending rfl rfl hc.2) ?_
    exact follows_rest (p := p.completed c) rfl (hbehind hc)
  · cases hwait : p.postWaitContentLength with
    | true =>
        have hlt : (p.httpRequestBuffer ++ c.bytes).length < p.postContentLength.toNat :=
          Nat.lt_of_not_le fun hle => hc ⟨hwait, hle⟩
        rw [call_of_no_marker hr hc (hplain hwait hlt)]
        have hp : (p.reader.feed c.bytes).pending = some (p.requestProperties, p.postContentLength.toNat) := by
          simp [reader, Reader.feed, hwait]
        exact Reader.settles_self (Reader.step_short hp hlt)
    | false =>
        rw [reader_of_not_waiting hwait]
        refine hw.follows ?_ hwait (fun h => (beq_iff_eq.mp h).le) (hblocks hwait)
        cases hb : p.batch c with
        | nil => rw [hb] at hs; exact hs
        | cons b bs => rw [hb] at hs; exact hs

/-! ## Runs -/

theorem Walks.buffer_suffix {single : Bool} {k : Nat} {bs : List Bytes} {p : HTTPParser}
    {tr : List (Bytes × List Bytes)} {r : Result Unit} (h : Walks R single k bs p tr r) :
    (stateOf r).httpRequestBuffer <:+ p.httpRequestBuffer ∧
      (stateOf r).httpRequestBufferMax = p.httpRequestBufferMax := by
  induction h with
  | ready _ _ _ => exact ⟨List.drop_suffix _ _, rfl⟩
  | get _ _ ih => exact ih
  | next _ _ _ _ ih => exact ih
  | _ => exact ⟨List.suffix_rfl, rfl⟩

theorem call_buffer_le (p : HTTPParser) (c : Chunk) :
    (stateOf (call R p c)).httpRequestBuffer.length ≤ (p.httpRequestBuffer ++ c.bytes).length ∧
      (stateOf (call R p c)).httpRequestBufferMax = p.httpRequestBufferMax := by
  rcases call_cases R p c with ⟨_, heq, _⟩ | ⟨_, _, heq, _⟩ | ⟨_, _, rest, hs, hw⟩
  · rw [heq]
    exact ⟨by simp [stateOf], rfl⟩
  · rw [heq]
    exact ⟨(List.drop_suffix _ _).length_le, rfl⟩
  · exact ⟨(hw.buffer_suffix.1.trans hs.suffix).length_le, hw.buffer_suffix.2⟩

/-- The reader that is fed the chunks ends with the requests of the run, and it has halted if the run threw. -/
theorem run_follows {p : HTTPParser} {cs : List Chunk}
    (hroom : p.httpRequestBuffer.length + (stream cs).length ≤ p.httpRequestBufferMax.toNat)
    (hseq : Along (call R) (Sequential R) p cs) :
    ∃ ρ, (Reader.machine R).Delivers p.reader (cs.map Chunk.bytes) ρ ∧
      ρ.requests = (stateOf (run (call R) p cs)).requests ∧
      (ρ.halted = false ↔ Returns (run (call R) p cs)) := by
  induction cs generalizing p with
  | nil => exact ⟨p.reader, .nil, rfl, iff_of_true rfl (returns_ok () p)⟩
  | cons c cs ih =>
      rw [stream_cons, List.length_append] at hroom
      have hr : ¬ p.Refuses c := by
        intro hr
        rw [Refuses] at hr
        omega
      have hfollows := call_follows hr hseq.1
      obtain ⟨hle, hmax⟩ := call_buffer_le (R := R) p c
      cases hcall : call R p c with
      | ok u p' =>
          rw [hcall] at hfollows hle hmax
          simp only [stateOf, List.length_append] at hle hmax
          obtain ⟨ρ, hdel, hreq, hhalt⟩ := ih (p := p') (by rw [hmax]; omega) (hseq.2 p' hcall)
          rw [run_cons_ok hcall]
          exact ⟨ρ, .cons hfollows hdel, hreq, hhalt⟩
      | error e p' =>
          rw [hcall] at hfollows
          obtain ⟨ρ, hsettles, hhalted, hreq⟩ := hfollows
          rw [run_cons_error hcall]
          refine ⟨ρ.feed (stream cs), .cons hsettles (Reader.delivers_halted hhalted _), hreq, ?_⟩
          exact iff_of_false (by simp [Reader.feed, hhalted]) (not_returns_error e p')

/-- Two cuttings of one stream end with the same requests, and one throws exactly if the other does, if all calls of
both runs are sequential. -/
theorem chunking_invariant (R : Readers) {bufferSize : UInt16} {cs cs' : List Chunk}
    (hstream : stream cs = stream cs') (hlen : (stream cs).length ≤ bufferSize.toNat)
    (h : Along (appendBuffer R) (Sequential R) (fresh bufferSize) cs)
    (h' : Along (appendBuffer R) (Sequential R) (fresh bufferSize) cs') :
    (stateOf (run (appendBuffer R) (fresh bufferSize) cs)).requests =
      (stateOf (run (appendBuffer R) (fresh bufferSize) cs')).requests ∧
    (Returns (run (appendBuffer R) (fresh bufferSize) cs) ↔
      Returns (run (appendBuffer R) (fresh bufferSize) cs')) := by
  have hroom : ∀ ds : List Chunk, stream ds = stream cs →
      (fresh bufferSize).clear.httpRequestBuffer.length + (stream ds).length ≤
        (fresh bufferSize).clear.httpRequestBufferMax.toNat := by
    intro ds hds
    rw [hds]
    exact (Nat.zero_add _).trans_le hlen
  have hrest : Reader.step R (fresh bufferSize).clear.reader = none :=
    Reader.step_no_marker rfl not_marker_nil
  obtain ⟨ρ, hdel, hreq, hhalt⟩ := run_follows (hroom cs rfl) ((along_appendBuffer (P := Sequential R)).mp h)
  obtain ⟨ρ', hdel', hreq', hhalt'⟩ :=
    run_follows (hroom cs' hstream.symm) ((along_appendBuffer (P := Sequential R)).mp h')
  have heq : ρ = ρ' := hdel.unique hdel' hrest hstream
  subst heq
  constructor
  · rw [requests_run_appendBuffer, requests_run_appendBuffer, ← hreq, ← hreq']
  · rw [returns_run_appendBuffer, returns_run_appendBuffer, ← hhalt, ← hhalt']

def postTwo : Bytes := ofString "POST / HTTP/1.1\r\nContent-Length: 2\r\n\r\n"

def postEmpty : Bytes := ofString "POST / HTTP/1.1\r\nContent-Length: 0\r\n\r\n"

def getRoot : Bytes := ofString "GET / HTTP/1.1\r\n\r\n"

def noRequest : Bytes := ofString "X\r\n\r\n"

/-- A POST request with its body and a GET request, at once and in three chunks. -/
theorem chunking_invariant_post_get :
    (stateOf (run (appendBuffer Cpp23.readers) (fresh 4096)
      [⟨postTwo ++ ofString "ab" ++ getRoot, by decide⟩])).requests =
    (stateOf (run (appendBuffer Cpp23.readers) (fresh 4096)
      [⟨postTwo, by decide⟩, ⟨ofString "ab", by decide⟩, ⟨getRoot, by decide⟩])).requests :=
  (chunking_invariant Cpp23.readers (by decide) (by decide) (by decide +kernel) (by decide +kernel)).1

/-- A GET and a POST request throw in one chunk and not in two. Behind a rejected block a GET request is recorded if
it comes in a chunk of its own. -/
theorem chunking_matters :
    (¬ Returns (run (appendBuffer Cpp23.readers) (fresh 4096) [⟨getRoot ++ postEmpty, by decide⟩]) ∧
      Returns (run (appendBuffer Cpp23.readers) (fresh 4096) [⟨getRoot, by decide⟩, ⟨postEmpty, by decide⟩])) ∧
    (stateOf (run (appendBuffer Cpp23.readers) (fresh 4096) [⟨noRequest ++ getRoot, by decide⟩])).requests ≠
      (stateOf (run (appendBuffer Cpp23.readers) (fresh 4096)
        [⟨noRequest, by decide⟩, ⟨getRoot, by decide⟩])).requests := by
  refine ⟨⟨?_, ?_⟩, ?_⟩
  · decide +kernel
  · decide +kernel
  · decide +kernel

end HTTPParser

end FalconAS.Http

import FalconAS.Http.Blocks

/-!
# `appendBuffer` is `call`

The parser with its vector and its index computes what `walk` computes on the list of blocks.
-/

namespace FalconAS.Http

open FalconAS.Seq FalconAS.Machine

variable {R : Readers}

namespace HTTPParser

/-! ## One block -/

private theorem processPOST_eq (p : HTTPParser) (index : Nat) :
    p.processPOST index =
      match announce p.requestProperties with
      | .rejected _ length => .ok false { p with postContentLength := length.getD p.postContentLength }
      | .throws e _ => .error e p
      | .post _ length => { p with postContentLength := length }.takeBody index
      | _ => .ok false p := by
  unfold processPOST announce
  cases p.requestProperties.requestHeaders.find httpHeaderContentLength with
  | none => rfl
  | some value =>
      cases hd : isDigits value with
      | false => simp only [hd, ↓reduceIte, Option.getD_none]
      | true =>
          cases hv : stoi value with
          | error e => simp only [hd, hv, Bool.true_eq_false, ↓reduceIte]
          | ok v =>
              by_cases hm : UInt16.ofInt v > httpPostMaxContentLength
              · simp only [hd, hv, hm, Bool.true_eq_false, ↓reduceIte, Option.getD_some]
              · simp only [hd, hv, hm, Bool.true_eq_false, ↓reduceIte]

private theorem announce_cases (props : RequestProperties) :
    (∃ length, announce props = .rejected props length) ∨ (∃ e, announce props = .throws e props) ∨
      ∃ length, announce props = .post props length := by
  unfold announce
  cases props.requestHeaders.find httpHeaderContentLength with
  | none => exact Or.inl ⟨_, rfl⟩
  | some value =>
      cases hd : isDigits value with
      | false => exact Or.inl ⟨none, by simp only [hd, ↓reduceIte]⟩
      | true =>
          cases hv : stoi value with
          | error e => exact Or.inr (Or.inl ⟨e, by simp only [hd, hv, Bool.true_eq_false, ↓reduceIte]⟩)
          | ok v =>
              by_cases hm : UInt16.ofInt v > httpPostMaxContentLength
              · exact Or.inl ⟨some (UInt16.ofInt v), by simp only [hd, hv, hm, Bool.true_eq_false, ↓reduceIte]⟩
              · exact Or.inr (Or.inr ⟨UInt16.ofInt v, by simp only [hd, hv, hm, Bool.true_eq_false, ↓reduceIte]⟩)

theorem processRequestProperties_eq {p : HTTPParser} {index : Nat} {request : Bytes}
    (h : p.splittedRequests[index]? = some request) :
    p.processRequestProperties R index =
      match examine R request with
      | .empty => .ok false p
      | .rejected props length =>
          .ok false { p with
            requestProperties := props, postContentLength := length.getD p.postContentLength }
      | .throws e props => .error e { p with requestProperties := props }
      | .get props => .ok true (p.record props)
      | .post props length => (p.expect props length).takeBody index := by
  unfold processRequestProperties examine
  simp only [h]
  cases request.isEmpty with
  | true => rfl
  | false =>
      simp only [Bool.false_eq_true, ↓reduceIte]
      cases parseRequestProperties request .unparsed with
      | none => rfl
      | some props =>
          by_cases hv : props.httpVersion = .v11
          · cases hm : props.httpMethod with
            | other => simp [hv, hm]
            | get => simp [hv, hm, record]
            | post =>
                simp only [hv, hm, ne_eq, not_true_eq_false, ↓reduceIte, reduceCtorEq, processPOST_eq]
                rcases announce_cases { props with
                  requestHeaders := R.parseRequestHeaders request props.requestHeaders } with
                  ⟨length, ha⟩ | ⟨e, ha⟩ | ⟨length, ha⟩
                · simp only [hv, hm] at ha
                  simp only [ha]
                · simp only [hv, hm] at ha
                  simp only [ha]
                · simp only [hv, hm] at ha
                  simp only [ha, expect]
          · simp [hv]

/-! ## The loop -/

/-- The vector from the current block on, the payload of the block before it already erased. -/
private def carry (k : Nat) : List Bytes → List Bytes
  | [] => []
  | b :: bs => b.drop k :: bs

private theorem carry_zero (bs : List Bytes) : carry 0 bs = bs := by
  cases bs <;> simp [carry]

private theorem takeBody_ready {q : HTTPParser} {index : Nat} (hone : q.splittedRequests.length = 1)
    (hbuf : q.postContentLength.toNat ≤ q.httpRequestBuffer.length) :
    q.takeBody index = .ok true q.completePOST := by
  rw [takeBody, if_pos hone, if_pos hbuf]

private theorem takeBody_wait {q : HTTPParser} {index : Nat} (hone : q.splittedRequests.length = 1)
    (hbuf : ¬ q.postContentLength.toNat ≤ q.httpRequestBuffer.length) :
    q.takeBody index = .ok true { q with postWaitContentLength := true } := by
  rw [takeBody, if_pos hone, if_neg hbuf]

private theorem takeBody_last {q : HTTPParser} {index : Nat} (hone : q.splittedRequests.length ≠ 1)
    (hlen : index < q.splittedRequests.length) (hnext : q.splittedRequests[index + 1]? = none) :
    q.takeBody index = .error .outOfRangeAt q := by
  rw [takeBody, if_neg hone, if_pos hlen]
  simp only [hnext]

private theorem takeBody_next {q : HTTPParser} {index : Nat} {next : Bytes}
    (hone : q.splittedRequests.length ≠ 1) (hlen : index < q.splittedRequests.length)
    (hnext : q.splittedRequests[index + 1]? = some next) (hn : q.postContentLength.toNat ≤ next.length) :
    q.takeBody index =
      .ok true { q.record { q.requestProperties with payload := next.take q.postContentLength.toNat } with
        splittedRequests := q.splittedRequests.set (index + 1) (next.drop q.postContentLength.toNat) } := by
  rw [takeBody, if_neg hone, if_pos hlen]
  simp only [hnext, ge_iff_le, hn, ↓reduceIte, record]

private theorem takeBody_short {q : HTTPParser} {index : Nat} {next : Bytes}
    (hone : q.splittedRequests.length ≠ 1) (hlen : index < q.splittedRequests.length)
    (hnext : q.splittedRequests[index + 1]? = some next) (hn : ¬ q.postContentLength.toNat ≤ next.length) :
    q.takeBody index = .ok false q := by
  rw [takeBody, if_neg hone, if_pos hlen]
  simp only [hnext, ge_iff_le, hn, ↓reduceIte]

theorem processLoop_eq_walk {fuel : Nat} {bs : List Bytes} {k : Nat} {p : HTTPParser} {pre : List Bytes}
    (hp : p.splittedRequests = pre ++ carry k bs) (hfuel : bs.length ≤ fuel) :
    mapState clear (processLoop R fuel pre.length p) =
      walk R (p.splittedRequests.length == 1) k bs p.clear := by
  induction bs generalizing fuel k p pre with
  | nil =>
      have hlen : ¬ pre.length < p.splittedRequests.length := by simp [hp, carry]
      cases fuel with
      | zero => rfl
      | succ fuel =>
          rw [processLoop, if_neg hlen]
          rfl
  | cons b bs ih =>
      obtain ⟨fuel, rfl⟩ : ∃ f, fuel = f + 1 := ⟨fuel - 1, by rw [List.length_cons] at hfuel; omega⟩
      have hlen : pre.length < p.splittedRequests.length := by simp [hp, carry]
      have hget : p.splittedRequests[pre.length]? = some (b.drop k) := by simp [hp, carry]
      -- the induction hypothesis, for a state `q` in which this block is done
      have hnext : ∀ (k' : Nat) (q : HTTPParser), q.splittedRequests = pre ++ b.drop k :: carry k' bs →
          mapState clear (processLoop R fuel (pre.length + 1) q) =
            walk R (q.splittedRequests.length == 1) k' bs q.clear := by
        intro k' q hq
        have h := @ih fuel k' q (pre ++ [b.drop k]) (by simpa using hq) (by simpa using hfuel)
        rwa [List.length_append, List.length_singleton] at h
      rw [processLoop, if_pos hlen, processRequestProperties_eq hget, walk]
      cases hv : examine R (b.drop k) with
      | empty => rfl
      | rejected props length => rfl
      | throws e props => rfl
      | get props => exact hnext 0 (p.record props) (by rw [carry_zero]; exact hp)
      | post props length =>
          by_cases hone : p.splittedRequests.length = 1
          · have hsingle : (p.splittedRequests.length == 1) = true := by simp [hone]
            -- the only block is done, so the loop ends here
            have hq : ∀ q : HTTPParser, q.splittedRequests = p.splittedRequests →
                mapState clear (processLoop R fuel (pre.length + 1) q) = .ok () q.clear := by
              intro q hq
              have hbs : bs = [] := by
                rw [hp, carry, List.length_append, List.length_cons] at hone
                exact List.length_eq_zero_iff.mp (by omega)
              have h := hnext 0 q (by rw [carry_zero, hq]; exact hp)
              rwa [hbs] at h
            rw [hsingle]
            by_cases hbuf : length.toNat ≤ p.httpRequestBuffer.length
            · simp only [takeBody_ready (q := p.expect props length) hone hbuf, ↓reduceIte,
                expect_httpRequestBuffer, clear_httpRequestBuffer, hbuf]
              exact hq _ rfl
            · simp only [takeBody_wait (q := p.expect props length) hone hbuf, ↓reduceIte,
                expect_httpRequestBuffer, clear_httpRequestBuffer, hbuf]
              exact hq _ rfl
          · have hsingle : (p.splittedRequests.length == 1) = false := by simp [hone]
            rw [hsingle]
            simp only [Bool.false_eq_true, ↓reduceIte]
            cases bs with
            | nil =>
                have hnone : p.splittedRequests[pre.length + 1]? = none := by simp [hp, carry]
                simp only [takeBody_last (q := p.expect props length) hone hlen hnone]
                rfl
            | cons next bs =>
                have hsome : p.splittedRequests[pre.length + 1]? = some next := by
                  rw [hp, carry, List.getElem?_append_right (by omega)]
                  simp
                by_cases hn : length.toNat ≤ next.length
                · have hset : p.splittedRequests.set (pre.length + 1) (next.drop length.toNat) =
                      pre ++ b.drop k :: carry length.toNat (next :: bs) := by
                    rw [hp, carry, List.set_append_right _ _ (by omega)]
                    simp [carry]
                  simp only [takeBody_next (q := p.expect props length) hone hlen hsome hn, hn, ↓reduceIte]
                  have h := hnext length.toNat
                    { (p.expect props length).record { props with payload := next.take length.toNat } with
                      splittedRequests := p.splittedRequests.set (pre.length + 1) (next.drop length.toNat) } hset
                  simp only [List.length_set, hsingle] at h
                  exact h
                · simp only [takeBody_short (q := p.expect props length) hone hlen hsome hn, hn, ↓reduceIte]
                  rfl

/-! ## A call -/

/-- `appendBuffer` computes what `call` says. -/
theorem appendBuffer_eq_call (p : HTTPParser) (c : Chunk) :
    mapState clear (p.appendBuffer R c) = call R p.clear c := by
  by_cases hr : p.httpRequestBuffer.length + c.bytes.length > p.httpRequestBufferMax.toNat
  · rw [appendBuffer, if_pos hr, call, if_pos (show p.clear.Refuses c from hr)]
    rfl
  · rw [appendBuffer, if_neg hr, call, if_neg (show ¬ p.clear.Refuses c from hr)]
    by_cases hc : p.Completes c
    · rw [if_pos (show p.clear.Completes c from hc)]
      simp only [Completes] at hc
      simp only [hc, and_self, ↓reduceIte]
      rfl
    · rw [if_neg (show ¬ p.clear.Completes c from hc)]
      simp only [Completes] at hc
      simp only [hc, ↓reduceIte]
      obtain ⟨ts, r, hs⟩ := exists_splits http11EndMarker_ne_nil (p.httpRequestBuffer ++ c.bytes)
      have hsp := split_of_splits http11EndMarker_ne_nil hs []
      rw [List.nil_append] at hsp
      simp only [show p.clear.httpRequestBuffer = p.httpRequestBuffer from rfl, hsp]
      cases hf : find http11EndMarker (p.httpRequestBuffer ++ c.bytes) with
      | none =>
          have hts := hs.eq_nil_iff.mpr (find_eq_none_iff.mp hf)
          subst hts
          cases hs
          rfl
      | some i =>
          simp only [processRequests, hsp]
          have h := @processLoop_eq_walk R ts.length ts 0
            { p with httpRequestBuffer := r, splittedRequests := ts } [] (by rw [carry_zero]; rfl) (Nat.le_refl _)
          exact h

end HTTPParser

end FalconAS.Http

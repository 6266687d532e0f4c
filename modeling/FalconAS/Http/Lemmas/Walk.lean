import FalconAS.Http.Lemmas.Call

/-!
# What a walk can do

`Walks` has one rule for each way in which the loop treats a block, with the blocks it comes to as an index, and
`call_cases` one case for each way in which a call treats its chunk. All invariants of the parser are proved by
induction on `Walks`; nothing below unfolds `walk` or `call`.
-/

namespace FalconAS.Http

open FalconAS.Seq FalconAS.Machine

namespace HTTPParser

/-- The loop over the blocks as a derivation. -/
inductive Walks (R : Readers) (single : Bool) :
    Nat → List Bytes → HTTPParser → List (Bytes × List Bytes) → Result Unit → Prop where
  | done {k p} : Walks R single k [] p [] (.ok () p)
  | empty {k b bs p} : examine R (b.drop k) = .empty →
      Walks R single k (b :: bs) p [(b.drop k, bs)] (.ok () { p with requestParseError := httpErrorBadRequest })
  | rejected {k b bs p props length} : examine R (b.drop k) = .rejected props length →
      Walks R single k (b :: bs) p [(b.drop k, bs)] (.ok () (p.reject props length))
  | throws {k b bs p e props} : examine R (b.drop k) = .throws e props →
      Walks R single k (b :: bs) p [(b.drop k, bs)] (.error e { p with requestProperties := props })
  | get {k b bs p props tr r} : examine R (b.drop k) = .get props →
      Walks R single 0 bs (p.record props) tr r → Walks R single k (b :: bs) p ((b.drop k, bs) :: tr) r
  | ready {k b bs p props length} : single = true → examine R (b.drop k) = .post props length →
      length.toNat ≤ p.httpRequestBuffer.length →
      Walks R single k (b :: bs) p [(b.drop k, bs)] (.ok () (p.expect props length).completePOST)
  | wait {k b bs p props length} : single = true → examine R (b.drop k) = .post props length →
      p.httpRequestBuffer.length < length.toNat →
      Walks R single k (b :: bs) p [(b.drop k, bs)]
        (.ok () { p.expect props length with postWaitContentLength := true })
  | last {k b p props length} : single = false → examine R (b.drop k) = .post props length →
      Walks R single k [b] p [(b.drop k, [])] (.error .outOfRangeAt (p.expect props length))
  | next {k b next bs p props length tr r} : single = false → examine R (b.drop k) = .post props length →
      length.toNat ≤ next.length →
      Walks R single length.toNat (next :: bs)
        ((p.expect props length).record { props with payload := next.take length.toNat }) tr r →
      Walks R single k (b :: next :: bs) p ((b.drop k, next :: bs) :: tr) r
  | short {k b next bs p props length} : single = false → examine R (b.drop k) = .post props length →
      next.length < length.toNat →
      Walks R single k (b :: next :: bs) p [(b.drop k, next :: bs)]
        (.ok () { p.expect props length with requestParseError := httpErrorBadRequest })

variable {R : Readers}

section Equations

variable {single : Bool} {k : Nat} {b : Bytes} {props : RequestProperties} {length : UInt16}

theorem walk_get (h : examine R (b.drop k) = .get props) (bs : List Bytes) (p : HTTPParser) :
    walk R single k (b :: bs) p = walk R single 0 bs (p.record props) := by
  rw [walk, h]

theorem walk_post_single (h : examine R (b.drop k) = .post props length) (bs : List Bytes) (p : HTTPParser) :
    walk R true k (b :: bs) p = .ok () (
      if length.toNat ≤ p.httpRequestBuffer.length then (p.expect props length).completePOST
      else { p.expect props length with postWaitContentLength := true }) := by
  rw [walk, h]
  exact (apply_ite _ _ _ _).symm

theorem walk_post_next {next : Bytes} (h : examine R (b.drop k) = .post props length)
    (hle : length.toNat ≤ next.length) (bs : List Bytes) (p : HTTPParser) :
    walk R false k (b :: next :: bs) p = walk R false length.toNat (next :: bs)
      ((p.expect props length).record { props with payload := next.take length.toNat }) := by
  rw [walk, h]
  exact if_pos hle

end Equations

theorem walk_walks (single : Bool) (k : Nat) (bs : List Bytes) (p : HTTPParser) :
    Walks R single k bs p (reached R single k bs) (walk R single k bs p) := by
  induction bs generalizing k p with
  | nil => exact .done
  | cons b bs ih =>
      rw [walk, reached]
      cases hv : examine R (b.drop k) with
      | empty => exact .empty hv
      | rejected props length => exact .rejected hv
      | throws e props => exact .throws hv
      | get props => exact .get hv (ih 0 (p.record props))
      | post props length =>
          cases hs : single with
          | true =>
              subst hs
              simp only [↓reduceIte, expect_httpRequestBuffer]
              by_cases hbuf : length.toNat ≤ p.httpRequestBuffer.length
              · rw [if_pos hbuf]
                exact .ready rfl hv hbuf
              · rw [if_neg hbuf]
                exact .wait rfl hv (Nat.lt_of_not_le hbuf)
          | false =>
              subst hs
              cases bs with
              | nil => exact .last rfl hv
              | cons next bs =>
                  by_cases hn : length.toNat ≤ next.length
                  · simp only [Bool.false_eq_true, ↓reduceIte, hn]
                    exact .next rfl hv hn (ih length.toNat _)
                  · simp only [Bool.false_eq_true, ↓reduceIte, hn]
                    exact .short rfl hv (Nat.lt_of_not_le hn)

theorem Walks.requests_grow {single : Bool} {k : Nat} {bs : List Bytes} {p : HTTPParser}
    {tr : List (Bytes × List Bytes)} {r : Result Unit} (h : Walks R single k bs p tr r) :
    p.requests <+: (stateOf r).requests := by
  induction h with
  | done => exact List.prefix_rfl
  | empty _ => exact List.prefix_rfl
  | rejected _ => exact List.prefix_rfl
  | throws _ => exact List.prefix_rfl
  | get _ _ ih => exact (List.prefix_append _ _).trans ih
  | ready _ _ _ => exact List.prefix_append _ _
  | wait _ _ _ => exact List.prefix_rfl
  | last _ _ => exact List.prefix_rfl
  | next _ _ _ _ ih => exact (List.prefix_append _ _).trans ih
  | short _ _ _ => exact List.prefix_rfl

/-! ## A call -/

theorem call_of_appendBuffer {p p' : HTTPParser} {c : Chunk} (h : p.appendBuffer R c = .ok () p') :
    call R p.clear c = .ok () p'.clear := by
  rw [← appendBuffer_eq_call, h]
  rfl

theorem call_of_appendBuffer_error {p p' : HTTPParser} {c : Chunk} {e : Exception}
    (h : p.appendBuffer R c = .error e p') : call R p.clear c = .error e p'.clear := by
  rw [← appendBuffer_eq_call, h]
  rfl

@[simps!] def completed (p : HTTPParser) (c : Chunk) : HTTPParser :=
  { completePOST { p with httpRequestBuffer := p.httpRequestBuffer ++ c.bytes } with
    postWaitContentLength := false }

theorem not_completes {p : HTTPParser} {c : Chunk} (h : p.postWaitContentLength = false) : ¬ p.Completes c := by
  rintro ⟨hwait, _⟩
  rw [h] at hwait
  cases hwait

theorem call_of_completes {p : HTTPParser} {c : Chunk} (hr : ¬ p.Refuses c) (hc : p.Completes c) :
    call R p c = .ok () (p.completed c) := by
  rw [call, if_neg hr, if_pos hc]
  rfl

theorem batch_of_splits {p : HTTPParser} {c : Chunk} {ts : List Bytes} {rest : Bytes} (hr : ¬ p.Refuses c)
    (hc : ¬ p.Completes c) (hs : Splits http11EndMarker (p.httpRequestBuffer ++ c.bytes) ts rest) :
    p.batch c = ts := by
  rw [batch, if_neg (not_or.mpr ⟨hr, hc⟩), split_of_splits http11EndMarker_ne_nil hs []]
  rfl

theorem call_of_splits {p : HTTPParser} {c : Chunk} {ts : List Bytes} {rest : Bytes} (hr : ¬ p.Refuses c)
    (hc : ¬ p.Completes c) (hs : Splits http11EndMarker (p.httpRequestBuffer ++ c.bytes) ts rest) :
    call R p c = walk R (ts.length == 1) 0 ts { p with httpRequestBuffer := rest } := by
  rw [call, if_neg hr, if_neg hc, split_of_splits http11EndMarker_ne_nil hs []]
  rfl

/-- Without an end marker the bytes are kept and nothing else happens. -/
theorem call_of_no_marker {p : HTTPParser} {c : Chunk} (hr : ¬ p.Refuses c) (hc : ¬ p.Completes c)
    (hm : ¬ http11EndMarker <:+: p.httpRequestBuffer ++ c.bytes) :
    call R p c = .ok () { p with httpRequestBuffer := p.httpRequestBuffer ++ c.bytes } :=
  call_of_splits hr hc (.done hm)

/-- The three ways of a call: the chunk is refused, it completes the pending body, or the buffer is split and
its blocks are walked through. -/
theorem call_cases (R : Readers) (p : HTTPParser) (c : Chunk) :
    (p.Refuses c ∧ call R p c = .ok () p ∧ p.visited R c = []) ∨
    (¬ p.Refuses c ∧ p.Completes c ∧ call R p c = .ok () (p.completed c) ∧ p.visited R c = []) ∨
    (¬ p.Refuses c ∧ ¬ p.Completes c ∧ ∃ rest,
      Splits http11EndMarker (p.httpRequestBuffer ++ c.bytes) (p.batch c) rest ∧
      Walks R ((p.batch c).length == 1) 0 (p.batch c) { p with httpRequestBuffer := rest }
        (p.visited R c) (call R p c)) := by
  by_cases hr : p.Refuses c
  · have hb : p.batch c = [] := by rw [batch, if_pos (Or.inl hr)]
    exact Or.inl ⟨hr, by rw [call, if_pos hr], by rw [visited, hb]; rfl⟩
  · by_cases hc : p.Completes c
    · have hb : p.batch c = [] := by rw [batch, if_pos (Or.inr hc)]
      exact Or.inr (Or.inl ⟨hr, hc, call_of_completes hr hc, by rw [visited, hb]; rfl⟩)
    · obtain ⟨ts, rest, hs⟩ := exists_splits http11EndMarker_ne_nil (p.httpRequestBuffer ++ c.bytes)
      have hb : p.batch c = ts := batch_of_splits hr hc hs
      refine Or.inr (Or.inr ⟨hr, hc, rest, by rw [hb]; exact hs, ?_⟩)
      rw [call_of_splits hr hc hs, visited, hb]
      exact walk_walks _ _ _ _

theorem call_requests_grow (p : HTTPParser) (c : Chunk) : p.requests <+: (stateOf (call R p c)).requests := by
  rcases call_cases R p c with ⟨_, heq, _⟩ | ⟨_, _, heq, _⟩ | ⟨_, _, rest, _, hw⟩
  · rw [heq]
    exact List.prefix_rfl
  · rw [heq]
    exact List.prefix_append _ _
  · exact hw.requests_grow

/-! ## Runs -/

theorem run_appendBuffer (p : HTTPParser) (cs : List Chunk) :
    mapState clear (run (appendBuffer R) p cs) = run (call R) p.clear cs :=
  run_mapState appendBuffer_eq_call p cs

theorem along_appendBuffer {P : HTTPParser → Chunk → Prop} {p : HTTPParser} {cs : List Chunk} :
    Along (appendBuffer R) (fun q c => P q.clear c) p cs ↔ Along (call R) P p.clear cs :=
  along_mapState appendBuffer_eq_call p cs

theorem requests_run_appendBuffer (p : HTTPParser) (cs : List Chunk) :
    (stateOf (run (appendBuffer R) p cs)).requests = (stateOf (run (call R) p.clear cs)).requests := by
  rw [← run_appendBuffer, stateOf_mapState]
  rfl

theorem returns_run_appendBuffer (p : HTTPParser) (cs : List Chunk) :
    Returns (run (appendBuffer R) p cs) ↔ Returns (run (call R) p.clear cs) := by
  rw [← run_appendBuffer, returns_mapState]

theorem run_appendBuffer_ok {p q : HTTPParser} {cs : List Chunk} (h : run (call R) p.clear cs = .ok () q) :
    ∃ p', run (appendBuffer R) p cs = .ok () p' ∧ p'.clear = q :=
  mapState_eq_ok ((run_appendBuffer p cs).trans h)

end HTTPParser

end FalconAS.Http

import FalconAS.Http.Cpp23
import FalconAS.Http.Lemmas.Walk

/-!
# After a bad request

A rejected block ends the loop of its call and sets `_RequestParseError`, which nothing reads. A run is looked at
in all its states, those after each block included; after a rejection it records nothing more exactly when no
later call starts with a request that it can record.
-/

namespace FalconAS.Http

open FalconAS.Seq FalconAS.Machine

namespace HTTPParser

variable {R : Readers}

/-! ## The states of a run -/

/-- The states after each block of the loop. -/
def loopStates (R : Readers) : Nat → Nat → HTTPParser → List HTTPParser
  | 0, _, _ => []
  | fuel + 1, index, p =>
      if index < p.splittedRequests.length then
        match p.processRequestProperties R index with
        | .error _ p => [p]
        | .ok false p => [{ p with requestParseError := httpErrorBadRequest }]
        | .ok true p => p :: loopStates R fuel (index + 1) p
      else []

/-- The states inside a call: after each block that it processes, and at its end. -/
def callStates (R : Readers) (p : HTTPParser) (c : Chunk) : List HTTPParser :=
  (if p.Refuses c ∨ p.Completes c then []
    else
      let (buffer, splitted) := split (p.httpRequestBuffer ++ c.bytes) http11EndMarker []
      loopStates R splitted.length 0 { p with httpRequestBuffer := buffer, splittedRequests := splitted }) ++
    [stateOf (p.appendBuffer R c)]

def runStates (R : Readers) : HTTPParser → List Chunk → List HTTPParser
  | _, [] => []
  | p, c :: cs =>
      callStates R p c ++
        match p.appendBuffer R c with
        | .ok _ p' => runStates R p' cs
        | .error _ _ => []

/-- If a block has been rejected by `p`, nothing is recorded up to `q`. -/
def SilentAfterError (p q : HTTPParser) : Prop :=
  p.requestParseError = httpErrorBadRequest → q.requests = p.requests

instance (p q : HTTPParser) : Decidable (SilentAfterError p q) := inferInstanceAs (Decidable (_ → _))

/-- The call records its first block, with `rest` behind the last end marker. -/
def RecordsFirst (R : Readers) (rest : Bytes) : List Bytes → Prop
  | [] => False
  | b :: bs =>
      match examine R b with
      | .get _ => True
      | .post _ length => length.toNat ≤ (bs.headD rest).length
      | _ => False

/-- The call records a request: it completes the pending body, or the first block in the buffer is a GET request
or a POST request with its body behind it. -/
def Records (R : Readers) (p : HTTPParser) (c : Chunk) : Prop :=
  ¬ p.Refuses c ∧
    (p.Completes c ∨ RecordsFirst R (split (p.httpRequestBuffer ++ c.bytes) http11EndMarker []).1 (p.batch c))

/-! ## What a call records -/

private theorem ne_of_append_prefix {xs ys : List RequestProperties} {x : RequestProperties}
    (h : xs ++ [x] <+: ys) : ys ≠ xs := by
  rintro rfl
  have hle := h.length_le
  rw [List.length_append, List.length_singleton] at hle
  exact Nat.not_succ_le_self _ hle

theorem Walks.silent_iff {single : Bool} {k : Nat} {bs : List Bytes} {p : HTTPParser}
    {tr : List (Bytes × List Bytes)} {r : Result Unit} (h : Walks R single k bs p tr r) (hk : k = 0)
    (hs : single = (bs.length == 1)) :
    (stateOf r).requests = p.requests ↔ ¬ RecordsFirst R p.httpRequestBuffer bs := by
  cases h with
  | done => simp [RecordsFirst, stateOf]
  | empty hv =>
      rw [hk, List.drop_zero] at hv
      simp [RecordsFirst, hv, stateOf]
  | rejected hv =>
      rw [hk, List.drop_zero] at hv
      simp [RecordsFirst, hv, stateOf]
  | throws hv =>
      rw [hk, List.drop_zero] at hv
      simp [RecordsFirst, hv, stateOf]
  | get hv hw =>
      rw [hk, List.drop_zero] at hv
      simp only [RecordsFirst, hv, not_true_eq_false, iff_false]
      exact ne_of_append_prefix hw.requests_grow
  | @ready _ b bs _ props length hone hv hle =>
      rw [hk, List.drop_zero] at hv
      obtain rfl : bs = [] := by simpa [hone] using hs.symm
      simp [RecordsFirst, hv, stateOf, hle]
  | @wait _ b bs _ props length hone hv hlt =>
      rw [hk, List.drop_zero] at hv
      obtain rfl : bs = [] := by simpa [hone] using hs.symm
      simp [RecordsFirst, hv, stateOf, hlt]
  | last hone _ => simp [hone] at hs
  | next _ hv hle hw =>
      rw [hk, List.drop_zero] at hv
      simp only [RecordsFirst, hv, List.headD_cons, hle, not_true_eq_false, iff_false]
      exact ne_of_append_prefix hw.requests_grow
  | short _ hv hlt =>
      rw [hk, List.drop_zero] at hv
      simp [RecordsFirst, hv, stateOf, hlt]

theorem call_silent_iff (p : HTTPParser) (c : Chunk) :
    (stateOf (call R p c)).requests = p.requests ↔ ¬ Records R p c := by
  rcases call_cases R p c with ⟨hr, heq, _⟩ | ⟨hr, hc, heq, _⟩ | ⟨hr, hc, rest, hs, hw⟩
  · simp [heq, stateOf, Records, hr]
  · simp [heq, stateOf, Records, hr, hc]
  · rw [hw.silent_iff rfl rfl, Records, split_of_splits http11EndMarker_ne_nil hs []]
    simp [hr, hc]

theorem appendBuffer_silent_iff (p : HTTPParser) (c : Chunk) :
    (stateOf (p.appendBuffer R c)).requests = p.requests ↔ ¬ Records R p c := by
  have h := call_silent_iff (R := R) p.clear c
  rw [← appendBuffer_eq_call, stateOf_mapState] at h
  exact h

/-! ## The order of the states -/

/-- The flag is as before and the recorded requests are still there. -/
def Keeps (p q : HTTPParser) : Prop :=
  q.requestParseError = p.requestParseError ∧ p.requests <+: q.requests

theorem keeps_takeBody (p : HTTPParser) (index : Nat) :
    Keeps p (stateOf (p.takeBody index)) := by
  unfold takeBody
  split
  · split
    · exact ⟨rfl, List.prefix_append _ _⟩
    · exact ⟨rfl, List.prefix_rfl⟩
  · split
    · split
      · exact ⟨rfl, List.prefix_rfl⟩
      · split
        · exact ⟨rfl, List.prefix_append _ _⟩
        · exact ⟨rfl, List.prefix_rfl⟩
    · exact ⟨rfl, List.prefix_rfl⟩

theorem keeps_processRequestProperties (p : HTTPParser) (index : Nat) :
    Keeps p (stateOf (p.processRequestProperties R index)) := by
  cases hr : p.splittedRequests[index]? with
  | none =>
      simp only [processRequestProperties, hr]
      exact ⟨rfl, List.prefix_rfl⟩
  | some request =>
      rw [processRequestProperties_eq hr]
      cases examine R request with
      | empty => exact ⟨rfl, List.prefix_rfl⟩
      | rejected props length => exact ⟨rfl, List.prefix_rfl⟩
      | throws e props => exact ⟨rfl, List.prefix_rfl⟩
      | get props => exact ⟨rfl, List.prefix_append _ _⟩
      | post props length => exact keeps_takeBody (p.expect props length) index

/-- A call that leads from `p` through `states` to `p'`: what is recorded stays, and a block that changes the flag
is the last that changes anything. -/
structure Trace (p : HTTPParser) (states : List HTTPParser) (p' : HTTPParser) : Prop where
  flag : p'.requestParseError = p.requestParseError ∨ p'.requestParseError = httpErrorBadRequest
  grow : (p :: states ++ [p']).Pairwise fun a b => a.requests <+: b.requests
  last : ∀ a ∈ states, a.requestParseError = p.requestParseError ∨ a = p'

theorem Trace.nil {p p' : HTTPParser}
    (hf : p'.requestParseError = p.requestParseError ∨ p'.requestParseError = httpErrorBadRequest)
    (hg : p.requests <+: p'.requests) : Trace p [] p' :=
  ⟨hf, by simpa using hg, by simp⟩

theorem Trace.stop {p p' : HTTPParser}
    (hf : p'.requestParseError = p.requestParseError ∨ p'.requestParseError = httpErrorBadRequest)
    (hg : p.requests <+: p'.requests) : Trace p [p'] p' :=
  ⟨hf, by simp [hg], by simp⟩

theorem Trace.cons {p q p' : HTTPParser} {states : List HTTPParser} (hq : Keeps p q) (h : Trace q states p') :
    Trace p (q :: states) p' where
  flag := by rw [← hq.1]; exact h.flag
  grow := by
    refine List.pairwise_cons.mpr ⟨fun a ha => ?_, h.grow⟩
    rcases List.mem_cons.mp ha with rfl | ha
    · exact hq.2
    · exact hq.2.trans ((List.pairwise_cons.mp h.grow).1 a ha)
  last := by
    intro a ha
    rcases List.mem_cons.mp ha with rfl | ha
    · exact Or.inl hq.1
    · rw [← hq.1]
      exact h.last a ha

theorem trace_processLoop (fuel index : Nat) (p : HTTPParser) :
    Trace p (loopStates R fuel index p) (stateOf (processLoop R fuel index p)) := by
  induction fuel generalizing index p with
  | zero => exact .nil (Or.inl rfl) List.prefix_rfl
  | succ fuel ih =>
      have hk := keeps_processRequestProperties (R := R) p index
      rw [loopStates, processLoop]
      by_cases hlt : index < p.splittedRequests.length
      · rw [if_pos hlt, if_pos hlt]
        cases hr : p.processRequestProperties R index with
        | error e q =>
            rw [hr] at hk
            exact .stop (Or.inl hk.1) hk.2
        | ok b q =>
            rw [hr] at hk
            cases b with
            | false => exact .stop (Or.inr rfl) hk.2
            | true => exact .cons hk (ih (index + 1) q)
      · rw [if_neg hlt, if_neg hlt]
        exact .nil (Or.inl rfl) List.prefix_rfl

theorem trace_appendBuffer (p : HTTPParser) (c : Chunk) :
    ∃ states, callStates R p c = states ++ [stateOf (p.appendBuffer R c)] ∧
      Trace p states (stateOf (p.appendBuffer R c)) := by
  refine ⟨_, rfl, ?_⟩
  by_cases hr : p.Refuses c
  · rw [if_pos (Or.inl hr), appendBuffer, if_pos (by exact hr)]
    exact .nil (Or.inl rfl) List.prefix_rfl
  · by_cases hc : p.Completes c
    · rw [if_pos (Or.inr hc), appendBuffer, if_neg (by exact hr)]
      simp only [Completes] at hc
      simp only [hc, and_self, ↓reduceIte]
      exact .nil (Or.inl rfl) (List.prefix_append _ _)
    · rw [if_neg (by rintro (h | h); exacts [hr h, hc h]), appendBuffer, if_neg (by exact hr)]
      simp only [Completes] at hc
      simp only [hc, ↓reduceIte]
      cases hf : find http11EndMarker (p.httpRequestBuffer ++ c.bytes) with
      | none =>
          obtain ⟨ts, r, hs⟩ := exists_splits http11EndMarker_ne_nil (p.httpRequestBuffer ++ c.bytes)
          obtain rfl := hs.eq_nil_iff.mpr (find_eq_none_iff.mp hf)
          rw [split_of_splits http11EndMarker_ne_nil hs []]
          exact .nil (Or.inl rfl) List.prefix_rfl
      | some i =>
          obtain ⟨hflag, hgrow, hlast⟩ := trace_processLoop (R := R)
            (split (p.httpRequestBuffer ++ c.bytes) http11EndMarker []).2.length 0
            { p with
              httpRequestBuffer := (split (p.httpRequestBuffer ++ c.bytes) http11EndMarker []).1
              splittedRequests := (split (p.httpRequestBuffer ++ c.bytes) http11EndMarker []).2 }
          refine ⟨hflag, ?_, hlast⟩
          exact List.pairwise_cons.mpr ⟨(List.pairwise_cons.mp hgrow).1, (List.pairwise_cons.mp hgrow).2⟩

/-! ## Runs -/

/-- A state of the call that has the flag set has all that the call records. -/
theorem Trace.recorded {p p' a : HTTPParser} {states : List HTTPParser} (h : Trace p states p')
    (hp : p.requestParseError = httpErrorBadRequest → p'.requests = p.requests)
    (ha : a ∈ p :: states ++ [p']) (herr : a.requestParseError = httpErrorBadRequest) :
    p'.requestParseError = httpErrorBadRequest ∧ a.requests = p'.requests := by
  have hbetween : p.requestParseError = httpErrorBadRequest →
      p'.requestParseError = httpErrorBadRequest ∧ a.requests = p'.requests := by
    intro hbad
    refine ⟨h.flag.elim (fun hf => hf.trans hbad) id, ?_⟩
    obtain ⟨hfirst, _⟩ := List.pairwise_cons.mp h.grow
    obtain ⟨_, _, hlast⟩ := List.pairwise_append.mp h.grow
    rcases List.mem_append.mp ha with ha | ha
    · rw [hp hbad]
      have hle : a.requests <+: p.requests := hp hbad ▸ hlast a ha p' (List.mem_singleton_self p')
      rcases List.mem_cons.mp ha with rfl | ha
      · rfl
      · exact hle.eq_of_length_le (hfirst a (List.mem_append_left _ ha)).length_le
    · rw [List.mem_singleton.mp ha]
  rcases List.mem_append.mp ha with ha | ha
  · rcases List.mem_cons.mp ha with rfl | ha
    · exact hbetween herr
    · rcases h.last a ha with hsame | rfl
      · exact hbetween (hsame ▸ herr)
      · exact ⟨herr, rfl⟩
  · obtain rfl := List.mem_singleton.mp ha
    exact ⟨herr, rfl⟩

theorem Trace.pairwise_iff {p p' : HTTPParser} {states : List HTTPParser} (h : Trace p states p')
    (later : List HTTPParser) :
    (p :: (states ++ [p'] ++ later)).Pairwise SilentAfterError ↔
      (p.requestParseError = httpErrorBadRequest → p'.requests = p.requests) ∧
        (p' :: later).Pairwise SilentAfterError := by
  constructor
  · intro hall
    refine ⟨(List.pairwise_cons.mp hall).1 p' (by simp), hall.sublist ?_⟩
    rw [List.append_assoc, List.singleton_append, ← List.cons_append]
    exact List.sublist_append_right _ _
  · rintro ⟨hp, hlater⟩
    obtain ⟨hafter, hpair⟩ := List.pairwise_cons.mp hlater
    rw [← List.cons_append, ← List.cons_append]
    refine List.pairwise_append.mpr ⟨?_, hpair, ?_⟩
    · -- inside the call: what comes after a state with the flag lies between this state and the end
      refine h.grow.imp_of_mem fun {a b} ha hb hab herr => ?_
      have hend : b.requests <+: p'.requests := by
        rcases List.mem_append.mp hb with hb | hb
        · exact (List.pairwise_append.mp h.grow).2.2 b hb p' (List.mem_singleton_self p')
        · rw [List.mem_singleton.mp hb]
      rw [← (h.recorded hp ha herr).2] at hend
      exact hend.eq_of_length_le hab.length_le
    · intro a ha b hb herr
      obtain ⟨herr', hreq⟩ := h.recorded hp ha herr
      rw [hreq]
      exact hafter b hb herr'

theorem silentAfterError_iff (p : HTTPParser) (cs : List Chunk) :
    (p :: runStates R p cs).Pairwise SilentAfterError ↔
      Along (appendBuffer R) (fun p c => p.requestParseError = httpErrorBadRequest → ¬ Records R p c) p cs := by
  induction cs generalizing p with
  | nil => simp [runStates, Along]
  | cons c cs ih =>
      obtain ⟨states, hcall, htrace⟩ := trace_appendBuffer (R := R) p c
      rw [runStates, hcall, htrace.pairwise_iff, Along, appendBuffer_silent_iff]
      refine and_congr_right fun _ => ?_
      cases hr : p.appendBuffer R c with
      | error e p' => simp
      | ok u p' =>
          rw [show stateOf (.ok u p' : Result Unit) = p' from rfl, ih]
          exact ⟨fun h s' hs' => by cases hs'; exact h, fun h => h p' rfl⟩

/-- After a bad request a run records nothing more exactly when no call that is made with the flag set finds a
request that it can record. -/
theorem run_silent_after_error_iff (R : Readers) (bufferSize : UInt16) (cs : List Chunk) :
    (runStates R (fresh bufferSize) cs).Pairwise SilentAfterError ↔
      Along (appendBuffer R) (fun p c => p.requestParseError = httpErrorBadRequest → ¬ Records R p c)
        (fresh bufferSize) cs := by
  rw [← silentAfterError_iff, List.pairwise_cons]
  refine (and_iff_right fun a _ herr => ?_).symm
  exact absurd (show (0 : UInt16) = httpErrorBadRequest from herr) (by decide)

def badLine : Chunk := ⟨ofString "X\r\n\r\n", by decide⟩

def getSmuggled : Chunk := ⟨ofString "GET /smuggled HTTP/1.1\r\n\r\n", by decide⟩

/-- The flag is set by the first call, and the second records a request. -/
theorem request_recorded_after_error :
    ¬ (runStates Cpp23.readers (fresh 4096) [badLine, getSmuggled]).Pairwise SilentAfterError := by
  decide +kernel

end HTTPParser

end FalconAS.Http

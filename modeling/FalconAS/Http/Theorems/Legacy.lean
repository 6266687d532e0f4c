import FalconAS.Http.Lemmas.Headers
import FalconAS.Http.Lemmas.Walk

/-!
# The C++11 parser against the C++23 parser

The two parsers differ in the way they read header lines. They agree on runs in which every block whose headers are
read has plain lines: no `\n` but in `\r\n`, no `\r` at its end, and no second `: ` in a line that does not start
with one.
-/

namespace FalconAS.Http

open FalconAS.Seq FalconAS.Machine

/-! ## URL parameters -/

theorem parseGETParameter_agree (requestURL : Bytes) (m : StringMap) :
    Cpp23.parseGETParameter requestURL m = Cpp11.parseGETParameter requestURL m := by
  unfold Cpp23.parseGETParameter Cpp11.parseGETParameter
  cases find (ofString "?") requestURL with
  | none => rfl
  | some pos =>
      obtain ⟨ts, r, hs⟩ := exists_splits (d := ofString "&") (by decide) (requestURL.drop (pos + 1))
      simp only [splitView_of_splits (by decide) hs, split_of_splits (by decide) hs, List.nil_append]
      cases r with
      | nil => simp
      | cons b r => simp

/-! ## Headers -/

/-- A second `: ` occurs in the line only if the line starts with the first. -/
def SingleColon (line : Bytes) : Prop :=
  ∀ pos ∈ find (ofString ": ") line, 0 < pos → ¬ ofString ": " <:+: line.drop (pos + 2)

instance (line : Bytes) : Decidable (SingleColon line) :=
  inferInstanceAs (Decidable (∀ pos ∈ find (ofString ": ") line, 0 < pos → _))

def PlainLines (b : Bytes) : Prop :=
  (∀ line ∈ Cpp11.lines b, lf ∉ line ∧ SingleColon line) ∧ b.getLast? ≠ some cr

instance (b : Bytes) : Decidable (PlainLines b) := inferInstanceAs (Decidable (_ ∧ _))

theorem SingleColon.nil_of_infix {line key value : Bytes} (h : SingleColon line)
    (hcut : FirstCut (ofString ": ") line key value) (hvalue : ofString ": " <:+: value) : key = [] := by
  by_contra hne
  have hno := h key.length (hcut.find_eq colonSpace_ne_nil) (List.length_pos_iff.mpr hne)
  have hdrop : line.drop (key.length + 2) = value := by
    rw [hcut.eq]
    exact List.drop_left' (by rw [List.length_append]; rfl)
  rw [hdrop] at hno
  exact hno hvalue

theorem not_infix_of_rsplits {line key value : Bytes} (h : RSplits (ofString ": ") line [value, key]) :
    FirstCut (ofString ": ") line key value ∧ ¬ ofString ": " <:+: value := by
  cases h with
  | cut hcut hkey =>
      cases hkey with
      | done hkey =>
          refine ⟨?_, hcut.not_infix⟩
          rw [hcut.eq]
          exact FirstCut.of_pair (by decide) hkey value
      | cut _ hnil => cases hnil

theorem headerOf_agree {line : Bytes} (h : SingleColon line) : Cpp11.headerOf line = Cpp23.headerOf line := by
  rcases not_infix_or_firstCut colonSpace_ne_nil line with hno | ⟨key, value, hcut⟩
  · obtain ⟨t, ht⟩ := rsplit_of_not_infix_take (Nat.le_refl line.length) (by rwa [List.take_length])
    rw [Cpp23.headerOf_of_not_infix hno, Cpp11.headerOf, ht, List.nil_append]
  · have hin : ofString ": " <:+: line.take line.length := by
      rw [List.take_length]
      exact hcut.isInfix
    obtain ⟨ts, hts, hsplit⟩ := rsplit_rsplits colonSpace_ne_nil (Nat.le_refl _) hin
    rw [List.take_length] at hts
    rw [Cpp23.headerOf_of_firstCut hcut, Cpp11.headerOf, hsplit, List.nil_append]
    by_cases hvalue : ofString ": " <:+: value
    · rw [h.nil_of_infix hcut hvalue, List.isEmpty_nil, Bool.true_or, if_pos rfl]
      split
      · obtain ⟨hcut', hno⟩ := not_infix_of_rsplits hts
        rw [← (hcut.unique colonSpace_ne_nil hcut').2] at hno
        exact absurd hvalue hno
      · rfl
    · have hkey : ¬ ofString ": " <:+: key := fun hk => hcut.first (hk.trans (List.prefix_append _ _).isInfix)
      have hr : RSplits (ofString ": ") line [value, key] := by
        rw [hcut.eq]
        exact .cut (LastCut.of_pair (by decide) key hvalue) (.done hkey)
      rw [hts.unique colonSpace_ne_nil hr]
      simp only [Bool.or_comm]

theorem parseRequestHeaders_agree {b : Bytes} (h : PlainLines b) (m : StringMap) :
    Cpp23.parseRequestHeaders b m = Cpp11.parseRequestHeaders b m := by
  obtain ⟨ts, r, hs⟩ := exists_splits crlf_ne_nil b
  have hlines : Cpp11.lines b = ts ++ [r] := by
    rw [Cpp11.lines, split_of_splits crlf_ne_nil hs]
    rfl
  obtain ⟨hall, hcr⟩ := h
  rw [hlines] at hall
  have hlast : r.getLast? ≠ some cr := by
    intro hr
    obtain ⟨u, hu⟩ := hs.suffix
    rw [← hu, List.getLast?_append, hr] at hcr
    exact hcr rfl
  rw [Cpp23.parseRequestHeaders_of_splits hs (fun t ht => (hall t (List.mem_append_left _ ht)).1)
    (hall r (by simp)).1 hlast, Cpp11.parseRequestHeaders_of_splits hs]
  congr 1
  exact List.filterMap_congr fun line hline => (headerOf_agree (hall line hline).2).symm

/-! ## Blocks and calls -/

def readsHeaders (b : Bytes) : Bool :=
  match parseRequestProperties b .unparsed with
  | none => false
  | some props => props.httpVersion == .v11 && props.httpMethod != .other

theorem examine_agree {b : Bytes} (h : readsHeaders b = true → PlainLines b) :
    examine Cpp23.readers b = examine Cpp11.readers b := by
  unfold examine
  unfold readsHeaders at h
  cases hp : parseRequestProperties b .unparsed with
  | none => rfl
  | some props =>
      by_cases hv : props.httpVersion = .v11
      · cases hm : props.httpMethod with
        | other => simp [hv, hm]
        | get =>
            have hplain : PlainLines b := h (by simp [hp, hv, hm])
            simp only [Cpp23.readers, Cpp11.readers, parseRequestHeaders_agree hplain, parseGETParameter_agree, hm]
        | post =>
            have hplain : PlainLines b := h (by simp [hp, hv, hm])
            simp only [Cpp23.readers, Cpp11.readers, parseRequestHeaders_agree hplain, hm]
      · simp [hv]

namespace HTTPParser

theorem walk_agree {R R' : Readers} {single : Bool} {k : Nat} {bs : List Bytes} {p : HTTPParser}
    (h : ∀ x ∈ reached R single k bs, examine R x.1 = examine R' x.1) :
    walk R single k bs p = walk R' single k bs p := by
  induction bs generalizing k p with
  | nil => rfl
  | cons b bs ih =>
      have hb : examine R (b.drop k) = examine R' (b.drop k) := h (b.drop k, bs) (by rw [reached]; simp)
      rw [reached] at h
      rw [walk, walk, ← hb]
      cases hv : examine R (b.drop k) with
      | empty => rfl
      | rejected props length => rfl
      | throws e props => rfl
      | get props =>
          refine ih fun x hx => h x (List.mem_cons_of_mem _ ?_)
          rw [hv]
          exact hx
      | post props length =>
          cases single with
          | true => rfl
          | false =>
              cases bs with
              | nil => rfl
              | cons next bs =>
                  by_cases hn : length.toNat ≤ next.length
                  · simp only [Bool.false_eq_true, ↓reduceIte, hn]
                    refine ih fun x hx => h x (List.mem_cons_of_mem _ ?_)
                    simp only [hv, Bool.false_eq_true, ↓reduceIte, hn]
                    exact hx
                  · simp only [Bool.false_eq_true, ↓reduceIte, hn]

/-- Every block of the call whose headers are read has plain lines. -/
def ReadsPlainLines (p : HTTPParser) (c : Chunk) : Prop :=
  ∀ x ∈ p.visited Cpp23.readers c, readsHeaders x.1 = true → PlainLines x.1

instance (p : HTTPParser) (c : Chunk) : Decidable (ReadsPlainLines p c) :=
  inferInstanceAs (Decidable (∀ x ∈ p.visited Cpp23.readers c, readsHeaders x.1 = true → PlainLines x.1))

theorem call_agree {p : HTTPParser} {c : Chunk} (h : ReadsPlainLines p c) :
    call Cpp23.readers p c = call Cpp11.readers p c := by
  by_cases hr : p.Refuses c
  · rw [call, call, if_pos hr, if_pos hr]
  · by_cases hc : p.Completes c
    · rw [call, call, if_neg hr, if_neg hr, if_pos hc, if_pos hc]
    · obtain ⟨ts, rest, hs⟩ := exists_splits http11EndMarker_ne_nil (p.httpRequestBuffer ++ c.bytes)
      rw [call_of_splits hr hc hs, call_of_splits hr hc hs]
      refine walk_agree fun x hx => examine_agree (h x ?_)
      rw [visited, batch_of_splits hr hc hs]
      exact hx

/-- On runs whose calls all meet `ReadsPlainLines` the two parsers record the same requests, and they throw in the
same calls. -/
theorem run_legacy_agree {bufferSize : UInt16} {cs : List Chunk}
    (h : Along (appendBuffer Cpp23.readers) ReadsPlainLines (fresh bufferSize) cs) :
    ∀ cs', cs' <+: cs →
      (stateOf (run (appendBuffer Cpp11.readers) (fresh bufferSize) cs')).requests =
        (stateOf (run (appendBuffer Cpp23.readers) (fresh bufferSize) cs')).requests ∧
      (Returns (run (appendBuffer Cpp11.readers) (fresh bufferSize) cs') ↔
        Returns (run (appendBuffer Cpp23.readers) (fresh bufferSize) cs')) := by
  rintro cs' ⟨later, rfl⟩
  have hcalls := (along_appendBuffer (P := ReadsPlainLines)).mp h.of_append
  have hrun : run (call Cpp23.readers) (fresh bufferSize).clear cs' =
      run (call Cpp11.readers) (fresh bufferSize).clear cs' :=
    run_congr (hcalls.imp fun _ _ => call_agree)
  refine ⟨?_, ?_⟩
  · rw [requests_run_appendBuffer, requests_run_appendBuffer, hrun]
  · rw [returns_run_appendBuffer, returns_run_appendBuffer, hrun]

def getWithHost : Chunk := ⟨ofString "GET / HTTP/1.1\r\nHost: a\r\n\r\n", by decide⟩

def getWithTwoColons : Chunk := ⟨ofString "GET / HTTP/1.1\r\nHost: a: b\r\n\r\n", by decide⟩

theorem run_legacy_agree_host :
    (stateOf (run (appendBuffer Cpp23.readers) (fresh 4096) [getWithHost])).requests.length = 1 ∧
    (stateOf (run (appendBuffer Cpp11.readers) (fresh 4096) [getWithHost])).requests =
      (stateOf (run (appendBuffer Cpp23.readers) (fresh 4096) [getWithHost])).requests :=
  ⟨by decide +kernel, (run_legacy_agree (by decide +kernel) [getWithHost] List.prefix_rfl).1⟩

theorem map_find_of_same {rs rs' : List RequestProperties} (h : List.Forall₂ RequestProperties.Same rs rs')
    (key : Bytes) : rs.map (·.requestHeaders.find key) = rs'.map (·.requestHeaders.find key) := by
  induction h with
  | nil => rfl
  | cons hr _ ih => rw [List.map_cons, List.map_cons, ih, hr.requestHeaders key]

/-- The value `a: b` is kept by the C++23 parser, and the C++11 parser drops the header. -/
theorem legacy_drops_header :
    ¬ List.Forall₂ RequestProperties.Same
      (stateOf (run (appendBuffer Cpp11.readers) (fresh 4096) [getWithTwoColons])).requests
      (stateOf (run (appendBuffer Cpp23.readers) (fresh 4096) [getWithTwoColons])).requests := by
  intro h
  exact absurd (map_find_of_same h (ofString "Host")) (by decide +kernel)

end HTTPParser

end FalconAS.Http

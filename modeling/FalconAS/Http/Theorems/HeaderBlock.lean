import Mathlib.Algebra.Ring.Nat
import Mathlib.Data.List.DropRight
import FalconAS.Http.Lemmas.Rendering
import FalconAS.Http.Theorems.Sending

/-!
# The header block of a response

The text that `MsgGenerate` builds is as long as its parts make it, and the buffer it is copied into has 254 bytes. A
text that fits is announced as it is, and the header reader of the parser takes it apart again.
-/

namespace FalconAS.Http

open FalconAS.Seq

/-! ## The buffer -/

/-- The calls that prepare a response. -/
inductive Preparation where
  | reset
  | setStatus (statusCode : UInt16) (statusText : Bytes)
  | addHeader (headerID headerValue : Bytes)
  | setBodyRef (bodyAddress : Pointer) (bodyLength : UInt32)
  deriving DecidableEq

namespace HTTPGenerator

def perform (g : HTTPGenerator) : Preparation → HTTPGenerator
  | .reset => g.msgReset
  | .setStatus statusCode statusText => g.msgSetStatus statusCode statusText
  | .addHeader headerID headerValue => g.msgAddHeader headerID headerValue
  | .setBodyRef bodyAddress bodyLength => g.msgSetBodyRef bodyAddress bodyLength

/-- `MsgGenerate` stays inside of the buffer, and what is announced then is the message. -/
def Announces (g : HTTPGenerator) (it : Iteration g.headers) : Prop :=
  ∃ g', g.msgGenerate it = some g' ∧
    g'.read g'.msgGetSendMetadata.bufferRef g'.msgGetSendMetadata.bufferSize.toNat = some (g.message it)

/-- What `MsgGenerate` changes. -/
structure Generated (g : HTTPGenerator) (it : Iteration g.headers) (g' : HTTPGenerator) : Prop where
  fits : ((g.message it).take (UInt32.ofNat (g.message it).length).toNat).length ≤ headerBufferSize
  eq : { g' with
      headerLength := g.headerLength
      headerRemainingBytes := g.headerRemainingBytes
      headerBuffer := g.headerBuffer
      headerBuffer_length := g.headerBuffer_length } = g
  headerRemainingBytes : g'.headerRemainingBytes = UInt32.ofNat (g.message it).length
  headerBuffer : (g.message it).take (UInt32.ofNat (g.message it).length).toNat <+: g'.headerBuffer

theorem generated {g g' : HTTPGenerator} {it : Iteration g.headers} (h : g.msgGenerate it = some g') :
    g.Generated it g' := by
  unfold msgGenerate at h
  dsimp only at h
  split at h
  · rename_i hfits
    cases h
    exact ⟨hfits, rfl, rfl, List.prefix_append _ _⟩
  · cases h

theorem msgGenerate_eq_none_iff {g : HTTPGenerator} {it : Iteration g.headers} : g.msgGenerate it = none ↔
    headerBufferSize < ((g.message it).take (UInt32.ofNat (g.message it).length).toNat).length := by
  unfold msgGenerate
  dsimp only
  split
  · rename_i hfits
    exact iff_of_false (Option.some_ne_none _) (Nat.not_lt.mpr hfits)
  · rename_i hlong
    exact iff_of_true rfl (Nat.lt_of_not_le hlong)

/-- The header block is what is sent first. -/
structure Ready (g : HTTPGenerator) : Prop where
  sendType : g.sendType = .header
  headerPointer : g.headerPointer = ⟨.headerBuffer, 0⟩

theorem Ready.after {g : HTTPGenerator} (h : g.Ready) (c : Preparation) : (g.perform c).Ready := by
  cases c with
  | reset => exact ⟨rfl, rfl⟩
  | setStatus _ _ => exact ⟨h.sendType, h.headerPointer⟩
  | addHeader _ _ => exact ⟨h.sendType, h.headerPointer⟩
  | setBodyRef _ _ => exact ⟨h.sendType, h.headerPointer⟩

theorem Ready.after_all {g : HTTPGenerator} (h : g.Ready) (calls : List Preparation) :
    (calls.foldl perform g).Ready := by
  induction calls generalizing g with
  | nil => exact h
  | cons c calls ih => exact ih (h.after c)

theorem ready_of_reset {calls : List Preparation} (h : .reset ∈ calls) (g : HTTPGenerator) :
    (calls.foldl perform g).Ready := by
  obtain ⟨before, after, rfl⟩ := List.append_of_mem h
  rw [List.foldl_append, List.foldl_cons]
  exact Ready.after_all ⟨rfl, rfl⟩ after

theorem length_of_read {g : HTTPGenerator} {p : Pointer} {n : Nat} {bytes : Bytes} (h : g.read p n = some bytes) :
    bytes.length = n := by
  unfold read at h
  split at h
  · rename_i hn
    cases h
    rw [hn, List.length_nil]
  · split at h
    · rename_i hin
      cases h
      rw [List.length_take, List.length_drop]
      omega
    · cases h

theorem Ready.announces_iff {g : HTTPGenerator} (h : g.Ready) (it : Iteration g.headers) :
    g.Announces it ↔ (g.message it).length ≤ headerBufferSize := by
  constructor
  · rintro ⟨g', hg', hread⟩
    have hgen := generated hg'
    have htype : g'.sendType = .header := (congrArg HTTPGenerator.sendType hgen.eq).trans h.sendType
    -- no length is lost in the 32 bits, so all of the message was copied
    have hlen := length_of_read hread
    simp only [msgGetSendMetadata, htype, hgen.headerRemainingBytes] at hlen
    have hfits := hgen.fits
    rwa [← hlen, List.take_length] at hfits
  · intro hfit
    obtain ⟨g', hg', hlen, hbuffer, htype, hpointer, _⟩ := Sender.msgGenerate_of_fits it hfit
    obtain ⟨rest, hrest⟩ := hbuffer
    rw [h.sendType] at htype
    rw [h.headerPointer] at hpointer
    refine ⟨g', hg', ?_⟩
    simp only [msgGetSendMetadata, htype, hpointer, hlen]
    rw [Sender.read_eq (k := 0) rfl (by rw [bytesOf, ← hrest, List.length_append]; omega), bytesOf, ← hrest,
      List.drop_zero, List.take_left]

end HTTPGenerator

/-! ## What the calls ask for -/

namespace Preparation

def isReset : Preparation → Bool
  | .reset => true
  | _ => false

/-- The status that a call sets. -/
def status? : Preparation → Option (UInt16 × Bytes)
  | .reset => some (200, ofString "OK")
  | .setStatus statusCode statusText => some (statusCode, statusText)
  | _ => none

/-- The body length that a call sets. -/
def bodyLength? : Preparation → Option UInt32
  | .reset => some 0
  | .setBodyRef _ bodyLength => some bodyLength
  | _ => none

def header? : Preparation → Option (Bytes × Bytes)
  | .addHeader headerID headerValue => some (headerID, headerValue)
  | _ => none

/-- The status that was set last. -/
def status (calls : List Preparation) : UInt16 × Bytes :=
  (calls.filterMap status?).getLast?.getD (200, ofString "OK")

/-- The body length that was set last. The constructor leaves in `_BodyLength` what was there before. -/
def bodyLength (left : UInt32) (calls : List Preparation) : UInt32 :=
  (calls.filterMap bodyLength?).getLast?.getD left

/-- The headers that were added since the last `MsgReset`. -/
def added (calls : List Preparation) : List (Bytes × Bytes) :=
  (calls.rtakeWhile fun c => !c.isReset).filterMap header?

/-- Of several headers with one name the first. -/
def firstOfEach : List (Bytes × Bytes) → List (Bytes × Bytes)
  | [] => []
  | header :: headers => header :: (firstOfEach headers).filter fun other => other.1 != header.1

def digits (n : Nat) : Nat := (Nat.toDigits 10 n).length

/-- The bytes of the status line, the header lines, `Content-Length` and the blank line, for these calls. -/
def blockLength (left : UInt32) (calls : List Preparation) : Nat :=
  9 + digits (status calls).1.toNat + 1 + (status calls).2.length + 2 +
    ((firstOfEach (added calls)).map fun header => header.1.length + header.2.length + 4).sum +
    16 + digits (bodyLength left calls).toNat + 4

theorem status_concat (calls : List Preparation) (c : Preparation) :
    status (calls ++ [c]) = c.status?.getD (status calls) := by
  rw [status, List.filterMap_append]
  cases h : c.status? with
  | none => simp [h, status]
  | some st => simp [h]

theorem bodyLength_concat (left : UInt32) (calls : List Preparation) (c : Preparation) :
    bodyLength left (calls ++ [c]) = c.bodyLength?.getD (bodyLength left calls) := by
  rw [bodyLength, List.filterMap_append]
  cases h : c.bodyLength? with
  | none => simp [h, bodyLength]
  | some n => simp [h]

theorem added_concat (calls : List Preparation) (c : Preparation) :
    added (calls ++ [c]) = if c.isReset then [] else added calls ++ c.header?.toList := by
  rw [added, List.rtakeWhile_concat]
  cases h : c.isReset with
  | true => simp
  | false => cases hh : c.header? <;> simp [hh, added]

end Preparation

/-- A map keeps the first of the headers with one name. -/
theorem StringMap.entries_emplaceAll_eq (m : StringMap) (ps : List (Bytes × Bytes)) :
    (m.emplaceAll ps).entries =
      m.entries ++ (Preparation.firstOfEach ps).filter fun p => p.1 ∉ m.entries.map Prod.fst := by
  induction ps generalizing m with
  | nil => simp [Preparation.firstOfEach]
  | cons p ps ih =>
      rw [emplaceAll_cons, ih, Preparation.firstOfEach, List.filter_cons, List.filter_filter]
      by_cases hp : p.1 ∈ m.entries.map Prod.fst
      · rw [emplace_of_mem hp, if_neg (by simpa using hp)]
        congr 1
        refine List.filter_congr fun q _ => Bool.eq_iff_iff.mpr ?_
        rw [Bool.and_eq_true, decide_eq_true_iff, bne_iff_ne]
        exact ⟨fun hq => ⟨hq, fun heq => hq (heq ▸ hp)⟩, And.left⟩
      · rw [entries_emplace_of_not_mem hp, if_pos (decide_eq_true hp), List.append_assoc, List.singleton_append]
        congr 2
        refine List.filter_congr fun q _ => Bool.eq_iff_iff.mpr ?_
        rw [Bool.and_eq_true, decide_eq_true_iff, decide_eq_true_iff, bne_iff_ne, List.map_append, List.mem_append,
          not_or, List.map_singleton, List.mem_singleton]

namespace HTTPGenerator

/-- The members of the generator that the message is made of, after some calls on a new one. -/
structure Asked (left : UInt32) (calls : List Preparation) (g : HTTPGenerator) : Prop where
  status : (g.statusCode, g.statusText) = Preparation.status calls
  bodyLength : g.bodyLength = Preparation.bodyLength left calls
  headers : g.headers = StringMap.empty.emplaceAll (Preparation.added calls)

theorem Asked.perform {left : UInt32} {calls : List Preparation} {g : HTTPGenerator} (h : Asked left calls g)
    (c : Preparation) : Asked left (calls ++ [c]) (g.perform c) := by
  refine ⟨?_, ?_, ?_⟩
  · rw [Preparation.status_concat, ← h.status]
    cases c <;> rfl
  · rw [Preparation.bodyLength_concat, ← h.bodyLength]
    cases c <;> rfl
  · rw [Preparation.added_concat]
    cases c with
    | reset => rfl
    | addHeader headerID headerValue =>
        have hheaders : (g.perform (.addHeader headerID headerValue)).headers =
            g.headers.emplace headerID headerValue := rfl
        rw [hheaders, h.headers]
        simp [Preparation.isReset, Preparation.header?, StringMap.emplaceAll]
    | setStatus _ _ => exact h.headers.trans (by simp [Preparation.isReset, Preparation.header?])
    | setBodyRef _ _ => exact h.headers.trans (by simp [Preparation.isReset, Preparation.header?])

theorem asked_foldl (g : HTTPGenerator) (calls : List Preparation) :
    Asked g.bodyLength calls (calls.foldl perform g.construct) := by
  induction calls using List.reverseRecOn with
  | nil => exact ⟨rfl, rfl, rfl⟩
  | append_singleton calls c ih =>
      rw [List.foldl_concat]
      exact ih.perform c

/-- The message is as long as the calls make it, in whatever order the headers come. -/
theorem Asked.length_message {left : UInt32} {calls : List Preparation} {g : HTTPGenerator} (h : Asked left calls g)
    (it : Iteration g.headers) : (g.message it).length = Preparation.blockLength left calls := by
  have hentries : g.headers.entries = Preparation.firstOfEach (Preparation.added calls) := by
    rw [h.headers, StringMap.entries_emplaceAll_eq]
    simp [StringMap.empty]
  have hlines : (it.order.flatMap fun header => header.1 ++ ofString ": " ++ header.2 ++ crlf).length =
      ((Preparation.firstOfEach (Preparation.added calls)).map fun header =>
        header.1.length + header.2.length + 4).sum := by
    rw [← hentries, ← (it.perm.map _).sum_nat, List.length_flatMap]
    refine congrArg List.sum (List.map_congr_left fun header _ => ?_)
    simp only [List.length_append]
    have hcolon : (ofString ": ").length = 2 := rfl
    have hcrlf : crlf.length = 2 := rfl
    omega
  have hdigits : ∀ n : Nat, (ofString (toString n)).length = Preparation.digits n := fun n => by
    rw [ofString_toString, List.length_map, Preparation.digits]
  have hhttp : (ofString "HTTP/1.1 ").length = 9 := rfl
  have hblank : (ofString " ").length = 1 := rfl
  have hname : (ofString "Content-Length: ").length = 16 := rfl
  have hcrlf : crlf.length = 2 := rfl
  rw [message, Preparation.blockLength, ← h.status, ← h.bodyLength]
  simp only [List.length_append, hlines, hdigits, hhttp, hblank, hname, hcrlf]

theorem msgGenerate_ne_none_iff {g : HTTPGenerator} {it : Iteration g.headers} :
    g.msgGenerate it ≠ none ↔ (g.message it).length % UInt32.size ≤ headerBufferSize := by
  have hcopied : ((g.message it).take (UInt32.ofNat (g.message it).length).toNat).length =
      (g.message it).length % UInt32.size := by
    rw [List.length_take, UInt32.toNat_ofNat']
    exact Nat.min_eq_left (Nat.mod_le _ _)
  rw [Ne, msgGenerate_eq_none_iff, hcopied, Nat.not_lt]

theorem sendType_foldl {calls : List Preparation} (h : .reset ∉ calls) (g : HTTPGenerator) :
    (calls.foldl perform g).sendType = g.sendType := by
  induction calls generalizing g with
  | nil => rfl
  | cons c calls ih =>
      rw [List.foldl_cons, ih fun hmem => h (List.mem_cons_of_mem _ hmem)]
      cases c with
      | reset => exact absurd List.mem_cons_self h
      | _ => rfl

/-- Nothing is announced where `_SendType` is none of the two constants. -/
theorem not_announces_of_other {g : HTTPGenerator} (h : g.sendType = .other) (it : Iteration g.headers) :
    ¬ g.Announces it := by
  rintro ⟨g', hg', hread⟩
  have htype : g'.sendType = .other := (congrArg HTTPGenerator.sendType (generated hg').eq).trans h
  have hlen := length_of_read hread
  simp only [msgGetSendMetadata, htype, UInt32.toNat_zero] at hlen
  simp [message, ofString] at hlen

/-- After any calls on a new generator, whatever its members held before and in whatever order the headers come:
`MsgGenerate` stays inside of the buffer if and only if the length that the calls give the block, as far as
`_HeaderLength` can hold it, is at most 254. With a `MsgReset` among the calls the message is announced if and only if
this length is at most 254. Without one it is not always announced, as `_SendType` has never been set. -/
theorem announced_iff_fits (calls : List Preparation) :
    (∀ (g : HTTPGenerator) (it : Iteration (calls.foldl perform g.construct).headers),
      ((calls.foldl perform g.construct).msgGenerate it ≠ none ↔
        Preparation.blockLength g.bodyLength calls % UInt32.size ≤ headerBufferSize) ∧
      (.reset ∈ calls → ((calls.foldl perform g.construct).Announces it ↔
        Preparation.blockLength g.bodyLength calls ≤ headerBufferSize))) ∧
    ((∀ (g : HTTPGenerator) (it : Iteration (calls.foldl perform g.construct).headers),
        (calls.foldl perform g.construct).Announces it) ↔
      .reset ∈ calls ∧ ∀ left, Preparation.blockLength left calls ≤ headerBufferSize) := by
  have hiff : ∀ (g : HTTPGenerator) (it : Iteration (calls.foldl perform g.construct).headers), .reset ∈ calls →
      ((calls.foldl perform g.construct).Announces it ↔
        Preparation.blockLength g.bodyLength calls ≤ headerBufferSize) := by
    intro g it hreset
    rw [(ready_of_reset hreset g.construct).announces_iff, (asked_foldl g calls).length_message]
  refine ⟨fun g it => ⟨?_, hiff g it⟩, fun hall => ?_, fun h g it => ?_⟩
  · rw [msgGenerate_ne_none_iff, (asked_foldl g calls).length_message]
  · have hreset : .reset ∈ calls := by
      by_contra hnone
      exact not_announces_of_other (sendType_foldl hnone Sender.blank.construct) ⟨_, .refl _⟩ (hall Sender.blank _)
    refine ⟨hreset, fun left => ?_⟩
    exact (hiff { Sender.blank with bodyLength := left } ⟨_, .refl _⟩ hreset).mp (hall _ _)
  · exact (hiff g it h.1).mpr (h.2 _)

/-- A status text that the application may set. -/
def longCalls : List Preparation := [.reset, .setStatus 500 (List.replicate 219 65)]

def shortCalls : List Preparation := [.reset, .setStatus 500 (List.replicate 218 65)]

def longOrder : Iteration (longCalls.foldl perform Sender.blank.construct).headers := ⟨[], noHeaders_perm⟩

def shortOrder : Iteration (shortCalls.foldl perform Sender.blank.construct).headers := ⟨[], noHeaders_perm⟩

theorem announces_short : (shortCalls.foldl perform Sender.blank.construct).Announces shortOrder :=
  (((announced_iff_fits shortCalls).1 Sender.blank shortOrder).2 (by decide)).mpr (by decide +kernel)

theorem long_status_overruns :
    ((longCalls.foldl perform Sender.blank.construct).message longOrder).length = 255 ∧
      (longCalls.foldl perform Sender.blank.construct).msgGenerate longOrder = none ∧
      ¬ (longCalls.foldl perform Sender.blank.construct).Announces longOrder := by
  have hnone : (longCalls.foldl perform Sender.blank.construct).msgGenerate longOrder = none := by decide +kernel
  refine ⟨by decide +kernel, hnone, ?_⟩
  rintro ⟨g', hg', _⟩
  rw [hnone] at hg'
  cases hg'

/-! ## The lines -/

/-- The parts of the header block keep out of each other's way. -/
structure Plain (g : HTTPGenerator) : Prop where
  statusText : cr ∉ g.statusText ∧ lf ∉ g.statusText ∧ ¬ ofString ": " <:+: g.statusText
  name : ∀ header ∈ g.headers.entries, header.1 ≠ [] ∧ header.1 ≠ httpHeaderContentLength ∧
    cr ∉ header.1 ∧ lf ∉ header.1 ∧ ¬ ofString ": " <:+: header.1
  value : ∀ header ∈ g.headers.entries, header.2 ≠ [] ∧ cr ∉ header.2 ∧ lf ∉ header.2

def statusLine (g : HTTPGenerator) : Bytes :=
  ofString "HTTP/1.1 " ++ ofString (toString g.statusCode.toNat) ++ ofString " " ++ g.statusText

/-- The header that `MsgGenerate` adds. -/
def contentLength (g : HTTPGenerator) : Bytes × Bytes :=
  (httpHeaderContentLength, ofString (toString g.bodyLength.toNat))

/-- The lines of the header block. -/
def lines (g : HTTPGenerator) (it : Iteration g.headers) : List Bytes :=
  g.statusLine :: (it.order ++ [g.contentLength]).map WireRequest.headerLine

theorem message_eq (g : HTTPGenerator) (it : Iteration g.headers) :
    g.message it = (g.lines it).flatMap (· ++ crlf) ++ crlf := by
  have hname : ofString "Content-Length: " = httpHeaderContentLength ++ ofString ": " := by decide
  rw [message, lines, List.flatMap_cons, List.map_append, List.flatMap_append, List.flatMap_map, hname, statusLine]
  simp only [List.map_cons, List.map_nil, List.flatMap_cons, List.flatMap_nil, WireRequest.headerLine,
    contentLength, List.append_assoc, List.append_nil]

theorem message_eq_lines (g : HTTPGenerator) (it : Iteration g.headers) :
    g.message it = g.statusLine ++
      ((it.order ++ [g.contentLength]).map WireRequest.headerLine ++ [[], []]).flatMap (crlf ++ ·) := by
  rw [message_eq, lines, ← flatMap_lines, List.flatMap_append]
  simp

theorem Plain.statusLine {g : HTTPGenerator} (h : g.Plain) :
    (cr ∉ g.statusLine ∧ lf ∉ g.statusLine) ∧ g.statusLine ≠ [] ∧ Cpp23.headerOf g.statusLine = none := by
  obtain ⟨hcr, hlf, hcolon⟩ := h.statusText
  refine ⟨⟨?_, ?_⟩, by simp [HTTPGenerator.statusLine, ofString], ?_⟩
  · simp only [HTTPGenerator.statusLine, List.mem_append, not_or]
    exact ⟨⟨⟨by decide, not_mem_toString (by decide) _⟩, by decide⟩, hcr⟩
  · simp only [HTTPGenerator.statusLine, List.mem_append, not_or]
    exact ⟨⟨⟨by decide, not_mem_toString (by decide) _⟩, by decide⟩, hlf⟩
  · -- there is no `:` in front of the status text
    refine Cpp23.headerOf_of_not_infix (not_infix_append_of_head ?_ hcolon)
    simp only [List.mem_append, not_or]
    exact ⟨⟨by decide, not_mem_toString (by decide) _⟩, by decide⟩

/-- The headers of the map and the one that is added are all of the same kind. -/
theorem Plain.header {g : HTTPGenerator} (h : g.Plain) (it : Iteration g.headers) :
    ∀ header ∈ it.order ++ [g.contentLength],
      (cr ∉ WireRequest.headerLine header ∧ lf ∉ WireRequest.headerLine header) ∧
        header.1 ≠ [] ∧ ¬ ofString ": " <:+: header.1 ∧ header.2 ≠ [] := by
  have hplain : ∀ {header : Bytes × Bytes} {b : UInt8}, b ∉ header.1 → b ∉ ofString ": " → b ∉ header.2 →
      b ∉ WireRequest.headerLine header := by
    intro header b hname hcolon hvalue
    simp only [WireRequest.headerLine, List.mem_append, not_or]
    exact ⟨⟨hname, hcolon⟩, hvalue⟩
  intro header hmem
  rcases List.mem_append.mp hmem with hmem | hmem
  · have hentry := it.perm.mem_iff.mp hmem
    obtain ⟨hne, _, hcr, hlf, hcolon⟩ := h.name header hentry
    obtain ⟨hvalue, hvcr, hvlf⟩ := h.value header hentry
    exact ⟨⟨hplain hcr (by decide) hvcr, hplain hlf (by decide) hvlf⟩, hne, hcolon, hvalue⟩
  · rw [List.mem_singleton.mp hmem]
    refine ⟨⟨hplain ?_ (by decide) ?_, hplain ?_ (by decide) ?_⟩, ?_, ?_, toString_ne_nil _⟩
    · exact (by decide : cr ∉ httpHeaderContentLength)
    · exact not_mem_toString (by decide) _
    · exact (by decide : lf ∉ httpHeaderContentLength)
    · exact not_mem_toString (by decide) _
    · exact (by decide : httpHeaderContentLength ≠ [])
    · exact (by decide : ¬ ofString ": " <:+: httpHeaderContentLength)

/-- The blank line is at the end and nowhere else. -/
theorem Plain.firstCut {g : HTTPGenerator} (h : g.Plain) (it : Iteration g.headers) :
    ∃ u, FirstCut http11EndMarker (g.message it) u [] := by
  have hlines : ∀ l ∈ g.lines it, l ≠ [] ∧ cr ∉ l := by
    refine List.forall_mem_cons.mpr ⟨⟨h.statusLine.2.1, h.statusLine.1.1⟩, fun l hl => ?_⟩
    obtain ⟨header, hmem, rfl⟩ := List.mem_map.mp hl
    exact ⟨by simp [WireRequest.headerLine, ofString], (h.header it header hmem).1.1⟩
  refine ⟨g.statusLine ++ ((it.order ++ [g.contentLength]).map WireRequest.headerLine).flatMap (crlf ++ ·), ?_, ?_⟩
  · have hmarker : http11EndMarker = crlf ++ crlf := rfl
    rw [message_eq, lines, ← flatMap_lines, hmarker, List.append_nil, List.append_assoc]
  · have hend : http11EndMarker.dropLast = crlf ++ [cr] := rfl
    rw [hend, ← List.append_assoc, flatMap_lines]
    exact not_marker_lines hlines

/-- The header reader finds the headers of the map and `Content-Length`. -/
theorem Plain.parse {g : HTTPGenerator} (h : g.Plain) (it : Iteration g.headers) :
    (Cpp23.parseRequestHeaders (g.message it) .empty).entries.Perm (g.headers.entries ++ [g.contentLength]) := by
  have hlines : ∀ l ∈ (it.order ++ [g.contentLength]).map WireRequest.headerLine ++ [[], []], cr ∉ l ∧ lf ∉ l := by
    intro l hl
    rcases List.mem_append.mp hl with hl | hl
    · obtain ⟨header, hmem, rfl⟩ := List.mem_map.mp hl
      exact (h.header it header hmem).1
    · simp only [List.mem_cons, List.not_mem_nil, or_false, or_self] at hl
      rw [hl]
      exact ⟨List.not_mem_nil, List.not_mem_nil⟩
  have hread : (g.statusLine ::
      ((it.order ++ [g.contentLength]).map WireRequest.headerLine ++ [[], []])).filterMap Cpp23.headerOf =
        it.order ++ [g.contentLength] := by
    rw [List.filterMap_cons_none h.statusLine.2.2, List.filterMap_append,
      Cpp23.filterMap_headerLine fun header hmem => (h.header it header hmem).2]
    exact List.append_nil _
  have hperm : (it.order ++ [g.contentLength]).Perm (g.headers.entries ++ [g.contentLength]) :=
    it.perm.append_right _
  have hnodup : ((g.headers.entries ++ [g.contentLength]).map Prod.fst).Nodup := by
    rw [List.map_append, List.nodup_append]
    refine ⟨g.headers.nodup, by simp, ?_⟩
    rintro name hname _ hlength rfl
    obtain ⟨header, hmem, rfl⟩ := List.mem_map.mp hname
    exact (h.name header hmem).2.1 (List.mem_singleton.mp hlength)
  rw [message_eq_lines, Cpp23.parseRequestHeaders_lines h.statusLine.1 hlines, hread,
    StringMap.entries_emplaceAll ((hperm.map Prod.fst).nodup_iff.mpr hnodup)]
  exact hperm

/-- A header block of plain parts that fits the buffer ends at its only blank line, and the header reader of the parser
takes it apart again. -/
theorem parse_generated {g : HTTPGenerator} (h : g.Plain) (it : Iteration g.headers)
    (hfit : (g.message it).length ≤ headerBufferSize) :
    ∃ g' text, g.msgGenerate it = some g' ∧ g'.headerBuffer.take g'.headerRemainingBytes.toNat = text ∧
      (∃ u, FirstCut http11EndMarker text u []) ∧
      (Cpp23.parseRequestHeaders text .empty).entries.Perm
        (g.headers.entries ++ [(httpHeaderContentLength, ofString (toString g.bodyLength.toNat))]) := by
  obtain ⟨g', hg', hlen, ⟨rest, hrest⟩, _⟩ := Sender.msgGenerate_of_fits it hfit
  refine ⟨g', g.message it, hg', ?_, h.firstCut it, h.parse it⟩
  rw [hlen, ← hrest, List.take_left]

/-- A generator with two headers, one with `:` at the end of its name and `: ` in its value. -/
def twoHeaders : HTTPGenerator :=
  (((Sender.blank.construct.msgReset.msgSetStatus 404 (ofString "Not Found")).msgAddHeader (ofString "A:")
    (ofString " b: c")).msgAddHeader (ofString "D") (ofString "e")).msgSetBodyRef ⟨.body Sender.fiveBytes, 0⟩ 5

def reversed : Iteration twoHeaders.headers := ⟨twoHeaders.headers.entries.reverse, List.reverse_perm _⟩

theorem parse_generated_two :
    ∃ g' text, twoHeaders.msgGenerate reversed = some g' ∧
      g'.headerBuffer.take g'.headerRemainingBytes.toNat = text ∧
      (∃ u, FirstCut http11EndMarker text u []) ∧
      (Cpp23.parseRequestHeaders text .empty).entries.Perm
        (twoHeaders.headers.entries ++ [(httpHeaderContentLength, ofString (toString twoHeaders.bodyLength.toNat))]) :=
  parse_generated ⟨by decide, by decide, by decide⟩ reversed (by decide +kernel)

end HTTPGenerator

end FalconAS.Http

import FalconAS.Http.Generator

/-!
# Sending a response

A sender asks the generator what to send, sends some of it and reports how much. The generator compares what remains
with what was sent, where it should compare it with zero: a report of exactly half of the rest drops the other half,
and the report of the last bytes is not noticed. A report of `-1` moves the pointer back.
-/

namespace FalconAS.Http

open FalconAS.Machine

/-- The calls that prepare the header block. -/
inductive Edit where
  | setStatus (statusCode : UInt16) (statusText : Bytes)
  | addHeader (headerID headerValue : Bytes)
  | addDateHeader (currentDate : Bytes)

/-- The sender tried to read outside of the buffers. -/
inductive OutOfBounds where
  | outOfBounds

/-- A generator, what has been transmitted, and what the last `MsgUpdateSendMetadata` returned. -/
structure Sender where
  generator : HTTPGenerator
  transmitted : Bytes
  returned : Bool

namespace HTTPGenerator

def edit (g : HTTPGenerator) : Edit → HTTPGenerator
  | .setStatus statusCode statusText => g.msgSetStatus statusCode statusText
  | .addHeader headerID headerValue => g.msgAddHeader headerID headerValue
  | .addDateHeader currentDate => g.msgAddDateHeader currentDate

/-- The generator before `MsgGenerate`: reset, edited, and given its body. -/
def prepare (g : HTTPGenerator) (edits : List Edit) (body : Bytes) : HTTPGenerator :=
  (edits.foldl edit g.msgReset).msgSetBodyRef ⟨.body body, 0⟩ (UInt32.ofNat body.length)

end HTTPGenerator

namespace Sender

/-- `MsgGetSendMetadata`, a send that transmits `n` bytes or fails with `-1`, and `MsgUpdateSendMetadata`. -/
def send (s : Sender) (n : Int) : EStateM.Result OutOfBounds Sender Unit :=
  match s.generator.read s.generator.msgGetSendMetadata.bufferRef n.toNat with
  | none => .error .outOfBounds s
  | some bytes =>
      let (returned, generator) := s.generator.msgUpdateSendMetadata n
      .ok () ⟨generator, s.transmitted ++ bytes, returned⟩

/-- What a send can report. -/
def Reports (s : Sender) (n : Int) : Prop :=
  n = -1 ∨ 0 ≤ n ∧ n ≤ s.generator.msgGetSendMetadata.bufferSize.toNat

/-- The send transmits the next bytes of `all`, a failed one changes nothing, and the generator reports the end of the
transmission when it is reached. -/
def Exact (all : Bytes) (s : Sender) (n : Int) : Prop :=
  ∃ s', s.send n = .ok () s' ∧ s'.transmitted <+: all ∧ (n = -1 → s'.generator = s.generator) ∧
    (s'.returned = true ↔ s'.transmitted = all ∧ s.transmitted ≠ all)

/-- The send does not fail, it does not transmit exactly half of the rest, and it does not transmit the last byte. -/
def Steady (all : Bytes) (s : Sender) (n : Int) : Prop :=
  n ≠ -1 ∧ (n ≠ 0 → 2 * n ≠ s.generator.msgGetSendMetadata.bufferSize.toNat) ∧
    s.transmitted.length + n < all.length

instance (s : Sender) (n : Int) : Decidable (s.Reports n) := inferInstanceAs (Decidable (_ ∨ _))

instance (all : Bytes) (s : Sender) (n : Int) : Decidable (Steady all s n) := inferInstanceAs (Decidable (_ ∧ _))

/-! ## The two phases -/

/-- The first `k` bytes of the header block have been transmitted. -/
structure InHeader (header body : Bytes) (k : Nat) (s : Sender) : Prop where
  sendType : s.generator.sendType = .header
  headerPointer : s.generator.headerPointer = ⟨.headerBuffer, k⟩
  headerRemainingBytes : k + s.generator.headerRemainingBytes.toNat = header.length
  headerBuffer : header <+: s.generator.headerBuffer
  bodyPointer : s.generator.bodyPointer = ⟨.body body, 0⟩
  bodyRemainingBytes : s.generator.bodyRemainingBytes.toNat = body.length
  transmitted : s.transmitted = header.take k

/-- The header block and the first `k` bytes of the body have been transmitted. -/
structure InBody (header body : Bytes) (k : Nat) (s : Sender) : Prop where
  sendType : s.generator.sendType = .body
  bodyPointer : s.generator.bodyPointer = ⟨.body body, k⟩
  bodyRemainingBytes : k + s.generator.bodyRemainingBytes.toNat = body.length
  transmitted : s.transmitted = header ++ body.take k

def Sending (header body : Bytes) (s : Sender) : Prop :=
  (∃ k, InHeader header body k s) ∨ ∃ k, InBody header body k s

theorem read_eq {g : HTTPGenerator} {p : Pointer} {k n : Nat} (hoff : p.offset = k)
    (hle : k + n ≤ (g.bytesOf p.region).length) : g.read p n = some (((g.bytesOf p.region).drop k).take n) := by
  rw [HTTPGenerator.read, hoff, Int.toNat_natCast]
  by_cases hn : n = 0
  · rw [if_pos hn, hn, List.take_zero]
  · rw [if_neg hn, if_pos ⟨Int.natCast_nonneg k, hle⟩]

theorem toNat_ofInt_sub {r : UInt32} {n : Nat} (h : n ≤ r.toNat) :
    (UInt32.ofInt ((r.toNat : Int) - n)).toNat = r.toNat - n := by
  have hlt := r.toNat_lt
  rw [← Int.natCast_sub h, UInt32.ofInt, UInt32.toNat_ofNat']
  omega

theorem InHeader.read {header body : Bytes} {k n : Nat} {s : Sender} (h : InHeader header body k s)
    (hn : k + n ≤ header.length) :
    s.generator.read s.generator.headerPointer n = some ((header.drop k).take n) := by
  obtain ⟨rest, hrest⟩ := h.headerBuffer
  have hp := h.headerPointer
  have hle : k + n ≤ (s.generator.bytesOf s.generator.headerPointer.region).length := by
    rw [hp, HTTPGenerator.bytesOf, ← hrest, List.length_append]
    omega
  rw [read_eq (by rw [hp]) hle, hp, HTTPGenerator.bytesOf, ← hrest,
    List.drop_append_of_le_length (by omega), List.take_append_of_le_length (by rw [List.length_drop]; omega)]

theorem send_eq {s : Sender} {n : Nat} {bytes : Bytes}
    (h : s.generator.read s.generator.msgGetSendMetadata.bufferRef n = some bytes) :
    s.send n = .ok () ⟨(s.generator.msgUpdateSendMetadata n).2, s.transmitted ++ bytes,
      (s.generator.msgUpdateSendMetadata n).1⟩ := by
  rw [send, Int.toNat_natCast, h]

theorem InHeader.send {header body : Bytes} {k n : Nat} {s : Sender} (h : InHeader header body k s)
    (hn : k + n ≤ header.length) (hhalf : n ≠ 0 → k + 2 * n ≠ header.length) :
    ∃ s', s.send n = .ok () s' ∧ s'.returned = false ∧ s'.transmitted = header.take (k + n) ∧
      (InHeader header body (k + n) s' ∨ InBody header body 0 s') := by
  have hrem := h.headerRemainingBytes
  have hsub := toNat_ofInt_sub (r := s.generator.headerRemainingBytes) (n := n) (by omega)
  have hread : s.generator.read s.generator.msgGetSendMetadata.bufferRef n = some ((header.drop k).take n) := by
    rw [HTTPGenerator.msgGetSendMetadata, h.sendType]
    exact h.read hn
  have htake : s.transmitted ++ (header.drop k).take n = header.take (k + n) := by
    rw [h.transmitted, List.take_add]
  have hge : (s.generator.headerRemainingBytes.toNat : Int) ≥ n := by omega
  refine ⟨_, send_eq hread, ?_⟩
  rw [HTTPGenerator.msgUpdateSendMetadata, if_pos ⟨h.sendType, hge⟩]
  by_cases hswitch : n = s.generator.headerRemainingBytes.toNat - n
  · -- half of the rest, which is nothing: the header block has been sent before
    have hk : k + n = header.length := by omega
    simp only [hsub, ← hswitch, ↓reduceIte]
    refine ⟨trivial, htake, Or.inr ⟨rfl, h.bodyPointer, by rw [Nat.zero_add]; exact h.bodyRemainingBytes, ?_⟩⟩
    rw [htake, hk, List.take_length, List.take_zero, List.append_nil]
  · have hne : ¬ ((s.generator.headerRemainingBytes.toNat - n : Nat) : Int) = n := by omega
    simp only [hsub, hne, ↓reduceIte]
    refine ⟨trivial, htake, Or.inl ⟨h.sendType, ?_, ?_, h.headerBuffer, h.bodyPointer, h.bodyRemainingBytes, htake⟩⟩
    · simp [h.headerPointer, Pointer.add]
    · rw [hsub]
      omega

theorem InBody.send {header body : Bytes} {k n : Nat} {s : Sender} (h : InBody header body k s)
    (hn : k + n ≤ body.length) (hhalf : n ≠ 0 → k + 2 * n ≠ body.length) :
    ∃ s', s.send n = .ok () s' ∧ (s'.returned = true ↔ k = body.length) ∧ InBody header body (k + n) s' := by
  have hrem := h.bodyRemainingBytes
  have hsub := toNat_ofInt_sub (r := s.generator.bodyRemainingBytes) (n := n) (by omega)
  have hread : s.generator.read s.generator.msgGetSendMetadata.bufferRef n = some ((body.drop k).take n) := by
    have hle : k + n ≤ (s.generator.bytesOf (s.generator.bodyPointer).region).length := by
      rw [h.bodyPointer]
      exact hn
    rw [HTTPGenerator.msgGetSendMetadata, h.sendType]
    exact (read_eq (by rw [h.bodyPointer]) hle).trans (by rw [h.bodyPointer]; rfl)
  have htake : s.transmitted ++ (body.drop k).take n = header ++ body.take (k + n) := by
    rw [h.transmitted, List.append_assoc, List.take_add]
  have hge : (s.generator.bodyRemainingBytes.toNat : Int) ≥ n := by omega
  have hheader : ¬ (s.generator.sendType = .header ∧ (s.generator.headerRemainingBytes.toNat : Int) ≥ n) := by
    rw [h.sendType]
    rintro ⟨⟨⟩, _⟩
  refine ⟨_, send_eq hread, ?_⟩
  rw [HTTPGenerator.msgUpdateSendMetadata, if_neg hheader, if_pos ⟨h.sendType, hge⟩]
  by_cases hend : n = s.generator.bodyRemainingBytes.toNat - n
  · have hk : k = body.length := by omega
    simp only [hsub, ← hend, ↓reduceIte]
    refine ⟨iff_of_true trivial hk, h.sendType, ?_, ?_, htake⟩
    · simp [h.bodyPointer, Pointer.add]
    · simp only [UInt32.toNat_zero]
      omega
  · have hne : ¬ ((s.generator.bodyRemainingBytes.toNat - n : Nat) : Int) = n := by omega
    simp only [hsub, hne, ↓reduceIte]
    refine ⟨iff_of_false Bool.false_ne_true (by omega), h.sendType, ?_, ?_, htake⟩
    · simp [h.bodyPointer, Pointer.add]
    · rw [hsub]
      omega

/-- The bytes that are offered are the rest of the header block or of the body. -/
theorem Sending.send {header body : Bytes} {s : Sender} (h : Sending header body s) {n : Int}
    (hrep : s.Reports n) (hne : n ≠ -1)
    (hhalf : n ≠ 0 → 2 * n ≠ s.generator.msgGetSendMetadata.bufferSize.toNat) :
    ∃ s', s.send n = .ok () s' ∧ Sending header body s' ∧
      (s'.transmitted.length : Int) = s.transmitted.length + n ∧
      (s'.returned = true → s.transmitted = header ++ body) := by
  obtain ⟨h0, hle⟩ := hrep.resolve_left hne
  lift n to Nat using h0
  rcases h with ⟨k, h⟩ | ⟨k, h⟩
  · have hrem := h.headerRemainingBytes
    simp only [HTTPGenerator.msgGetSendMetadata, h.sendType] at hle hhalf
    obtain ⟨s', hs', hret, htrans, hphase⟩ := h.send (n := n) (by omega) (by omega)
    refine ⟨s', hs', ?_, ?_, by rw [hret]; rintro ⟨⟩⟩
    · rcases hphase with hphase | hphase
      · exact Or.inl ⟨_, hphase⟩
      · exact Or.inr ⟨_, hphase⟩
    · rw [htrans, h.transmitted, List.length_take, List.length_take]
      omega
  · have hrem := h.bodyRemainingBytes
    simp only [HTTPGenerator.msgGetSendMetadata, h.sendType] at hle hhalf
    obtain ⟨s', hs', hret, hphase⟩ := h.send (n := n) (by omega) (by omega)
    refine ⟨s', hs', Or.inr ⟨_, hphase⟩, ?_, fun hr => ?_⟩
    · rw [hphase.transmitted, h.transmitted]
      simp only [List.length_append, List.length_take]
      omega
    · rw [h.transmitted, hret.mp hr, List.take_length]

theorem Sending.transmitted_begins {header body : Bytes} {s : Sender} (h : Sending header body s) :
    s.transmitted <+: header ++ body := by
  rcases h with ⟨k, h⟩ | ⟨k, h⟩
  · rw [h.transmitted]
    exact (List.take_prefix k header).trans (List.prefix_append _ _)
  · rw [h.transmitted]
    exact (List.prefix_append_right_inj header).mpr (List.take_prefix k body)

/-! ## From `MsgReset` on -/

theorem foldl_edit (edits : List Edit) (g : HTTPGenerator) :
    (edits.foldl HTTPGenerator.edit g).sendType = g.sendType ∧
      (edits.foldl HTTPGenerator.edit g).headerPointer = g.headerPointer := by
  induction edits generalizing g with
  | nil => exact ⟨rfl, rfl⟩
  | cons e edits ih => cases e <;> exact ih _

theorem msgGenerate_of_fits {g : HTTPGenerator} (it : Iteration g.headers)
    (hfit : (g.message it).length ≤ headerBufferSize) :
    ∃ g', g.msgGenerate it = some g' ∧ g'.headerRemainingBytes.toNat = (g.message it).length ∧
      g.message it <+: g'.headerBuffer ∧ g'.sendType = g.sendType ∧ g'.headerPointer = g.headerPointer ∧
      g'.bodyPointer = g.bodyPointer ∧ g'.bodyRemainingBytes = g.bodyRemainingBytes := by
  have hlen : (UInt32.ofNat (g.message it).length).toNat = (g.message it).length := by
    apply UInt32.toNat_ofNat_of_lt
    exact Nat.lt_of_le_of_lt hfit (by decide)
  have htake : (g.message it).take (UInt32.ofNat (g.message it).length).toNat = g.message it := by
    rw [hlen, List.take_length]
  have hcopied : ((g.message it).take (UInt32.ofNat (g.message it).length).toNat).length ≤ headerBufferSize := by
    rw [htake]
    exact hfit
  unfold HTTPGenerator.msgGenerate
  dsimp only
  rw [dif_pos hcopied]
  refine ⟨_, rfl, hlen, ?_, rfl, rfl, rfl, rfl⟩
  dsimp only
  rw [htake]
  exact List.prefix_append _ _

theorem msgGenerate_inHeader {g : HTTPGenerator} {edits : List Edit} {body : Bytes}
    (hbody : body.length < UInt32.size) (it : Iteration (g.prepare edits body).headers)
    (hfit : ((g.prepare edits body).message it).length ≤ headerBufferSize) :
    ∃ g', (g.prepare edits body).msgGenerate it = some g' ∧
      InHeader ((g.prepare edits body).message it) body 0 ⟨g', [], false⟩ := by
  obtain ⟨g', hg', hlen, hbuffer, htype, hpointer, hbodyp, hbodyr⟩ := msgGenerate_of_fits it hfit
  obtain ⟨htype', hpointer'⟩ := foldl_edit edits g.msgReset
  refine ⟨g', hg', htype.trans htype', hpointer.trans hpointer', ?_, hbuffer, hbodyp, ?_, List.take_zero.symm⟩
  · rw [Nat.zero_add]
    exact hlen
  · rw [hbodyr]
    exact UInt32.toNat_ofNat_of_lt hbody

/-- In a run whose sends all meet `Steady`, the transmitted bytes are always the first ones of the header block and the
body. -/
theorem run_exact {g : HTTPGenerator} {edits : List Edit} {body : Bytes} (hbody : body.length < UInt32.size)
    (it : Iteration (g.prepare edits body).headers)
    (hfit : ((g.prepare edits body).message it).length ≤ headerBufferSize) :
    ∃ g', (g.prepare edits body).msgGenerate it = some g' ∧ ∀ ns,
      Along send (fun s n => s.Reports n ∧ Steady ((g.prepare edits body).message it ++ body) s n)
        ⟨g', [], false⟩ ns →
      Along send (Exact ((g.prepare edits body).message it ++ body)) ⟨g', [], false⟩ ns := by
  obtain ⟨g', hg', hstart⟩ := msgGenerate_inHeader hbody it hfit
  refine ⟨g', hg', fun ns hP => ?_⟩
  refine Along.of_invariant (I := Sending ((g.prepare edits body).message it) body) ?_ ?_ (Or.inl ⟨0, hstart⟩) hP
  · rintro s n s' hI ⟨hrep, hne, hhalf, _⟩ hs'
    obtain ⟨t, ht, hsending, _⟩ := hI.send hrep hne hhalf
    rw [ht] at hs'
    cases hs'
    exact hsending
  · rintro s n hI ⟨hrep, hne, hhalf, hleft⟩
    obtain ⟨s', hs', hsending, hlen, hret⟩ := hI.send hrep hne hhalf
    have hpart : s'.transmitted ≠ (g.prepare edits body).message it ++ body := by
      intro heq
      rw [heq] at hlen
      omega
    have hpart' : s.transmitted ≠ (g.prepare edits body).message it ++ body := by
      intro heq
      have h0 := (hrep.resolve_left hne).1
      rw [heq] at hleft
      omega
    refine ⟨s', hs', hsending.transmitted_begins, fun h => absurd h hne, ?_⟩
    exact iff_of_false (fun h => hpart' (hret h)) fun h => hpart h.1

/-- A generator as the constructor finds it, with zeros everywhere. -/
def blank : HTTPGenerator where
  sendStatus := 0
  sendType := .other
  statusCode := 0
  statusText := []
  headerLength := 0
  bodyLength := 0
  headerRemainingBytes := 0
  bodyRemainingBytes := 0
  headerPointer := ⟨.null, 0⟩
  bodyPointer := ⟨.null, 0⟩
  headerBuffer := List.replicate headerBufferSize 0
  headers := .empty
  headerBuffer_length := length_zeroBuffer

def fiveBytes : Bytes := ofString "abcde"

/-- The generator before and after `MsgGenerate`, with 38 bytes of header. -/
def readyFive : HTTPGenerator := blank.construct.prepare [] fiveBytes

def fiveOrder : Iteration readyFive.headers := ⟨[], noHeaders_perm⟩

def senderFive : Sender := ⟨(readyFive.msgGenerate fiveOrder).getD blank, [], false⟩

theorem run_exact_five :
    Along send (Exact (readyFive.message fiveOrder ++ fiveBytes)) senderFive [20, 0, 17, 1, 0, 1, 3] := by
  obtain ⟨g', hg', hrun⟩ := @run_exact blank.construct [] fiveBytes (by decide) fiveOrder (by decide +kernel)
  have hready : readyFive.msgGenerate fiveOrder = some g' := hg'
  have hsender : senderFive = ⟨g', [], false⟩ := by rw [senderFive, hready, Option.getD_some]
  rw [hsender]
  apply hrun
  rw [← hsender]
  exact (by decide +kernel : Along send (fun s n => s.Reports n ∧
    Steady (readyFive.message fiveOrder ++ fiveBytes) s n) senderFive [20, 0, 17, 1, 0, 1, 3])

/-- A failed send changes the generator. After 19 of 38 bytes the generator goes on with the body. The send of the last
bytes is not reported as the end. -/
theorem sending_inexact :
    (senderFive.Reports (-1) ∧ ∃ s', senderFive.send (-1) = .ok () s' ∧ s'.generator ≠ senderFive.generator) ∧
    (Along send Reports senderFive [19, 1] ∧ ∃ s', run send senderFive [19, 1] = .ok () s' ∧
      ¬ s'.transmitted <+: readyFive.message fiveOrder ++ fiveBytes) ∧
    (Along send Reports senderFive [38, 0, 5] ∧ ∃ s', run send senderFive [38, 0, 5] = .ok () s' ∧
      s'.transmitted = readyFive.message fiveOrder ++ fiveBytes ∧ s'.returned = false) := by
  refine ⟨⟨by decide +kernel, _, rfl, by decide +kernel⟩, ?_, ?_⟩
  · exact ⟨by decide +kernel, _, Returns.eq_ok (by decide +kernel), by decide +kernel⟩
  · exact ⟨by decide +kernel, _, Returns.eq_ok (by decide +kernel), by decide +kernel⟩

end Sender

end FalconAS.Http

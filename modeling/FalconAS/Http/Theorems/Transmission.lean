import FalconAS.Http.Theorems.Sending

/-!
# What is transmitted

Whatever a sender reports, as long as its sends do not fail, nothing but bytes of the header block and of the body is
transmitted, and the end is not reported before half of each. A sender whose sends never transmit exactly half of what
was offered comes to the end with everything transmitted.
-/

namespace FalconAS.Http

open FalconAS.Machine

namespace HTTPGenerator

variable {g : HTTPGenerator} {n : Nat}

/-! ## `MsgUpdateSendMetadata` -/

theorem eq_sub_iff_half {r n : Nat} (h : n ≤ r) : ((r - n : Nat) : Int) = n ↔ r = 2 * n := by omega

/-- A report of half of the rest ends the header block. -/
theorem msgUpdateSendMetadata_header (htype : g.sendType = .header) (hn : n ≤ g.headerRemainingBytes.toNat) :
    ∃ r : UInt32, r.toNat = g.headerRemainingBytes.toNat - n ∧ g.msgUpdateSendMetadata n =
      if g.headerRemainingBytes.toNat = 2 * n then
        (false, { g with headerPointer := g.headerPointer.add n, headerRemainingBytes := 0, sendType := .body })
      else (false, { g with headerPointer := g.headerPointer.add n, headerRemainingBytes := r }) := by
  have hsub := Sender.toNat_ofInt_sub hn
  refine ⟨_, hsub, ?_⟩
  rw [msgUpdateSendMetadata, if_pos ⟨htype, Int.ofNat_le.mpr hn⟩]
  simp only [hsub, eq_sub_iff_half hn]

/-- A report of half of the rest ends the body. -/
theorem msgUpdateSendMetadata_body (htype : g.sendType = .body) (hn : n ≤ g.bodyRemainingBytes.toNat) :
    ∃ r : UInt32, r.toNat = g.bodyRemainingBytes.toNat - n ∧ g.msgUpdateSendMetadata n =
      if g.bodyRemainingBytes.toNat = 2 * n then
        (true, { g with bodyPointer := g.bodyPointer.add n, bodyRemainingBytes := 0 })
      else (false, { g with bodyPointer := g.bodyPointer.add n, bodyRemainingBytes := r }) := by
  have hsub := Sender.toNat_ofInt_sub hn
  have hheader : ¬ (g.sendType = .header ∧ (g.headerRemainingBytes.toNat : Int) ≥ n) := by
    rw [htype]
    rintro ⟨⟨⟩, _⟩
  refine ⟨_, hsub, ?_⟩
  rw [msgUpdateSendMetadata, if_neg hheader, if_pos ⟨htype, Int.ofNat_le.mpr hn⟩]
  simp only [hsub, eq_sub_iff_half hn]

end HTTPGenerator

namespace Sender

variable {header body : Bytes} {k j n : Nat} {s : Sender}

/-! ## Any reports -/

/-- The header block is over after `k` bytes of it, and `j` bytes of the body have been transmitted. -/
structure PastHeader (header body : Bytes) (k j : Nat) (s : Sender) : Prop where
  sendType : s.generator.sendType = .body
  bodyPointer : s.generator.bodyPointer = ⟨.body body, j⟩
  bodyRemainingBytes : j + s.generator.bodyRemainingBytes.toNat = body.length ∨
    s.generator.bodyRemainingBytes.toNat = 0 ∧ j ≤ body.length ∧ body.length ≤ 2 * j
  transmitted : s.transmitted = header.take k ++ body.take j
  half : header.length ≤ 2 * k
  ended : s.returned = true → body.length ≤ 2 * j

/-- What is transmitted is the front of the header block, or a front of it that is at least half and a front of the
body. -/
def Within (header body : Bytes) (s : Sender) : Prop :=
  (∃ k, InHeader header body k s ∧ s.returned = false) ∨ ∃ k j, PastHeader header body k j s

/-- The send did not fail, and transmitted no more than it was offered. -/
def Succeeds (s : Sender) (n : Int) : Prop := 0 ≤ n ∧ n ≤ s.generator.msgGetSendMetadata.bufferSize.toNat

instance (s : Sender) (n : Int) : Decidable (s.Succeeds n) := inferInstanceAs (Decidable (_ ∧ _))

theorem InHeader.within (h : InHeader header body k s) (hn : n ≤ s.generator.headerRemainingBytes.toNat) :
    ∃ s', s.send n = .ok () s' ∧ Within header body s' := by
  have hrem := h.headerRemainingBytes
  have hread : s.generator.read s.generator.msgGetSendMetadata.bufferRef n = some ((header.drop k).take n) := by
    rw [HTTPGenerator.msgGetSendMetadata, h.sendType]
    exact h.read (by omega)
  have htake : s.transmitted ++ (header.drop k).take n = header.take (k + n) := by
    rw [h.transmitted, List.take_add]
  have hpointer : s.generator.headerPointer.add n = ⟨.headerBuffer, ((k + n : Nat) : Int)⟩ := by
    simp [h.headerPointer, Pointer.add]
  obtain ⟨r, hr, hupdate⟩ := HTTPGenerator.msgUpdateSendMetadata_header h.sendType hn
  refine ⟨_, send_eq hread, ?_⟩
  rw [hupdate, htake]
  split
  case isTrue hhalf =>
      refine .inr ⟨k + n, 0, rfl, h.bodyPointer, .inl ?_, ?_, by omega, by rintro ⟨⟩⟩
      · rw [Nat.zero_add]
        exact h.bodyRemainingBytes
      · rw [List.take_zero, List.append_nil]
  case isFalse =>
      refine .inl ⟨k + n, ⟨h.sendType, hpointer, ?_, h.headerBuffer, h.bodyPointer, h.bodyRemainingBytes, rfl⟩, rfl⟩
      dsimp only
      omega

theorem PastHeader.within (h : PastHeader header body k j s) (hn : n ≤ s.generator.bodyRemainingBytes.toNat) :
    ∃ s', s.send n = .ok () s' ∧ Within header body s' := by
  have hrem := h.bodyRemainingBytes
  have hread : s.generator.read s.generator.msgGetSendMetadata.bufferRef n = some ((body.drop j).take n) := by
    have hle : j + n ≤ (s.generator.bytesOf (s.generator.bodyPointer).region).length := by
      rw [h.bodyPointer]
      dsimp only [HTTPGenerator.bytesOf]
      omega
    rw [HTTPGenerator.msgGetSendMetadata, h.sendType]
    exact (read_eq (by rw [h.bodyPointer]) hle).trans (by rw [h.bodyPointer]; rfl)
  have htake : s.transmitted ++ (body.drop j).take n = header.take k ++ body.take (j + n) := by
    rw [h.transmitted, List.append_assoc, List.take_add]
  have hpointer : s.generator.bodyPointer.add n = ⟨.body body, ((j + n : Nat) : Int)⟩ := by
    simp [h.bodyPointer, Pointer.add]
  obtain ⟨r, hr, hupdate⟩ := HTTPGenerator.msgUpdateSendMetadata_body h.sendType hn
  refine ⟨_, send_eq hread, .inr ⟨k, j + n, ?_⟩⟩
  rw [hupdate, htake]
  split
  case isTrue hhalf =>
      refine ⟨h.sendType, hpointer, .inr ⟨rfl, by omega, by omega⟩, rfl, h.half, fun _ => ?_⟩
      omega
  case isFalse hhalf =>
      refine ⟨h.sendType, hpointer, .inl ?_, rfl, h.half, by rintro ⟨⟩⟩
      dsimp only
      omega

theorem Within.send (h : Within header body s) {n : Int} (hn : s.Succeeds n) :
    ∃ s', s.send n = .ok () s' ∧ Within header body s' := by
  obtain ⟨h0, hle⟩ := hn
  lift n to Nat using h0
  rcases h with ⟨k, h, _⟩ | ⟨k, j, h⟩
  · rw [HTTPGenerator.msgGetSendMetadata, h.sendType] at hle
    exact h.within (Int.ofNat_le.mp hle)
  · rw [HTTPGenerator.msgGetSendMetadata, h.sendType] at hle
    exact h.within (Int.ofNat_le.mp hle)

theorem Within.parts (h : Within header body s) :
    ∃ k j, s.transmitted = header.take k ++ body.take j ∧ (j ≠ 0 → header.length ≤ 2 * k) ∧
      (s.returned = true → header.length ≤ 2 * k ∧ body.length ≤ 2 * j) := by
  rcases h with ⟨k, h, hret⟩ | ⟨k, j, h⟩
  · refine ⟨k, 0, ?_, fun h0 => absurd rfl h0, fun hend => ?_⟩
    · rw [h.transmitted, List.take_zero, List.append_nil]
    · rw [hret] at hend
      cases hend
  · exact ⟨k, j, h.transmitted, fun _ => h.half, fun hend => ⟨h.half, h.ended hend⟩⟩

/-- If no send fails, the sender reads nothing but the header block and the body, in this order, transmits nothing of
the body before half of the header block, and is not told that it is at the end before half of each was transmitted. -/
theorem transmitted_within {g : HTTPGenerator} {edits : List Edit} {body : Bytes} (hbody : body.length < UInt32.size)
    (it : Iteration (g.prepare edits body).headers)
    (hfit : ((g.prepare edits body).message it).length ≤ headerBufferSize) :
    ∃ g', (g.prepare edits body).msgGenerate it = some g' ∧ ∀ ns, Along send Succeeds ⟨g', [], false⟩ ns →
      ∃ s' k j, run send ⟨g', [], false⟩ ns = .ok () s' ∧
        s'.transmitted = ((g.prepare edits body).message it).take k ++ body.take j ∧
        (j ≠ 0 → ((g.prepare edits body).message it).length ≤ 2 * k) ∧
        (s'.returned = true → ((g.prepare edits body).message it).length ≤ 2 * k ∧ body.length ≤ 2 * j) := by
  obtain ⟨g', hg', hstart⟩ := msgGenerate_inHeader hbody it hfit
  refine ⟨g', hg', fun ns hns => ?_⟩
  obtain ⟨s', hrun, hs'⟩ := exists_run_of_invariant (I := Within ((g.prepare edits body).message it) body)
    (fun s n h hn => h.send hn) (.inl ⟨0, hstart, rfl⟩) hns
  obtain ⟨k, j, hparts⟩ := hs'.parts
  exact ⟨s', k, j, hrun, hparts⟩

/-- Nineteen of the 38 bytes of the header block and three of the five of the body are taken for everything. -/
theorem transmitted_within_five :
    ∃ s' k j, run send senderFive [19, 1, 2] = .ok () s' ∧ s'.returned = true ∧
      s'.transmitted = (readyFive.message fiveOrder).take k ++ fiveBytes.take j := by
  obtain ⟨g', hg', hruns⟩ := @transmitted_within blank.construct [] fiveBytes (by decide) fiveOrder (by decide +kernel)
  have hready : readyFive.msgGenerate fiveOrder = some g' := hg'
  have hsender : senderFive = ⟨g', [], false⟩ := by rw [senderFive, hready, Option.getD_some]
  have hsucceeds : Along send Succeeds senderFive [19, 1, 2] := by decide +kernel
  have hreturned : (stateOf (run send senderFive [19, 1, 2])).returned = true := by decide +kernel
  rw [hsender] at hsucceeds
  obtain ⟨s', k, j, hrun, htransmitted, -⟩ := hruns _ hsucceeds
  rw [← hsender] at hrun
  rw [hrun] at hreturned
  exact ⟨s', k, j, hrun, hreturned, htransmitted⟩

/-! ## Sends that get on -/

/-- The send transmits something if there is something to transmit, but not exactly half of it. -/
def GetsOn (s : Sender) (n : Int) : Prop :=
  s.Succeeds n ∧ (s.generator.msgGetSendMetadata.bufferSize.toNat ≠ 0 → n ≠ 0) ∧
    (n ≠ 0 → 2 * n ≠ s.generator.msgGetSendMetadata.bufferSize.toNat)

instance (s : Sender) (n : Int) : Decidable (s.GetsOn n) := inferInstanceAs (Decidable (_ ∧ _ ∧ _))

/-- So many sends are left before the last one. -/
def Left (header body : Bytes) (r : Nat) (s : Sender) : Prop :=
  (∃ k, InHeader header body k s ∧ r = header.length - k + 1 + body.length) ∨
    ∃ k, InBody header body k s ∧ r = body.length - k

/-- Told that nothing more of the header block was transmitted when nothing was left of it, the generator goes on with
the body. -/
theorem InHeader.send_zero (h : InHeader header body header.length s) :
    ∃ s', s.send (0 : Nat) = .ok () s' ∧ InBody header body 0 s' := by
  have hrem : s.generator.headerRemainingBytes.toNat = 0 := Nat.add_eq_left.mp h.headerRemainingBytes
  have hread : s.generator.read s.generator.msgGetSendMetadata.bufferRef 0 = some [] := if_pos rfl
  obtain ⟨_, -, hupdate⟩ := HTTPGenerator.msgUpdateSendMetadata_header h.sendType (Nat.zero_le _)
  refine ⟨_, send_eq hread, ?_⟩
  rw [hupdate, if_pos hrem]
  refine ⟨rfl, h.bodyPointer, ?_, ?_⟩
  · rw [Nat.zero_add]
    exact h.bodyRemainingBytes
  · rw [h.transmitted, List.take_length, List.take_zero]

theorem Left.send {r : Nat} (h : Left header body r s) {n : Int} (hn : s.GetsOn n) :
    ∃ s', s.send n = .ok () s' ∧
      ((s'.returned = true ∧ s'.transmitted = header ++ body) ∨ ∃ r' < r, Left header body r' s') := by
  obtain ⟨⟨h0, hle⟩, hpos, hhalf⟩ := hn
  lift n to Nat using h0
  rcases h with ⟨k, h, rfl⟩ | ⟨k, h, rfl⟩
  · have hrem := h.headerRemainingBytes
    rw [HTTPGenerator.msgGetSendMetadata, h.sendType] at hle hpos hhalf
    dsimp only at hle hpos hhalf
    by_cases hend : k = header.length
    · obtain rfl : n = 0 := by omega
      rw [hend] at h
      obtain ⟨s', hs', hbody⟩ := h.send_zero
      exact ⟨s', hs', .inr ⟨body.length, by omega, .inr ⟨0, hbody, rfl⟩⟩⟩
    · obtain ⟨s', hs', -, -, hphase⟩ := h.send (n := n) (by omega) (by omega)
      refine ⟨s', hs', .inr ?_⟩
      rcases hphase with hphase | hphase
      · exact ⟨_, by omega, .inl ⟨_, hphase, rfl⟩⟩
      · exact ⟨_, by omega, .inr ⟨_, hphase, rfl⟩⟩
  · have hrem := h.bodyRemainingBytes
    rw [HTTPGenerator.msgGetSendMetadata, h.sendType] at hle hpos hhalf
    dsimp only at hle hpos hhalf
    obtain ⟨s', hs', hret, hphase⟩ := h.send (n := n) (by omega) (by omega)
    refine ⟨s', hs', ?_⟩
    by_cases hend : k = body.length
    · refine .inl ⟨hret.mpr hend, ?_⟩
      rw [hphase.transmitted, hend, List.take_of_length_le (Nat.le_add_right _ _)]
    · exact .inr ⟨_, by omega, .inr ⟨_, hphase, rfl⟩⟩

/-- If every send gets on, the sender is told after at most two sends more than there are bytes that it is at the end,
and has then transmitted the header block and the body. -/
theorem sender_completes {g : HTTPGenerator} {edits : List Edit} {body : Bytes} (hbody : body.length < UInt32.size)
    (it : Iteration (g.prepare edits body).headers)
    (hfit : ((g.prepare edits body).message it).length ≤ headerBufferSize) :
    ∃ g', (g.prepare edits body).msgGenerate it = some g' ∧ ∀ ns, Along send GetsOn ⟨g', [], false⟩ ns →
      ((g.prepare edits body).message it).length + body.length + 2 ≤ ns.length →
      ∃ ms s', ms <+: ns ∧ run send ⟨g', [], false⟩ ms = .ok () s' ∧ s'.returned = true ∧
        s'.transmitted = (g.prepare edits body).message it ++ body := by
  obtain ⟨g', hg', hstart⟩ := msgGenerate_inHeader hbody it hfit
  refine ⟨g', hg', fun ns hns hlen => ?_⟩
  exact exists_run_of_rank (R := Left ((g.prepare edits body).message it) body) (fun r s n h hn => h.send hn)
    (.inl ⟨0, hstart, rfl⟩) hns (by omega)

theorem sender_completes_five :
    ∃ ms s', run send senderFive ms = .ok () s' ∧ s'.returned = true ∧
      s'.transmitted = readyFive.message fiveOrder ++ fiveBytes := by
  obtain ⟨g', hg', hruns⟩ := @sender_completes blank.construct [] fiveBytes (by decide) fiveOrder (by decide +kernel)
  have hready : readyFive.msgGenerate fiveOrder = some g' := hg'
  have hsender : senderFive = ⟨g', [], false⟩ := by rw [senderFive, hready, Option.getD_some]
  have hgetsOn : Along send GetsOn senderFive ([20, 18, 0, 1, 4] ++ List.replicate 40 0) := by decide +kernel
  rw [hsender] at hgetsOn
  obtain ⟨ms, s', -, hrun, hreturned, htransmitted⟩ := hruns _ hgetsOn (by decide +kernel)
  exact ⟨ms, s', by rw [hsender]; exact hrun, hreturned, htransmitted⟩

end Sender

end FalconAS.Http

import FalconAS.Machine.Run
import FalconAS.Xml.Parser

/-!
# Lifetimes of parsers

Parsers are created, copied and destroyed in any order. Xerces is initialised exactly while parsers are alive unless a
parser is copied: the copy is not counted.
-/

namespace FalconAS.Xml

open FalconAS.Machine
open FalconAS.Http (Bytes ofString)

inductive Event where
  | create (parseBufferSize : Nat)
  | copy (index : Nat)
  | destroy (index : Nat)

/-- There is no parser at the index. -/
inductive NoParser where
  | noParser

namespace Lifetimes

def initial : Lifetimes := ⟨0, [], none⟩

def happen (l : Lifetimes) : Event → EStateM.Result NoParser Lifetimes Unit
  | .create parseBufferSize => .ok () (l.construct parseBufferSize)
  | .copy index =>
      match l.parsers[index]? with
      | some source => .ok () (l.copyConstruct source)
      | none => .error .noParser l
  | .destroy index =>
      if index < l.parsers.length then .ok () (l.destruct index) else .error .noParser l

/-- The count is the number of live parsers. -/
def Counted (l : Lifetimes) : Prop := l.xercesRefCount.toNat = l.parsers.length

/-- Behind the event the count is right, and Xerces was initialised exactly when the first parser came to life and
terminated only when none is alive. -/
def Managed (l : Lifetimes) (e : Event) : Prop :=
  ∀ l', l.happen e = .ok () l' → l'.Counted ∧
    (l'.platformCall = some .initializePlatform ↔ l.parsers.length = 0 ∧ l'.parsers.length = 1) ∧
    (l'.platformCall = some .terminatePlatform → l'.parsers.length = 0)

/-- No live parser is copied, and there are never `2 ^ 32` of them. -/
def Owned (l : Lifetimes) : Event → Prop
  | .create _ => l.parsers.length + 1 < UInt32.size
  | .copy index => l.parsers.length ≤ index
  | .destroy _ => True

/-! ## One event -/

theorem Counted.eq_zero_iff {l : Lifetimes} (h : l.Counted) : l.xercesRefCount = 0 ↔ l.parsers.length = 0 := by
  rw [← h, ← UInt32.toNat_inj]
  rfl

theorem managed_create_iff {l : Lifetimes} (h : l.Counted) (parseBufferSize : Nat) :
    l.Managed (.create parseBufferSize) ↔ l.parsers.length + 1 < UInt32.size := by
  have hlt : l.parsers.length < UInt32.size := h ▸ l.xercesRefCount.toNat_lt_size
  have hcount : (l.construct parseBufferSize).xercesRefCount.toNat = (l.parsers.length + 1) % UInt32.size := by
    rw [← h]
    rfl
  have hlen : (l.construct parseBufferSize).parsers.length = l.parsers.length + 1 := by simp [construct]
  constructor
  · intro hm
    have hc : (l.construct parseBufferSize).Counted := (hm _ rfl).1
    rw [Counted, hcount, hlen] at hc
    exact hc ▸ Nat.mod_lt _ (by decide)
  · intro hroom l' hl'
    cases hl'
    refine ⟨?_, ?_, ?_⟩
    · rw [Counted, hcount, hlen, Nat.mod_eq_of_lt hroom]
    · by_cases h0 : l.parsers.length = 0
      · simp [construct, h.eq_zero_iff, h0]
      · simp [construct, h.eq_zero_iff, h0]
    · by_cases h0 : l.parsers.length = 0
      · simp [construct, h.eq_zero_iff, h0]
      · simp [construct, h.eq_zero_iff, h0]

/-- A copy makes one more parser and does not count it. -/
theorem not_managed_copy {l : Lifetimes} (h : l.Counted) {index : Nat} (hi : index < l.parsers.length) :
    ¬ l.Managed (.copy index) := by
  intro hm
  have hc := (hm (l.copyConstruct l.parsers[index]) (by simp [happen, hi])).1
  simp only [Counted, copyConstruct, List.length_append, List.length_singleton] at hc
  rw [h] at hc
  omega

theorem managed_destroy {l : Lifetimes} (h : l.Counted) (index : Nat) : l.Managed (.destroy index) := by
  intro l' hl'
  by_cases hi : index < l.parsers.length
  · simp only [happen, hi, if_true] at hl'
    cases hl'
    have hlen : (l.destruct index).parsers.length = l.parsers.length - 1 := by
      simp [destruct, List.length_eraseIdx, hi]
    have hone : l.xercesRefCount = 1 ↔ l.parsers.length = 1 := by
      rw [← h, ← UInt32.toNat_inj]
      rfl
    refine ⟨?_, ?_, ?_⟩
    · have hle : (1 : UInt32) ≤ l.xercesRefCount := by
        rw [UInt32.le_iff_toNat_le, h]
        exact Nat.lt_of_le_of_lt (Nat.zero_le _) hi
      rw [Counted, hlen, ← h]
      exact UInt32.toNat_sub_of_le _ _ hle
    · by_cases h1 : l.parsers.length = 1
      · simp [destruct, hone, h1]
      · simp only [destruct, hone, h1, if_false]
        refine iff_of_false (by simp) fun h0 => ?_
        omega
    · by_cases h1 : l.parsers.length = 1
      · intro _
        rw [hlen, h1]
      · simp [destruct, hone, h1]
  · simp [happen, hi] at hl'

theorem managed_iff {l : Lifetimes} (h : l.Counted) (e : Event) : l.Managed e ↔ l.Owned e := by
  cases e with
  | create parseBufferSize => exact managed_create_iff h parseBufferSize
  | copy index =>
      rcases Nat.lt_or_ge index l.parsers.length with hi | hi
      · exact iff_of_false (not_managed_copy h hi) (Nat.not_le.mpr hi)
      · refine iff_of_true (fun l' hl' => ?_) hi
        simp [happen, List.getElem?_eq_none hi] at hl'
  | destroy index => exact iff_of_true (managed_destroy h index) trivial

/-! ## Runs -/

/-- Xerces is initialised exactly while parsers are alive if and only if no live parser is ever copied and there are
never `2 ^ 32` of them. -/
theorem run_managed_iff (es : List Event) : Along happen Managed initial es ↔ Along happen Owned initial es :=
  along_congr (I := Counted) (fun _ e h => managed_iff h e)
    (fun _ e l' h ho hl' => ((managed_iff h e).mpr ho l' hl').1) (rfl : initial.Counted) es

/-- A parser is created and copied, and the copy is destroyed: Xerces is terminated with the parser still alive, and
when that is destroyed the count wraps. -/
theorem copied_parser_outlives_xerces :
    (∃ l, run happen initial [.create 4096, .copy 0, .destroy 1] = .ok () l ∧
      l.platformCall = some .terminatePlatform ∧ l.parsers.length = 1) ∧
    (∃ l, run happen initial [.create 4096, .copy 0, .destroy 1, .destroy 0] = .ok () l ∧
      l.xercesRefCount = 4294967295) ∧
    ¬ Along happen Managed initial [.create 4096, .copy 0, .destroy 1] := by
  refine ⟨⟨_, rfl, rfl, rfl⟩, ⟨_, rfl, rfl⟩, fun h => ?_⟩
  have hcopy := (h.2 _ rfl).1
  exact not_managed_copy (rfl : (initial.construct 4096).Counted) (by decide) hcopy

end Lifetimes

end FalconAS.Xml

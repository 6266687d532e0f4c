import FalconAS.Seq.Frames
import FalconAS.Http.Data

/-!
# Framing of NLAP messages

The markers of `lib/xml/xmlconstants.hpp` and `splitMessages` of `lib/xml/xmlparser.cpp`. A slice is kept with its
position in the input, since the nodes of a result point into the input.
-/

namespace FalconAS.Xml

open FalconAS.Seq
open FalconAS.Http (Bytes ofString)

def nlapXmlStartMarker : Bytes := ofString "<NLAP>"

def nlapXmlEndMarker : Bytes := ofString "</NLAP>"

/-- A view of the input: its position there and its bytes. -/
structure MessageSlice where
  offset : Nat
  slice : Bytes
  deriving DecidableEq

/-- The loop of `splitMessages`: what it yields from `cursor` on, and `FramingError`. -/
def splitMessagesLoop (input : Bytes) : Nat → Nat → Option Nat → List MessageSlice × Bool
  | 0, _, _ => ([], false)
  | fuel + 1, cursor, lastEnd =>
      match findFrom nlapXmlStartMarker input cursor with
      | none => ([], false)
      | some start =>
          if lastEnd ≠ none ∧ lastEnd ≠ some start then ([], true)
          else
            match findFrom nlapXmlEndMarker input start with
            | none => ([], false)
            | some stop =>
                let messageEnd := stop + nlapXmlEndMarker.length
                let yielded := splitMessagesLoop input fuel messageEnd (some messageEnd)
                (⟨start, (input.drop start).take (messageEnd - start)⟩ :: yielded.1, yielded.2)

/-- The slices in the order in which the generator yields them, and `FramingError` as it is at its end. The generator
sets it only when no slice follows, so a consumer that takes slice after slice cannot see it earlier. -/
def splitMessages (input : Bytes) : List MessageSlice × Bool :=
  splitMessagesLoop input (input.length + 1) 0 none

/-! ## The loop takes frames -/

def nlap : Markers UInt8 where
  lead := 60
  opening := ofString "NLAP>"
  closing := ofString "/NLAP>"
  lead_not_mem_opening := by decide
  lead_not_mem_closing := by decide
  not_opening_closing := by decide
  not_closing_opening := by decide

theorem start_nlap : nlap.start = nlapXmlStartMarker := rfl

theorem stop_nlap : nlap.stop = nlapXmlEndMarker := rfl

theorem nlapXmlStartMarker_ne_nil : nlapXmlStartMarker ≠ [] := nlap.start_ne_nil

theorem nlapXmlEndMarker_ne_nil : nlapXmlEndMarker ≠ [] := nlap.stop_ne_nil

/-- The slices that the messages make when the first of them is at `pos`. -/
def slicesFrom : Nat → List Bytes → List MessageSlice
  | _, [] => []
  | pos, m :: ms => ⟨pos, m⟩ :: slicesFrom (pos + m.length) ms

/-- What is behind the last message makes a framing error. -/
def Disrupted (rest : Bytes) : Prop := nlapXmlStartMarker <:+: rest ∧ ¬ nlapXmlStartMarker <+: rest

instance (rest : Bytes) : Decidable (Disrupted rest) := inferInstanceAs (Decidable (_ ∧ _))

theorem find_start_of_begins {s : Bytes} (h : nlapXmlStartMarker <+: s) : find nlapXmlStartMarker s = some 0 := by
  cases s with
  | nil => exact absurd (List.prefix_nil.mp h) nlapXmlStartMarker_ne_nil
  | cons b s => simp [find, List.isPrefixOf_iff_prefix.mpr h]

/-- One round of the loop from a start marker at the cursor. -/
theorem splitMessagesLoop_begins {p s : Bytes} {lastEnd : Option Nat} (fuel : Nat)
    (hs : nlapXmlStartMarker <+: s) (hlast : lastEnd = none ∨ lastEnd = some p.length) :
    splitMessagesLoop (p ++ s) (fuel + 1) p.length lastEnd =
      match find nlapXmlEndMarker s with
      | none => ([], false)
      | some stop =>
          let messageEnd := p.length + stop + nlapXmlEndMarker.length
          let yielded := splitMessagesLoop (p ++ s) fuel messageEnd (some messageEnd)
          (⟨p.length, s.take (messageEnd - p.length)⟩ :: yielded.1, yielded.2) := by
  have hgo : ¬ (lastEnd ≠ none ∧ lastEnd ≠ some p.length) := by
    rcases hlast with rfl | rfl <;> simp
  simp only [splitMessagesLoop, findFrom_append, find_start_of_begins hs, Option.map_some, Nat.add_zero, hgo,
    if_false]
  cases find nlapXmlEndMarker s <;> simp

theorem splitMessagesLoop_frames {s r : Bytes} {ms : List Bytes} (h : nlap.Frames s ms r) (p : Bytes) {fuel : Nat}
    (hfuel : s.length < fuel) :
    splitMessagesLoop (p ++ s) fuel p.length (some p.length) =
      (slicesFrom p.length ms, decide (Disrupted r)) := by
  induction h generalizing p fuel with
  | @done s hdone =>
      obtain ⟨fuel, rfl⟩ : ∃ n, fuel = n + 1 := ⟨fuel - 1, by omega⟩
      by_cases hs : nlapXmlStartMarker <+: s
      · have hstop : find nlapXmlEndMarker s = none := find_eq_none_iff.mpr (hdone hs)
        rw [splitMessagesLoop_begins fuel hs (.inr rfl), hstop]
        simp [slicesFrom, Disrupted, hs]
      · cases hf : find nlapXmlStartMarker s with
        | none =>
            have hin : ¬ nlapXmlStartMarker <:+: s := find_eq_none_iff.mp hf
            simp [splitMessagesLoop, hf, slicesFrom, Disrupted, hin]
        | some i =>
            have hcut := (FirstCut.of_find nlapXmlStartMarker_ne_nil hf).1
            have hi : i ≠ 0 := by
              intro hi
              subst hi
              exact hs ⟨_, hcut.eq.symm⟩
            simp [splitMessagesLoop, hf, hi, slicesFrom, Disrupted, hs, hcut.isInfix]
  | @frame m v r ms hm _ ih =>
      obtain ⟨body, rfl, hbody⟩ := hm
      obtain ⟨fuel, rfl⟩ : ∃ n, fuel = n + 1 := ⟨fuel - 1, by omega⟩
      have hs : nlapXmlStartMarker <+: nlap.frame body ++ v :=
        ⟨body ++ nlap.stop ++ v, by simp [Markers.frame, start_nlap]⟩
      have hstop : find nlapXmlEndMarker (nlap.frame body ++ v) = some (nlap.start ++ body).length :=
        (Markers.firstCut_frame hbody v).find_eq nlapXmlEndMarker_ne_nil
      have hend : p.length + (nlap.start ++ body).length + nlapXmlEndMarker.length
          = (p ++ nlap.frame body).length := by
        simp only [List.length_append, Markers.length_frame, stop_nlap]
        omega
      have hnext := @ih (p ++ nlap.frame body) fuel (by
        have hpos := List.length_pos_iff.mpr nlap.start_ne_nil
        simp only [List.length_append, Markers.length_frame] at hfuel
        omega)
      rw [List.append_assoc] at hnext
      rw [splitMessagesLoop_begins fuel hs (.inr rfl), hstop]
      simp only [hend, hnext]
      simp [slicesFrom]

/-- Nothing before the first start marker matters. -/
theorem splitMessages_of_firstCut {input pre v : Bytes} (h : FirstCut nlapXmlStartMarker input pre v) :
    splitMessages input = splitMessagesLoop (pre ++ (nlapXmlStartMarker ++ v)) (input.length + 1) pre.length
      (some pre.length) := by
  have hs : nlapXmlStartMarker <+: nlapXmlStartMarker ++ v := List.prefix_append _ _
  have heq : input = pre ++ (nlapXmlStartMarker ++ v) := by rw [h.eq, List.append_assoc]
  have hfind : findFrom nlapXmlStartMarker input 0 = some pre.length := by
    simp [findFrom, h.find_eq nlapXmlStartMarker_ne_nil]
  have hhere : findFrom nlapXmlStartMarker input pre.length = some pre.length := by
    rw [heq, findFrom_append, find_start_of_begins hs]
    rfl
  simp [splitMessages, splitMessagesLoop, hfind, ← heq, hhere]

/-! ## What `splitMessages` yields -/

theorem splitMessages_of_not_infix {input : Bytes} (h : ¬ nlapXmlStartMarker <:+: input) :
    splitMessages input = ([], false) := by
  simp [splitMessages, splitMessagesLoop, findFrom, find_eq_none_iff.mpr h]

theorem splitMessages_eq {input pre v r : Bytes} {ms : List Bytes} (h : FirstCut nlapXmlStartMarker input pre v)
    (hms : nlap.Frames (nlapXmlStartMarker ++ v) ms r) :
    splitMessages input = (slicesFrom pre.length ms, decide (Disrupted r)) := by
  rw [splitMessages_of_firstCut h]
  apply splitMessagesLoop_frames hms
  have hlen := congrArg List.length h.eq
  simp only [List.length_append] at hlen ⊢
  omega

theorem splitMessages_cases (input : Bytes) :
    (¬ nlapXmlStartMarker <:+: input ∧ splitMessages input = ([], false)) ∨
      ∃ pre v ms r, FirstCut nlapXmlStartMarker input pre v ∧ nlap.Frames (nlapXmlStartMarker ++ v) ms r ∧
        splitMessages input = (slicesFrom pre.length ms, decide (Disrupted r)) := by
  rcases not_infix_or_firstCut nlapXmlStartMarker_ne_nil input with h | ⟨pre, v, h⟩
  · exact Or.inl ⟨h, splitMessages_of_not_infix h⟩
  · obtain ⟨ms, r, hms⟩ := Markers.exists_frames nlap (nlapXmlStartMarker ++ v)
    exact Or.inr ⟨pre, v, ms, r, h, hms, splitMessages_eq h hms⟩

@[simp] theorem map_slice_slicesFrom (pos : Nat) (ms : List Bytes) :
    (slicesFrom pos ms).map MessageSlice.slice = ms := by
  induction ms generalizing pos with
  | nil => rfl
  | cons m ms ih => simp [slicesFrom, ih]

theorem mem_slicesFrom {pos : Nat} {ms : List Bytes} {s : MessageSlice} (h : s ∈ slicesFrom pos ms) :
    s.slice ∈ ms := by
  rw [← map_slice_slicesFrom pos ms]
  exact List.mem_map_of_mem h

theorem slicesFrom_eq_nil_iff {pos : Nat} {ms : List Bytes} : slicesFrom pos ms = [] ↔ ms = [] := by
  cases ms <;> simp [slicesFrom]

theorem slicesFrom_append (pos : Nat) (ms ns : List Bytes) :
    slicesFrom pos (ms ++ ns) = slicesFrom pos ms ++ slicesFrom (pos + ms.flatten.length) ns := by
  induction ms generalizing pos with
  | nil => rfl
  | cons m ms ih => simp [slicesFrom, ih, Nat.add_assoc]

/-- Messages one after another are split into just these messages. -/
theorem splitMessages_flatten {ms : List Bytes} (hms : ∀ m ∈ ms, nlap.IsFrame m) :
    splitMessages ms.flatten = (slicesFrom 0 ms, false) := by
  cases ms with
  | nil => rfl
  | cons m ms =>
      obtain ⟨body, rfl, hbody⟩ := hms m List.mem_cons_self
      have hframes := Markers.Frames.flatten hms
      have heq : (nlap.frame body :: ms).flatten = nlapXmlStartMarker ++ (body ++ nlap.stop ++ ms.flatten) := by
        simp [Markers.frame, start_nlap]
      rw [heq] at hframes ⊢
      have hcut : FirstCut nlapXmlStartMarker (nlapXmlStartMarker ++ (body ++ nlap.stop ++ ms.flatten)) []
          (body ++ nlap.stop ++ ms.flatten) := ⟨rfl, not_infix_dropLast nlapXmlStartMarker_ne_nil⟩
      rw [splitMessages_eq hcut hframes]
      rfl

end FalconAS.Xml

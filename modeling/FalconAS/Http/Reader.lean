import FalconAS.Http.Blocks
import FalconAS.Machine.Incremental

/-!
# The reader behind the parser

What the parser is for, without buffers, chunks and batches: a reader of a byte stream. It takes one block after
another off the stream; behind the block of a POST request it takes the announced number of bytes, whatever they
are; it passes over a block that it rejects; and it halts where the parser throws. It makes each step as soon as
the bytes for it are there, so the chunks in which they come play no part.
-/

namespace FalconAS.Http

open FalconAS.Seq FalconAS.Machine

structure Reader where
  requests : List RequestProperties
  input : Bytes
  pending : Option (RequestProperties × Nat)
  halted : Bool

namespace Reader

variable {R : Readers}

/-- The block `b` has been taken off the stream, and `rest` is what follows. -/
def takeBlock (R : Readers) (r : Reader) (b rest : Bytes) : Reader :=
  match examine R b with
  | .empty => { r with input := rest }
  | .rejected _ _ => { r with input := rest }
  | .throws _ _ => { r with input := rest, halted := true }
  | .get props => { r with input := rest, requests := r.requests ++ [props] }
  | .post props length => { r with input := rest, pending := some (props, length.toNat) }

def step (R : Readers) (r : Reader) : Option Reader :=
  if r.halted then none
  else
    match r.pending with
    | some (props, n) =>
        if n ≤ r.input.length then
          some { r with
            requests := r.requests ++ [{ props with payload := r.input.take n }]
            input := r.input.drop n
            pending := none }
        else none
    | none =>
        match find http11EndMarker r.input with
        | none => none
        | some pos => some (takeBlock R r (r.input.take pos) (r.input.drop (pos + http11EndMarker.length)))

def feed (r : Reader) (bytes : Bytes) : Reader := { r with input := r.input ++ bytes }

theorem takeBlock_feed (r : Reader) (b rest bytes : Bytes) :
    (takeBlock R r b rest).feed bytes = takeBlock R (r.feed bytes) b (rest ++ bytes) := by
  unfold takeBlock
  cases examine R b with
  | empty => rfl
  | rejected props length => rfl
  | throws e props => rfl
  | get props => rfl
  | post props length => rfl

/-! ## The steps -/

theorem step_halted {r : Reader} (h : r.halted = true) : step R r = none := by
  rw [step, if_pos h]

theorem step_pending {r : Reader} {props : RequestProperties} {n : Nat} (hh : r.halted = false)
    (hp : r.pending = some (props, n)) (hn : n ≤ r.input.length) :
    step R r = some { r with
      requests := r.requests ++ [{ props with payload := r.input.take n }]
      input := r.input.drop n
      pending := none } := by
  simp only [step, hh, Bool.false_eq_true, ↓reduceIte, hp, hn]

theorem step_short {r : Reader} {props : RequestProperties} {n : Nat} (hp : r.pending = some (props, n))
    (hn : r.input.length < n) : step R r = none := by
  simp only [step, hp, Nat.not_le.mpr hn, ↓reduceIte, ite_self]

theorem step_cut {r : Reader} {b rest : Bytes} (hh : r.halted = false) (hp : r.pending = none)
    (hcut : FirstCut http11EndMarker r.input b rest) : step R r = some (takeBlock R r b rest) := by
  have htake : r.input.take b.length = b := by rw [hcut.eq, List.append_assoc, List.take_left]
  have hdrop : r.input.drop (b.length + http11EndMarker.length) = rest := by
    rw [hcut.eq]
    exact List.drop_left' (by rw [List.length_append])
  simp only [step, hh, Bool.false_eq_true, ↓reduceIte, hp, hcut.find_eq http11EndMarker_ne_nil, htake, hdrop]

theorem step_no_marker {r : Reader} (hp : r.pending = none) (hm : ¬ http11EndMarker <:+: r.input) :
    step R r = none := by
  simp only [step, hp, find_eq_none_iff.mpr hm, ite_self]

theorem step_feed {r r' : Reader} (bytes : Bytes) (h : step R r = some r') :
    step R (r.feed bytes) = some (r'.feed bytes) := by
  cases hh : r.halted with
  | true => rw [step_halted hh] at h; cases h
  | false =>
      cases hp : r.pending with
      | none =>
          rcases not_infix_or_firstCut http11EndMarker_ne_nil r.input with hm | ⟨b, rest, hcut⟩
          · rw [step_no_marker hp hm] at h
            cases h
          · rw [step_cut hh hp hcut] at h
            cases h
            rw [step_cut (r := r.feed bytes) hh hp (hcut.append bytes), takeBlock_feed]
      | some pending =>
          obtain ⟨props, n⟩ := pending
          by_cases hn : n ≤ r.input.length
          · rw [step_pending hh hp hn] at h
            cases h
            have hlen : n ≤ (r.feed bytes).input.length := by
              rw [feed, List.length_append]
              omega
            rw [step_pending (r := r.feed bytes) hh hp hlen]
            simp only [feed, List.take_append_of_le_length hn, List.drop_append_of_le_length hn]
          · rw [step_short hp (Nat.lt_of_not_le hn)] at h
            cases h

def machine (R : Readers) : Incremental Reader UInt8 where
  step := step R
  feed := feed
  feed_nil r := by simp [feed]
  feed_append r s t := by simp [feed]
  step_feed := step_feed

theorem settles_self {r : Reader} (h : step R r = none) : (machine R).Settles r r := ⟨.refl, h⟩

theorem delivers_halted {r : Reader} (h : r.halted = true) (ts : List Bytes) :
    (machine R).Delivers r ts (r.feed ts.flatten) := by
  induction ts generalizing r with
  | nil =>
      rw [List.flatten_nil, show r.feed [] = r from (machine R).feed_nil r]
      exact .nil
  | cons t ts ih =>
      rw [List.flatten_cons, show r.feed (t ++ ts.flatten) = (r.feed t).feed ts.flatten from
        (machine R).feed_append r t ts.flatten]
      exact .cons (settles_self (step_halted h)) (ih h)

end Reader

end FalconAS.Http

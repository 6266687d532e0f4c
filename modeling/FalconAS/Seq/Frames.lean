import FalconAS.Seq.Find

/-!
# Frames between an opening and a closing marker

A frame is an opening marker, a body without a closing marker, and a closing marker. `Frames k s ms r` describes what
a loop ends with that takes one frame after another from the front of `s`: the frames `ms` and the remainder `r`,
which does not begin with a frame.
-/

namespace FalconAS.Seq

/-- Two markers with the same first element. It occurs nowhere else in them, so that occurrences never overlap. -/
structure Markers (α : Type*) where
  lead : α
  opening : List α
  closing : List α
  lead_not_mem_opening : lead ∉ opening
  lead_not_mem_closing : lead ∉ closing
  not_opening_closing : ¬ opening <+: closing
  not_closing_opening : ¬ closing <+: opening

namespace Markers

variable {α : Type*} (k : Markers α)

def start : List α := k.lead :: k.opening

def stop : List α := k.lead :: k.closing

def frame (body : List α) : List α := k.start ++ body ++ k.stop

def IsFrame (m : List α) : Prop := ∃ body, m = k.frame body ∧ ¬ k.stop <:+: body

theorem start_ne_nil : k.start ≠ [] := List.cons_ne_nil _ _

theorem stop_ne_nil : k.stop ≠ [] := List.cons_ne_nil _ _

variable {k}

theorem length_frame (body : List α) :
    (k.frame body).length = k.start.length + body.length + k.stop.length := by
  rw [frame, List.length_append, List.length_append]

theorem IsFrame.ne_nil {m : List α} (h : k.IsFrame m) : m ≠ [] := by
  obtain ⟨body, rfl, _⟩ := h
  exact List.cons_ne_nil _ _

/-! ## Occurrences of the markers -/

theorem not_stop_start (w : List α) : ¬ k.stop <+: k.start ++ w := by
  intro h
  have h : k.closing <+: k.opening ++ w := (List.cons_prefix_cons.mp h).2
  rcases List.prefix_or_prefix_of_prefix h (List.prefix_append k.opening w) with hle | hle
  · exact k.not_closing_opening hle
  · exact k.not_opening_closing hle

/-- The closing marker does not reach into an opening one. -/
theorem stop_infix_start_append_iff {w : List α} : k.stop <:+: k.start ++ w ↔ k.stop <:+: w := by
  refine ⟨fun h => ?_, fun h => h.trans (List.suffix_append _ _).isInfix⟩
  by_contra hw
  rcases List.infix_cons_iff.mp h with hpre | hin
  · exact not_stop_start w hpre
  · exact not_infix_append_of_head k.lead_not_mem_opening hw hin

theorem firstCut_frame {body : List α} (hbody : ¬ k.stop <:+: body) (v : List α) :
    FirstCut k.stop (k.frame body ++ v) (k.start ++ body) v :=
  FirstCut.of_head k.lead_not_mem_closing (fun h => hbody (stop_infix_start_append_iff.mp h)) v

/-- In a frame the closing marker stands at the end only. -/
theorem IsFrame.closed {m : List α} (h : k.IsFrame m) {u v : List α} (huv : m = u ++ k.stop ++ v) : v = [] := by
  obtain ⟨body, rfl, hbody⟩ := h
  by_contra hv
  apply (firstCut_frame hbody []).first
  have hpre : u ++ k.stop <+: k.frame body := ⟨v, huv.symm⟩
  have hlen := congrArg List.length huv
  have hpos := List.length_pos_iff.mpr hv
  rw [length_frame, List.length_append, List.length_append] at hlen
  have hle : u ++ k.stop <+: k.start ++ body ++ k.stop.dropLast := by
    apply List.prefix_of_prefix_length_le hpre
    · exact (List.prefix_append_right_inj _).mpr (List.dropLast_prefix _)
    · simp only [List.length_append, List.length_dropLast]
      omega
  exact (List.suffix_append u k.stop).isInfix.trans hle.isInfix

/-- Where the closing marker comes first behind an opening one, there is a frame. -/
theorem exists_frame {s u v : List α} (hs : k.start <+: s) (hcut : FirstCut k.stop s u v) :
    ∃ body, ¬ k.stop <:+: body ∧ u = k.start ++ body ∧ s = k.frame body ++ v := by
  obtain ⟨w, rfl⟩ := hs
  have hw : k.stop <:+: w := stop_infix_start_append_iff.mp hcut.isInfix
  classical
  obtain ⟨body, v', hw⟩ := (not_infix_or_firstCut k.stop_ne_nil w).resolve_left (not_not.mpr hw)
  have heq : k.start ++ w = k.frame body ++ v' := by
    rw [hw.eq, frame]
    simp only [List.append_assoc]
  obtain ⟨rfl, rfl⟩ := hcut.unique k.stop_ne_nil (heq ▸ firstCut_frame hw.not_infix v')
  exact ⟨body, hw.not_infix, rfl, heq⟩

/-! ## Frames one after another -/

/-- `s` begins with the frames `ms` and goes on with `r`, which does not begin with a frame. -/
inductive Frames (k : Markers α) : List α → List (List α) → List α → Prop where
  | done {s : List α} : (k.start <+: s → ¬ k.stop <:+: s) → Frames k s [] s
  | frame {m v r : List α} {ms : List (List α)} : k.IsFrame m → Frames k v ms r → Frames k (m ++ v) (m :: ms) r

theorem Frames.eq {s r : List α} {ms : List (List α)} (h : Frames k s ms r) : s = ms.flatten ++ r := by
  induction h with
  | done _ => rfl
  | frame _ _ ih => rw [List.flatten_cons, List.append_assoc, ← ih]

theorem Frames.isFrame {s r m : List α} {ms : List (List α)} (h : Frames k s ms r) (hm : m ∈ ms) :
    k.IsFrame m := by
  induction h with
  | done _ => cases hm
  | frame hf _ ih =>
      rcases List.mem_cons.mp hm with rfl | hm
      · exact hf
      · exact ih hm

theorem Frames.rest {s r : List α} {ms : List (List α)} (h : Frames k s ms r) :
    k.start <+: r → ¬ k.stop <:+: r := by
  induction h with
  | done hs => exact hs
  | frame _ _ ih => exact ih

theorem exists_frames (k : Markers α) (s : List α) : ∃ ms r, Frames k s ms r := by
  induction hn : s.length using Nat.strong_induction_on generalizing s with
  | _ n ih =>
      by_cases hdone : k.start <+: s → ¬ k.stop <:+: s
      · exact ⟨[], s, .done hdone⟩
      · classical
        obtain ⟨hs, hstop⟩ := Classical.not_imp.mp hdone
        obtain ⟨u, v, hcut⟩ := (not_infix_or_firstCut k.stop_ne_nil s).resolve_left hstop
        obtain ⟨body, hbody, _, rfl⟩ := exists_frame hs hcut
        have hframe : k.IsFrame (k.frame body) := ⟨body, rfl, hbody⟩
        have hpos := List.length_pos_iff.mpr hframe.ne_nil
        obtain ⟨ms, r, h⟩ := ih v.length (by rw [← hn, List.length_append]; omega) v rfl
        exact ⟨_, r, .frame hframe h⟩

/-- Frames in front of a sequence are taken before those of the sequence itself. -/
theorem Frames.flatten_append {s r : List α} {ms ns : List (List α)} (hms : ∀ m ∈ ms, k.IsFrame m)
    (h : Frames k s ns r) : Frames k (ms.flatten ++ s) (ms ++ ns) r := by
  induction ms with
  | nil => exact h
  | cons m ms ih =>
      rw [List.flatten_cons, List.append_assoc]
      exact .frame (hms m List.mem_cons_self) (ih fun m' hm' => hms m' (List.mem_cons_of_mem _ hm'))

/-- More input behind the sequence does not change the frames that are there already. -/
theorem Frames.append {s r : List α} {ms : List (List α)} (h : Frames k s ms r) (v : List α) {r' : List α}
    {ns : List (List α)} (hv : Frames k (r ++ v) ns r') : Frames k (s ++ v) (ms ++ ns) r' := by
  rw [h.eq, List.append_assoc]
  exact Frames.flatten_append (fun _ hm => h.isFrame hm) hv

theorem Frames.flatten {ms : List (List α)} (hms : ∀ m ∈ ms, k.IsFrame m) : Frames k ms.flatten ms [] := by
  have h := Frames.flatten_append hms (.done fun h => absurd (List.prefix_nil.mp h) k.start_ne_nil)
  rwa [List.append_nil, List.append_nil] at h

end Markers

end FalconAS.Seq

import Mathlib.Data.List.Infix

/-!
# Runs of an object whose calls can throw

An object of state `σ` is called with inputs of type `ι`. A call returns normally or throws an exception, and
in both cases it leaves a state behind (`EStateM.Result`). A run makes one call after another and ends at the
first exception.
-/

namespace FalconAS.Machine

variable {ε σ τ ι α φ : Type} {call : σ → ι → EStateM.Result ε σ Unit}

/-- The state a call leaves behind, whether it returned or threw. -/
def stateOf : EStateM.Result ε σ α → σ
  | .ok _ s => s
  | .error _ s => s

def Returns (r : EStateM.Result ε σ Unit) : Prop := ∃ s, r = .ok () s

/-- The result with its state seen through `f`. -/
def mapState (f : σ → τ) : EStateM.Result ε σ Unit → EStateM.Result ε τ Unit
  | .ok _ s => .ok () (f s)
  | .error e s => .error e (f s)

/-- One call after another, up to the first exception. -/
def run (call : σ → ι → EStateM.Result ε σ Unit) : σ → List ι → EStateM.Result ε σ Unit
  | s, [] => .ok () s
  | s, i :: is =>
      match call s i with
      | .ok _ s' => run call s' is
      | .error e s' => .error e s'

/-- Every call that the run makes meets `P` in the state before it. -/
def Along (call : σ → ι → EStateM.Result ε σ Unit) (P : σ → ι → Prop) : σ → List ι → Prop
  | _, [] => True
  | s, i :: is => P s i ∧ ∀ s', call s i = .ok () s' → Along call P s' is

/-- Along a concrete run a decidable condition can be evaluated. -/
instance decidableAlong {P : σ → ι → Prop} [∀ s i, Decidable (P s i)] :
    (s : σ) → (is : List ι) → Decidable (Along call P s is)
  | _, [] => isTrue trivial
  | s, i :: is =>
      match hc : call s i with
      | .ok _ s' =>
          have := decidableAlong (P := P) s' is
          decidable_of_iff (P s i ∧ Along call P s' is)
            (and_congr_right fun _ => ⟨fun h t ht => by rw [hc] at ht; cases ht; exact h, fun h => h s' hc⟩)
      | .error e s' =>
          decidable_of_iff (P s i) (iff_self_and.mpr fun _ t ht => by rw [hc] at ht; cases ht)

@[simp] theorem returns_ok (u : Unit) (s : σ) : Returns (.ok u s : EStateM.Result ε σ Unit) := ⟨s, rfl⟩

@[simp] theorem not_returns_error (e : ε) (s : σ) : ¬ Returns (.error e s : EStateM.Result ε σ Unit) := by
  rintro ⟨s', h⟩
  cases h

instance (r : EStateM.Result ε σ Unit) : Decidable (Returns r) :=
  match r with
  | .ok _ s => isTrue ⟨s, rfl⟩
  | .error e s => isFalse (not_returns_error e s)

theorem Returns.eq_ok {r : EStateM.Result ε σ Unit} (h : Returns r) : r = .ok () (stateOf r) := by
  obtain ⟨s, rfl⟩ := h
  rfl

@[simp] theorem returns_mapState (f : σ → τ) (r : EStateM.Result ε σ Unit) :
    Returns (mapState f r) ↔ Returns r := by
  cases r <;> simp [mapState]

@[simp] theorem stateOf_mapState (f : σ → τ) (r : EStateM.Result ε σ Unit) :
    stateOf (mapState f r) = f (stateOf r) := by
  cases r <;> rfl

theorem mapState_eq_ok {f : σ → τ} {r : EStateM.Result ε σ Unit} {t : τ} (h : mapState f r = .ok () t) :
    ∃ s, r = .ok () s ∧ f s = t := by
  cases r with
  | ok u s => cases h; exact ⟨s, rfl, rfl⟩
  | error e s => cases h

theorem run_cons_ok {s s' : σ} {i : ι} {is : List ι} (h : call s i = .ok () s') :
    run call s (i :: is) = run call s' is := by
  simp only [run, h]

theorem run_cons_error {s s' : σ} {e : ε} {i : ι} {is : List ι} (h : call s i = .error e s') :
    run call s (i :: is) = .error e s' := by
  simp only [run, h]

theorem run_append {s s' : σ} {is : List ι} (h : run call s is = .ok () s') (js : List ι) :
    run call s (is ++ js) = run call s' js := by
  induction is generalizing s with
  | nil => cases h; rfl
  | cons i is ih =>
      cases hc : call s i with
      | ok u t =>
          rw [run_cons_ok hc] at h
          rw [List.cons_append, run_cons_ok hc, ih h]
      | error e t =>
          rw [run_cons_error hc] at h
          cases h

theorem run_concat {s s' : σ} {is : List ι} (h : run call s is = .ok () s') (i : ι) :
    run call s (is ++ [i]) = call s' i := by
  rw [run_append h]
  cases hc : call s' i with
  | ok u t => exact run_cons_ok hc
  | error e t => exact run_cons_error hc

theorem Along.of_append {P : σ → ι → Prop} {s : σ} {is js : List ι} (h : Along call P s (is ++ js)) :
    Along call P s is := by
  induction is generalizing s with
  | nil => trivial
  | cons i is ih => exact ⟨h.1, fun s' hs' => ih (h.2 s' hs')⟩

theorem Along.imp {P Q : σ → ι → Prop} (hPQ : ∀ s i, P s i → Q s i) {s : σ} {is : List ι}
    (h : Along call P s is) : Along call Q s is := by
  induction is generalizing s with
  | nil => trivial
  | cons i is ih => exact ⟨hPQ s i h.1, fun s' hs' => ih (h.2 s' hs')⟩

/-! ## Invariants of runs -/

/-- What the invariant and `P` say about a call, all calls of a run that meets `P` do. -/
theorem Along.of_invariant {P Q : σ → ι → Prop} {I : σ → Prop}
    (hstep : ∀ s i s', I s → P s i → call s i = .ok () s' → I s') (hQ : ∀ s i, I s → P s i → Q s i)
    {s : σ} {is : List ι} (hI : I s) (hP : Along call P s is) : Along call Q s is := by
  induction is generalizing s with
  | nil => trivial
  | cons i is ih => exact ⟨hQ s i hI hP.1, fun s' hs' => ih (hstep s i s' hI hP.1 hs') (hP.2 s' hs')⟩

/-- Conditions that agree wherever the invariant holds agree along a run, here along one whose calls all meet `R`. -/
theorem along_congr_of {P Q R : σ → ι → Prop} {I : σ → Prop} (hPQ : ∀ s i, I s → R s i → (P s i ↔ Q s i))
    (hstep : ∀ s i s', I s → R s i → Q s i → call s i = .ok () s' → I s') {s : σ} (hI : I s) {is : List ι}
    (hR : Along call R s is) : Along call P s is ↔ Along call Q s is := by
  induction is generalizing s with
  | nil => exact Iff.rfl
  | cons i is ih =>
      have hi := hPQ s i hI hR.1
      constructor
      · rintro ⟨hp, hrest⟩
        have hq := hi.mp hp
        exact ⟨hq, fun s' hs' => (ih (hstep s i s' hI hR.1 hq hs') (hR.2 s' hs')).mp (hrest s' hs')⟩
      · rintro ⟨hq, hrest⟩
        exact ⟨hi.mpr hq, fun s' hs' => (ih (hstep s i s' hI hR.1 hq hs') (hR.2 s' hs')).mpr (hrest s' hs')⟩

theorem along_true (s : σ) (is : List ι) : Along call (fun _ _ => True) s is := by
  induction is generalizing s with
  | nil => trivial
  | cons i is ih => exact ⟨trivial, fun s' _ => ih s'⟩

theorem along_congr {P Q : σ → ι → Prop} {I : σ → Prop} (hPQ : ∀ s i, I s → (P s i ↔ Q s i))
    (hstep : ∀ s i s', I s → Q s i → call s i = .ok () s' → I s') {s : σ} (hI : I s) (is : List ι) :
    Along call P s is ↔ Along call Q s is :=
  along_congr_of (fun s i hI _ => hPQ s i hI) (fun s i s' hI _ => hstep s i s' hI) hI (along_true s is)

/-- What every call keeps, given the inputs so far, holds where the run returns. -/
theorem run_history {P : σ → ι → Prop} {I : List ι → σ → Prop}
    (hstep : ∀ hist s i s', I hist s → P s i → call s i = .ok () s' → I (hist ++ [i]) s')
    (hist : List ι) {is : List ι} {s s' : σ} (hI : I hist s) (hP : Along call P s is)
    (hrun : run call s is = .ok () s') : I (hist ++ is) s' := by
  induction is generalizing hist s with
  | nil => cases hrun; simpa using hI
  | cons i is ih =>
      cases hc : call s i with
      | ok _ t =>
          rw [run_cons_ok hc] at hrun
          have ht := ih _ (hstep _ _ _ _ hI hP.1 hc) (hP.2 t hc) hrun
          simpa using ht
      | error e t => rw [run_cons_error hc] at hrun; cases hrun

/-- A run that throws does so in a call from a state that the earlier calls kept the invariant up to. -/
theorem run_error_history {P : σ → ι → Prop} {I : List ι → σ → Prop}
    (hstep : ∀ hist s i s', I hist s → P s i → call s i = .ok () s' → I (hist ++ [i]) s')
    (hist : List ι) {is : List ι} {s s' : σ} {e : ε} (hI : I hist s) (hP : Along call P s is)
    (hrun : run call s is = .error e s') :
    ∃ is₁ i is₂ t, is = is₁ ++ i :: is₂ ∧ I (hist ++ is₁) t ∧ P t i ∧ call t i = .error e s' := by
  induction is generalizing hist s with
  | nil => cases hrun
  | cons i is ih =>
      cases hc : call s i with
      | ok _ t =>
          rw [run_cons_ok hc] at hrun
          obtain ⟨is₁, j, is₂, t', rfl, hI', hP', hc'⟩ := ih _ (hstep _ _ _ _ hI hP.1 hc) (hP.2 t hc) hrun
          exact ⟨i :: is₁, j, is₂, t', rfl, by simpa using hI', hP', hc'⟩
      | error e' t =>
          rw [run_cons_error hc] at hrun
          cases hrun
          exact ⟨[], i, is, s, rfl, by simpa using hI, hP.1, hc⟩

theorem run_invariant {P : σ → ι → Prop} {I : σ → Prop}
    (hstep : ∀ s i s', I s → P s i → call s i = .ok () s' → I s')
    {is : List ι} {s s' : σ} (hI : I s) (hP : Along call P s is) (hrun : run call s is = .ok () s') : I s' :=
  run_history (I := fun _ => I) (fun _ s i s' => hstep s i s') [] hI hP hrun

/-- What the calls of a run put out, one after another. -/
def outputs (call : σ → ι → EStateM.Result ε σ Unit) (out : σ → ι → List α) : σ → List ι → List α
  | _, [] => []
  | s, i :: is =>
      out s i ++
        match call s i with
        | .ok _ s' => outputs call out s' is
        | .error _ _ => []

/-- What every call keeps, given what was put out so far, holds where the run returns. -/
theorem run_outputs {P : σ → ι → Prop} {I : List α → σ → Prop} {out : σ → ι → List α}
    (hstep : ∀ hist s i s', I hist s → P s i → call s i = .ok () s' → I (hist ++ out s i) s')
    (hist : List α) {is : List ι} {s s' : σ} (hI : I hist s) (hP : Along call P s is)
    (hrun : run call s is = .ok () s') : I (hist ++ outputs call out s is) s' := by
  induction is generalizing hist s with
  | nil =>
      cases hrun
      rw [outputs, List.append_nil]
      exact hI
  | cons i is ih =>
      cases hc : call s i with
      | ok _ t =>
          rw [run_cons_ok hc] at hrun
          have ht := ih _ (hstep _ _ _ _ hI hP.1 hc) (hP.2 t hc) hrun
          rw [outputs, hc, ← List.append_assoc]
          exact ht
      | error e t =>
          rw [run_cons_error hc] at hrun
          cases hrun

/-- What holds after every call, also after one that throws, holds where the run ends. -/
theorem run_stateOf {P : σ → ι → Prop} {I J : σ → Prop} (hIJ : ∀ s, I s → J s)
    (hstep : ∀ s i s', I s → P s i → call s i = .ok () s' → I s')
    (hthrow : ∀ s i e s', I s → P s i → call s i = .error e s' → J s')
    {is : List ι} {s : σ} (hI : I s) (hP : Along call P s is) : J (stateOf (run call s is)) := by
  cases hrun : run call s is with
  | ok u s' => exact hIJ s' (run_invariant hstep hI hP hrun)
  | error e s' =>
      obtain ⟨_, i, _, t, _, ht, hPt, hc⟩ :=
        run_error_history (I := fun _ => I) (fun _ s i s' => hstep s i s') [] hI hP hrun
      exact hthrow t i e s' ht hPt hc

/-- Calls that all return and keep the invariant make a run that does. -/
theorem exists_run_of_invariant {P : σ → ι → Prop} {I : σ → Prop}
    (hstep : ∀ s i, I s → P s i → ∃ s', call s i = .ok () s' ∧ I s') {s : σ} {is : List ι} (hI : I s)
    (hP : Along call P s is) : ∃ s', run call s is = .ok () s' ∧ I s' := by
  induction is generalizing s with
  | nil => exact ⟨s, rfl, hI⟩
  | cons i is ih =>
      obtain ⟨t, hc, ht⟩ := hstep s i hI hP.1
      obtain ⟨s', hrun, hs'⟩ := ih ht (hP.2 t hc)
      exact ⟨s', (run_cons_ok hc).trans hrun, hs'⟩

/-- A rank that drops with every call until `Q` holds: after as many calls it does. -/
theorem exists_run_of_rank {P : σ → ι → Prop} {Q : σ → Prop} {R : Nat → σ → Prop}
    (hstep : ∀ r s i, R r s → P s i → ∃ s', call s i = .ok () s' ∧ (Q s' ∨ ∃ r' < r, R r' s'))
    {r : Nat} {s : σ} {is : List ι} (hR : R r s) (hP : Along call P s is) (hlen : r < is.length) :
    ∃ js s', js <+: is ∧ run call s js = .ok () s' ∧ Q s' := by
  induction is generalizing r s with
  | nil => cases hlen
  | cons i is ih =>
      obtain ⟨t, hc, ht⟩ := hstep r s i hR hP.1
      rcases ht with hQ | ⟨r', hr', hR'⟩
      · exact ⟨[i], t, by simp, run_cons_ok hc, hQ⟩
      · have hlen' : r' < is.length := Nat.lt_of_lt_of_le hr' (Nat.le_of_lt_succ hlen)
        obtain ⟨js, s', hjs, hrun, hQ⟩ := ih hR' (hP.2 t hc) hlen'
        exact ⟨i :: js, s', List.cons_prefix_cons.mpr ⟨rfl, hjs⟩, (run_cons_ok hc).trans hrun, hQ⟩

/-- Where a single call returns exactly under `P`, a run returns exactly when all its calls meet `P`. -/
theorem returns_run_iff {P : σ → ι → Prop} (h : ∀ s i, Returns (call s i) ↔ P s i) (s : σ) (is : List ι) :
    Returns (run call s is) ↔ Along call P s is := by
  induction is generalizing s with
  | nil => simp [run, Along]
  | cons i is ih =>
      cases hc : call s i with
      | ok _ t =>
          have hP : P s i := (h s i).mp ⟨t, hc⟩
          simp only [run, hc, ih, Along, hP, true_and]
          exact ⟨fun ha s' hs' => by cases hs'; exact ha, fun ha => ha t rfl⟩
      | error e t =>
          have hP : ¬ P s i := fun hp => by
            obtain ⟨s', hs'⟩ := (h s i).mpr hp
            rw [hc] at hs'
            cases hs'
          simp [run, hc, Along, hP]

/-! ## Two descriptions of one object -/

/-- If `f` carries every call over, it carries every run over. -/
theorem run_mapState {call' : τ → ι → EStateM.Result ε τ Unit} {f : σ → τ}
    (h : ∀ s i, mapState f (call s i) = call' (f s) i) (s : σ) (is : List ι) :
    mapState f (run call s is) = run call' (f s) is := by
  induction is generalizing s with
  | nil => rfl
  | cons i is ih =>
      have hi := h s i
      cases hc : call s i with
      | ok _ t =>
          rw [hc] at hi
          rw [run_cons_ok hc, run_cons_ok hi.symm, ih]
      | error e t =>
          rw [hc] at hi
          rw [run_cons_error hc, run_cons_error hi.symm]
          rfl

theorem along_mapState {call' : τ → ι → EStateM.Result ε τ Unit} {f : σ → τ} {P : τ → ι → Prop}
    (h : ∀ s i, mapState f (call s i) = call' (f s) i) (s : σ) (is : List ι) :
    Along call (fun s i => P (f s) i) s is ↔ Along call' P (f s) is := by
  induction is generalizing s with
  | nil => exact Iff.rfl
  | cons i is ih =>
      have hi := h s i
      simp only [Along, ← hi]
      refine and_congr_right fun _ => ?_
      cases hc : call s i with
      | ok _ t =>
          constructor
          · rintro ha s' ⟨⟩
            exact (ih t).mp (ha t rfl)
          · rintro ha s' ⟨⟩
            exact (ih t).mpr (ha _ rfl)
      | error e t => simp [mapState]

/-- Two objects whose calls agree along a run agree on the run. -/
theorem run_congr {call' : σ → ι → EStateM.Result ε σ Unit} {s : σ} {is : List ι}
    (h : Along call (fun s i => call s i = call' s i) s is) : run call s is = run call' s is := by
  induction is generalizing s with
  | nil => rfl
  | cons i is ih =>
      cases hc : call s i with
      | ok _ t => rw [run_cons_ok hc, run_cons_ok (h.1 ▸ hc), ih (h.2 t hc)]
      | error e t => rw [run_cons_error hc, run_cons_error (h.1 ▸ hc)]

/-! ## Two runs of one object -/

/-- The inputs keep to a protocol: each is allowed in the phase that the inputs before it lead to. -/
def Obeys (next : φ → ι → φ) (allowed : φ → ι → Prop) : φ → List ι → Prop
  | _, [] => True
  | p, i :: is => allowed p i ∧ Obeys next allowed (next p i) is

instance decidableObeys {next : φ → ι → φ} {allowed : φ → ι → Prop} [∀ p i, Decidable (allowed p i)] :
    (p : φ) → (is : List ι) → Decidable (Obeys next allowed p is)
  | _, [] => isTrue trivial
  | p, i :: is =>
      have : Decidable (Obeys next allowed (next p i) is) := decidableObeys (next p i) is
      inferInstanceAs (Decidable (_ ∧ _))

/-- Two calls both return, in states related by `R`, or both throw, in states related by `O`. -/
def Agree (R O : σ → σ → Prop) : EStateM.Result ε σ Unit → EStateM.Result ε σ Unit → Prop
  | .ok _ s, .ok _ t => R s t
  | .error e s, .error e' t => e = e' ∧ O s t
  | _, _ => False

theorem Agree.mono {R R' O : σ → σ → Prop} {r r' : EStateM.Result ε σ Unit} (h : Agree R O r r')
    (hR : ∀ s t, r = .ok () s → R s t → R' s t) : Agree R' O r r' := by
  cases r with
  | ok _ s =>
      cases r' with
      | ok _ t => exact hR s t rfl h
      | error e t => exact h.elim
  | error e s =>
      cases r' with
      | ok _ t => exact h.elim
      | error e' t => exact h

/-- A relation that every allowed call keeps is kept by runs whose inputs keep to the protocol. -/
theorem run_agree {R : φ → σ → σ → Prop} {O : σ → σ → Prop} {next : φ → ι → φ} {allowed : φ → ι → Prop}
    (hR : ∀ p s t, R p s t → O s t)
    (hstep : ∀ p s t i, R p s t → allowed p i → Agree (R (next p i)) O (call s i) (call t i))
    {p : φ} {s t : σ} {is : List ι} (h : R p s t) (his : Obeys next allowed p is) :
    Agree O O (run call s is) (run call t is) := by
  induction is generalizing p s t with
  | nil => exact hR p s t h
  | cons i is ih =>
      have hi := hstep p s t i h his.1
      cases hs : call s i with
      | ok _ s' =>
          cases ht : call t i with
          | ok _ t' =>
              rw [hs, ht] at hi
              rw [run_cons_ok hs, run_cons_ok ht]
              exact ih hi his.2
          | error e t' =>
              rw [hs, ht] at hi
              exact hi.elim
      | error e s' =>
          cases ht : call t i with
          | ok _ t' =>
              rw [hs, ht] at hi
              exact hi.elim
          | error e' t' =>
              rw [hs, ht] at hi
              rw [run_cons_error hs, run_cons_error ht]
              exact hi

theorem Agree.stateOf {O : σ → σ → Prop} {r r' : EStateM.Result ε σ Unit} (h : Agree O O r r') :
    O (stateOf r) (stateOf r') := by
  cases r with
  | ok _ s =>
      cases r' with
      | ok _ t => exact h
      | error e t => exact h.elim
  | error e s =>
      cases r' with
      | ok _ t => exact h.elim
      | error e' t => exact h.2

end FalconAS.Machine

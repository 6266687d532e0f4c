import FalconAS.Shm.Lemmas.Sections

/-!
# The vector as a queue of many threads

However the steps of the threads are interleaved, what was pushed is what was taken followed by what is still in the
vector. By the rule for spinlocks this is a matter of single critical sections.
-/

namespace FalconAS.Shm

open FalconAS.Memory FalconAS.Machine SHMVector

variable {θ T : Type} {l : Layout T}

/-! ## The history -/

def Concluded (sections : List (Section θ T)) : Prop := ∀ s ∈ sections, s.outcome.isSome

theorem concluded_nil : Concluded ([] : List (Section θ T)) := by simp [Concluded]

theorem Concluded.append {sections : List (Section θ T)} (h : Concluded sections) (t : θ) (op : Op T) (o : Outcome T) :
    Concluded (sections ++ [⟨t, op, some o⟩]) :=
  List.forall_mem_append.mpr ⟨h, List.forall_mem_singleton.mpr rfl⟩

theorem pushed_append (sections : List (Section θ T)) (t : θ) (op : Op T) (o : Outcome T) :
    pushed (sections ++ [⟨t, op, some o⟩]) = pushed sections ++ (op.pushes o).toList := by
  cases h : op.pushes o <;> simp [pushed, h]

theorem taken_append (sections : List (Section θ T)) (t : θ) (op : Op T) (o : Outcome T) :
    taken (sections ++ [⟨t, op, some o⟩]) = taken sections ++ (op.takes o).toList := by
  cases h : op.takes o <;> simp [taken, h]

/-- The one section without an outcome is the last one. -/
theorem Concluded.conclude_append [DecidableEq θ] {sections : List (Section θ T)} (h : Concluded sections) (t : θ)
    (op : Op T) (o : Outcome T) : conclude t o (sections ++ [⟨t, op, none⟩]) = sections ++ [⟨t, op, some o⟩] := by
  have hpast : conclude t o sections = sections := by
    refine (List.map_congr_left fun s hs => ?_).trans (List.map_id sections)
    have hsome := h s hs
    cases hout : s.outcome with
    | none =>
        rw [hout] at hsome
        cases hsome
    | some _ => simp
  rw [conclude, List.map_append, ← conclude, hpast]
  simp

/-! ## The invariant -/

variable (l) in
/-- While the flag is clear. -/
structure Balanced (s : Shared θ T) : Prop where
  usable : Usable l s.vector
  concluded : Concluded s.sections
  balance : pushed s.sections = taken s.sections ++ s.vector.elements l

variable (l) in
/-- While the thread is inside: `past` are the sections before its own, and `xs` is what they left. -/
inductive Serving (t : θ) (s : Shared θ T) (i : Critical T) : Prop where
  | intro (past : List (Section θ T)) (op : Op T) (xs : List T) : s.sections = past ++ [⟨t, op, none⟩] →
      Concluded past → pushed past = taken past ++ xs → Usable l s.vector → At l xs s.vector op i → Serving t s i

theorem Balanced.enter {t : θ} {s s' : Shared θ T} {o : Outside T} {i : Critical T} (h : Balanced l s)
    (hstep : Enter t s o s' i) : Serving l t s' i := by
  cases hstep with
  | @acquire op _ _ hentry =>
      exact .intro s.sections op (s.vector.elements l) rfl h.concluded h.balance (h.usable.heap _ _)
        (at_entry rfl hentry)

theorem Serving.inner {t : θ} {s s' : Shared θ T} {i i' : Critical T} (h : Serving l t s i)
    (hfits : s.vector.ProductFits i) (hstep : Inner l s i s' i') : Serving l t s' i' := by
  obtain ⟨past, op, xs, hsections, hpast, hbalance, husable, hat⟩ := h
  cases hstep with
  | next hnext =>
      obtain ⟨husable', hat'⟩ := hat.next husable hfits hnext
      exact .intro past op xs hsections hpast hbalance husable' hat'

theorem Serving.leave [DecidableEq θ] {t : θ} {s s' : Shared θ T} {i : Critical T} {o : Outside T} (h : Serving l t s i)
    (hstep : Leave t s i s' o) : Balanced l s' := by
  obtain ⟨past, op, xs, hsections, hpast, hbalance, husable, hat⟩ := h
  cases hstep with
  | @release out =>
      cases hat with
      | leaving hdone =>
          have hconclude : conclude t out s.sections = past ++ [⟨t, op, some out⟩] := by
            rw [hsections]
            exact hpast.conclude_append t op out
          refine ⟨husable.heap _ _, ?_, ?_⟩
          · rw [hconclude]
            exact hpast.append t op out
          · have helements : s.vector.clear.elements l = s.vector.elements l := rfl
            rw [hconclude, pushed_append, taken_append, hbalance, List.append_assoc, List.append_assoc, helements,
              hdone]

theorem balanced_construct {segmentSizeBytes sharedMemorySize : UInt64} {sharedMemoryPtr : Nat}
    {memory : Nat → UInt8} {v : SHMVector}
    (hv : construct segmentSizeBytes sharedMemoryPtr sharedMemorySize memory = .ok v)
    (hseg : l.size ≤ segmentSizeBytes.toNat) : Balanced l (⟨v, []⟩ : Shared θ T) := by
  rw [construct_eq_ok hv]
  exact ⟨⟨⟨hseg, by simp⟩, UInt64.le_refl _⟩, concluded_nil, rfl⟩

/-! ## An operation while the other threads stand still -/

theorem outer_acquiring {s : Shared θ T} {op : Op T} {i : Critical T} (hentry : Critical.entry op = some i)
    (hop : ∀ n, op = .reserve n → s.vector.capacity < n) :
    Relation.ReflTransGen (Outer s) .idle (.acquiring op) := by
  by_cases hres : ∃ n, op = .reserve n
  · obtain ⟨n, rfl⟩ := hres
    exact .tail (.single .startReserve) (.more (hop n rfl))
  · exact .single (.start (by rw [hentry]; rfl) fun n hn => hres ⟨n, hn⟩)

/-- A thread that runs an operation on its own leaves behind what the operation does. -/
theorem reaches_exec [DecidableEq θ] {v v' : SHMVector} {sections : List (Section θ T)}
    {places : θ → Place (Outside T) (Critical T)} (t : θ) (op : Op T) {i : Critical T} {o : Outcome T}
    (hlock : v.lock = false) (hall : ∀ t', ∃ o, places t' = .outside o) (hidle : places t = .outside .idle)
    (hsections : Concluded sections) (hexec : v.exec l op = .ok o v') (hentry : Critical.entry op = some i)
    (hop : ∀ n, op = .reserve n → v.capacity < n) (hfits : v.ProductFits i) :
    (threads l).Reaches (fun s i => s.vector.ProductFits i) ⟨⟨v, sections⟩, places⟩
      ⟨⟨v', sections ++ [⟨t, op, some o⟩]⟩, places⟩ := by
  obtain ⟨o', v'', hexec', hdoes⟩ := exec_does (l := l) hlock op
  rw [hexec] at hexec'
  cases hexec'
  obtain ⟨w, rfl, hrun⟩ := sectionRun_of_does hlock hdoes hentry hfits
  -- the steps of the section do not touch the history
  have hinside := hrun.lift
    (p := fun a b : Shared θ T × Critical T => a.1.vector.ProductFits a.2 ∧ Inner l a.1 a.2 b.1 b.2)
    (fun a => (⟨a.1, sections ++ [⟨t, op, none⟩]⟩, a.2)) fun a b h => ⟨h.1, .next h.2⟩
  have henter : (threads l).enter t ⟨v, sections⟩ (.acquiring op)
      ⟨{ v with lock := true }, sections ++ [⟨t, op, none⟩]⟩ i := Enter.acquire hlock hentry
  have hleave : (threads l).leave t ⟨w, sections ++ [⟨t, op, none⟩]⟩ (.leaving o)
      ⟨w.clear, sections ++ [⟨t, op, some o⟩]⟩ .idle := by
    rw [← hsections.conclude_append]
    exact Leave.release
  have houter := Spinlock.reaches_outer (p := threads l) (R := fun s i => s.vector.ProductFits i) (t := t) hall
    (outer_acquiring (s := ⟨v, sections⟩) hentry hop)
  have hsection : (threads l).Reaches (fun s i => s.vector.ProductFits i)
      ⟨⟨v, sections⟩, Function.update places t (.outside (.acquiring op))⟩
      ⟨⟨w.clear, sections ++ [⟨t, op, some o⟩]⟩, Function.update places t (.outside .idle)⟩ :=
    Spinlock.reaches_section hall henter hinside trivial hleave
  have hplaces : Function.update places t (.outside .idle) = places := by
    rw [← hidle, Function.update_eq_self]
  rw [hplaces] at houter hsection
  exact houter.trans hsection

/-! ## Every interleaving -/

/-- At most one thread is inside, and whenever the flag is clear the elements that were pushed are, in order, those that
were taken and those that are in the vector. -/
theorem exactly_once [DecidableEq θ] (l : Layout T) {segmentSizeBytes sharedMemorySize : UInt64} {sharedMemoryPtr : Nat}
    {memory : Nat → UInt8} {v : SHMVector}
    (hv : construct segmentSizeBytes sharedMemoryPtr sharedMemorySize memory = .ok v)
    (hseg : l.size ≤ segmentSizeBytes.toNat) {c : Config θ (Shared θ T) (Outside T) (Critical T)}
    (hc : Reachable l v c) :
    (∀ t t' i i', c.threads t = .inside i → c.threads t' = .inside i' → t = t') ∧
      (c.shared.vector.lock = false →
        pushed c.shared.sections = taken c.shared.sections ++ c.shared.vector.elements l) := by
  have hlock : v.lock = false := by rw [construct_eq_ok hv]
  have hstart : (threads l).Guarded (Balanced l) (Serving l) ⟨⟨v, []⟩, fun _ : θ => .outside .idle⟩ :=
    .clear hlock (fun _ => ⟨_, rfl⟩) (balanced_construct hv hseg)
  have hguarded := hstart.reaches Balanced.enter Serving.inner Serving.leave hc
  refine ⟨fun t t' i i' ht ht' => hguarded.exclusive ht ht', fun hclear => ?_⟩
  exact (hguarded.of_clear hclear).2.balance

/-- One thread pushes 7 and another one takes it. -/
theorem exactly_once_byteVector :
    ∃ c : Config Bool (Shared Bool UInt8) (Outside UInt8) (Critical UInt8),
      Reachable byteLayout byteVector c ∧ c.shared.vector.lock = false ∧ taken c.shared.sections = [7] ∧
        pushed c.shared.sections = taken c.shared.sections ++ c.shared.vector.elements byteLayout := by
  let places : Bool → Place (Outside UInt8) (Critical UInt8) := fun _ => .outside .idle
  have hall : ∀ t, ∃ o, places t = .outside o := fun _ => ⟨_, rfl⟩
  have hpush := reaches_exec (l := byteLayout) (v := byteVector) true (.pushBack 7) rfl hall rfl concluded_nil rfl rfl
    (by simp) (fun _ => by decide)
  have hnext := reaches_exec (l := byteLayout) (v := { byteVector with capacity := 1 }.append byteLayout 7) false
    .getNextElement rfl hall rfl (concluded_nil.append true (.pushBack 7) (.returned .unit)) rfl rfl (by simp) trivial
  exact ⟨_, hpush.trans hnext, rfl, rfl,
    (exactly_once byteLayout construct_byteVector (by decide) (hpush.trans hnext)).2 rfl⟩

end FalconAS.Shm

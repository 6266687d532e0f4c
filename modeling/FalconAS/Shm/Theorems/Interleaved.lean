import FalconAS.Shm.Lemmas.Alone
import FalconAS.Shm.Theorems.Refines
import FalconAS.Shm.Theorems.Release

/-!
# Interleaved operations

Any number of processes call any operations on one vector, and their steps interleave in any order. What they get and
what is left in memory is what the same operations give one after another, in the order in which their sections end.
-/

namespace FalconAS.Shm

open FalconAS.Memory FalconAS.Machine SHMVector

variable {θ T : Type} {l : Layout T}

/-! ## One operation after another -/

variable (l) in
/-- The operations of a log one after another lead here, and each has the outcome that the log has for it. -/
def SHMVector.Replays : SHMVector → List (Record θ (Op T) (Outcome T)) → SHMVector → Prop
  | v, [], v' => v' = v
  | v, r :: log, v' => ∃ w, v.exec l r.op = .ok r.result w ∧ Replays w log v'

theorem SHMVector.Replays.concat {v w v' : SHMVector} {log : List (Record θ (Op T) (Outcome T))}
    (h : v.Replays l log w) {r : Record θ (Op T) (Outcome T)} (hexec : w.exec l r.op = .ok r.result v') :
    v.Replays l (log ++ [r]) v' := by
  induction log generalizing v with
  | nil =>
      obtain rfl : w = v := h
      exact ⟨v', hexec, rfl⟩
  | cons _ log ih =>
      obtain ⟨u, hu, hrest⟩ := h
      exact ⟨u, hu, ih hrest⟩

theorem replays_of_runs {v w : SHMVector} {log : List (Record θ (Op T) (Outcome T))}
    (h : (processes l).Runs v log w) : v.Replays l log w := by
  induction h with
  | start => rfl
  | alone _ hclear halone ih => exact ih.concat ((alone_iff_exec hclear).mp halone)

/-- Between the sections a process that is idle can carry out any operation that takes the flag. -/
theorem reaches_call [DecidableEq θ] {c : Processes θ T} (t : θ) (op : Op T) {o : Outcome T} {w : SHMVector}
    (ht : c.threads t = .outside .idle) (hop : ∀ n, op ≠ .reserve n) (hlock : c.shared.state.lock = false)
    (hexec : c.shared.state.exec l op = .ok o w) :
    (processes l).Reaches c ⟨⟨w, c.shared.log ++ [⟨t, op, o⟩]⟩, Function.update c.threads t (.outside .idle)⟩ := by
  have hstart := Sections.Step.outer (p := processes l) (c := c) ht (Asks.start hop)
  have hsection := Sections.reaches_alone (p := processes l)
    (c := ⟨c.shared, Function.update c.threads t (.outside (.acquiring op))⟩) (Function.update_self ..) rfl hlock
    ((alone_iff_exec hlock).mpr hexec)
  rw [Function.update_idem] at hsection
  exact .head hstart hsection

/-- The section that is under way goes on to the end that the operation has. -/
theorem exec_of_advances {v w : SHMVector} {op : Op T} {i : Stage T} (hlock : v.lock = false)
    (h : (processes l).Advances ({ v with lock := true }, Stage.entry op) (w, i)) :
    ∃ o v', v.exec l op = .ok o v' ∧
      ∃ u j, (processes l).Advances (w, i) (u, j) ∧ u.leave j = some (o, v') := by
  obtain ⟨o, v', hexec, hdoes⟩ := exec_does (l := l) hlock op
  obtain ⟨u, j, hadvances, hleave⟩ := alone_of_does hlock hdoes
  exact ⟨o, v', hexec, u, j, h.completes hadvances hleave, hleave⟩

section

variable [DecidableEq θ] {v : SHMVector} {c : Processes θ T}

/-- However the processes interleave, at most one is in its critical section, the sections that are over have given what
the operations give one after another, and the one under way will end as the operation does there. -/
theorem interleaving_is_sequential (hc : (processes l).Reaches ((processes l).start v) c) :
    (∀ t t' i i', c.threads t = .inside i → c.threads t' = .inside i' → t = t') ∧
      ∃ w, v.Replays l c.shared.log w ∧ ((∀ t i, c.threads t ≠ .inside i) → c.shared.state = w) ∧
        ∀ t op i, c.threads t = .inside (op, i) → ∃ o w', w.exec l op = .ok o w' ∧
          ∃ u j, (processes l).Advances (c.shared.state, i) (u, j) ∧ u.leave j = some (o, w') := by
  have hserial := Sections.serial_of_reaches hc
  constructor
  · intro t t' i i' ht ht'
    by_contra hne
    obtain ⟨o, ho⟩ := (hserial.inside ht').1 t hne
    rw [ho] at ht
    cases ht
  cases hserial with
  | between hall hruns =>
      refine ⟨c.shared.state, replays_of_runs hruns, fun _ => rfl, fun t op i ht => ?_⟩
      obtain ⟨o, ho⟩ := hall t
      rw [ho] at ht
      cases ht
  | within t op i w ht hall hruns hclear hadvances =>
      refine ⟨w, replays_of_runs hruns, fun hnone => absurd ht (hnone t _), fun t' op' i' ht' => ?_⟩
      by_cases heq : t' = t
      · subst heq
        rw [ht] at ht'
        cases ht'
        exact exec_of_advances hclear hadvances
      · obtain ⟨o, ho⟩ := hall t' heq
        rw [ho] at ht'
        cases ht'

end

/-- One process pushes a byte, and another one takes it. -/
theorem interleaving_is_sequential_two :
    ∃ c, (processes byteLayout).Reaches ((processes byteLayout).start byteVector) c ∧
      c.shared.log = [⟨false, .pushBack 7, .returned .unit⟩, ⟨true, .getNextElement, .returned (.element 7)⟩] ∧
      ∃ w, byteVector.Replays byteLayout c.shared.log w ∧ ((∀ t i, c.threads t ≠ .inside i) → c.shared.state = w) := by
  have hpush := reaches_call (l := byteLayout) (c := (processes byteLayout).start byteVector) false
    (.pushBack 7) rfl (by simp) rfl rfl
  have htake := hpush.trans (reaches_call true .getNextElement rfl (by simp) rfl rfl)
  obtain ⟨_, w, hreplays, hstate, _⟩ := interleaving_is_sequential htake
  exact ⟨_, htake, rfl, w, hreplays, hstate⟩

/-! ## A failed erase -/

/-- The operation was an `eraseAt` that threw. -/
def EraseThrew (r : Record θ (Op T) (Outcome T)) : Prop :=
  ∃ index e, r.op = .eraseAt index ∧ r.result = .threw e

theorem SHMVector.Does.eraseThrew_iff {v v' : SHMVector} {op : Op T} {o : Outcome T} {t : θ} (h : Does l v op o v')
    (hlock : v.lock = false) : EraseThrew ⟨t, op, o⟩ ↔ v'.lock = true := by
  rw [← Bool.not_eq_false, h.lock_iff hlock]
  constructor
  · rintro ⟨index, e, rfl, rfl⟩
    cases h with
    | eraseFails hi => exact UInt64.not_lt.mpr hi
  · intro hout
    cases h with
    | eraseFails hi => exact ⟨_, _, rfl, rfl⟩
    | eraseReturns hi => exact absurd hi hout
    | _ => exact absurd trivial hout

/-- The flag is left set by a failed erase and by nothing else. -/
theorem lock_of_runs {v w : SHMVector} {log : List (Record θ (Op T) (Outcome T))} (hlock : v.lock = false)
    (h : (processes l).Runs v log w) : w.lock = true ↔ ∃ r ∈ log, EraseThrew r := by
  induction h with
  | start => simp [hlock]
  | @alone log s t op r s' hruns hclear halone ih =>
      have hclear : s.lock = false := hclear
      have hnone : ¬ ∃ r ∈ log, EraseThrew r := by
        rw [← ih, hclear]
        exact Bool.false_ne_true
      obtain ⟨o, v', hexec, hdoes⟩ := exec_does (l := l) hclear op
      cases hexec.symm.trans ((alone_iff_exec hclear).mp halone)
      rw [← hdoes.eraseThrew_iff (t := t) hclear]
      constructor
      · intro hthrew
        exact ⟨_, by simp, hthrew⟩
      · rintro ⟨r', hr', hthrew⟩
        rcases List.mem_append.mp hr' with hold | hnew
        · exact absurd ⟨r', hold, hthrew⟩ hnone
        · rwa [List.mem_singleton.mp hnew] at hthrew

section

variable [DecidableEq θ] {v : SHMVector} {c : Processes θ T}

theorem stuck_iff_eraseThrew (hlock : v.lock = false) (hc : (processes l).Reaches ((processes l).start v) c) :
    (processes l).Stuck c ↔ ∃ r ∈ c.shared.log, EraseThrew r := by
  cases Sections.serial_of_reaches hc with
  | between hall hruns =>
      rw [← lock_of_runs hlock hruns]
      exact ⟨fun h => h.set, fun h => ⟨h, hall⟩⟩
  | within t op i w ht hall hruns hclear hadvances =>
      rw [← lock_of_runs hlock hruns]
      have hclear : w.lock = false := hclear
      rw [hclear]
      exact iff_of_false (fun h => h.not_inside ht) Bool.false_ne_true

/-- The processes are locked out for good exactly when an `eraseAt` has thrown: then the flag is set with no process
inside, and neither the vector nor the log ever changes again. -/
theorem locked_out_iff_eraseThrew (hlock : v.lock = false) (hc : (processes l).Reaches ((processes l).start v) c) :
    ((c.shared.state.lock = true ∧ ∀ t i, c.threads t ≠ .inside i) ↔ ∃ r ∈ c.shared.log, EraseThrew r) ∧
      ((∃ r ∈ c.shared.log, EraseThrew r) → ∀ c', (processes l).Reaches c c' → c'.shared = c.shared) := by
  have hstuck := stuck_iff_eraseThrew hlock hc
  constructor
  · rw [← hstuck]
    constructor
    · rintro ⟨hset, hnone⟩
      refine ⟨hset, fun t => ?_⟩
      cases ht : c.threads t with
      | outside o => exact ⟨o, rfl⟩
      | inside i => exact absurd ht (hnone t i)
    · intro h
      exact ⟨h.set, fun t i => h.not_inside⟩
  · intro h c' hc'
    exact ((hstuck.mpr h).reaches hc').2

end

/-- An `eraseAt` on an empty vector. -/
theorem locked_out_after_erase :
    ∃ c, (processes byteLayout).Reaches ((processes byteLayout).start byteVector) c ∧
      c.shared.log = [⟨false, .eraseAt 0, .threw (.outOfRange "Index out of bounds")⟩] ∧
      ∀ c', (processes byteLayout).Reaches c c' → c'.shared = c.shared := by
  have herase := reaches_call (l := byteLayout) (c := (processes byteLayout).start byteVector) false
    (.eraseAt 0) rfl (by simp) rfl rfl
  refine ⟨_, herase, rfl, (locked_out_iff_eraseThrew rfl herase).2 ⟨_, List.mem_singleton_self _, 0, _, rfl, rfl⟩⟩

/-! ## The look at the capacity without the flag -/

/-- The section will not change the capacity any more. -/
def Stage.Settled : Stage T → Prop
  | .critical (.pushCheck _) => False
  | .critical (.pushGrow _ _) => False
  | .critical (.reserveCheck _) => False
  | .critical (.reserveSet _) => False
  | _ => True

theorem SHMVector.proceed_settled {v v' : SHMVector} {i i' : Stage T} (h : v.proceed l i = some (v', i'))
    (hi : i.Settled) : i'.Settled ∧ v'.capacity = v.capacity := by
  cases i with
  | critical i =>
      obtain ⟨j, rfl, hnext⟩ := proceed_critical h
      cases i with
      | pushCheck x => cases hi
      | pushGrow x n => cases hi
      | reserveCheck n => cases hi
      | reserveSet n => cases hi
      | nextCheck => simp only [next] at hnext; split at hnext <;> cases hnext <;> exact ⟨trivial, rfl⟩
      | nextShift r i => simp only [next] at hnext; split at hnext <;> cases hnext <;> exact ⟨trivial, rfl⟩
      | atCheck index => simp only [next] at hnext; split at hnext <;> cases hnext <;> exact ⟨trivial, rfl⟩
      | leaving o => cases hnext
      | _ => cases hnext; exact ⟨trivial, rfl⟩
  | eraseCheck index => simp only [proceed] at h; split at h <;> cases h <;> exact ⟨trivial, rfl⟩
  | eraseShift i => simp only [proceed] at h; split at h <;> cases h <;> exact ⟨trivial, rfl⟩
  | throwing e => cases h
  | _ => cases h; exact ⟨trivial, rfl⟩

/-- A section sets the capacity at most once, and then it is settled. -/
theorem SHMVector.proceed_capacity {v v' : SHMVector} {i i' : Stage T} (h : v.proceed l i = some (v', i')) :
    i'.Settled ∨ v'.capacity = v.capacity := by
  by_cases hi : i.Settled
  · exact .inl (proceed_settled h hi).1
  cases i with
  | critical i =>
      obtain ⟨j, rfl, hnext⟩ := proceed_critical h
      cases i with
      | pushCheck x =>
          simp only [next] at hnext
          split at hnext
          · split at hnext <;> cases hnext <;> exact .inr rfl
          · cases hnext
            exact .inl trivial
      | pushGrow x n => cases hnext; exact .inl trivial
      | reserveCheck n =>
          simp only [next] at hnext
          split at hnext
          · cases hnext
            exact .inl trivial
          · split at hnext <;> cases hnext <;> exact .inr rfl
      | reserveSet n => cases hnext; exact .inl trivial
      | _ => exact absurd trivial hi
  | _ => exact absurd trivial hi

theorem settled_of_advances {a b : SHMVector × Stage T} (h : (processes l).Advances a b) (ha : a.2.Settled) :
    b.2.Settled ∧ b.1.capacity = a.1.capacity := by
  induction h with
  | refl => exact ⟨ha, rfl⟩
  | tail _ hstep ih =>
      obtain ⟨hsettled, hcapacity⟩ := proceed_settled hstep ih.1
      exact ⟨hsettled, hcapacity.trans ih.2⟩

theorem capacity_of_advances {a b : SHMVector × Stage T} (h : (processes l).Advances a b) :
    b.2.Settled ∨ b.1.capacity = a.1.capacity := by
  induction h with
  | refl => exact .inr rfl
  | tail _ hstep ih =>
      rcases ih with hsettled | hcapacity
      · exact .inl (proceed_settled hstep hsettled).1
      · exact (proceed_capacity hstep).imp_right fun h => h.trans hcapacity

theorem SHMVector.leave_capacity {v v' : SHMVector} {i : Stage T} {o : Outcome T} (h : v.leave i = some (o, v')) :
    v'.capacity = v.capacity := by
  cases i with
  | critical i =>
      cases i with
      | leaving o => cases h; rfl
      | _ => cases h
  | throwing e => cases h; rfl
  | _ => cases h

theorem SHMVector.exec_reserve_of_le {v : SHMVector} {n : UInt64} (h : n ≤ v.capacity) :
    v.exec l (.reserve n) = .ok (.returned .unit) v := by
  simp [exec, reserve, h]

section

variable [DecidableEq θ] {v : SHMVector} {c : Processes θ T}

/-- A `reserve` that looks at the capacity without the flag, in the middle of whatever section, and finds it enough
returns as it does between the sections: after those that are over, or after the one under way as well. -/
theorem reserve_without_flag (hc : (processes l).Reaches ((processes l).start v) c) {n : UInt64}
    (hn : n ≤ c.shared.state.capacity) :
    ∃ u, (v.Replays l c.shared.log u ∨
        ∃ t' op i o, c.threads t' = .inside (op, i) ∧ v.Replays l (c.shared.log ++ [⟨t', op, o⟩]) u) ∧
      u.exec l (.reserve n) = .ok (.returned .unit) u := by
  cases Sections.serial_of_reaches hc with
  | between hall hruns => exact ⟨_, .inl (replays_of_runs hruns), exec_reserve_of_le hn⟩
  | within t' op i w ht' hall hruns hclear hadvances =>
      have hreplays := replays_of_runs hruns
      rcases capacity_of_advances hadvances with hsettled | hcapacity
      · obtain ⟨o, w', hexec, u, j, hrest, hleave⟩ := exec_of_advances hclear hadvances
        have hend : w'.capacity = c.shared.state.capacity :=
          (leave_capacity hleave).trans (settled_of_advances hrest hsettled).2
        refine ⟨w', .inr ⟨t', op, i, o, ht', hreplays.concat hexec⟩, exec_reserve_of_le ?_⟩
        rw [hend]
        exact hn
      · have hstart : c.shared.state.capacity = w.capacity := hcapacity
        refine ⟨w, .inl hreplays, exec_reserve_of_le ?_⟩
        rw [← hstart]
        exact hn

end

/-- A process has set the capacity and not written its byte yet when another one looks at the capacity. -/
theorem reserve_without_flag_in_push :
    ∃ c : Processes Bool UInt8, (processes byteLayout).Reaches ((processes byteLayout).start byteVector) c ∧
      c.threads false = .inside (.pushBack 7, .critical (.pushWrite 7)) ∧
      ∃ u, (byteVector.Replays byteLayout c.shared.log u ∨
          ∃ t' op i o, c.threads t' = .inside (op, i) ∧
            byteVector.Replays byteLayout (c.shared.log ++ [⟨t', op, o⟩]) u) ∧
        u.exec byteLayout (.reserve 1) = .ok (.returned .unit) u := by
  have hstart := Sections.Step.outer (p := processes byteLayout) (c := (processes byteLayout).start byteVector)
    (t := false) rfl (@Asks.start _ _ (.pushBack 7) (by simp))
  have hwrite := (((Relation.ReflTransGen.single hstart).tail (.enter (t := false) rfl rfl rfl)).tail
    (.inner (t := false) rfl rfl)).tail (.inner (t := false) rfl rfl)
  exact ⟨_, hwrite, rfl, reserve_without_flag hwrite (by decide)⟩

/-! ## The vector as a list -/

variable (l) in
/-- As `Replays`, and each operation does to the elements what it does to a plain list. -/
def SHMVector.ReplaysAsList : SHMVector → List (Record θ (Op T) (Outcome T)) → SHMVector → Prop
  | v, [], v' => v' = v
  | v, r :: log, v' => ∃ w, v.exec l r.op = .ok r.result w ∧
      ListDoes (w.heap.read l) (v.elements l) r.op r.result (w.elements l) ∧ ReplaysAsList w log v'

theorem SHMVector.Replays.asList {v w : SHMVector} {log : List (Record θ (Op T) (Outcome T))} (h : v.Replays l log w)
    (hv : v.Confined l) (hno : Along (call l) NoOverflow v (log.map (·.op))) : v.ReplaysAsList l log w := by
  induction log generalizing v with
  | nil => exact h
  | cons r log ih =>
      obtain ⟨u, hexec, hrest⟩ := h
      have hcall : v.call l r.op = .ok () u := call_eq_ok_iff.mpr ⟨_, hexec⟩
      have hacquirable : v.Acquirable r.op := by
        cases hlock : v.lock with
        | false => exact .inl hlock
        | true =>
            rcases exec_of_locked (l := l) hlock r.op with ⟨n, hop, hn, _⟩ | ⟨_, hspins⟩
            · exact .inr ⟨n, hop, hn⟩
            · cases hexec.symm.trans hspins
      obtain ⟨o, v', hexec', hlist⟩ := (behaves_iff hv hno.1).mpr hacquirable
      cases hexec.symm.trans hexec'
      exact ⟨u, hexec, hlist, ih hrest (hv.call hno.1.not_acceptsWrapped hcall) (hno.2 _ hcall)⟩

section

variable [DecidableEq θ] {v : SHMVector} {c : Processes θ T}

/-- From a new vector and without overflow, every outcome that any process gets is the one of a plain list on which the
operations are carried out in the order of the log, and the slots hold its elements whenever no process is inside. -/
theorem interleaving_of_list {segmentSizeBytes sharedMemorySize : UInt64} {sharedMemoryPtr : Nat}
    {memory : Nat → UInt8} (hv : construct segmentSizeBytes sharedMemoryPtr sharedMemorySize memory = .ok v)
    (hseg : l.size ≤ segmentSizeBytes.toNat) (hc : (processes l).Reaches ((processes l).start v) c)
    (hno : Along (call l) NoOverflow v (c.shared.log.map (·.op))) :
    v.elements l = [] ∧ ∃ w, v.ReplaysAsList l c.shared.log w ∧
      ((∀ t i, c.threads t ≠ .inside i) → c.shared.state = w) := by
  have hconfined := confined_construct hv hseg
  refine ⟨by rw [construct_eq_ok hv]; rfl, ?_⟩
  cases Sections.serial_of_reaches hc with
  | between hall hruns => exact ⟨_, (replays_of_runs hruns).asList hconfined hno, fun _ => rfl⟩
  | within t op i w ht hall hruns hclear hadvances =>
      exact ⟨w, (replays_of_runs hruns).asList hconfined hno, fun hnone => absurd ht (hnone t _)⟩

end

theorem interleaving_of_list_two :
    ∃ c, (processes byteLayout).Reaches ((processes byteLayout).start byteVector) c ∧
      c.shared.log = [⟨false, .pushBack 7, .returned .unit⟩, ⟨true, .size, .returned (.size 1)⟩] ∧
      ∃ w, byteVector.ReplaysAsList byteLayout c.shared.log w := by
  have hpush := reaches_call (l := byteLayout) (c := (processes byteLayout).start byteVector) false
    (.pushBack 7) rfl (by simp) rfl rfl
  have hsize := hpush.trans (reaches_call true .size rfl (by simp) rfl rfl)
  obtain ⟨_, w, hreplays, _⟩ := interleaving_of_list construct_byteVector (by decide) hsize (by decide +kernel)
  exact ⟨_, hsize, rfl, w, hreplays⟩

end FalconAS.Shm

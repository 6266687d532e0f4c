import FalconAS.Machine.Spinlock

/-!
# Critical sections that keep a log

Threads that share a state behind a flag, where each section is a deterministic sequence of steps for one operation and
ends with a result. A section need not clear the flag when it is left. The rule of this module: whatever the order in
which the threads take their steps, the sections that are over have done what they do one after another, in the order of
the log, and the one that is under way has done what it does alone.
-/

namespace FalconAS.Machine

/-- The sections of operations `ω` with results `ρ` on a shared state `σ`. A thread has a local state `ο` outside, where
`wants` says which operation it tries to set the flag for, and a local state `ι` inside. -/
structure Sections (σ ο ω ρ ι : Type) where
  flag : σ → Bool
  outer : σ → ο → ο → Prop
  idle : ο
  wants : ο → Option ω
  acquire : σ → σ
  entry : ω → ι
  next : σ → ι → Option (σ × ι)
  finish : σ → ι → Option (ρ × σ)
  flag_acquire : ∀ s, flag (acquire s) = true
  flag_next : ∀ {s i s' i'}, next s i = some (s', i') → flag s' = flag s
  next_of_finish : ∀ {s i r}, finish s i = some r → next s i = none

structure Record (θ ω ρ : Type) where
  thread : θ
  op : ω
  result : ρ

/-- The shared state, and the sections that are over. -/
structure Logged (θ σ ω ρ : Type) where
  state : σ
  log : List (Record θ ω ρ)

namespace Sections

variable {θ σ ο ω ρ ι : Type} (p : Sections σ ο ω ρ ι)

/-- One step of one thread. -/
inductive Step [DecidableEq θ] : Config θ (Logged θ σ ω ρ) ο (ω × ι) → Config θ (Logged θ σ ω ρ) ο (ω × ι) → Prop where
  | outer {c t o o'} : c.threads t = .outside o → p.outer c.shared.state o o' →
      Step c ⟨c.shared, Function.update c.threads t (.outside o')⟩
  | enter {c t o op} : c.threads t = .outside o → p.wants o = some op → p.flag c.shared.state = false →
      Step c ⟨⟨p.acquire c.shared.state, c.shared.log⟩, Function.update c.threads t (.inside (op, p.entry op))⟩
  | inner {c t op i s i'} : c.threads t = .inside (op, i) → p.next c.shared.state i = some (s, i') →
      Step c ⟨⟨s, c.shared.log⟩, Function.update c.threads t (.inside (op, i'))⟩
  | leave {c t op i r s} : c.threads t = .inside (op, i) → p.finish c.shared.state i = some (r, s) →
      Step c ⟨⟨s, c.shared.log ++ [⟨t, op, r⟩]⟩, Function.update c.threads t (.outside p.idle)⟩

def Reaches [DecidableEq θ] :
    Config θ (Logged θ σ ω ρ) ο (ω × ι) → Config θ (Logged θ σ ω ρ) ο (ω × ι) → Prop :=
  Relation.ReflTransGen p.Step

/-- All threads are idle, and no section has been entered yet. -/
def start (s : σ) : Config θ (Logged θ σ ω ρ) ο (ω × ι) := ⟨⟨s, []⟩, fun _ => .outside p.idle⟩

/-! ## A section alone -/

/-- The steps of a section without other threads. -/
def Advances : σ × ι → σ × ι → Prop := Relation.ReflTransGen fun a b => p.next a.1 a.2 = some b

/-- The whole section of an operation without other threads. -/
def Alone (s : σ) (op : ω) (r : ρ) (s' : σ) : Prop :=
  ∃ w i, p.Advances (p.acquire s, p.entry op) (w, i) ∧ p.finish w i = some (r, s')

variable {p}

theorem Advances.eq_of_rest {a b : σ × ι} (h : p.Advances a b) (hrest : p.next a.1 a.2 = none) : b = a := by
  cases h.cases_head with
  | inl heq => exact heq.symm
  | inr hstep =>
      obtain ⟨_, hnext, _⟩ := hstep
      rw [hrest] at hnext
      cases hnext

theorem Advances.flag {a b : σ × ι} (h : p.Advances a b) : p.flag b.1 = p.flag a.1 := by
  induction h with
  | refl => rfl
  | tail _ hstep ih => exact (p.flag_next hstep).trans ih

/-- From wherever a section is, its steps lead to where it ends. -/
theorem Advances.completes {a b e : σ × ι} {r : ρ × σ} (hb : p.Advances a b) (he : p.Advances a e)
    (hfinish : p.finish e.1 e.2 = some r) : p.Advances b e := by
  have hunique : Relator.RightUnique fun a b : σ × ι => p.next a.1 a.2 = some b := by
    intro a b c hb hc
    exact Option.some.inj (hb.symm.trans hc)
  cases Relation.ReflTransGen.total_of_right_unique hunique hb he with
  | inl h => exact h
  | inr h =>
      rw [Advances.eq_of_rest h (p.next_of_finish hfinish)]
      exact .refl

/-- The result of a section and the state that it leaves are determined by the state that it was entered in. -/
theorem Alone.unique {s s₁ s₂ : σ} {op : ω} {r₁ r₂ : ρ} (h₁ : p.Alone s op r₁ s₁) (h₂ : p.Alone s op r₂ s₂) :
    r₁ = r₂ ∧ s₁ = s₂ := by
  obtain ⟨w₁, i₁, hrun₁, hend₁⟩ := h₁
  obtain ⟨w₂, i₂, hrun₂, hend₂⟩ := h₂
  cases (hrun₁.completes hrun₂ hend₂).eq_of_rest (p.next_of_finish hend₁)
  cases hend₁.symm.trans hend₂
  exact ⟨rfl, rfl⟩

/-! ## One section after another -/

variable (p) in
/-- The sections of a log one after another, each of them entered with a clear flag. -/
inductive Runs (s₀ : σ) : List (Record θ ω ρ) → σ → Prop where
  | start : Runs s₀ [] s₀
  | alone {log s t op r s'} : Runs s₀ log s → p.flag s = false → p.Alone s op r s' →
      Runs s₀ (log ++ [⟨t, op, r⟩]) s'

variable (p) in
/-- No thread is inside and the sections of the log have led here, or one thread is inside and has led here alone from
where they have led. -/
inductive Serial (s₀ : σ) (c : Config θ (Logged θ σ ω ρ) ο (ω × ι)) : Prop where
  | between : (∀ t, ∃ o, c.threads t = .outside o) → p.Runs s₀ c.shared.log c.shared.state → Serial s₀ c
  | within (t : θ) (op : ω) (i : ι) (s : σ) : c.threads t = .inside (op, i) →
      (∀ t', t' ≠ t → ∃ o, c.threads t' = .outside o) → p.Runs s₀ c.shared.log s → p.flag s = false →
      p.Advances (p.acquire s, p.entry op) (c.shared.state, i) → Serial s₀ c

variable {s₀ : σ} {c c' : Config θ (Logged θ σ ω ρ) ο (ω × ι)}

/-- The thread that is inside is the only one. -/
theorem Serial.inside (h : p.Serial s₀ c) {t : θ} {op : ω} {i : ι} (ht : c.threads t = .inside (op, i)) :
    (∀ t', t' ≠ t → ∃ o, c.threads t' = .outside o) ∧ ∃ s, p.Runs s₀ c.shared.log s ∧ p.flag s = false ∧
      p.Advances (p.acquire s, p.entry op) (c.shared.state, i) := by
  cases h with
  | between hall _ =>
      obtain ⟨o, ho⟩ := hall t
      rw [ho] at ht
      cases ht
  | within u op' j s hu hall hruns hclear hadvances =>
      by_cases htu : t = u
      · subst htu
        rw [hu] at ht
        cases ht
        exact ⟨hall, s, hruns, hclear, hadvances⟩
      · obtain ⟨o, ho⟩ := hall t htu
        rw [ho] at ht
        cases ht

/-- A thread finds the flag clear only if no thread is inside. -/
theorem Serial.of_clear (h : p.Serial s₀ c) (hclear : p.flag c.shared.state = false) :
    (∀ t, ∃ o, c.threads t = .outside o) ∧ p.Runs s₀ c.shared.log c.shared.state := by
  cases h with
  | between hall hruns => exact ⟨hall, hruns⟩
  | within t op i s ht hall hruns hclear' hadvances =>
      have hset : p.flag c.shared.state = true := hadvances.flag.trans (p.flag_acquire s)
      rw [hclear] at hset
      cases hset

variable [DecidableEq θ]

theorem Serial.step (h : p.Serial s₀ c) (hstep : p.Step c c') : p.Serial s₀ c' := by
  cases hstep with
  | @outer t o o' ht hout =>
      cases h with
      | between hall hruns => exact .between (fun t' => Spinlock.outside_update fun _ => hall t') hruns
      | within u op i s hu hall hruns hclear hadvances =>
          have hne : u ≠ t := by
            intro heq
            rw [heq, ht] at hu
            cases hu
          exact .within u op i s ((Function.update_of_ne hne ..).trans hu)
            (fun t' ht' => Spinlock.outside_update fun _ => hall t' ht') hruns hclear hadvances
  | @enter t o op ht hwants hclear =>
      obtain ⟨hall, hruns⟩ := h.of_clear hclear
      exact .within t op _ _ (Function.update_self ..)
        (fun t' hne => Spinlock.outside_update_of_ne hne (hall t')) hruns hclear .refl
  | @inner t op i s i' ht hnext =>
      obtain ⟨hall, s₁, hruns, hclear, hadvances⟩ := h.inside ht
      exact .within t op i' s₁ (Function.update_self ..)
        (fun t' hne => Spinlock.outside_update_of_ne hne (hall t' hne)) hruns hclear (hadvances.tail hnext)
  | @leave t op i r s ht hfinish =>
      obtain ⟨hall, s₁, hruns, hclear, hadvances⟩ := h.inside ht
      exact .between (fun t' => Spinlock.outside_update fun hne => hall t' hne)
        (hruns.alone hclear ⟨_, _, hadvances, hfinish⟩)

theorem serial_of_reaches (h : p.Reaches (p.start s₀) c) : p.Serial s₀ c := by
  induction h with
  | refl => exact .between (fun _ => ⟨_, rfl⟩) .start
  | tail _ hstep ih => exact ih.step hstep

/-! ## One thread after another -/

theorem reaches_advances {threads : θ → Place ο (ω × ι)} {log : List (Record θ ω ρ)} {t : θ} {op : ω} {a b : σ × ι}
    (h : p.Advances a b) :
    p.Reaches ⟨⟨a.1, log⟩, Function.update threads t (.inside (op, a.2))⟩
      ⟨⟨b.1, log⟩, Function.update threads t (.inside (op, b.2))⟩ := by
  induction h with
  | refl => exact .refl
  | @tail b b' _ hstep ih =>
      have hnext := Step.inner (p := p) (c := ⟨⟨b.1, log⟩, Function.update threads t (.inside (op, b.2))⟩)
        (Function.update_self ..) hstep
      rw [Function.update_idem] at hnext
      exact ih.tail hnext

/-- A thread that finds the flag clear can go through its whole section. -/
theorem reaches_alone {t : θ} {o : ο} {op : ω} {r : ρ} {s : σ} (ht : c.threads t = .outside o)
    (hwants : p.wants o = some op) (hclear : p.flag c.shared.state = false) (h : p.Alone c.shared.state op r s) :
    p.Reaches c ⟨⟨s, c.shared.log ++ [⟨t, op, r⟩]⟩, Function.update c.threads t (.outside p.idle)⟩ := by
  obtain ⟨w, i, hadvances, hfinish⟩ := h
  have hleave := Step.leave (p := p) (c := ⟨⟨w, c.shared.log⟩, Function.update c.threads t (.inside (op, i))⟩)
    (Function.update_self ..) hfinish
  rw [Function.update_idem] at hleave
  exact .head (.enter ht hwants hclear) ((reaches_advances hadvances).tail hleave)

/-! ## A flag that nobody clears -/

/-- The flag is set, and no thread is inside that could clear it. -/
structure Stuck (p : Sections σ ο ω ρ ι) (c : Config θ (Logged θ σ ω ρ) ο (ω × ι)) : Prop where
  set : p.flag c.shared.state = true
  outside : ∀ t, ∃ o, c.threads t = .outside o

omit [DecidableEq θ] in
theorem Stuck.not_inside (h : p.Stuck c) {t : θ} {i : ω × ι} : c.threads t ≠ .inside i := by
  intro ht
  obtain ⟨o, ho⟩ := h.outside t
  rw [ho] at ht
  cases ht

theorem Stuck.step (h : p.Stuck c) (hstep : p.Step c c') : p.Stuck c' ∧ c'.shared = c.shared := by
  cases hstep with
  | outer ht hout => exact ⟨⟨h.set, fun t' => Spinlock.outside_update fun _ => h.outside t'⟩, rfl⟩
  | enter _ _ hclear =>
      rw [h.set] at hclear
      cases hclear
  | inner ht _ => exact absurd ht h.not_inside
  | leave ht _ => exact absurd ht h.not_inside

theorem Stuck.reaches (h : p.Stuck c) (hrun : p.Reaches c c') : p.Stuck c' ∧ c'.shared = c.shared := by
  induction hrun with
  | refl => exact ⟨h, rfl⟩
  | tail _ hstep ih =>
      obtain ⟨hstuck, hshared⟩ := ih.1.step hstep
      exact ⟨hstuck, hshared.trans ih.2⟩

end Sections

end FalconAS.Machine

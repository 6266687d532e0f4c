import Mathlib.Logic.Function.Basic
import Mathlib.Logic.Relation

/-!
# Threads that share a state behind a spinlock

Any number of threads take steps in any order. A thread is outside or inside of its critical section. Outside it can
only read the shared state; it gets inside by setting a flag that was clear, and clears the flag when it leaves. The
rule of this module: what holds of the shared state while the flag is clear has to be shown only at the two ends of a
critical section, and in between only for the steps of the one thread that is inside.
-/

namespace FalconAS.Machine

/-- Where a thread is, with what it keeps to itself there. -/
inductive Place (ο ι : Type) where
  | outside (o : ο)
  | inside (i : ι)

/-- The steps of a thread of type `θ` on a shared state `σ`, with its local states outside (`ο`) and inside (`ι`). -/
structure Spinlock (θ σ ο ι : Type) where
  flag : σ → Bool
  outer : σ → ο → ο → Prop
  enter : θ → σ → ο → σ → ι → Prop
  inner : σ → ι → σ → ι → Prop
  leave : θ → σ → ι → σ → ο → Prop
  enter_flag : ∀ {t s o s' i}, enter t s o s' i → flag s = false ∧ flag s' = true
  inner_flag : ∀ {s i s' i'}, inner s i s' i' → flag s' = flag s
  leave_flag : ∀ {t s i s' o}, leave t s i s' o → flag s' = false

structure Config (θ σ ο ι : Type) where
  shared : σ
  threads : θ → Place ο ι

namespace Spinlock

variable {θ σ ο ι : Type} (p : Spinlock θ σ ο ι)

/-- One step of one thread. -/
inductive Step [DecidableEq θ] : Config θ σ ο ι → Config θ σ ο ι → Prop where
  | outer {c t o o'} : c.threads t = .outside o → p.outer c.shared o o' →
      Step c ⟨c.shared, Function.update c.threads t (.outside o')⟩
  | enter {c t o s i} : c.threads t = .outside o → p.enter t c.shared o s i →
      Step c ⟨s, Function.update c.threads t (.inside i)⟩
  | inner {c t i s i'} : c.threads t = .inside i → p.inner c.shared i s i' →
      Step c ⟨s, Function.update c.threads t (.inside i')⟩
  | leave {c t i s o} : c.threads t = .inside i → p.leave t c.shared i s o →
      Step c ⟨s, Function.update c.threads t (.outside o)⟩

/-- Runs in which the threads inside always meet `R`. -/
def Reaches [DecidableEq θ] (R : σ → ι → Prop) : Config θ σ ο ι → Config θ σ ο ι → Prop :=
  Relation.ReflTransGen fun c c' => (∀ t i, c.threads t = .inside i → R c.shared i) ∧ p.Step c c'

/-! ## The rule -/

/-- Either the flag is clear, all threads are outside and the shared state meets `J₀`, or the flag is set and exactly
one thread is inside, for which `J` holds. -/
inductive Guarded (J₀ : σ → Prop) (J : θ → σ → ι → Prop) (c : Config θ σ ο ι) : Prop where
  | clear : p.flag c.shared = false → (∀ t, ∃ o, c.threads t = .outside o) → J₀ c.shared → Guarded J₀ J c
  | held (t : θ) (i : ι) : p.flag c.shared = true → c.threads t = .inside i →
      (∀ t', t' ≠ t → ∃ o, c.threads t' = .outside o) → J t c.shared i → Guarded J₀ J c

variable {p} {J₀ : σ → Prop} {J : θ → σ → ι → Prop} {c c' : Config θ σ ο ι}

/-- The thread that is inside is the one that `J` holds for. -/
theorem Guarded.inside (h : p.Guarded J₀ J c) {t : θ} {i : ι} (ht : c.threads t = .inside i) :
    p.flag c.shared = true ∧ (∀ t', t' ≠ t → ∃ o, c.threads t' = .outside o) ∧ J t c.shared i := by
  cases h with
  | clear _ hout _ =>
      obtain ⟨o, ho⟩ := hout t
      rw [ho] at ht
      cases ht
  | held u j hflag hu hout hJ =>
      by_cases htu : t = u
      · subst htu
        rw [hu] at ht
        cases ht
        exact ⟨hflag, hout, hJ⟩
      · obtain ⟨o, ho⟩ := hout t htu
        rw [ho] at ht
        cases ht

/-- At most one thread is inside. -/
theorem Guarded.exclusive (h : p.Guarded J₀ J c) {t t' : θ} {i i' : ι} (ht : c.threads t = .inside i)
    (ht' : c.threads t' = .inside i') : t = t' := by
  by_contra hne
  obtain ⟨o, ho⟩ := (h.inside ht').2.1 t hne
  rw [ho] at ht
  cases ht

theorem Guarded.of_clear (h : p.Guarded J₀ J c) (hflag : p.flag c.shared = false) :
    (∀ t, ∃ o, c.threads t = .outside o) ∧ J₀ c.shared := by
  cases h with
  | clear _ hout hJ => exact ⟨hout, hJ⟩
  | held _ _ hset _ _ _ =>
      rw [hflag] at hset
      cases hset

variable [DecidableEq θ]

theorem outside_update {threads : θ → Place ο ι} {t t' : θ} {o' : ο}
    (h : t' ≠ t → ∃ o, threads t' = .outside o) :
    ∃ o, Function.update threads t (.outside o') t' = .outside o := by
  by_cases heq : t' = t
  · subst heq
    exact ⟨o', Function.update_self ..⟩
  · rw [Function.update_of_ne heq]
    exact h heq

theorem outside_update_of_ne {threads : θ → Place ο ι} {t t' : θ} {q : Place ο ι} (hne : t' ≠ t)
    (h : ∃ o, threads t' = .outside o) : ∃ o, Function.update threads t q t' = .outside o := by
  rw [Function.update_of_ne hne]
  exact h

/-- One step keeps `Guarded`: only the steps of a thread that is inside have to be looked at, and the two ends. -/
theorem Guarded.step {R : σ → ι → Prop} (henter : ∀ {t s o s' i}, J₀ s → p.enter t s o s' i → J t s' i)
    (hinner : ∀ {t s i s' i'}, J t s i → R s i → p.inner s i s' i' → J t s' i')
    (hleave : ∀ {t s i s' o}, J t s i → p.leave t s i s' o → J₀ s')
    (h : p.Guarded J₀ J c) (hR : ∀ t i, c.threads t = .inside i → R c.shared i) (hstep : p.Step c c') :
    p.Guarded J₀ J c' := by
  cases hstep with
  | @outer t o o' ht hout =>
      cases h with
      | clear hflag hall hJ => exact .clear hflag (fun t' => outside_update fun _ => hall t') hJ
      | held u i hflag hu hall hJ =>
          have hne : u ≠ t := by
            intro heq
            rw [heq, ht] at hu
            cases hu
          exact .held u i hflag ((Function.update_of_ne hne ..).trans hu)
            (fun t' ht' => outside_update fun _ => hall t' ht') hJ
  | @enter t o s i ht hent =>
      obtain ⟨hclear, hset⟩ := p.enter_flag hent
      obtain ⟨hall, hJ⟩ := h.of_clear hclear
      exact .held t i hset (Function.update_self ..) (fun t' hne => outside_update_of_ne hne (hall t'))
        (henter hJ hent)
  | @inner t i s i' ht hin =>
      obtain ⟨hflag, hall, hJ⟩ := h.inside ht
      exact .held t i' ((p.inner_flag hin).trans hflag) (Function.update_self ..)
        (fun t' hne => outside_update_of_ne hne (hall t' hne)) (hinner hJ (hR t i ht) hin)
  | @leave t i s o ht hlv =>
      obtain ⟨_, hall, hJ⟩ := h.inside ht
      exact .clear (p.leave_flag hlv) (fun t' => outside_update fun hne => hall t' hne) (hleave hJ hlv)

theorem Guarded.reaches {R : σ → ι → Prop} (henter : ∀ {t s o s' i}, J₀ s → p.enter t s o s' i → J t s' i)
    (hinner : ∀ {t s i s' i'}, J t s i → R s i → p.inner s i s' i' → J t s' i')
    (hleave : ∀ {t s i s' o}, J t s i → p.leave t s i s' o → J₀ s')
    (h : p.Guarded J₀ J c) (hrun : p.Reaches R c c') : p.Guarded J₀ J c' := by
  induction hrun with
  | refl => exact h
  | tail _ hstep ih => exact ih.step henter hinner hleave hstep.1 hstep.2

/-! ## One thread while the others are outside -/

section

variable {R : σ → ι → Prop} {threads : θ → Place ο ι} {t : θ}

theorem none_inside (hall : ∀ t', ∃ o, threads t' = .outside o) {o : ο} {t' : θ} {j : ι} :
    Function.update threads t (.outside o) t' ≠ .inside j := by
  intro h
  have hout : ∃ q, Function.update threads t (.outside o) t' = .outside q := outside_update fun _ => hall t'
  obtain ⟨q, hq⟩ := hout
  rw [hq] at h
  cases h

theorem only_inside (hall : ∀ t', ∃ o, threads t' = .outside o) {i : ι} {t' : θ} {j : ι}
    (h : Function.update threads t (.inside i) t' = .inside j) : j = i := by
  by_cases heq : t' = t
  · subst heq
    rw [Function.update_self] at h
    cases h
    rfl
  · obtain ⟨o, ho⟩ := outside_update_of_ne (q := .inside i) heq (hall t')
    rw [ho] at h
    cases h

theorem reaches_outer (hall : ∀ t', ∃ o, threads t' = .outside o) {s : σ} {o o' : ο}
    (h : Relation.ReflTransGen (p.outer s) o o') :
    p.Reaches R ⟨s, Function.update threads t (.outside o)⟩ ⟨s, Function.update threads t (.outside o')⟩ := by
  induction h with
  | refl => exact .refl
  | @tail o o' _ hstep ih =>
      have hnext := Step.outer (p := p) (c := ⟨s, Function.update threads t (.outside o)⟩)
        (Function.update_self ..) hstep
      rw [Function.update_idem] at hnext
      exact ih.tail ⟨fun t' j hj => absurd hj (none_inside hall), hnext⟩

theorem reaches_inner (hall : ∀ t', ∃ o, threads t' = .outside o) {a b : σ × ι}
    (h : Relation.ReflTransGen (fun a b : σ × ι => R a.1 a.2 ∧ p.inner a.1 a.2 b.1 b.2) a b) :
    p.Reaches R ⟨a.1, Function.update threads t (.inside a.2)⟩ ⟨b.1, Function.update threads t (.inside b.2)⟩ := by
  induction h with
  | refl => exact .refl
  | @tail b b' _ hstep ih =>
      have hnext := Step.inner (p := p) (c := ⟨b.1, Function.update threads t (.inside b.2)⟩)
        (Function.update_self ..) hstep.2
      rw [Function.update_idem] at hnext
      refine ih.tail ⟨?_, hnext⟩
      intro t' j hj
      rw [only_inside hall hj]
      exact hstep.1

/-- A whole critical section. -/
theorem reaches_section (hall : ∀ t', ∃ o, threads t' = .outside o) {s s₁ s₂ s' : σ} {o o' : ο} {i₁ i₂ : ι}
    (hentering : p.enter t s o s₁ i₁)
    (hinside : Relation.ReflTransGen (fun a b : σ × ι => R a.1 a.2 ∧ p.inner a.1 a.2 b.1 b.2) (s₁, i₁) (s₂, i₂))
    (hR : R s₂ i₂) (hleaving : p.leave t s₂ i₂ s' o') :
    p.Reaches R ⟨s, Function.update threads t (.outside o)⟩ ⟨s', Function.update threads t (.outside o')⟩ := by
  have henter := Step.enter (p := p) (c := ⟨s, Function.update threads t (.outside o)⟩)
    (Function.update_self ..) hentering
  have hleave := Step.leave (p := p) (c := ⟨s₂, Function.update threads t (.inside i₂)⟩)
    (Function.update_self ..) hleaving
  rw [Function.update_idem] at henter hleave
  refine .head ⟨fun t' j hj => absurd hj (none_inside hall), henter⟩
    ((reaches_inner hall hinside).tail ⟨fun t' j hj => ?_, hleave⟩)
  rw [only_inside hall hj]
  exact hR

end

end Spinlock

end FalconAS.Machine

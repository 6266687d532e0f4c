import Mathlib.Init

/-!
# Loops, turn by turn

A loop is given by what one turn of it does: it goes on, or the function returns. A turn that comes to an operation
that is not defined has no result. `Ends` is a finite execution up to a return. It has no fuel, so it tells a loop that
returns from one that was only cut off.
-/

namespace FalconAS.Machine

inductive Turn (σ ρ : Type) where
  | again (s : σ)
  | leave (r : ρ)

/-- After finitely many more turns, all of them defined, the function returns `r`. -/
inductive Ends {σ ρ : Type} (turn : σ → Option (Turn σ ρ)) : Option (Turn σ ρ) → ρ → Prop where
  | leave {r : ρ} : Ends turn (some (.leave r)) r
  | again {s : σ} {r : ρ} : Ends turn (turn s) r → Ends turn (some (.again s)) r

variable {σ ρ : Type} {turn : σ → Option (Turn σ ρ)} {s s' : σ} {r : ρ}

theorem Ends.of_leave (h : turn s = some (.leave r)) : Ends turn (some (.again s)) r :=
  .again (h ▸ .leave)

theorem Ends.of_again (h : turn s = some (.again s')) (h' : Ends turn (some (.again s')) r) :
    Ends turn (some (.again s)) r :=
  .again (h ▸ h')

end FalconAS.Machine

/-
Definitions and uses along control flow: which definition of a variable reaches a point without another one in between.
-/
import Mathlib.Logic.Relation

namespace Lib

variable {σ ρ : Type}

/-- A control flow between points, some of which define variables. -/
structure Flow (σ ρ : Type) where
  next : σ → σ → Prop
  defines : σ → ρ → Prop

namespace Flow

variable (f : Flow σ ρ)

/-- A path of at least one step between two points without a definition of the variable strictly between
    them. -/
inductive Clear (r : ρ) (s : σ) : σ → Prop
  | step {t : σ} (h : f.next s t) : Clear r s t
  | pass {t t' : σ} (h : Clear r s t) (hdef : ¬f.defines t r) (hnext : f.next t t') : Clear r s t'

end Flow

end Lib

/-
This file walks over the steps of a derivation with a stack in place of recursion. On the stack lie
the steps that are still to be entered and, each below the steps that it rests on, those that were
entered and are to be listed. A step may come to lie on the stack several times before it is
entered, and only the first time counts. The walk ends because every step is entered once, and
between two steps that are entered the stack shrinks.
-/

import ClausalReasoner.Derivation

namespace ClausalReasoner

namespace Derivation

/-- What is left to do about a step: to enter it, or to list it when what it rests on is done. -/
inductive Task where
  | enter (number : StepNumber)
  | list (number : StepNumber)
  deriving DecidableEq, Inhabited, Repr

/-! ### Steps that were not met yet -/

/-- The steps of a derivation that a walk has not met. -/
def unmet (d : Derivation) (walk : Walk) : List StepNumber :=
  (List.range d.size).filter fun number => !walk.met.contains number

variable {d : Derivation} {number : StepNumber} {walk : Walk}

/-- To meet a step takes it from those that were not met. -/
theorem unmet_meet (d : Derivation) (number : StepNumber) (walk : Walk) :
    d.unmet { walk with met := number :: walk.met } = (d.unmet walk).filter (· ≠ number) := by
  rw [unmet, unmet, List.filter_filter]
  refine List.filter_congr fun other _ => ?_
  by_cases same : other = number <;> simp [same]

theorem length_unmet_le (d : Derivation) (number : StepNumber) (walk : Walk) :
    (d.unmet { walk with met := number :: walk.met }).length ≤ (d.unmet walk).length := by
  rw [unmet_meet]
  exact List.length_filter_le _ _

theorem length_unmet_lt {step : Step} (found : d.steps[number]? = some step)
    (new : ¬ walk.met.contains number) :
    (d.unmet { walk with met := number :: walk.met }).length < (d.unmet walk).length := by
  have known : number ∈ List.range d.size := List.mem_range.2 (Array.getElem?_eq_some_iff.1 found).1
  rw [unmet_meet, List.length_filter_lt_length_iff_exists]
  exact ⟨number, List.mem_filter.2 ⟨known, by simpa using new⟩, by simp⟩

/-! ### Working off the stack -/

/-- Do what is left to do, from the top of the stack. The steps that an entered step rests on go on
the stack in their order, except for those that were met, and the step itself below them. -/
def workOff (d : Derivation) : List Task → Walk → Walk
  | [], walk => walk
  | .list number :: rest, walk => d.workOff rest { walk with listed := number :: walk.listed }
  | .enter number :: rest, walk =>
    if walk.met.contains number then d.workOff rest walk
    else
      let entered : Walk := { walk with met := number :: walk.met }
      match found : d.steps[number]? with
      | none => d.workOff rest entered
      | some step =>
        let pending := step.sources.filter fun source => !entered.met.contains source
        d.workOff (pending.map .enter ++ .list number :: rest) entered
termination_by stack walk => ((d.unmet walk).length, stack.length)
decreasing_by
  · exact Prod.Lex.right _ (Nat.lt_succ_self _)
  · exact Prod.Lex.right _ (Nat.lt_succ_self _)
  · exact Prod.Lex.right' _ (length_unmet_le d number walk) (Nat.lt_succ_self _)
  · exact Prod.Lex.left _ _ (length_unmet_lt found ‹_›)

/-- The steps that `last` rests on, each after its own sources, and `last` itself. -/
def ancestryOnStack (d : Derivation) (last : StepNumber) : List StepNumber :=
  (d.workOff [.enter last] {}).listed.reverse

end Derivation

end ClausalReasoner

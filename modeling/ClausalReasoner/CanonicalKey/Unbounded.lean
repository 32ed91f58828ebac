/-
This file refines the colors of variables with a loop that nothing bounds beforehand. A round tells
variables apart by their signatures and goes on until it makes no more classes than there were. How
long this takes is not apparent, so the loop is given a number of rounds, and a refinement that takes
more comes to nothing.
-/

import ClausalReasoner.CanonicalKey

namespace ClausalReasoner

namespace Coloring

/-! ### One round -/

/-- The different signatures that variables have under a coloring, in order. -/
def kinds (colors : Coloring) (literals : List ShapedLiteral) (vs : List Variable) :
    List VariableSignature :=
  firstOccurrences (sortedBy VariableSignature.order (vs.map (colors.signature literals)))

/-- The coloring that gives every variable the number of its signature. -/
def recolored (colors : Coloring) (literals : List ShapedLiteral) (vs : List Variable) : Coloring :=
  vs.map fun v => (v, (colors.kinds literals vs).idxOf (colors.signature literals v))

/-! ### The loop -/

/-- Refine a coloring until a round makes no more classes than there are. Nothing comes out when that
takes more than the given number of rounds. -/
def refineToRest (literals : List ShapedLiteral) (vs : List Variable) :
    (rounds classes : Nat) → Coloring → Option Coloring
  | 0, _, _ => none
  | rounds + 1, classes, colors =>
    if (colors.kinds literals vs).length = classes then some colors
    else refineToRest literals vs rounds (colors.kinds literals vs).length
      (colors.recolored literals vs)

/-- Refine the coloring in which all variables of some literals have one color. -/
def refinedToRest (literals : List ShapedLiteral) (rounds : Nat) : Option Coloring :=
  let vs := firstOccurrences (literals.flatMap (·.occurrences))
  refineToRest literals vs rounds (min 1 vs.length) (vs.map fun v => (v, 0))

end Coloring

end ClausalReasoner

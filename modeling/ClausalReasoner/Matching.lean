/-
This file matches a pattern against a target: it looks for a substitution that turns the pattern
into the target while the target stays as it is. The variables of the target count as constants,
even when the pattern has a variable of the same name. A variable of the pattern that is bound
already must be bound to exactly the part of the target that it meets.
-/

import ClausalReasoner.Substitution

namespace ClausalReasoner

namespace Term

mutual

/-- Extend a substitution so that it turns the pattern, its first term, into the second one. -/
def matchWith : Term → Term → Substitution → Option Substitution
  | .var v, target, σ =>
    match σ.get? v with
    | some bound => if bound = target then some σ else none
    | none => some (σ.insert v target)
  | .constant a, .constant b, σ => if a = b then some σ else none
  | .app f patterns, .app g targets, σ => if f = g then matchListWith patterns targets σ else none
  | _, _, _ => none

/-- Extend a substitution so that it turns each pattern into the target at its place. -/
def matchListWith : List Term → List Term → Substitution → Option Substitution
  | [], [], σ => some σ
  | pattern :: patterns, target :: targets, σ =>
    match matchWith pattern target σ with
    | some extended => matchListWith patterns targets extended
    | none => none
  | _, _, _ => none

end

end Term

namespace Atom

/-- Extend a substitution so that it turns the pattern into the target, which must be built by the
same symbol. -/
def matchWith : Atom → Atom → Substitution → Option Substitution
  | .predicate p patterns, .predicate q targets, σ =>
    if p = q then Term.matchListWith patterns targets σ else none
  | .equality a b, .equality c d, σ => Term.matchListWith [a, b] [c, d] σ
  | _, _, _ => none

end Atom

end ClausalReasoner

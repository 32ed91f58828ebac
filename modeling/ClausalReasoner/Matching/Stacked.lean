/-
This file matches with a stack in place of recursion. On the stack lie pairs of a part of the pattern
and the part of the target that it has to become. The arguments of an application are put on it one
after the other, so that the last of them is matched first. Atoms are matched by matching their
arguments from the left, every one on top of what the one before it was given. A match may start from
given bindings or from none at all.
-/

import ClausalReasoner.Matching

namespace ClausalReasoner

namespace Term

/-- Match the pairs of a stack from the top. Two applications are compared in their symbols and in
the number of their arguments before these are looked at. -/
def matchStack : List (Term × Term) → Substitution → Option Substitution
  | [], σ => some σ
  | (.var v, target) :: rest, σ =>
    match σ.get? v with
    | some bound => if bound = target then matchStack rest σ else none
    | none => matchStack rest (σ.insert v target)
  | (.constant a, .constant b) :: rest, σ => if a = b then matchStack rest σ else none
  | (.app f patterns, .app g targets) :: rest, σ =>
    if _same : f = g ∧ patterns.length = targets.length then
      matchStack (List.reverseAux (patterns.zip targets) rest) σ
    else none
  | _ :: _, _ => none
termination_by stack => weightList (stack.map (·.1))
decreasing_by
  · simp [weightList, weight]
  · simp [weightList, weight]
  · simp [weightList, weight]
  · simp [weightList, weight, List.reverseAux_eq, List.map_fst_zip (Nat.le_of_eq _same.2)]

/-- Extend a substitution, if one is given, so that it turns the pattern into the target. -/
def matchPartial (pattern target : Term) (start : Option Substitution) : Option Substitution :=
  matchStack [(pattern, target)] (start.getD ∅)

/-- Match pairs from the left, each on top of what the one before it was given. -/
def matchEach : List (Term × Term) → Option Substitution → Option (Option Substitution)
  | [], start => some start
  | (pattern, target) :: rest, start =>
    match pattern.matchPartial target start with
    | some matched => matchEach rest (some matched)
    | none => none

end Term

/-- Extend a substitution, if one is given, so that it turns the pattern into the target. Atoms that
differ in their kind, their symbol or the number of their arguments do not match. -/
def Atom.matchPartial (pattern target : Atom) (start : Option Substitution) :
    Option Substitution :=
  if pattern.isEquality ≠ target.isEquality ∨ pattern.symbol ≠ target.symbol ∨
      pattern.arity ≠ target.arity then none
  else (Term.matchEach (pattern.arguments.zip target.arguments) start).map (·.getD ∅)

end ClausalReasoner

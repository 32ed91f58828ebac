/-
This file unifies terms, argument lists and atoms on top of a given substitution. Every binding is
cascaded through the substitution at the moment it is made, so a unifier that starts from a
cascaded substitution is cascaded too. Variables that are already bound are looked up and the
search goes on with what they stand for, which may be larger than the term at hand; the depth of
the search is therefore bounded by a number computed from everything that takes part, and running
into the bound is kept apart from finding that two terms do not unify.
-/

import ClausalReasoner.Substitution

namespace ClausalReasoner

/-! ### The occurs check -/

namespace Substitution

/-- The variables in the term that a variable is bound to. -/
def successors (θ : Substitution) (v : Variable) : List Variable :=
  match θ.get? v with
  | none => []
  | some t => t.vars

/-- The variables reached from the given ones by following bindings at most so many times. -/
def reach (θ : Substitution) : Nat → List Variable → List Variable
  | 0, reached => reached
  | depth + 1, reached =>
    let wider := firstOccurrences (reached ++ reached.flatMap θ.successors)
    if wider.length = reached.length then reached else reach θ depth wider

/-- Whether a variable stands in a term or in what the variables of the term are bound to, however
many bindings lead there. -/
def occursIn (θ : Substitution) (v : Variable) (t : Term) : Bool :=
  (θ.reach (θ.size + 1) t.vars).contains v

end Substitution

/-! ### Unification -/

/-- What an attempt to unify ends in. -/
inductive Unification where
  /-- The bound on the depth of the search was met. -/
  | unfinished
  /-- There is no unifier. -/
  | impossible
  /-- The unifier found. -/
  | unifier (θ : Substitution)
  deriving DecidableEq, Inhabited, Repr

namespace Unification

/-- The unifier, if the attempt found one. -/
def toOption : Unification → Option Substitution
  | .unifier θ => some θ
  | _ => none

/-- Work through two lists side by side, from the left, each step going on with the substitution
of the step before. Lists of different lengths do not unify, whatever they begin with. -/
def lists (step : Term → Term → Substitution → Unification) :
    List Term → List Term → Substitution → Unification
  | [], [], θ => .unifier θ
  | t :: ts, u :: us, θ =>
    match step t u θ with
    | .unifier extended => lists step ts us extended
    | failure => failure
  | _, _, _ => .impossible

/-- Lists are compared in length before any of their terms is looked at. -/
def sameLength (step : Term → Term → Substitution → Unification) (ts us : List Term)
    (θ : Substitution) : Unification :=
  if ts.length = us.length then lists step ts us θ else .impossible

/-- Bind a variable to a term, unless the variable occurs in it. -/
def close (v : Variable) (t : Term) (θ : Substitution) : Unification :=
  if θ.occursIn v t then .impossible else .unifier (θ.bind v t)

/-- Unify a variable with a term. A bound variable, on either side, is replaced by its term and the
search goes on with `step`. -/
def variableWith (step : Term → Term → Substitution → Unification) (v : Variable) (t : Term)
    (θ : Substitution) : Unification :=
  match θ.get? v with
  | some bound => step bound t θ
  | none =>
    match t.asVariable? with
    | none => close v t θ
    | some w =>
      match θ.get? w with
      | some bound => step (.var v) bound θ
      | none => close v t θ

/-- Unify two terms, going at most `depth` steps down. Equal terms unify without looking at the
substitution; a variable on the left is taken before one on the right. -/
def terms : Nat → Term → Term → Substitution → Unification
  | 0, _, _, _ => .unfinished
  | depth + 1, t, u, θ =>
    if t = u then .unifier θ
    else
      match t, u with
      | .var v, _ => variableWith (terms depth) v u θ
      | _, .var v => variableWith (terms depth) v t θ
      | .app f ts, .app g us =>
        if f = g then sameLength (terms depth) ts us θ else .impossible
      | _, _ => .impossible

end Unification

/-- The weight of everything in the range of a substitution, one more for each binding. -/
def Substitution.weight (θ : Substitution) : Nat :=
  θ.size + Term.weightList θ.range

/-- A bound on the depth of the search. Its cube leaves room for every pair of subterms to meet
between two new bindings, and for a new binding of every variable. -/
def Unification.depthBound (ts us : List Term) (θ : Substitution) : Nat :=
  2 * Nat.pow (Term.weightList ts + Term.weightList us + θ.weight + 2) 3

namespace Term

/-- Extend a substitution so that it unifies two lists of terms. -/
def unifyListWith (ts us : List Term) (θ : Substitution) : Option Substitution :=
  (Unification.sameLength (Unification.terms (Unification.depthBound ts us θ)) ts us θ).toOption

/-- Extend a substitution so that it unifies two terms. -/
def unifyWith (t u : Term) (θ : Substitution) : Option Substitution :=
  (Unification.terms (Unification.depthBound [t] [u] θ) t u θ).toOption

/-- A most general unifier of two terms. -/
def unify (t u : Term) : Option Substitution :=
  t.unifyWith u ∅

end Term

namespace Atom

/-- Whether two atoms are built by the same symbol: both equalities, or predicates of one name. -/
def sameSymbol : Atom → Atom → Bool
  | .predicate p _, .predicate q _ => p = q
  | .equality _ _, .equality _ _ => true
  | _, _ => false

/-- Extend a substitution so that it unifies two atoms. -/
def unifyWith (a b : Atom) (θ : Substitution) : Option Substitution :=
  if a.sameSymbol b then Term.unifyListWith a.arguments b.arguments θ else none

/-- A most general unifier of two atoms. -/
def unify (a b : Atom) : Option Substitution :=
  a.unifyWith b ∅

end Atom

end ClausalReasoner

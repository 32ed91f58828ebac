/-
This file says which inference procedures there are, what they can be told to do, and what they
answer. Time is counted in polls: a procedure looks at the clock at certain moments of its search,
and a time limit is the number of such looks after which the time is up. Nothing about the search
depends on a clock otherwise, so that a search with a given limit always ends in the same way.
-/

import ClausalReasoner.ClauseQueue

namespace ClausalReasoner

/-- The number of looks at the clock before the time is up, or no limit. -/
abbrev TimeLimit := Option Nat

/-- The looks at the clock that make up a second. -/
def pollsPerSecond : Nat := 1000000

/-- The time limit of so many seconds, where no second at all stands for no limit. -/
def TimeLimit.ofSeconds (seconds : Nat) : TimeLimit :=
  if seconds = 0 then none else some (seconds * pollsPerSecond)

/-- What the given clause procedure can be told to do. -/
structure GivenClauseOptions where
  heuristic : Heuristic := .fewestLiterals
  paramodulation : Bool := true
  /-- The equations by which inferred clauses are simplified. -/
  demodulators : List Atom := []
  deriving Inhabited

/-- An inference procedure. The chaining procedures answer atomic queries from definite clauses and
have no time limit; the others refute the negation of the query. -/
inductive Procedure where
  | forwardChaining
  | backwardChaining
  | saturation (limit : TimeLimit)
  | givenClause (limit : TimeLimit) (options : GivenClauseOptions)
  | modelElimination (limit : TimeLimit)
  deriving Inhabited

/-- The outcome of a query: the proofs that were found, and whether the search was cut short. -/
structure Answer where
  proofs : List Proof
  timedOut : Bool
  deriving DecidableEq, Inhabited, Repr

namespace Answer

/-- The query follows: there is a proof. -/
def isTrue (answer : Answer) : Bool :=
  !answer.proofs.isEmpty

/-- The search came to its end without a proof. -/
def isPossiblyFalse (answer : Answer) : Bool :=
  !answer.timedOut && answer.proofs.isEmpty

/-- The search was cut short before a proof was found. -/
def isUnknown (answer : Answer) : Bool :=
  answer.timedOut && answer.proofs.isEmpty

/-- There are proofs, and there might have been more. -/
def isPartial (answer : Answer) : Bool :=
  answer.timedOut && !answer.proofs.isEmpty

end Answer

/-- The part of a substitution that binds the given variables. -/
def Substitution.restrict (σ : Substitution) (vs : List Variable) : Substitution :=
  Substitution.ofList (vs.filterMap fun v => (σ.get? v).map fun t => (v, t))

end ClausalReasoner

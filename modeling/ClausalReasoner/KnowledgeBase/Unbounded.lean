/-
This file joins literals with facts by cascades that nothing bounds beforehand. A unifier of a literal
and a fact is put together with what was found so far without a look at where its variables come
from, so a cascade can go on forever, and then the whole join does. Every cascade is given a number
of rounds, and a join in which one of them takes more has no result.
-/

import ClausalReasoner.KnowledgeBase
import ClausalReasoner.Unification.Unbounded

namespace ClausalReasoner

/-- Compose two substitutions, with so many rounds for the cascade. -/
def Substitution.composeToRest (rounds : Nat) (first later : Substitution) : Option Substitution :=
  (first.joinedWith later).cascadeToRest rounds

/-- What the members of a list give, one after the other, if all of them give something. -/
def gatherAll {Input Output : Type} (attempt : Input → Option (List Output)) :
    List Input → Option (List Output)
  | [] => some []
  | input :: rest => (attempt input).bind fun here => (gatherAll attempt rest).map (here ++ ·)

namespace KnowledgeBase

/-- The ways to unify literals with facts, one after the other from the left, on top of the
substitution and the steps found so far. Each cascade may take so many rounds. -/
def joinFactsToRest (kb : KnowledgeBase) (rounds : Nat) :
    List Literal → Substitution → List StepNumber →
      Option (List (Substitution × List StepNumber))
  | [], θ, origins => some [(θ, origins)]
  | l :: rest, θ, origins =>
    gatherAll (fun (binding, origin) => (θ.composeToRest rounds binding).bind fun composed =>
      kb.joinFactsToRest rounds rest composed (origins ++ origin.toList))
      (kb.fetchFacts (l.substitute θ))

/-- The substitutions under which each literal of a list unifies with a fact. -/
def fetchAllToRest (kb : KnowledgeBase) (rounds : Nat) (ls : List Literal) :
    Option (List Substitution) :=
  (kb.joinFactsToRest rounds ls ∅ []).map fun found => found.map (·.1)

end KnowledgeBase

end ClausalReasoner

/-
This file answers atomic queries by chaining backward. The first of the open goals is unified with
the heads of the definite clauses one after the other; the body of the clause takes the place of the
goal, and the search goes on depth first with the substitution composed so far. All answers are
collected.

Rules that lead back to themselves may let the search go down forever, so its depth is bounded from
outside, and running into the bound gives no answer of any kind.
-/

import ClausalReasoner.KnowledgeBase

namespace ClausalReasoner

namespace BackwardChaining

/-- An answer to a list of goals: the substitution that proves them all, and the step by which the
first of them was reduced, if there was one. -/
structure GoalAnswer where
  bindings : Substitution
  step : Option StepNumber
  deriving Inhabited

/-- Record for each answer to the new goals how the first goal was reduced to them. The goal is
shown as the answer makes it. -/
def recordReductions (goal : Literal) (θ : Substitution) (sources : List StepNumber)
    (session : Session) (below : List GoalAnswer) : List GoalAnswer × Session :=
  session.mapList (fun session answer =>
    let (number, recorded) := session.record
      ⟨.goalReduction, .literal (goal.substitute answer.bindings), .unifier θ,
        sources ++ answer.step.toList⟩
    (⟨answer.bindings, some number⟩, recorded)) below

/-- Go through a list with a function that may give up, collecting what it finds and handing the
session on. -/
def gather {Input Output : Type} (step : Session → Input → Option (List Output × Session)) :
    Session → List Input → Option (List Output × Session)
  | session, [] => some ([], session)
  | session, input :: rest =>
    match step session input with
    | none => none
    | some (found, between) =>
      match gather step between rest with
      | none => none
      | some (others, last) => some (found ++ others, last)

/-- All answers to a list of goals on top of a substitution, found with the given definite clauses
by going at most `depth` reductions down. -/
def prove (definites : List Clause) : (depth : Nat) → List Literal → Substitution → Session →
    Option (List GoalAnswer × Session)
  | 0, _, _, _ => none
  | _ + 1, [], θ, session => some ([⟨θ, none⟩], session)
  | depth + 1, first :: rest, θ, session =>
    let goal := first.substitute θ
    gather (fun session rule =>
      let (rule, session) := session.rename rule
      match rule.positives with
      | [] => some ([], session)
      | head :: _ =>
        match head.atom.unify goal.atom with
        | none => some ([], session)
        | some unifier =>
          let body := rule.negatives.map fun l => Literal.positive l.atom
          match prove definites depth (body ++ rest) (θ.compose unifier) session with
          | none => none
          | some (below, session) =>
            some (recordReductions goal unifier rule.sources session below)) session definites

/-- Answer a query by chaining backward. -/
def ask (depth : Nat) (kb : KnowledgeBase) (query : Sentence) :
    Option (Except Failure Answer × KnowledgeBase) :=
  match query with
  | .atom a =>
    (prove kb.definites depth [Literal.positive a] ∅ kb.session).map fun (answers, session) =>
      let proofs := answers.filterMap fun answer =>
        answer.step.map fun number =>
          session.derivation.proof number (answer.bindings.restrict a.vars)
      (.ok ⟨proofs, false⟩, kb.afterSession session)
  | _ => some (.error (.nonAtomicQuery "backward chaining" query), kb)

end BackwardChaining

end ClausalReasoner

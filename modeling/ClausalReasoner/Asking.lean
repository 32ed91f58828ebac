/-
This file answers queries. The query is given fresh variables before a procedure sees it, so that it
shares none with what is stored, and the values that the procedure finds are reported for the
variables as they were in the query.
-/

import ClausalReasoner.Procedure.BackwardChaining
import ClausalReasoner.Procedure.ForwardChaining
import ClausalReasoner.Procedure.GivenClause
import ClausalReasoner.Procedure.ModelElimination
import ClausalReasoner.Procedure.Saturation

namespace ClausalReasoner

/-- Answer a query whose variables are fresh with a procedure. The fuel bounds its rounds, passes,
given clauses or depth, and without an answer in this bound there is none. -/
def Procedure.ask (fuel : Nat) (kb : KnowledgeBase) (query : Sentence) :
    Procedure → Option (Except Failure Answer × KnowledgeBase)
  | .forwardChaining => ForwardChaining.ask fuel kb query
  | .backwardChaining => BackwardChaining.ask fuel kb query
  | .saturation limit => Saturation.ask fuel limit kb query
  | .givenClause limit options => GivenClause.ask fuel limit options kb query
  | .modelElimination limit => ModelElimination.ask fuel limit kb query

/-- Bindings of fresh variables told in the variables that they stand for. Bindings of other
variables are left out. -/
def Substitution.inTermsOf (bindings reverse : Substitution) : Substitution :=
  Substitution.ofList <| bindings.bindings.filterMap fun (v, t) =>
    ((reverse.get? v).bind Term.asVariable?).map fun own => (own, t.substitute reverse)

namespace KnowledgeBase

/-- Answer a query with the procedure of the knowledge base. -/
def ask (fuel : Nat) (kb : KnowledgeBase) (query : Sentence) :
    Option (Except Failure Answer × KnowledgeBase) :=
  let (apart, supply) := query.standardizeApart kb.supply
  (kb.procedure.ask fuel { kb with supply := supply } apart.standardized).map
    fun (outcome, kb) =>
      (outcome.map fun answer =>
        { answer with
          proofs := answer.proofs.map fun proof =>
            { proof with bindings := proof.bindings.inTermsOf apart.reverse } }, kb)

end KnowledgeBase

end ClausalReasoner

/-
This file says what model elimination proves. Bindings are answered by a chain when a chain that is
empty, or that is the answer literal alone, can be made from the chains of the stored clauses and of
the negated query. How it is made does not matter: any sequence of reductions, cancellations and
drops will do, in particular the one that the search has found. The bindings are then correct.
-/

import ClausalReasoner.Proofs.Soundness

namespace ClausalReasoner

universe u

namespace KnowledgeBase

variable {kb last : KnowledgeBase} {query : Sentence} {limit : TimeLimit} {bindings : Substitution}
  {fuel : Nat} {answer : Answer}

/-- Bindings for the variables of a query that some chain answers it with. The chain is derived from
the chains that model elimination begins with, and it is found in the fresh variables that the query
was given. -/
def ChainAnswers (kb : KnowledgeBase) (query : Sentence) (limit : TimeLimit)
    (bindings : Substitution) : Prop :=
  ∃ found : Substitution,
    ((kb.atQuery query).refute (kb.freshQuery query) limit).book.Backs
      (Literal.DerivedFrom (ModelElimination.chainsFor
        ((kb.atQuery query).refute (kb.freshQuery query) limit))) found ∧
    bindings = found.inTermsOf (query.standardizeApart kb.supply).1.reverse

/-- The search only reports bindings that a chain answers the query with. -/
theorem chainAnswers_of_ask (elimination : kb.procedure = .modelElimination limit)
    (asked : kb.ask fuel query = some (.ok answer, last)) :
    ∀ proof ∈ answer.proofs, kb.ChainAnswers query limit proof.bindings := by
  intro proof member
  obtain ⟨found, ran, proofs⟩ := exists_answer_of_ask asked
  rw [elimination, Procedure.ask] at ran
  obtain ⟨before, inside, rfl⟩ := List.mem_map.1 (proofs ▸ member)
  exact ⟨before.bindings,
    ModelElimination.backs_of_ask (isNew_refute _ _ limit) ran before inside, rfl⟩

/-- What a chain answers a query with is correct, by whatever steps the chain was derived. -/
theorem followsUnder_of_chainAnswers (regular : kb.Regular)
    (unmentioned : Symbol.predicate kb.nextAnswerPredicate ∉ query.symbols)
    (answers : kb.ChainAnswers query limit bindings) :
    query.FollowsUnder (fun {_ : Type u} _ => True) kb.clauses.toList bindings := by
  obtain ⟨found, backs, rfl⟩ := answers
  have regularFresh : (kb.atQuery query).Regular := regular.supplied _ kb.derivation
  exact followsUnder_of_provesFresh regular unmentioned
    (fun _ => ModelElimination.proves_of_backs regularFresh backs)
    (admitsInventions_true kb query limit)

/-- **Model elimination is sound.** In a reachable knowledge base, for a query that does not mention
the answer predicate: bindings that a chain answers the query with are correct, whatever sequence of
reductions, cancellations and drops has led to the chain, and every proof that is reported is one of
these. A closed query is entailed by the stored clauses, and a query without quantifiers is entailed
under the bindings. -/
theorem Reachable.followsUnder_of_chains (reachable : kb.Reachable)
    (elimination : kb.procedure = .modelElimination limit)
    (unmentioned : Symbol.predicate kb.nextAnswerPredicate ∉ query.symbols) :
    (∀ bindings, kb.ChainAnswers query limit bindings →
      query.FollowsUnder (fun {_ : Type u} _ => True) kb.clauses.toList bindings) ∧
    ∀ fuel answer last, kb.ask fuel query = some (.ok answer, last) → ∀ proof ∈ answer.proofs,
      kb.ChainAnswers query limit proof.bindings ∧
        query.FollowsUnder (fun {_ : Type u} _ => True) kb.clauses.toList proof.bindings := by
  have correct : ∀ bindings, kb.ChainAnswers query limit bindings →
      query.FollowsUnder (fun {_ : Type u} _ => True) kb.clauses.toList bindings :=
    fun bindings => followsUnder_of_chainAnswers reachable.regular unmentioned
  refine ⟨correct, fun fuel answer last asked proof member => ?_⟩
  have answers := chainAnswers_of_ask elimination asked proof member
  exact ⟨answers, correct proof.bindings answers⟩

/-- `P ∨ Q`. -/
def someSide : Sentence :=
  .or (.atom (.predicate "P" [])) (.atom (.predicate "Q" []))

/-- `P → Q`. -/
def sidesMeet : Sentence :=
  .implies (.atom (.predicate "P" [])) (.atom (.predicate "Q" []))

/-- `Q`. -/
def otherSide : Sentence :=
  .atom (.predicate "Q" [])

/-- The knowledge base that eliminates models and was told of the two sides. -/
def sides : KnowledgeBase :=
  (KnowledgeBase.telling { procedure := .modelElimination none } someSide).telling sidesMeet

set_option maxRecDepth 10000 in
/-- One of two sides holds and the first implies the second, so the second is proved. The proof
cancels a head against a reduced literal. -/
theorem followsUnder_of_chains_otherSide :
    ∃ answer last proof, sides.ask 4 otherSide = some (.ok answer, last) ∧ proof ∈ answer.proofs ∧
      sides.ChainAnswers otherSide none proof.bindings ∧
      otherSide.FollowsUnder (fun {_ : Type u} _ => True) sides.clauses.toList proof.bindings := by
  have reachable : sides.Reachable := ((Reachable.initial _).telling someSide).telling sidesMeet
  have procedure : sides.procedure = .modelElimination none := by cbv
  have name : sides.nextAnswerPredicate = "Answer0" := by cbv
  obtain ⟨answer, last, proof, asked, member⟩ := exists_of_isProved
    (by cbv : sides.isProved 4 otherSide)
  have unmentioned : Symbol.predicate sides.nextAnswerPredicate ∉ otherSide.symbols := by
    rw [name]
    decide
  have follows := reachable.followsUnder_of_chains procedure unmentioned
  obtain ⟨answers, correct⟩ := follows.2 4 answer last asked proof member
  exact ⟨answer, last, proof, asked, member, answers, correct⟩

end KnowledgeBase

end ClausalReasoner

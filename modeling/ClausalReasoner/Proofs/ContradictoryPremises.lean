/-
This file says that premises are blamed for a contradiction only when they contradict each other. The
empty list of literals may be derived in a refutation although every clause of the goal has the
answer literal. Where the answer predicate is true of everything the clauses of the goal are all
valid, whatever the query is, so that the stored clauses cannot be valid there; and the answer
predicate is none of theirs.
-/

import ClausalReasoner.Proofs.AnswerLiterals
import ClausalReasoner.Proofs.Soundness

namespace ClausalReasoner

universe u

/-- There is no admitted interpretation in which the clauses are valid. -/
def Contradictory (admitted : ∀ {Universe : Type u}, Interpretation Universe → Prop)
    (cs : List Clause) : Prop :=
  ∀ (Universe : Type u) (meaning : Interpretation Universe), admitted meaning →
    ¬ ∀ c ∈ cs, c.ValidIn meaning

section Procedures

variable {Universe : Type u} {kb last : KnowledgeBase} {query : Sentence} {limit : TimeLimit}
  {fuel : Nat} {failure : Failure}

/-- A refutation has an answer predicate, and the stored clauses and the goals are not valid together
in any admitted interpretation. -/
structure Refutation.Contradicts (refutation : Refutation)
    (admitted : Interpretation Universe → Prop) : Prop where
  predicate : refutation.book.predicate ≠ none
  never : ∀ meaning : Interpretation Universe, admitted meaning →
    (∀ c ∈ refutation.kb.clauses.toList, c.ValidIn meaning) →
      ¬ ∀ c ∈ refutation.goals, c.ValidIn meaning

/-! ### Failing searches -/

theorem Saturation.contradicts_of_ask
    (asked : ask fuel limit kb query = some (.error failure, last)) :
    (kb.refute query limit).Contradicts (fun _ : Interpretation Universe => True) where
  predicate := by
    have trivially : ResolutionInvariant fun _ => True :=
      ⟨⟨fun _ _ _ => trivial⟩, fun _ _ _ _ _ _ _ _ _ _ _ _ => trivial⟩
    exact (holds_nil_of_ask trivially (fun _ _ => trivial) (fun _ _ => trivial)
      (isNew_refute kb query limit) asked).1
  never meaning _ stored goals :=
    KnowledgeBase.not_allValid_nil meaning (holds_nil_of_ask (resolutionInvariant_allValid meaning)
      stored goals (isNew_refute kb query limit) asked).2

theorem GivenClause.contradicts_of_ask {options : GivenClauseOptions}
    (asked : ask fuel limit options kb query = some (.error failure, last)) :
    (kb.refute query limit).Contradicts
      (fun meaning : Interpretation Universe => meaning.RespectsEquations options.demodulators) where
  predicate := by
    have trivially : EqualityInvariant options.demodulators fun _ => True :=
      ⟨⟨⟨fun _ _ _ => trivial⟩, fun _ _ _ _ _ _ _ _ _ _ _ _ => trivial⟩,
        ⟨fun _ _ _ _ _ _ _ _ => trivial⟩, fun _ _ _ _ _ _ _ => trivial, fun _ => trivial⟩
    exact (holds_nil_of_ask trivially (fun _ _ => trivial) (fun _ _ => trivial)
      (isNew_refute kb query limit) asked).1
  never meaning respects stored goals :=
    KnowledgeBase.not_allValid_nil meaning
      (holds_nil_of_ask (equalityInvariant_allValid respects.1 respects.2) stored goals
        (isNew_refute kb query limit) asked).2

theorem ModelElimination.contradicts_of_ask (regular : kb.Regular)
    (asked : ask fuel limit kb query = some (.error failure, last)) :
    (kb.refute query limit).Contradicts (fun _ : Interpretation Universe => True) where
  predicate := (derivedFrom_nil_of_ask (isNew_refute kb query limit) asked).1
  never meaning _ stored goals :=
    KnowledgeBase.not_allValid_nil meaning (allValid_of_derivedFrom regular stored goals
      (derivedFrom_nil_of_ask (isNew_refute kb query limit) asked).2)

end Procedures

/-! ### The premises alone -/

namespace KnowledgeBase

variable {kb last : KnowledgeBase} {query : Sentence} {limit : TimeLimit} {fuel : Nat}

/-- Where the answer predicate is true of everything, the goals for a query with variables are
valid. -/
theorem validIn_goals_of_always {Universe : Type u} {meaning : Interpretation Universe}
    (always : ∀ arguments, meaning.predicate kb.nextAnswerPredicate arguments)
    (some : query.vars ≠ []) : ∀ c ∈ (kb.refute query limit).goals, c.ValidIn meaning := by
  intro c member values
  obtain ⟨forward, inside, _⟩ := exists_answer_of_mem_goals member
  exact ⟨_, inside some, always _⟩

/-- The stored clauses contradict each other if they and the goals do, provided that nothing but the
answer predicate being true of everything is asked of the admitted interpretations. -/
theorem contradictory_of_contradicts (knows : kb.KnowsClauses)
    {admitted : ∀ {Universe : Type u}, Interpretation Universe → Prop}
    (contradicts : ∀ Universe : Type u, (kb.refute query limit).Contradicts (@admitted Universe))
    (admits : ∀ (Universe : Type u) (meaning : Interpretation Universe), admitted meaning →
      admitted (meaning.withPredicate kb.nextAnswerPredicate fun _ => True)) :
    Contradictory @admitted kb.clauses.toList := by
  intro Universe meaning isAdmitted valid
  have someVariable : query.vars ≠ [] := by
    intro none
    have predicate := (contradicts Universe).predicate
    rw [refute_eq] at predicate
    exact predicate (if_pos none)
  refine (contradicts Universe).never _ (admits Universe meaning isAdmitted) ?_
    (validIn_goals_of_always (fun arguments => ?_) someVariable)
  · rw [refute_eq]
    intro c member
    refine (c.validIn_congr_meaning (meaning.agree_withPredicate _ fun _ => True)
      fun symbol inside isAnswer => ?_).1 (valid c member)
    exact kb.not_knows_nextAnswerPredicate (isAnswer ▸ knows c member symbol inside)
  · rw [Interpretation.predicate_withPredicate]
    trivial

/-- Which interpretations a procedure reasons about does not depend on what predicates are true
of. -/
theorem admits_withPredicate {Universe : Type u} {meaning : Interpretation Universe}
    (procedure : Procedure) (isAdmitted : procedure.Admits meaning) (name : String)
    (relation : List Universe → Prop) :
    procedure.Admits (meaning.withPredicate name relation) := by
  cases procedure with
  | givenClause limit options =>
    have agree := meaning.agree_withPredicate name relation
    refine ⟨agree.isNormal isAdmitted.1, fun equation listed values => ?_⟩
    cases equation with
    | predicate other arguments =>
      exact absurd (List.of_mem_filter listed) Bool.false_ne_true
    | equality left right =>
      refine (Atom.holdsIn_congr agree.equality (fun symbol inside => ?_) fun _ _ => rfl).1
        (isAdmitted.2 _ listed values)
      obtain ⟨t, _, occurs⟩ := Term.mem_symbolsList.1 inside
      exact agree.symbols symbol (Term.not_predicate_of_mem_symbols occurs name)
  | _ => trivial

/-- **Premises are blamed for a contradiction only when they contradict each other.** In a reachable
knowledge base, whatever the query is: when saturation, model elimination or the given clause
procedure fails because the premises contradict each other, the stored clauses alone have no model;
for the given clause procedure, no normal model in which the demodulators are valid. -/
theorem Reachable.contradictory_of_ask (reachable : kb.Reachable)
    (refutation : kb.procedure.isRefutation)
    (asked : kb.ask fuel query = some (.error .inconsistentPremises, last)) :
    Contradictory (Procedure.Admits.{u} kb.procedure) kb.clauses.toList := by
  obtain ⟨found, ran, same⟩ := exists_of_ask asked
  obtain ⟨failure, rfl⟩ : ∃ failure, found = .error failure := by
    cases found with
    | error failure => exact ⟨failure, rfl⟩
    | ok answer => exact absurd same nofun
  have regular : (kb.atQuery query).Regular := reachable.regular.supplied _ kb.derivation
  have knows : (kb.atQuery query).KnowsClauses := regular.knowsClauses
  cases isProcedure : kb.procedure with
  | forwardChaining =>
    rw [isProcedure] at refutation
    exact absurd refutation Bool.false_ne_true
  | backwardChaining =>
    rw [isProcedure] at refutation
    exact absurd refutation Bool.false_ne_true
  | saturation limit =>
    rw [isProcedure, Procedure.ask] at ran
    exact contradictory_of_contradicts knows
      (fun Universe => Saturation.contradicts_of_ask ran) fun _ _ _ => trivial
  | modelElimination limit =>
    rw [isProcedure, Procedure.ask] at ran
    exact contradictory_of_contradicts knows
      (fun Universe => ModelElimination.contradicts_of_ask regular ran) fun _ _ _ => trivial
  | givenClause limit options =>
    rw [isProcedure, Procedure.ask] at ran
    exact contradictory_of_contradicts knows
      (fun Universe => GivenClause.contradicts_of_ask ran)
      fun _ _ isAdmitted => admits_withPredicate (.givenClause limit options) isAdmitted _ _

/-- `P(A)` if affirmed, and otherwise `¬P(A)`. -/
def oneWay (affirmed : Bool) : Sentence :=
  if affirmed then .atom (.predicate "P" [.constant "A"])
  else .negation (.atom (.predicate "P" [.constant "A"]))

/-- `Q(x)`. -/
def someOther : Sentence :=
  .atom (.predicate "Q" [.var ⟨"x", none⟩])

/-- The knowledge base that saturates and was told `P(A)` and `¬P(A)`. -/
def bothWays : KnowledgeBase :=
  (KnowledgeBase.telling { procedure := .saturation none } (oneWay true)).telling (oneWay false)

/-- Whether the search fails within the given fuel because the premises contradict each other. -/
def isBlamed (kb : KnowledgeBase) (fuel : Nat) (query : Sentence) : Bool :=
  match kb.ask fuel query with
  | some (.error .inconsistentPremises, _) => true
  | _ => false

theorem exists_of_isBlamed (blamed : kb.isBlamed fuel query) :
    ∃ last, kb.ask fuel query = some (.error .inconsistentPremises, last) := by
  unfold isBlamed at blamed
  split at blamed
  · next last asked => exact ⟨last, asked⟩
  · exact absurd blamed Bool.false_ne_true

set_option maxRecDepth 10000 in
/-- With `P(A)` and `¬P(A)` every query with a variable is refused. -/
theorem contradictory_bothWays :
    ∃ last, bothWays.ask 3 someOther = some (.error .inconsistentPremises, last) ∧
      Contradictory (Procedure.Admits.{u} bothWays.procedure) bothWays.clauses.toList := by
  have reachable : bothWays.Reachable := ((Reachable.initial _).telling _).telling _
  have procedure : bothWays.procedure = .saturation none := by cbv
  obtain ⟨last, asked⟩ := exists_of_isBlamed (by cbv : bothWays.isBlamed 3 someOther)
  refine ⟨last, asked, reachable.contradictory_of_ask ?_ asked⟩
  rw [procedure]
  rfl

end KnowledgeBase

end ClausalReasoner

/-
This file answers atomic queries by chaining forward. In every round the bodies of all rules are
joined with the facts known at the start of the round, and the heads that are new up to the names of
variables are collected. They become facts when the round is over, which is when all rules have been
tried or when a new fact unifies with the query. A round that brings nothing new ends the search.

With function symbols the rounds may go on forever, so their number is bounded from outside, and
running into the bound gives no answer of any kind.
-/

import ClausalReasoner.KnowledgeBase

namespace ClausalReasoner

namespace ForwardChaining

/-- The state of a round: the session, the facts collected so far with their steps, and whether the
last one answers the query. -/
structure Round where
  session : Session
  collected : List (Literal × StepNumber) := []
  answered : Bool := false
  deriving Inhabited

/-- Collect the head of a rule under one way to join its body with the facts, unless it is known or
collected already. Nothing more is collected once the query is answered. -/
def collect (kb : KnowledgeBase) (query head : Literal) (sources : List StepNumber) (round : Round)
    (join : Substitution × List StepNumber) : Round :=
  if round.answered then round
  else
    let fact := head.substitute join.1
    if kb.isRenamingOfFact fact || isRenamingOf fact (round.collected.map (·.1)) then round
    else
      let ⟨session, collected, _⟩ := round
      let (number, recorded) := session.record
        ⟨.assertedFact, .literal fact, .unifier join.1, sources ++ join.2⟩
      ⟨recorded, collected ++ [(fact, number)], (fact.atom.unify query.atom).isSome⟩

/-- Try one rule, with fresh variables. -/
def tryRule (kb : KnowledgeBase) (query : Literal) (round : Round) (rule : Clause) : Round :=
  if round.answered then round
  else
    let ⟨session, collected, answered⟩ := round
    let (rule, session) := session.standardizeApart rule
    match rule.positives with
    | [] => ⟨session, collected, answered⟩
    | head :: _ =>
      let body := rule.negatives.map fun l => Literal.positive l.atom
      (kb.fetchAllFacts body).foldl (collect kb query head rule.sources)
        ⟨session, collected, answered⟩

/-- One round over all rules. -/
def round (kb : KnowledgeBase) (query : Literal) (session : Session) : Round :=
  kb.rules.foldl (tryRule kb query) { session := session }

/-- The knowledge base after a round: it has the collected facts and all steps of the session. -/
def close (kb : KnowledgeBase) (round : Round) : KnowledgeBase :=
  let supplied := kb.afterSession round.session
  let stored := round.collected.foldl (fun kb entry => kb.storeDerived entry.1 entry.2) supplied
  { stored with derivation := round.session.derivation }

/-- A proof for each fact that unifies with the query. -/
def proofsFromFacts (kb : KnowledgeBase) (query : Literal) (derivation : Derivation) : List Proof :=
  (kb.fetchFacts query).filterMap fun (θ, origin) =>
    origin.map fun number => derivation.proof number (θ.restrict query.atom.vars)

/-- A proof for each fact that unifies with the query, with a last step saying that the fact was
known from the start. -/
def proofsFromKnownFacts (query : Literal) :
    List (Substitution × Option StepNumber) → Derivation → List Proof
  | [], _ => []
  | (_, none) :: rest, derivation => proofsFromKnownFacts query rest derivation
  | (θ, some number) :: rest, derivation =>
    let (last, recorded) := derivation.record ⟨.knownFact, .literal query, .unifier θ, [number]⟩
    recorded.proof last (θ.restrict query.atom.vars) ::
      proofsFromKnownFacts query rest recorded

/-- Go on with rounds until one answers the query or brings nothing new. -/
def rounds (query : Literal) : (fuel : Nat) → KnowledgeBase → Option (Answer × KnowledgeBase)
  | 0, _ => none
  | fuel + 1, kb =>
    let result := round kb query kb.session
    let closed := close kb result
    if result.answered then
      some (⟨proofsFromFacts closed query closed.derivation, false⟩, closed)
    else if result.collected.isEmpty then some (⟨[], false⟩, closed)
    else rounds query fuel closed

/-- Answer a query by chaining forward. If it unifies with facts that are known already these are
the answers, and no rule is tried. -/
def ask (fuel : Nat) (kb : KnowledgeBase) (query : Sentence) :
    Option (Except Failure Answer × KnowledgeBase) :=
  match query with
  | .atom a =>
    let goal := Literal.positive a
    let known := kb.fetchFacts goal
    if known.isEmpty then (rounds goal fuel kb).map fun (answer, kb) => (.ok answer, kb)
    else some (.ok ⟨proofsFromKnownFacts goal known kb.derivation, false⟩, kb)
  | _ => some (.error (.nonAtomicQuery "forward chaining" query), kb)

end ForwardChaining

end ClausalReasoner

/-
This file keeps the books of a refutation. A query is answered by refuting its negation; to see for
which values of its variables it holds, an answer literal over these variables is joined to the
negation. A derived clause that consists of the answer literal alone is then an answer, and the
arguments of the literal are the values. If the query has no variables the empty clause is the
answer, and if it has some, deriving the empty clause means that the premises contradict each other.
-/

import ClausalReasoner.Chain
import ClausalReasoner.KnowledgeBase

namespace ClausalReasoner

/-- The books of a refutation. -/
structure AnswerBook where
  /-- The predicate of the answer literal, if there is one. -/
  predicate : Option String
  /-- The variables of the query, in the order of the arguments of the answer literal. -/
  vars : List Variable
  limit : TimeLimit
  proofs : List Proof := []
  /-- No further answers are looked for. -/
  complete : Bool := false
  timedOut : Bool := false
  /-- The premises contradict each other, which ends the search at once. -/
  inconsistent : Bool := false
  deriving Inhabited

namespace AnswerBook

/-- Whether the search is over. -/
def isClosed (book : AnswerBook) : Bool :=
  book.complete || book.inconsistent

/-- The outcome of the search. -/
def outcome (book : AnswerBook) : Except Failure Answer :=
  if book.inconsistent then .error .inconsistentPremises else .ok ⟨book.proofs, book.timedOut⟩

/-- Look at the clock, unless the search is complete. -/
def poll (book : AnswerBook) : AnswerBook :=
  if book.complete then book
  else
    match book.limit with
    | none => book
    | some 0 => { book with complete := true, timedOut := true }
    | some (polls + 1) => { book with limit := some polls }

/-- The values that an answer literal gives to the variables of the query. -/
def bindings (book : AnswerBook) (l : Literal) : Substitution :=
  Substitution.ofList (book.vars.zip l.atom.arguments)

/-- Enter a proof that ends in the given step. -/
def enter (book : AnswerBook) (session : Session) (last : StepNumber) (bindings : Substitution) :
    AnswerBook :=
  { book with proofs := book.proofs ++ [session.derivation.proof last bindings] }

/-- The step that an answer came from. An answer that came from nowhere is recorded as a goal. -/
def finalStep (session : Session) (origin : Option StepNumber) (conclusion : Conclusion) :
    StepNumber × Session :=
  match origin with
  | some number => (number, session)
  | none => session.record ⟨.goal, conclusion, .none, []⟩

/-- Whether literals consist of the answer literal alone, and which it is. -/
def answerLiteral? (predicate : String) : List Literal → Option Literal
  | [l] =>
    match l.polarity, l.atom with
    | .positive, .predicate name _ => if name = predicate then some l else none
    | _, _ => none
  | _ => none

/-- Decide whether literals that were derived answer the query, enter a proof if they do, and look
at the clock. Values that were entered before are not entered again. -/
def check (book : AnswerBook) (session : Session) (ls : List Literal) (origin : Option StepNumber)
    (conclusion : Conclusion) : Bool × AnswerBook × Session :=
  match book.predicate with
  | none =>
    if ls.isEmpty then
      let (last, session) := finalStep session origin conclusion
      let entered := book.enter session last ∅
      (true, { entered with complete := true }.poll, session)
    else (false, book.poll, session)
  | some predicate =>
    if ls.isEmpty then (false, { book with inconsistent := true }, session)
    else
      match answerLiteral? predicate ls with
      | none => (false, book.poll, session)
      | some l =>
        let bindings := book.bindings l
        if book.proofs.any fun proof => proof.bindings = bindings then (true, book.poll, session)
        else
          let (last, session) := finalStep session origin conclusion
          (true, (book.enter session last bindings).poll, session)

/-- Decide whether a clause answers the query. -/
def checkClause (book : AnswerBook) (session : Session) (c : Clause) :
    Bool × AnswerBook × Session :=
  book.check session c.literals c.origin (.clause c.literals)

/-- Decide whether a chain answers the query. -/
def checkChain (book : AnswerBook) (session : Session) (chain : Chain) :
    Bool × AnswerBook × Session :=
  book.check session chain.literals chain.origin (.chain chain.literals)

end AnswerBook

/-- A refutation about to begin: the books, the clauses of the negated query, the session, and the
knowledge base with the symbols that were invented. -/
structure Refutation where
  book : AnswerBook
  goals : List Clause
  session : Session
  kb : KnowledgeBase
  deriving Inhabited

/-- Give a clause of the negated query fresh variables and record it as a goal. -/
def Session.addGoal (session : Session) (c : Clause) : Clause × Session :=
  let (renamed, supplied) := session.rename c
  supplied.conclude .goal renamed .none []

/-- Begin the refutation of the negation of a query. The answer literal is invented even when the
query turns out to have no variables and does without it. -/
def KnowledgeBase.refute (kb : KnowledgeBase) (query : Sentence) (limit : TimeLimit) :
    Refutation :=
  let denial := Sentence.negation query
  let (answer, kb) := kb.answerAtom denial
  let vs := answer.vars
  let (predicate, goal) :=
    if vs.isEmpty then (none, denial) else (some answer.symbol, .or denial (.atom answer))
  let (cs, kb) := kb.clausesOf goal
  let (goals, session) := kb.session.mapList Session.addGoal cs
  { book := { predicate := predicate, vars := vs, limit := limit }
    goals := goals, session := session, kb := kb }

end ClausalReasoner

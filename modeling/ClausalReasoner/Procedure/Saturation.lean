/-
This file refutes by saturation. The stored clauses and those of the negated query are resolved pair
by pair, and every resolvent is added together with its factors, pass after pass, until a pass adds
nothing, an answer completes the search, or the time is up.

The passes may go on forever, so their number is bounded from outside, and running into the bound
gives no answer of any kind.
-/

import ClausalReasoner.AnswerBook
import ClausalReasoner.Resolution

namespace ClausalReasoner

namespace Saturation

/-- The state of a pass: the clauses known when it began and those it has added. -/
structure State where
  book : AnswerBook
  session : Session
  known : ClauseSet
  added : ClauseSet := ∅
  deriving Inhabited

/-- Add a clause that is new and see whether it is an answer. -/
def consider (state : State) (c : Clause) : State :=
  if state.book.isClosed || state.known.contains c || state.added.contains c then state
  else
    let ⟨book, session, known, added⟩ := state
    let (_, book, session) := book.checkClause session c
    ⟨book, session, known, added.insert c⟩

/-- Add a resolvent and its factors. -/
def considerFactors (state : State) (resolvent : Clause) : State :=
  if state.book.isClosed then state
  else
    let ⟨book, session, known, added⟩ := state
    let (factors, session) := session.factors resolvent
    factors.foldl consider ⟨book, session, known, added⟩

/-- Resolve two clauses. -/
def resolvePair (first : Clause) (state : State) (second : Clause) : State :=
  if state.book.isClosed then state
  else
    let ⟨book, session, known, added⟩ := state
    let (resolvents, session) := session.resolvents first second
    resolvents.foldl considerFactors ⟨book, session, known, added⟩

/-- Resolve every clause of a list with itself and with the later ones. -/
def resolveAll : List Clause → State → State
  | [], state => state
  | first :: rest, state =>
    resolveAll rest ((first :: rest).foldl (resolvePair first) state)

/-- One pass over the known clauses. What it adds becomes known when it is over. -/
def pass (state : State) : State :=
  resolveAll state.known.toList state

/-- Saturate: go on with passes until one adds nothing or closes the books. -/
def saturate : (fuel : Nat) → State → Option State
  | 0, _ => none
  | fuel + 1, state =>
    let ⟨book, session, known, added⟩ := pass state
    let grown : State := { book, session, known := known.insertAll added.toList }
    if book.isClosed || added.isEmpty then some grown else saturate fuel grown

/-- Answer a query by saturation. -/
def ask (fuel : Nat) (limit : TimeLimit) (kb : KnowledgeBase) (query : Sentence) :
    Option (Except Failure Answer × KnowledgeBase) :=
  let ⟨book, goals, session, kb⟩ := kb.refute query limit
  let (initial, session) := session.factorsApart (kb.clauses.toList ++ goals)
  let start : State := { book, session, known := ClauseSet.ofList initial }
  (saturate fuel start).map fun state => (state.book.outcome, kb.afterSession state.session)

end Saturation

end ClausalReasoner

/-
This file refutes with a set of support. The stored clauses are usable from the start, and the
clauses of the negated query make up the set of support. The lightest clause of the support is moved
over to the usable ones again and again and resolved, and if wanted paramodulated, with all of them.
What is inferred is simplified with the demodulators; tautologies are dropped, answers noted, and
the factors of the rest join the support unless something known subsumes them, while they push out
what they subsume. A new clause that is one literal away from an answer is tried on all unit clauses
at once.

The search may go on forever, so the number of given clauses is bounded from outside, and running
into the bound gives no answer of any kind.
-/

import ClausalReasoner.AnswerBook
import ClausalReasoner.EqualityReasoning
import ClausalReasoner.Subsumption

namespace ClausalReasoner

namespace GivenClause

/-- The state of the search. -/
structure State where
  book : AnswerBook
  session : Session
  usable : ClauseSet
  support : ClauseQueue
  deriving Inhabited

namespace State

/-- The clauses of the support, lightest first, followed by the usable ones. -/
def clauses (state : State) : List Clause :=
  state.support.toList ++ state.usable.toList

/-- Whether the key of a clause is in the support or among the usable clauses. -/
def isKnown (state : State) (c : Clause) : Bool :=
  state.support.contains c || state.usable.contains c

/-- Take a clause out of the support, or else out of the usable clauses. -/
def discard (state : State) (c : Clause) : State :=
  if state.support.contains c then { state with support := state.support.erase c }
  else { state with usable := state.usable.erase c }

/-- Add a clause to the support and take out what it subsumes, unless it is subsumed itself. -/
def addToSupport (state : State) (c : Clause) : State :=
  let existing := state.clauses
  if existing.any fun other => other.subsumes c then state
  else
    let subsumed := existing.filter fun other => c.subsumes other
    subsumed.foldl discard { state with support := state.support.push c }

end State

/-- Everything that follows in one step from a clause and another one. -/
def inferPair (paramodulation : Bool) (c : Clause) (found : ClauseSet × Session) (other : Clause) :
    ClauseSet × Session :=
  let (set, session) := found
  let (resolvents, session) := session.resolvents c other
  let set := set.insertAll resolvents
  if paramodulation then
    let (paramodulants, session) := session.paramodulants c other
    (set.insertAll paramodulants, session)
  else (set, session)

/-- Everything that follows in one step from a clause and one of the others. -/
def infer (options : GivenClauseOptions) (session : Session) (c : Clause) (others : List Clause) :
    List Clause × Session :=
  let (set, session) := others.foldl (inferPair options.paramodulation c) (∅, session)
  (set.toList, session)

/-- Whether a clause is one literal away from an answer. -/
def isNearAnswer (book : AnswerBook) (c : Clause) : Bool :=
  match book.predicate with
  | none => c.isUnit
  | some predicate => c.size = 2 && c.literals.any fun l => l.atom.symbol = predicate

/-- Simplify an inferred clause and see whether it is an answer. The clause comes back if it is
neither a tautology nor an answer nor known. `none` stands for a tautology. -/
def examine (options : GivenClauseOptions) (state : State) (c : Clause) :
    Option (Option Clause) × State :=
  let ⟨book, session, usable, support⟩ := state
  let (c, session) := session.simplify options.demodulators c
  if c.isTautology then (none, ⟨book, session, usable, support⟩)
  else
    let (answers, book, session) := book.checkClause session c
    let state : State := ⟨book, session, usable, support⟩
    (some (if answers || book.inconsistent || state.isKnown c then none else some c), state)

/-- Work through what was inferred from a near answer and the unit clauses: new clauses join the
support without their factors. The search stops after a clause by which the books are closed. -/
def processUnits (options : GivenClauseOptions) : List Clause → State → State
  | [], state => state
  | c :: rest, state =>
    match examine options state c with
    | (none, state) => processUnits options rest state
    | (some new, state) =>
      let state :=
        match new with
        | none => state
        | some c => state.addToSupport c
      if state.book.isClosed then state else processUnits options rest state

/-- Try a clause that is one literal away from an answer on all unit clauses. -/
def tryUnits (options : GivenClauseOptions) (state : State) (c : Clause) : State :=
  if isNearAnswer state.book c then
    let units := state.clauses.filter Clause.isUnit
    let ⟨book, session, usable, support⟩ := state
    let (inferred, session) := infer options session c units
    processUnits options inferred ⟨book, session, usable, support⟩
  else state

/-- Add a factor to the support and try it on the unit clauses. -/
def addFactor (options : GivenClauseOptions) (state : State) (factor : Clause) : State :=
  if state.book.inconsistent || state.isKnown factor then state
  else tryUnits options (state.addToSupport factor) factor

/-- Work through what was inferred from a given clause. -/
def process (options : GivenClauseOptions) : List Clause → State → State
  | [], state => state
  | c :: rest, state =>
    match examine options state c with
    | (none, state) => process options rest state
    | (some new, state) =>
      let state :=
        match new with
        | none => state
        | some c =>
          let ⟨book, session, usable, support⟩ := state
          let (factors, session) := session.factors c
          factors.foldl (addFactor options) ⟨book, session, usable, support⟩
      if state.book.isClosed then state else process options rest state

/-- Take given clauses from the support until it is empty or the books are closed. -/
def run (options : GivenClauseOptions) : (fuel : Nat) → State → Option State
  | 0, _ => none
  | fuel + 1, state =>
    if state.book.isClosed then some state
    else
      match state.support.pop with
      | none => some state
      | some (given, support) =>
        let ⟨book, session, usable, _⟩ := state
        let usable := usable.insert given
        let (inferred, session) := infer options session given usable.toList
        run options fuel (process options inferred ⟨book, session, usable, support⟩)

/-- A set without the members that other members subsume. -/
def withoutSubsumed (set : ClauseSet) : ClauseSet :=
  (subsumedClauses set.toList).foldl ClauseSet.erase set

/-- The clause saying that everything equals itself. -/
def reflexivity (session : Session) : Clause × Session :=
  let ⟨supply, derivation⟩ := session
  let (index, rest) := supply.take
  let x := Term.var ⟨"x", some index⟩
  Session.conclude ⟨rest, derivation⟩ .premise (Clause.ofLiterals [.positive (.equality x x)])
    (.text "reflexivity") []

/-- The usable clauses at the start: the factors of the stored ones and, for paramodulation,
reflexivity. -/
def initialUsable (options : GivenClauseOptions) (session : Session) (cs : List Clause) :
    ClauseSet × Session :=
  let (factors, session) := session.factorsApart cs
  let set := ClauseSet.ofList factors
  if options.paramodulation then
    let (reflexive, session) := reflexivity session
    (set.insert reflexive, session)
  else (set, session)

/-- The support at the start: the factors of the clauses of the negated query. -/
def initialSupport (session : Session) (goals : List Clause) : ClauseSet × Session :=
  let (factors, session) := session.mapList Session.factors goals
  (ClauseSet.ofList factors.flatten, session)

/-- Answer a query with a set of support. -/
def ask (fuel : Nat) (limit : TimeLimit) (options : GivenClauseOptions) (kb : KnowledgeBase)
    (query : Sentence) : Option (Except Failure Answer × KnowledgeBase) :=
  let ⟨book, goals, session, kb⟩ := kb.refute query limit
  let (usable, session) := initialUsable options session kb.clauses.toList
  let (support, session) := initialSupport session goals
  let queue := (withoutSubsumed support).toList.foldl ClauseQueue.push
    { heuristic := options.heuristic }
  let start : State := ⟨book, session, withoutSubsumed usable, queue⟩
  (run options fuel start).map fun state => (state.book.outcome, kb.afterSession state.session)

end GivenClause

end ClausalReasoner

/-
This file refutes by model elimination. Every clause becomes a chain together with its
contrapositives. Starting from the chains of the negated query, the head of the current chain is
reduced with a far parent, a chain whose head is of the opposite polarity, and heads are then
cancelled and dropped as long as possible. An empty chain, or one with nothing but the answer
literal, answers the query.

The search goes depth first to a bound, and the bound grows by one until an answer completes the
search, the time is up, or no branch was as long as the bound. This may go on forever, so the number
of bounds is itself bounded from outside, and running into that gives no answer of any kind.
-/

import ClausalReasoner.AnswerBook
import ClausalReasoner.Subsumption

namespace ClausalReasoner

namespace ModelElimination

/-- The state of the search: besides the books, the greatest depth that was reached under the
current bound. -/
structure State where
  book : AnswerBook
  session : Session
  deepest : Nat := 0
  deriving Inhabited

/-- Each clause as a chain, followed by its contrapositives. -/
def chainsOf (session : Session) (cs : List Clause) : List Chain × Session :=
  let (chains, session) := session.mapList (fun session c =>
    let (chain, session) := session.chainOfClause c
    let (others, session) := session.contrapositives chain
    (chain :: others, session)) cs
  (chains.flatten, session)

/-- The chains whose head has the same symbol as a literal and the opposite polarity. -/
def farParents (chains : List Chain) (head : Literal) : List Chain :=
  chains.filter fun chain =>
    match chain.head? with
    | some other => other.polarity = head.polarity.flip && other.atom.symbol = head.atom.symbol
    | none => false

/-- Try every way to go on from a chain with its far parents, at most `remaining` reductions deep.
What comes out of a reduction is handed to the search one level further down, unless it is an
answer. -/
def search (chains : List Chain) : (remaining depth : Nat) → State → Chain → State
  | 0, depth, state, _ => { state with deepest := max state.deepest depth }
  | remaining + 1, depth, state, near =>
    let state := { state with deepest := max state.deepest depth }
    match near.head? with
    | none => state
    | some head =>
      (farParents chains head).foldl (fun state far =>
        if state.book.isClosed then state
        else
          let ⟨book, session, deepest⟩ := state
          match session.reduceChains near far with
          | (none, session) => ⟨book, session, deepest⟩
          | (some reduced, session) =>
            let (settled, session) := session.settle reduced
            let (answers, book, session) := book.checkChain session settled
            if answers || book.inconsistent then ⟨book, session, deepest⟩
            else search chains remaining (depth + 1) ⟨book, session, deepest⟩ settled) state

/-- Search from each chain of the negated query under one bound. -/
def searchAll (chains starts : List Chain) (bound : Nat) (state : State) : State :=
  starts.foldl (fun state near =>
    if state.book.isClosed then state else search chains bound 0 state near)
    { state with deepest := 0 }

/-- Search under greater and greater bounds. -/
def deepen (chains starts : List Chain) : (fuel bound : Nat) → State → Option State
  | 0, _, _ => none
  | fuel + 1, bound, state =>
    let searched := searchAll chains starts bound state
    if searched.book.isClosed || searched.deepest < bound then some searched
    else deepen chains starts fuel (bound + 1) searched

/-- The stored clauses that no other stored clause subsumes. -/
def backgroundClauses (cs : List Clause) : List Clause :=
  let subsumed := (subsumedClauses cs).map Clause.key
  cs.filter fun c => !subsumed.contains c.key

/-- Answer a query by model elimination. -/
def ask (fuel : Nat) (limit : TimeLimit) (kb : KnowledgeBase) (query : Sentence) :
    Option (Except Failure Answer × KnowledgeBase) :=
  let ⟨book, goals, session, kb⟩ := kb.refute query limit
  let (background, session) := chainsOf session (backgroundClauses kb.clauses.toList)
  let (starts, session) := chainsOf session goals
  (deepen (starts ++ background) starts fuel 1 { book, session }).map fun state =>
    (state.book.outcome, kb.afterSession state.session)

end ModelElimination

end ClausalReasoner

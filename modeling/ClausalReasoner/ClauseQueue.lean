/-
This file holds the queue from which a prover takes the clause to work with next: always the
lightest one. What counts as light is up to a heuristic; clauses of equal weight are ordered by the
length of their key and then by the key itself, so the order in which clauses were pushed makes no
difference. A clause whose key is in the queue already is not taken in again.
-/

import ClausalReasoner.Clause

namespace ClausalReasoner

/-- What makes a clause light: the weight that it is given. -/
structure Heuristic where
  weight : Clause → Nat

namespace Heuristic

/-- The fewer literals the lighter. -/
def fewestLiterals : Heuristic :=
  ⟨Clause.size⟩

/-- The fewer symbols the lighter. -/
def fewestSymbols : Heuristic :=
  ⟨Clause.weight⟩

instance : Inhabited Heuristic :=
  ⟨fewestLiterals⟩

end Heuristic

/-- A clause in the queue with the weight that it was given. -/
structure QueuedClause where
  weight : Nat
  clause : Clause
  deriving Inhabited

/-- Lighter clauses come first, then those with shorter keys, then those with lesser keys. -/
def QueuedClause.order (left right : QueuedClause) : Ordering :=
  (compare left.weight right.weight).then <|
  (compare left.clause.key.utf8ByteSize right.clause.key.utf8ByteSize).then <|
  compare left.clause.key right.clause.key

/-- A queue: its clauses, the lightest first. -/
structure ClauseQueue where
  heuristic : Heuristic
  entries : List QueuedClause := []
  deriving Inhabited

namespace ClauseQueue

/-- The queued clauses, lightest first. -/
def toList (q : ClauseQueue) : List Clause :=
  q.entries.map (·.clause)

/-- The number of queued clauses. -/
def size (q : ClauseQueue) : Nat :=
  q.entries.length

/-- Whether nothing is queued. -/
def isEmpty (q : ClauseQueue) : Bool :=
  q.entries.isEmpty

/-- Whether the key of a clause is in the queue. -/
def contains (q : ClauseQueue) (c : Clause) : Bool :=
  q.entries.any fun entry => entry.clause.key = c.key

/-- Put an entry before the first one that is heavier. -/
def place (entry : QueuedClause) : List QueuedClause → List QueuedClause
  | [] => [entry]
  | first :: rest =>
    match entry.order first with
    | .lt => entry :: first :: rest
    | _ => first :: place entry rest

/-- Take a clause in, unless its key is in the queue. -/
def push (q : ClauseQueue) (c : Clause) : ClauseQueue :=
  if q.contains c then q
  else { q with entries := place ⟨q.heuristic.weight c, c⟩ q.entries }

/-- Take out the lightest clause. -/
def pop (q : ClauseQueue) : Option (Clause × ClauseQueue) :=
  match q.entries with
  | [] => none
  | first :: rest => some (first.clause, { q with entries := rest })

/-- Take out the clause that has the key of a given one. -/
def erase (q : ClauseQueue) (c : Clause) : ClauseQueue :=
  { q with entries := q.entries.filter fun entry => entry.clause.key ≠ c.key }

end ClauseQueue

end ClausalReasoner

/-
This file keeps the queue of clauses in two maps. One is ordered by rank and holds the clauses: the
weight of a clause comes first, then the length of its key, then the key, and last the number that
the clause was given when it was made, of which every clause has its own. The other one is the index.
It tells the rank at which the clause with a key is held, so a clause with that key is found, and can
be taken out, although it is another clause than the one that is asked for.
-/

import ClausalReasoner.ClauseQueue
import Std.Data.HashMap.Lemmas
import Std.Data.TreeMap.Lemmas

namespace ClausalReasoner

/-- A clause with the number that it was given when it was made. -/
structure NumberedClause where
  number : Nat
  clause : Clause
  deriving Inhabited

/-- The key of the clause. -/
def NumberedClause.key (c : NumberedClause) : String :=
  c.clause.key

/-- What clauses are queued by. -/
structure QueueRank where
  weight : Nat
  length : Nat
  key : String
  number : Nat
  deriving DecidableEq, Inhabited

/-- Ranks are ordered by weight, then by the length of the key, then by the key. The number only
counts when the keys are the same. -/
def QueueRank.order : QueueRank → QueueRank → Ordering :=
  compareLex (compareOn QueueRank.weight) <| compareLex (compareOn QueueRank.length) <|
    compareLex (compareOn QueueRank.key) (compareOn QueueRank.number)

/-- The rank of a clause under a heuristic. -/
def Heuristic.rank (heuristic : Heuristic) (c : NumberedClause) : QueueRank :=
  ⟨heuristic.weight c.clause, c.key.utf8ByteSize, c.key, c.number⟩

/-- A queue with an index: the clauses in the order of their ranks, and the rank for every key. -/
structure IndexedQueue where
  heuristic : Heuristic
  queue : Std.TreeMap QueueRank NumberedClause QueueRank.order := ∅
  index : Std.HashMap String QueueRank := ∅

namespace IndexedQueue

/-- The queue that holds nothing. -/
def empty (heuristic : Heuristic) : IndexedQueue :=
  { heuristic }

/-- The queued clauses, lightest first. -/
def toList (q : IndexedQueue) : List NumberedClause :=
  q.queue.toList.map (·.2)

/-- The number of queued clauses. -/
def size (q : IndexedQueue) : Nat :=
  q.queue.size

/-- Whether the index has the key of a clause. -/
def contains (q : IndexedQueue) (c : NumberedClause) : Bool :=
  q.index.contains c.key

/-- Take a clause in, unless its key is in the index, and tell whether it was taken in. -/
def push (q : IndexedQueue) (c : NumberedClause) : Bool × IndexedQueue :=
  if q.index.contains c.key then (false, q)
  else
    let rank := q.heuristic.rank c
    (true, { q with queue := q.queue.insert rank c, index := q.index.insert c.key rank })

/-- Take out the clause of least rank, and the key in its rank from the index. -/
def pop (q : IndexedQueue) : Option (NumberedClause × IndexedQueue) :=
  q.queue.minKey?.bind fun rank =>
    q.queue[rank]?.map fun c =>
      (c, { q with queue := q.queue.erase rank, index := q.index.erase rank.key })

/-- Take out what is queued at the rank that the index has for the key of a clause, and tell whether
anything was. -/
def remove (q : IndexedQueue) (c : NumberedClause) : Bool × IndexedQueue :=
  match q.index[c.key]? with
  | some rank =>
    (q.queue.contains rank,
      { q with queue := q.queue.erase rank, index := q.index.erase c.key })
  | none => (false, q)

end IndexedQueue

end ClausalReasoner

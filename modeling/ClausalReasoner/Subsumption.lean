/-
This file decides when one clause subsumes another: when some substitution turns every literal of
the first into a literal of the second. The first clause has to be strictly shorter and must have no
more literals than the second of any kind, where the kind of a literal is its polarity, its
predicate and its number of arguments. The variables of the second clause count as constants.
-/

import ClausalReasoner.Clause
import ClausalReasoner.Matching

namespace ClausalReasoner

/-- The kind of a literal: only literals of one kind can be turned into each other. -/
structure LiteralKind where
  polarity : Polarity
  isEquality : Bool
  symbol : String
  arity : Nat
  deriving DecidableEq, Inhabited, Repr

/-- The kind of a literal. -/
def Literal.kind (l : Literal) : LiteralKind :=
  ⟨l.polarity, l.atom.isEquality, l.atom.symbol, l.atom.arity⟩

/-- The literals of one kind. -/
def literalsOfKind (kind : LiteralKind) (ls : List Literal) : List Literal :=
  ls.filter fun l => l.kind = kind

/-- Whether a substitution that extends the given one turns every literal of the first list into
some literal of the second. The candidates for a literal are tried one after the other. -/
def embeds (targets : List Literal) : List Literal → Substitution → Bool
  | [], _ => true
  | l :: rest, σ =>
    (literalsOfKind l.kind targets).any fun target =>
      match l.atom.matchWith target.atom σ with
      | some extended => embeds targets rest extended
      | none => false

namespace Clause

/-- Whether no kind of literal is more frequent in the clause than in the other one. -/
def fitsByKind (c other : Clause) : Bool :=
  c.literals.all fun l =>
    (literalsOfKind l.kind c.literals).length ≤ (literalsOfKind l.kind other.literals).length

/-- The literals of the clause with variables that do not stand in the other one. -/
def literalsApartFrom (c other : Clause) : List Literal :=
  if c.sharesVariables other then (c.renamed (Supply.above other.vars)).1.literals
  else c.literals

/-- Whether the clause subsumes the other one. -/
def subsumes (c other : Clause) : Bool :=
  decide (c.size < other.size) &&
  decide (c.positives.length ≤ other.positives.length) &&
  decide (c.negatives.length ≤ other.negatives.length) &&
  c.fitsByKind other &&
  embeds other.literals (c.literalsApartFrom other) ∅

end Clause

/-- The clauses of a list that some clause of the list subsumes. -/
def subsumedClauses (cs : List Clause) : List Clause :=
  cs.filter fun target => cs.any fun candidate => candidate.subsumes target

end ClausalReasoner

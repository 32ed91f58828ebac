/-
This file holds clauses: disjunctions of distinct literals. A clause may remember the step of a
derivation that made it. Its key is computed when it is first asked for and kept from then on; two
clauses with one key count as the same clause wherever clauses are collected.
-/

import ClausalReasoner.CanonicalKey
import ClausalReasoner.Derivation
import ClausalReasoner.Fresh

namespace ClausalReasoner

/-- A disjunction of literals, none of which occurs twice. -/
structure Clause where
  literals : List Literal
  /-- No literal is repeated. -/
  distinct : literals.Nodup
  /-- The step that the clause was made by. -/
  origin : Option StepNumber
  /-- The key, computed on first use. -/
  lazyKey : Thunk String
  /-- The kept key is the key of the literals. -/
  lazyKey_get : lazyKey.get = canonicalKey literals

namespace Clause

/-- The clause of the given literals; of repeated ones only the first stays. -/
def ofLiterals (ls : List Literal) (origin : Option StepNumber := none) : Clause where
  literals := firstOccurrences ls
  distinct := nodup_firstOccurrences ls
  origin := origin
  lazyKey := Thunk.mk fun _ => canonicalKey (firstOccurrences ls)
  lazyKey_get := rfl

/-- The clause without literals, which is false. -/
def empty : Clause :=
  ofLiterals []

instance : Inhabited Clause := ⟨empty⟩

@[simp]
theorem literals_ofLiterals (ls : List Literal) (origin : Option StepNumber) :
    (ofLiterals ls origin).literals = firstOccurrences ls := rfl

/-- The same clause with another origin. -/
def withOrigin (c : Clause) (origin : Option StepNumber) : Clause :=
  { c with origin := origin }

/-- The key that identifies the clause up to order of literals and names of variables. -/
def key (c : Clause) : String :=
  c.lazyKey.get

@[simp]
theorem key_eq (c : Clause) : c.key = canonicalKey c.literals :=
  c.lazyKey_get

/-- The origin as a list of at most one step. -/
def sources (c : Clause) : List StepNumber :=
  c.origin.toList

/-! ### What a clause is made of -/

/-- The number of literals. -/
def size (c : Clause) : Nat :=
  c.literals.length

/-- The positive literals in order. -/
def positives (c : Clause) : List Literal :=
  c.literals.filter Literal.isPositive

/-- The negative literals in order. -/
def negatives (c : Clause) : List Literal :=
  c.literals.filter Literal.isNegative

/-- Whether there are no literals. -/
def isEmpty (c : Clause) : Bool :=
  c.literals.isEmpty

/-- Whether there is exactly one literal. -/
def isUnit (c : Clause) : Bool :=
  c.size = 1

/-- Whether there is exactly one positive literal. -/
def isDefinite (c : Clause) : Bool :=
  c.positives.length = 1

/-- Whether the clause is a rule: definite, with at least one negative literal as its body. -/
def isRule (c : Clause) : Bool :=
  c.isDefinite && !c.negatives.isEmpty

/-- Whether there is at most one positive literal. -/
def isHorn (c : Clause) : Bool :=
  c.positives.length ≤ 1

/-- Whether a literal stands beside its negation. Atoms that could merely be made equal do not
count, since removing such clauses would lose consequences. -/
def isTautology (c : Clause) : Bool :=
  c.positives.any fun l => c.negatives.any l.isNegationOf

/-- The weight of a clause is the sum of the weights of its literals. -/
def weight (c : Clause) : Nat :=
  c.literals.foldl (fun sum l => sum + l.weight) 0

/-- The variables of a clause, each once, in the order in which they are first met. -/
def vars (c : Clause) : List Variable :=
  Literal.varsList c.literals

/-- Whether a variable stands in both clauses. -/
def sharesVariables (c other : Clause) : Bool :=
  let vs := c.vars
  other.vars.any vs.contains

/-- Apply a substitution to every literal. Literals that become equal are merged. -/
def substitute (σ : Substitution) (c : Clause) : Clause :=
  ofLiterals (Literal.substituteList σ c.literals) c.origin

/-- The text of a clause. -/
def text (c : Clause) : String :=
  clauseText c.literals

/-! ### Renaming -/

/-- The clause with fresh variables, and the same origin. -/
def renamed (c : Clause) (supply : Supply) : Clause × Supply :=
  match c.vars with
  | [] => (c, supply)
  | vs =>
    let (names, rest) := supply.freshRenaming vs
    (c.substitute names, rest)

end Clause

end ClausalReasoner

/-
This file holds the two rules of resolution. Factoring unifies two literals of one polarity within a
clause and so merges them; binary resolution unifies a positive literal of one clause with a
negative one of another and joins what is left of the clauses. Both give their results fresh
variables, leave out results whose key was seen before, and record a step for every result.
-/

import ClausalReasoner.Session

namespace ClausalReasoner

/-- The pairs of an element and a later one. -/
def laterPairs {Element : Type} : List Element → List (Element × Element)
  | [] => []
  | first :: rest => rest.map (fun later => (first, later)) ++ laterPairs rest

/-! ### Factoring -/

/-- The pairs of literals that factoring tries: first the positive ones, then the negative ones. -/
def Clause.factorPairs (c : Clause) : List (Literal × Literal) :=
  laterPairs c.positives ++ laterPairs c.negatives

/-- The state of collecting factors: the session, the keys seen so far, and the results, the last
one first. -/
structure Collection where
  session : Session
  seen : List String
  found : List Clause := []
  deriving Inhabited

namespace Collection

/-- Take in a result, unless its key was seen: a step is recorded and it joins the results. -/
def add (collection : Collection) (rule : Rule) (c : Clause) (θ : Substitution)
    (sources : List StepNumber) : Collection :=
  let ⟨session, seen, found⟩ := collection
  if seen.contains c.key then ⟨session, seen, found⟩
  else
    let (concluded, recorded) := session.conclude rule c (.unifier θ) sources
    ⟨recorded, c.key :: seen, concluded :: found⟩

/-- Take in the clause that the given literals make under a unifier, with fresh variables. -/
def addUnified (collection : Collection) (rule : Rule) (ls : List Literal) (θ : Substitution)
    (sources : List StepNumber) : Collection :=
  let ⟨session, seen, found⟩ := collection
  let (renamed, supplied) := session.rename (Clause.ofLiterals (Literal.substituteList θ ls))
  add ⟨supplied, seen, found⟩ rule renamed θ sources

end Collection

/-- Try to merge two literals of a clause. -/
def addFactor (c : Clause) (collection : Collection) (pair : Literal × Literal) : Collection :=
  match pair.1.atom.unify pair.2.atom with
  | none => collection
  | some θ => collection.addUnified .factoring c.literals θ c.sources

/-- Collect the factors of a clause, their factors and so on, at most `depth` times over. All
factors of one clause are collected before those of its last factor, and these before those of the
one before. -/
def collectFactors : (depth : Nat) → Clause → Collection → Collection
  | 0, _, collection => collection
  | depth + 1, c, collection =>
    let ⟨session, seen, found⟩ := collection
    let ⟨session, seen, direct⟩ := c.factorPairs.foldl (addFactor c) ⟨session, seen, []⟩
    direct.foldl (fun collection factor => collectFactors depth factor collection)
      ⟨session, seen, direct ++ found⟩

/-- The factors of a clause, beginning with the clause itself. A factor has fewer literals than the
clause it comes from, or as many literals and fewer variables, which bounds the repetitions. -/
def Session.factors (session : Session) (c : Clause) : List Clause × Session :=
  let collection :=
    collectFactors (c.size + c.vars.length + 1) c ⟨session, [c.key], [c]⟩
  (collection.found.reverse, collection.session)

/-- The factors of clauses that are given fresh variables one after the other. -/
def Session.factorsApart (session : Session) (cs : List Clause) : List Clause × Session :=
  let (factors, session) := session.mapList (fun session c =>
    let (apart, session) := session.standardizeApart c
    session.factors apart) cs
  (factors.flatten, session)

/-! ### Binary resolution -/

/-- Two clauses with a literal of each: the positive one of the first and the negative one of the
second are to be resolved upon. -/
structure ResolutionPair where
  positiveSide : Clause
  negativeSide : Clause
  positive : Literal
  negative : Literal
  deriving Inhabited

/-- The ways to resolve a positive literal of the first clause with a negative one of the second. -/
def pairsFrom (first second : Clause) : List ResolutionPair :=
  first.positives.flatMap fun l => second.negatives.map fun m => ⟨first, second, l, m⟩

/-- All ways to resolve two clauses. -/
def resolutionPairs (first second : Clause) : List ResolutionPair :=
  pairsFrom first second ++ pairsFrom second first

/-- The literals that are left when a pair is resolved upon, before the unifier is applied. -/
def ResolutionPair.remaining (pair : ResolutionPair) : List Literal :=
  pair.positiveSide.literals.erase pair.positive ++ pair.negativeSide.literals.erase pair.negative

/-- Try to resolve upon a pair of literals. -/
def addResolvent (collection : Collection) (pair : ResolutionPair) : Collection :=
  match pair.positive.atom.unify pair.negative.atom with
  | none => collection
  | some θ =>
    collection.addUnified .resolution pair.remaining θ
      (pair.positiveSide.sources ++ pair.negativeSide.sources)

/-- The binary resolvents of two clauses. The second one is given fresh variables if it shares some
with the first, as it does when a clause with variables is resolved with itself. Two empty clauses
have the empty clause as their resolvent, and nothing is recorded for it. -/
def Session.resolvents (session : Session) (first second : Clause) : List Clause × Session :=
  if first.isEmpty && second.isEmpty then ([Clause.empty], session)
  else
    let (second, supplied) := session.apartFrom first second
    let collection := (resolutionPairs first second).foldl addResolvent ⟨supplied, [], []⟩
    (collection.found.reverse, collection.session)

end ClausalReasoner

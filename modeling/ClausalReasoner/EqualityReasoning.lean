/-
This file replaces equals by equals. Paramodulation unifies one side of a positive equality of a
clause with a subterm of another clause and puts the other side in its place, instantiating both
clauses. Demodulation only matches, so the term it replaces is never instantiated, and it works from
right to left: the right side of an equation is looked for and the left side put in its place.
Replacing a term by itself does not count in either case.
-/

import ClausalReasoner.Matching
import ClausalReasoner.Position
import ClausalReasoner.Resolution

namespace ClausalReasoner

/-- The two sides of an equality. -/
def Atom.sides? : Atom → Option (Term × Term)
  | .equality left right => some (left, right)
  | .predicate _ _ => none

/-- The equations among some atoms. Only these change anything. -/
def equationsAmong (atoms : List Atom) : List Atom :=
  atoms.filter Atom.isEquality

/-! ### Demodulation -/

/-- The first position of an atom at which a pattern matches, with the matching substitution. -/
def firstMatch (pattern : Term) (a : Atom) : Option (Position × Substitution) :=
  a.search fun subterm => pattern.matchWith subterm ∅

/-- Demodulate an atom with an equation at the first position where its right side matches. -/
def demodulate (equation a : Atom) : Option Atom :=
  equation.sides?.bind fun (left, right) =>
    (firstMatch right a).bind fun (position, σ) =>
      let new := left.substitute σ
      if a.at? position = some new then none else some (a.replaceAt new position)

/-- Demodulate the first literal of a list to which an equation applies. -/
def demodulateFirst (equation : Atom) : List Literal → Option (List Literal)
  | [] => none
  | l :: rest =>
    match demodulate equation l.atom with
    | some changed => some (⟨changed, l.polarity, false⟩ :: rest)
    | none => (demodulateFirst equation rest).map (l :: ·)

/-- Demodulate the first literal of a clause to which an equation applies, and record it. -/
def Session.demodulateClause (session : Session) (equation : Atom) (c : Clause) :
    Option (Clause × Session) :=
  (demodulateFirst equation c.literals).map fun ls =>
    session.conclude .demodulation (Clause.ofLiterals ls) (.demodulator equation) c.sources

/-- How often one equation is applied to a clause. Some equations would apply forever. -/
def maxApplications : Nat := 1000

/-- Demodulate a clause with one equation, at most so many times. -/
def Session.demodulateTimes (equation : Atom) : Nat → Session → Clause → Clause × Session
  | 0, session, c => (c, session)
  | times + 1, session, c =>
    match session.demodulateClause equation c with
    | some (changed, recorded) => demodulateTimes equation times recorded changed
    | none => (c, session)

/-- Demodulate a clause with each equation of a list in turn, until it does not apply any more.
Atoms that are no equalities change nothing. -/
def Session.simplify (session : Session) (equations : List Atom) (c : Clause) : Clause × Session :=
  equations.foldl
    (fun (c, session) equation => session.demodulateTimes equation maxApplications c) (c, session)

/-! ### Paramodulation -/

/-- One attempt at paramodulation: a literal of the clause that is changed, between the literals
before and after it, and a positive equality of the other clause with the side that is looked for
and the side that is put in. -/
structure ParamodulationSite where
  target : Clause
  before : List Literal
  literal : Literal
  after : List Literal
  source : Clause
  equation : Literal
  old : Term
  new : Term
  deriving Inhabited

/-- The ways to split a list into the elements before one, that element, and those after it. -/
def splits {Element : Type} : List Element → List (List Element × Element × List Element)
  | [] => []
  | first :: rest =>
    ([], first, rest) :: (splits rest).map fun (before, element, after) =>
      (first :: before, element, after)

/-- The ways to change the first clause by an equality of the second. -/
def sitesFrom (target source : Clause) : List ParamodulationSite :=
  source.positives.flatMap fun equation =>
    match equation.atom.sides? with
    | none => []
    | some (left, right) =>
      [(left, right), (right, left)].flatMap fun (old, new) =>
        (splits target.literals).map fun (before, literal, after) =>
          ⟨target, before, literal, after, source, equation, old, new⟩

/-- All ways to change one of two clauses by an equality of the other. -/
def paramodulationSites (first second : Clause) : List ParamodulationSite :=
  sitesFrom first second ++ sitesFrom second first

namespace ParamodulationSite

/-- The first position of the literal at which the side that is looked for unifies with a subterm
that is no variable. -/
def firstUnifier (site : ParamodulationSite) : Option (Position × Substitution) :=
  site.literal.atom.search (Term.unlessVariable fun subterm => site.old.unify subterm)

/-- The literals of the result, before the unifier is applied. -/
def literals (site : ParamodulationSite) (position : Position) : List Literal :=
  site.before ++
    ⟨site.literal.atom.replaceAt site.new position, site.literal.polarity, false⟩ :: site.after ++
    site.source.literals.erase site.equation

/-- The unifier and the literals of the result. Only the first position that unifies is tried, and
it gives no result when the subterm there would be replaced by itself. -/
def result (site : ParamodulationSite) : Option (Substitution × List Literal) :=
  site.firstUnifier.bind fun (position, θ) =>
    let replaced := (site.literal.atom.at? position).map (Term.substitute θ)
    if replaced = some (site.new.substitute θ) then none else some (θ, site.literals position)

end ParamodulationSite

/-- Try to paramodulate at a site. A step is recorded for every result, also for one that is left
out because its key was seen before. -/
def addParamodulant (collection : Collection) (site : ParamodulationSite) : Collection :=
  match site.result with
  | none => collection
  | some (θ, ls) =>
    let ⟨session, seen, found⟩ := collection
    let (renamed, supplied) := session.rename (Clause.ofLiterals (Literal.substituteList θ ls))
    let (concluded, recorded) := supplied.conclude .paramodulation renamed (.unifier θ)
      (site.target.sources ++ site.source.sources)
    if seen.contains concluded.key then ⟨recorded, seen, found⟩
    else ⟨recorded, concluded.key :: seen, concluded :: found⟩

/-- The paramodulants of two clauses. The second one is given fresh variables if it shares some with
the first. -/
def Session.paramodulants (session : Session) (first second : Clause) : List Clause × Session :=
  let (second, supplied) := session.apartFrom first second
  let collection := (paramodulationSites first second).foldl addParamodulant ⟨supplied, [], []⟩
  (collection.found.reverse, collection.session)

end ClausalReasoner

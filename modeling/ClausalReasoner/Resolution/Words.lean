/-
This file resolves clauses with indices from a register of 32 bits. Nothing else differs from
resolution with an unbounded supply.
-/

import ClausalReasoner.Fresh.Words
import ClausalReasoner.Resolution

namespace ClausalReasoner

/-- The clause with variables that are renamed by the register, and the same origin. -/
def Clause.renamedInWords (c : Clause) (register : Supply) : Clause × Supply :=
  match c.vars with
  | [] => (c, register)
  | vs =>
    let (names, rest) := register.freshRenamingInWords vs
    (c.substitute names, rest)

namespace Session

/-- Rename the variables of a clause by the register. -/
def renameInWords (session : Session) (c : Clause) : Clause × Session :=
  let ⟨register, derivation⟩ := session
  let (renamed, rest) := c.renamedInWords register
  (renamed, ⟨rest, derivation⟩)

/-- The second of two clauses, renamed by the register if it shares variables with the first. -/
def apartFromInWords (session : Session) (first second : Clause) : Clause × Session :=
  if first.sharesVariables second then session.renameInWords second else (second, session)

end Session

/-- Take in the clause that the given literals make under a unifier, renamed by the register. -/
def Collection.addUnifiedInWords (collection : Collection) (rule : Rule) (ls : List Literal)
    (θ : Substitution) (sources : List StepNumber) : Collection :=
  let ⟨session, seen, found⟩ := collection
  let (renamed, supplied) :=
    session.renameInWords (Clause.ofLiterals (Literal.substituteList θ ls))
  add ⟨supplied, seen, found⟩ rule renamed θ sources

/-- Try to resolve upon a pair of literals. -/
def addResolventInWords (collection : Collection) (pair : ResolutionPair) : Collection :=
  match pair.positive.atom.unify pair.negative.atom with
  | none => collection
  | some θ =>
    collection.addUnifiedInWords .resolution pair.remaining θ
      (pair.positiveSide.sources ++ pair.negativeSide.sources)

/-- The binary resolvents of two clauses. -/
def Session.resolventsInWords (session : Session) (first second : Clause) :
    List Clause × Session :=
  if first.isEmpty && second.isEmpty then ([Clause.empty], session)
  else
    let (second, supplied) := session.apartFromInWords first second
    let collection := (resolutionPairs first second).foldl addResolventInWords ⟨supplied, [], []⟩
    (collection.found.reverse, collection.session)

end ClausalReasoner

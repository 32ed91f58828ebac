/-
This file holds chains, the expressions of model elimination. A chain is a list of literals whose
order matters: the first one is the head, which inference works on. A reduced literal of a chain
remembers the head of an ancestor, so that a later head which contradicts the ancestor can be
cancelled against it.
-/

import ClausalReasoner.Session

namespace ClausalReasoner

/-- A list of literals, with the step of the derivation that made it. -/
structure Chain where
  literals : List Literal
  origin : Option StepNumber := none
  deriving DecidableEq, Inhabited, Repr

namespace Chain

/-- The first literal. -/
def head? (chain : Chain) : Option Literal :=
  chain.literals.head?

/-- The literals after the first one. -/
def tail (chain : Chain) : List Literal :=
  chain.literals.tail

/-- The number of literals. -/
def size (chain : Chain) : Nat :=
  chain.literals.length

/-- Whether there are no literals. -/
def isEmpty (chain : Chain) : Bool :=
  chain.literals.isEmpty

/-- The variables of a chain, each once, in the order in which they are first met. -/
def vars (chain : Chain) : List Variable :=
  Literal.varsList chain.literals

/-- The origin as a list of at most one step. -/
def sources (chain : Chain) : List StepNumber :=
  chain.origin.toList

/-- Apply a substitution to every literal. -/
def substitute (σ : Substitution) (chain : Chain) : Chain :=
  { chain with literals := Literal.substituteList σ chain.literals }

/-- The text of a chain. -/
def text (chain : Chain) : String :=
  chainText chain.literals

/-- The chain with fresh variables, and the same origin. -/
def renamed (chain : Chain) (supply : Supply) : Chain × Supply :=
  match chain.vars with
  | [] => (chain, supply)
  | vs =>
    let (names, rest) := supply.freshRenaming vs
    (chain.substitute names, rest)

end Chain

namespace Session

/-- Record the step that made a chain and let the chain remember it. -/
def concludeChain (session : Session) (rule : Rule) (ls : List Literal) (detail : Detail)
    (sources : List StepNumber) : Chain × Session :=
  let (number, recorded) := session.record ⟨rule, .chain ls, detail, sources⟩
  (⟨ls, some number⟩, recorded)

/-- The chain of the literals of a clause, in their order. -/
def chainOfClause (session : Session) (c : Clause) : Chain × Session :=
  session.concludeChain .chainOfClause c.literals .none c.sources

/-- The lists that begin with a later element of a list and go on with the others in order. -/
def rotations {Element : Type} (before : List Element) : List Element → List (List Element)
  | [] => []
  | element :: after =>
    (element :: before ++ after) :: rotations (before ++ [element]) after

/-- The contrapositives of a chain: each literal but the head in turn is moved to the front. -/
def contrapositives (session : Session) (chain : Chain) : List Chain × Session :=
  let moved := (rotations [] chain.literals).tail
  let (chains, session) := moved.foldl
    (fun (chains, session) ls =>
      let (made, recorded) := session.concludeChain .contrapositive ls .none chain.sources
      (made :: chains, recorded)) ([], session)
  (chains.reverse, session)

/-- Give a chain fresh variables. -/
def renameChain (session : Session) (chain : Chain) : Chain × Session :=
  let ⟨supply, derivation⟩ := session
  let (renamed, rest) := chain.renamed supply
  (renamed, ⟨rest, derivation⟩)

/-- The literals and the unifier of a reduction, if the heads have opposite polarities and unify:
the tail of the far chain, the head of the near one as a reduced literal, and the tail of the near
one. -/
def reduction (near far : Chain) : Option (Substitution × List Literal) :=
  near.head?.bind fun nearHead => far.head?.bind fun farHead =>
    if nearHead.polarity = farHead.polarity then none
    else (nearHead.atom.unify farHead.atom).map fun θ =>
      (θ, Literal.substituteList θ (far.tail ++ nearHead.reduce :: near.tail))

/-- Reduce the head of the near chain with the head of the far one. The far chain is given fresh
variables first, unless there is no near head to begin with. -/
def reduceChains (session : Session) (near far : Chain) : Option Chain × Session :=
  match near.head? with
  | none => (none, session)
  | some _ =>
    let (far, supplied) := session.renameChain far
    match reduction near far with
    | none => (none, supplied)
    | some (θ, ls) =>
      let (chain, recorded) := supplied.concludeChain .reduction ls (.unifier θ)
        (near.sources ++ far.sources)
      (some chain, recorded)

/-- The first reduced literal of a list whose polarity is opposite to that of the head and whose
atom unifies with the one of the head. -/
def cancellation (head : Literal) (ls : List Literal) : Option Substitution :=
  ls.findSome? fun l =>
    if l.reduced && l.polarity ≠ head.polarity then head.atom.unify l.atom else none

/-- Remove the head of a chain that contradicts a reduced literal behind it. -/
def cancelHead (session : Session) (chain : Chain) : Option (Chain × Session) :=
  chain.head?.bind fun head => (cancellation head chain.tail).map fun θ =>
    session.concludeChain .cancellation (Literal.substituteList θ chain.tail) (.unifier θ)
      chain.sources

/-- Remove the head of a chain that is a reduced literal. -/
def dropHead (session : Session) (chain : Chain) : Option (Chain × Session) :=
  chain.head?.bind fun head =>
    if head.reduced then some (session.concludeChain .dropping chain.tail .none chain.sources)
    else none

/-- Cancel and drop heads, cancelling first, at most so many times. Either shortens the chain. -/
def settleChain : Nat → Session → Chain → Chain × Session
  | 0, session, chain => (chain, session)
  | times + 1, session, chain =>
    match session.cancelHead chain with
    | some (cancelled, recorded) => settleChain times recorded cancelled
    | none =>
      match session.dropHead chain with
      | some (dropped, recorded) => settleChain times recorded dropped
      | none => (chain, session)

/-- Cancel and drop heads as long as possible. -/
def settle (session : Session) (chain : Chain) : Chain × Session :=
  settleChain chain.size session chain

end Session

end ClausalReasoner

/-
This file lists the clauses that a run of saturation forms. A clause is formed when its key is
compared with others: a clause that is factored, a factor or a resolvent with its fresh variables,
whether or not it is then found to be known. Each list follows the function whose clauses it lists
through the same states, so that what is assumed of all clauses formed in a run can be used where
each of them is formed.
-/

import ClausalReasoner.Proofs.BackedAnswers
import ClausalReasoner.Proofs.KeySeparation

namespace ClausalReasoner

/-! ### Folds whose steps form clauses -/

/-- The clauses formed in a fold, each step going on from the state that the steps before it have
led to. -/
def foldFormed {State Element : Type} (step : State → Element → State)
    (formed : State → Element → List Clause) : State → List Element → List Clause
  | _, [] => []
  | state, element :: rest =>
    formed state element ++ foldFormed step formed (step state element) rest

/-- What the steps of a fold achieve one by one, provided that the clauses they form are good ones,
is all achieved in the end: an invariant is kept, the states only grow, and what a step has done for
its element outlasts the later steps. -/
theorem foldl_achieves {State Element : Type} {step : State → Element → State}
    {formed : State → Element → List Clause} {good : Clause → Prop} {list : List Element}
    (keeps : State → Prop) (grows : State → State → Prop) (done : Element → State → Prop)
    (refl : ∀ state, grows state state)
    (trans : ∀ first second third, grows first second → grows second third → grows first third)
    (lasts : ∀ element first second, grows first second → done element first →
      done element second)
    (each : ∀ state, ∀ element ∈ list, keeps state → (∀ c ∈ formed state element, good c) →
      keeps (step state element) ∧ grows state (step state element) ∧
        done element (step state element))
    {state : State} (start : keeps state)
    (allGood : ∀ c ∈ foldFormed step formed state list, good c) :
    keeps (list.foldl step state) ∧ grows state (list.foldl step state) ∧
      ∀ element ∈ list, done element (list.foldl step state) := by
  induction list generalizing state with
  | nil => exact ⟨start, refl state, fun _ member => absurd member List.not_mem_nil⟩
  | cons element rest inductionHypothesis =>
    obtain ⟨goodHere, goodLater⟩ := List.forall_mem_append.1 allGood
    obtain ⟨kept, grown, achieved⟩ := each state element List.mem_cons_self start goodHere
    obtain ⟨keptLater, grownLater, achievedLater⟩ := inductionHypothesis
      (fun state element later => each state element (List.mem_cons_of_mem _ later)) kept goodLater
    exact ⟨keptLater, trans _ _ _ grown grownLater, List.forall_mem_cons.2
      ⟨lasts element _ _ grownLater achieved, achievedLater⟩⟩

/-! ### The clauses formed by the rules -/

/-- The clause that the given literals make under a unifier, with fresh variables. -/
def Collection.unified (collection : Collection) (ls : List Literal) (θ : Substitution) : Clause :=
  (collection.session.rename (Clause.ofLiterals (Literal.substituteList θ ls))).1

/-- The clause formed when two literals of a clause are merged. -/
def formedFactor (c : Clause) (collection : Collection) (pair : Literal × Literal) : List Clause :=
  match pair.1.atom.unify pair.2.atom with
  | none => []
  | some θ => [collection.unified c.literals θ]

/-- The clauses formed in collecting the factors of a clause, their factors and so on. -/
def formedFactors : Nat → Clause → Collection → List Clause
  | 0, _, _ => []
  | depth + 1, c, collection =>
    let direct := c.factorPairs.foldl (addFactor c) ⟨collection.session, collection.seen, []⟩
    foldFormed (addFactor c) (formedFactor c) ⟨collection.session, collection.seen, []⟩
        c.factorPairs ++
      foldFormed (fun collection factor => collectFactors depth factor collection)
        (fun collection factor => formedFactors depth factor collection)
        ⟨direct.session, direct.seen, direct.found ++ collection.found⟩ direct.found

/-- The clause formed in resolving upon a pair of literals. -/
def formedResolvent (collection : Collection) (pair : ResolutionPair) : List Clause :=
  match pair.positive.atom.unify pair.negative.atom with
  | none => []
  | some θ => [collection.unified pair.remaining θ]

namespace Session

/-- The clauses formed in factoring a clause, beginning with the clause itself. -/
def formedFactors (session : Session) (c : Clause) : List Clause :=
  c :: ClausalReasoner.formedFactors (c.size + c.vars.length + 1) c ⟨session, [c.key], [c]⟩

/-- The clauses formed in factoring clauses that are given fresh variables one after the other. -/
def formedFactorsApart (session : Session) (cs : List Clause) : List Clause :=
  foldFormed (fun session c =>
      let apart := session.standardizeApart c
      (apart.2.factors apart.1).2)
    (fun session c =>
      let apart := session.standardizeApart c
      apart.2.formedFactors apart.1) session cs

/-- The clauses formed in resolving two clauses. -/
def formedResolvents (session : Session) (first second : Clause) : List Clause :=
  if first.isEmpty && second.isEmpty then [Clause.empty]
  else
    let apart := session.apartFrom first second
    foldFormed addResolvent formedResolvent ⟨apart.2, [], []⟩ (resolutionPairs first apart.1)

end Session

/-! ### The clauses formed by saturation -/

namespace Saturation

/-- The clauses formed in adding a resolvent and its factors. -/
def formedByResolvent (state : State) (resolvent : Clause) : List Clause :=
  if state.book.isClosed then [] else state.session.formedFactors resolvent

/-- The clauses formed in resolving two clauses and factoring the resolvents. -/
def formedByPair (first : Clause) (state : State) (second : Clause) : List Clause :=
  if state.book.isClosed then []
  else
    let resolvents := state.session.resolvents first second
    state.session.formedResolvents first second ++
      foldFormed considerFactors formedByResolvent
        ⟨state.book, resolvents.2, state.known, state.added⟩ resolvents.1

/-- The clauses formed in resolving every clause of a list with itself and with the later ones. -/
def formedByAll : List Clause → State → List Clause
  | [], _ => []
  | first :: rest, state =>
    foldFormed (resolvePair first) (formedByPair first) state (first :: rest) ++
      formedByAll rest ((first :: rest).foldl (resolvePair first) state)

/-- The clauses formed in saturating, pass after pass. -/
def formedBySaturating : Nat → State → List Clause
  | 0, _ => []
  | fuel + 1, state =>
    let ⟨book, session, known, added⟩ := pass state
    let grown : State := { book, session, known := known.insertAll added.toList }
    formedByAll state.known.toList state ++
      if book.isClosed || added.isEmpty then [] else formedBySaturating fuel grown

/-- The clauses formed in a whole run, from factoring the stored clauses and the goals on. -/
def formed (fuel : Nat) (refutation : Refutation) : List Clause :=
  refutation.session.formedFactorsApart (refutation.kb.clauses.toList ++ refutation.goals) ++
    formedBySaturating fuel (start refutation)

end Saturation

end ClausalReasoner

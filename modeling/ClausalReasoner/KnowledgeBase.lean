/-
This file holds the knowledge base: the sentences that it was told and the clauses they become, the
clauses sorted by what the procedures need of them, the symbols and indices in use, and the steps by
which the clauses came about. Clauses only enter by telling or as facts that forward chaining
derives, and nothing is taken back except by forgetting everything.
-/

import ClausalReasoner.ClausalForm
import ClausalReasoner.ClauseSet
import ClausalReasoner.Failure
import ClausalReasoner.Procedure
import ClausalReasoner.Session

namespace ClausalReasoner

/-- Whether some candidate has the polarity of a literal and unifies with it by a substitution that
only binds variables to variables. -/
def isRenamingOf (l : Literal) (candidates : List Literal) : Bool :=
  candidates.any fun candidate =>
    candidate.polarity = l.polarity &&
      match l.atom.unify candidate.atom with
      | some θ => θ.isRenaming
      | none => false

/-- The unit clauses of a knowledge base, filed under the headings of their literals in order of
arrival. -/
abbrev FactIndex := List (String × List Clause)

namespace FactIndex

/-- The facts under a heading. -/
def under (facts : FactIndex) (heading : String) : List Clause :=
  match facts with
  | [] => []
  | (other, filed) :: rest => if other = heading then filed else under rest heading

/-- File a clause under a heading, behind those that are there. -/
def file (heading : String) (c : Clause) : FactIndex → FactIndex
  | [] => [(heading, [c])]
  | (other, filed) :: rest =>
    if other = heading then (other, filed ++ [c]) :: rest
    else (other, filed) :: file heading c rest

/-- The number of facts. -/
def size (facts : FactIndex) : Nat :=
  facts.foldl (fun sum entry => sum + entry.2.length) 0

end FactIndex

/-- A knowledge base. -/
structure KnowledgeBase where
  vocabulary : Vocabulary := {}
  supply : Supply := {}
  /-- The steps by which the stored clauses came about. -/
  derivation : Derivation := {}
  procedure : Procedure := .givenClause (.ofSeconds 10) {}
  sentences : List Sentence := []
  clauses : ClauseSet := ∅
  /-- The stored clauses that are definite. -/
  definites : List Clause := []
  /-- The stored clauses that are rules. -/
  rules : List Clause := []
  facts : FactIndex := []
  deriving Inhabited

namespace KnowledgeBase

/-! ### Telling -/

/-- Store a clause, unless a stored one has its key, and sort it by what it can be used for. -/
def store (kb : KnowledgeBase) (c : Clause) : KnowledgeBase :=
  if kb.clauses.contains c then kb
  else
    { kb with
      clauses := kb.clauses.insert c
      facts :=
        match c.literals with
        | [l] => FactIndex.file l.heading c kb.facts
        | _ => kb.facts
      rules := if c.isRule then kb.rules ++ [c] else kb.rules
      definites := if c.isDefinite then kb.definites ++ [c] else kb.definites }

/-- Whether one of the later unit clauses contradicts the first; the later ones are given fresh
variables for the comparison. -/
def contradictsLater (first : Literal) : List Clause → Supply → Bool × Supply
  | [], supply => (false, supply)
  | c :: rest, supply =>
    let (renamed, supplied) := c.renamed supply
    let contradicts :=
      match renamed.literals with
      | [l] => first.polarity ≠ l.polarity && (first.atom.unify l.atom).isSome
      | _ => false
    if contradicts then (true, supplied) else contradictsLater first rest supplied

/-- Whether two of the given unit clauses contradict each other. -/
def unitsContradict : List Clause → Supply → Bool
  | [], _ => false
  | c :: rest, supply =>
    match c.literals with
    | [l] =>
      let (found, supplied) := contradictsLater l rest supply
      found || unitsContradict rest supplied
    | _ => unitsContradict rest supply

/-- Whether clauses are seen to be unsatisfiable at once: one of them is empty, or two units
contradict each other. -/
def obviouslyUnsatisfiable (cs : List Clause) (supply : Supply) : Bool :=
  cs.any Clause.isEmpty || unitsContradict (cs.filter Clause.isUnit) supply

/-- Give a clause fresh variables and store it as following from a premise, unless a stored one has
its key. -/
def storeClausified (premise : StepNumber) (kb : KnowledgeBase) (c : Clause) : KnowledgeBase :=
  let (renamed, supply) := c.renamed kb.supply
  let supplied := { kb with supply := supply }
  if supplied.clauses.contains renamed then supplied
  else
    let (number, derivation) := supplied.derivation.record
      ⟨.clausified, .clause renamed.literals, .none, [premise]⟩
    { supplied with derivation := derivation }.store (renamed.withOrigin (some number))

/-- Take in a sentence with its clauses and the vocabulary that clausifying it came to. -/
def accept (kb : KnowledgeBase) (s : Sentence) (cs : List Clause) (vocabulary : Vocabulary) :
    KnowledgeBase :=
  let (premise, derivation) := kb.derivation.record ⟨.premise, .sentence s, .none, []⟩
  let stored := cs.foldl (storeClausified premise)
    { kb with vocabulary := vocabulary, derivation := derivation }
  { stored with sentences := stored.sentences ++ [s] }

/-- Tell the knowledge base a sentence: what comes of it, and the knowledge base afterwards. A
sentence that it was told before changes nothing. The clauses are formed with a copy of the
vocabulary and compared with a copy of the supply, and if they are obviously unsatisfiable, then the
sentence is refused and the copies are given up. -/
def tell (kb : KnowledgeBase) (s : Sentence) : Except Failure Unit × KnowledgeBase :=
  if kb.sentences.contains s then (.ok (), kb)
  else
    let (cs, vocabulary) := s.clausalForm (kb.vocabulary.registerSentence s)
    if obviouslyUnsatisfiable cs kb.supply then (.error (.unsatisfiableAssertion s), kb)
    else (.ok (), kb.accept s cs vocabulary)

/-- Tell sentences one after the other, up to the first that is refused. What was told before it
stays. -/
def tellAll (kb : KnowledgeBase) : List Sentence → KnowledgeBase × Option Failure
  | [] => (kb, none)
  | s :: rest =>
    match kb.tell s with
    | (.ok (), told) => told.tellAll rest
    | (.error failure, kept) => (kept, some failure)

/-- Store a fact that was derived by the given step, with fresh variables. -/
def storeDerived (kb : KnowledgeBase) (fact : Literal) (origin : StepNumber) : KnowledgeBase :=
  let (renamed, supply) := (Clause.ofLiterals [fact]).renamed kb.supply
  { kb with supply := supply }.store (renamed.withOrigin (some origin))

/-- Forget what was told. The vocabulary, the indices used and the procedure stay. -/
def clear (kb : KnowledgeBase) : KnowledgeBase :=
  { vocabulary := kb.vocabulary, supply := kb.supply, procedure := kb.procedure }

/-! ### Looking up facts -/

/-- The facts that a literal unifies with: each unifier with the step that the fact came from. -/
def fetchFacts (kb : KnowledgeBase) (l : Literal) : List (Substitution × Option StepNumber) :=
  (FactIndex.under kb.facts l.heading).filterMap fun fact =>
    fact.literals.head?.bind fun factLiteral =>
      (l.atom.unify factLiteral.atom).map fun θ => (θ, fact.origin)

/-- The substitutions under which a literal unifies with a fact. -/
def fetch (kb : KnowledgeBase) (l : Literal) : List Substitution :=
  (kb.fetchFacts l).map (·.1)

/-- The ways to unify literals with facts, one after the other from the left, on top of the
substitution and the steps found so far. -/
def joinFacts (kb : KnowledgeBase) :
    List Literal → Substitution → List StepNumber → List (Substitution × List StepNumber)
  | [], θ, origins => [(θ, origins)]
  | l :: rest, θ, origins =>
    (kb.fetchFacts (l.substitute θ)).flatMap fun (binding, origin) =>
      kb.joinFacts rest (θ.compose binding) (origins ++ origin.toList)

/-- The ways to unify each literal of a list with a fact, with the steps the facts came from. -/
def fetchAllFacts (kb : KnowledgeBase) (ls : List Literal) :
    List (Substitution × List StepNumber) :=
  kb.joinFacts ls ∅ []

/-- The substitutions under which each literal of a list unifies with a fact. -/
def fetchAll (kb : KnowledgeBase) (ls : List Literal) : List Substitution :=
  (kb.fetchAllFacts ls).map (·.1)

/-- Whether a literal is a fact up to the names of variables. -/
def isRenamingOfFact (kb : KnowledgeBase) (l : Literal) : Bool :=
  isRenamingOf l ((FactIndex.under kb.facts l.heading).filterMap fun fact => fact.literals.head?)

/-! ### Preparing queries -/

/-- A new answer predicate applied to the variables of a sentence. -/
def answerAtom (kb : KnowledgeBase) (s : Sentence) : Atom × KnowledgeBase :=
  let (name, vocabulary) := kb.vocabulary.answerPredicate
  (.predicate name (s.vars.map Term.var), { kb with vocabulary := vocabulary })

/-- The clauses of a sentence, whose symbols are added to the vocabulary. -/
def clausesOf (kb : KnowledgeBase) (s : Sentence) : List Clause × KnowledgeBase :=
  let (cs, vocabulary) := s.clausalForm (kb.vocabulary.registerSentence s)
  (cs, { kb with vocabulary := vocabulary })

/-- The session in which a query begins: the indices that are unused and the steps of the stored
clauses. -/
def session (kb : KnowledgeBase) : Session :=
  ⟨kb.supply, kb.derivation⟩

/-- What stays of the session of a query: the indices it used. -/
def afterSession (kb : KnowledgeBase) (session : Session) : KnowledgeBase :=
  { kb with supply := session.supply }

end KnowledgeBase

end ClausalReasoner

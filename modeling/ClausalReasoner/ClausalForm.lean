/-
This file turns sentences into clauses. The way there has six stations: implications are written
out, negations are moved to the atoms, variables that are bound twice are renamed, quantifiers are
removed with Skolem terms in place of the existential variables, disjunctions are moved below
conjunctions, and the conjuncts are collected as clauses.

Each station is a recursion on the sentence. Where a station would have to be applied to a sentence
that it has just built, the recursion carries along what there is to do instead: whether a negation
is pending, what the variables are to be replaced by, or the disjunct that is to be joined on.
-/

import ClausalReasoner.Clause
import ClausalReasoner.Vocabulary

namespace ClausalReasoner

namespace Sentence

/-! ### Writing out implications -/

/-- Write implications and biconditionals with negation, conjunction and disjunction. -/
def withoutImplications : Sentence → Sentence
  | .atom a => .atom a
  | .negation body => .negation body.withoutImplications
  | .connected .implication left right =>
    .or (.negation left.withoutImplications) right.withoutImplications
  | .connected .biconditional left right =>
    .and (.or (.negation left.withoutImplications) right.withoutImplications)
      (.or left.withoutImplications (.negation right.withoutImplications))
  | .connected connective left right =>
    .connected connective left.withoutImplications right.withoutImplications
  | .quantified quantifier bound body => .quantified quantifier bound body.withoutImplications

/-! ### Moving negations to the atoms -/

/-- The sentence, or its negation when `affirmed` does not hold, with negations at the atoms only.
Implications that are not negated stay as they are, unless `expanding` holds; below a negated
implication, which cannot stay, all others are written out too. -/
def settle (expanding affirmed : Bool) : Sentence → Sentence
  | .atom a => if affirmed then .atom a else .negation (.atom a)
  | .negation body => settle expanding (!affirmed) body
  | .connected .conjunction left right =>
    if affirmed then .and (settle expanding true left) (settle expanding true right)
    else .or (settle expanding false left) (settle expanding false right)
  | .connected .disjunction left right =>
    if affirmed then .or (settle expanding true left) (settle expanding true right)
    else .and (settle expanding false left) (settle expanding false right)
  | .connected .implication left right =>
    if affirmed then
      if expanding then .or (settle true false left) (settle true true right)
      else .implies (settle false true left) (settle false true right)
    else .and (settle true true left) (settle true false right)
  | .connected .biconditional left right =>
    if affirmed then
      if expanding then
        .and (.or (settle true false left) (settle true true right))
          (.or (settle true true left) (settle true false right))
      else .iff (settle false true left) (settle false true right)
    else
      .or (.and (settle true true left) (settle true false right))
        (.and (settle true false left) (settle true true right))
  | .quantified quantifier bound body =>
    .quantified (if affirmed then quantifier else quantifier.dual) bound
      (settle expanding affirmed body)

/-- Move negations inward until they stand at atoms only. -/
def negationsInward (s : Sentence) : Sentence :=
  s.settle false true

/-! ### Renaming variables that are bound twice -/

/-- The names of all variables of a sentence, bound or not. -/
def variableNames (s : Sentence) : List String :=
  s.allVariables.map Variable.name

end Sentence

/-- The state of renaming bound variables: the variables bound so far, the names that are taken, and
the number to try next for a new name. -/
structure BinderNames where
  seen : List Variable := []
  taken : List String
  next : Nat := 0
  deriving Inhabited

namespace BinderNames

/-- The first number from `number` on that makes a name which is not taken, looking at no more than
`tries` candidates before settling for the one after them. -/
def firstUntaken (names : BinderNames) : (tries number : Nat) → Nat
  | 0, number => number
  | tries + 1, number =>
    if names.taken.contains ("q" ++ toString number) then names.firstUntaken tries (number + 1)
    else number

/-- A variable under a name that is not taken. -/
def fresh (names : BinderNames) : Variable × BinderNames :=
  let number := names.firstUntaken names.taken.length names.next
  let name := "q" ++ toString number
  (⟨name, none⟩, { names with taken := name :: names.taken, next := number + 1 })

/-- Go through a quantifier list. A variable that was bound before gets a new name, and the
replacement of variables is extended by it; of a variable that is repeated in the list the last
new name counts. -/
def bindAll (names : BinderNames) : List Variable → (Variable → Variable) →
    List Variable × (Variable → Variable) × BinderNames
  | [], change => ([], change, names)
  | v :: vs, change =>
    if names.seen.contains v then
      let (w, named) := names.fresh
      let (rest, changed, last) := bindAll { named with seen := w :: named.seen } vs
        (fun u => if u = v then w else change u)
      (w :: rest, changed, last)
    else
      let (rest, changed, last) := bindAll { names with seen := v :: names.seen } vs change
      (v :: rest, changed, last)

end BinderNames

namespace Sentence

/-- Rename the variables that quantifiers bind a second time. `change` is what the quantifiers
further out made of the variables. A quantifier without variables is dropped when it is `inside`
another one. -/
def renameBinders (inside : Bool) (change : Variable → Variable) :
    Sentence → BinderNames → Sentence × BinderNames
  | .atom a, names => (.atom (a.replace fun v => .var (change v)), names)
  | .negation body, names =>
    let (renamed, rest) := body.renameBinders inside change names
    (.negation renamed, rest)
  | .connected connective left right, names =>
    let (first, between) := left.renameBinders inside change names
    let (second, rest) := right.renameBinders inside change between
    (.connected connective first second, rest)
  | .quantified quantifier bound body, names =>
    let (binders, here, between) := names.bindAll (bound.map change) id
    let (renamed, rest) := body.renameBinders true (fun v => here (change v)) between
    (if inside then .quantify quantifier binders renamed
      else .quantified quantifier binders renamed, rest)

/-- Rename bound variables so that no variable is bound at two places. -/
def distinctBinders (s : Sentence) : Sentence :=
  (s.renameBinders false id { taken := s.variableNames }).1

/-! ### Removing quantifiers -/

/-- Skolem terms for the variables of an existential quantifier: constants when no universal
variable is in scope, and otherwise functions of those that are. Of a variable that is repeated in
the list the last term counts. -/
def skolemTerms (scope : List Variable) (voc : Vocabulary) :
    List Variable → (Variable → Term) → (Variable → Term) × Vocabulary
  | [], value => (value, voc)
  | v :: vs, value =>
    match scope with
    | [] =>
      let (name, extended) := voc.skolemConstant
      skolemTerms scope extended vs fun w => if w = v then .constant name else value w
    | _ =>
      let (name, extended) := voc.skolemFunction
      skolemTerms scope extended vs
        fun w => if w = v then .app name (scope.map Term.var) else value w

/-- Drop the quantifiers below a list of universal variables in scope. `value` is what the
existential quantifiers further out made of the variables; it reaches the variables of quantifiers
too, and a quantifier does not bind what is no variable any more. -/
def skolemize (scope : List Variable) (value : Variable → Term) :
    Sentence → Vocabulary → Sentence × Vocabulary
  | .atom a, voc => (.atom (a.replace value), voc)
  | .negation body, voc =>
    let (skolemized, rest) := body.skolemize scope value voc
    (.negation skolemized, rest)
  | .connected connective left right, voc =>
    let (first, between) := left.skolemize scope value voc
    let (second, rest) := right.skolemize scope value between
    (.connected connective first second, rest)
  | .quantified .universal bound body, voc =>
    body.skolemize (scope ++ replaceBinders value bound) value voc
  | .quantified .existential bound body, voc =>
    let (here, extended) := skolemTerms scope voc (replaceBinders value bound) Term.var
    body.skolemize scope (fun v => (value v).replace here) extended

/-- Drop universal quantifiers and put Skolem terms in the place of existential variables. -/
def withoutQuantifiers (s : Sentence) (voc : Vocabulary) : Sentence × Vocabulary :=
  s.skolemize [] Term.var voc

/-! ### Moving disjunctions below conjunctions -/

/-- Join a disjunct to the left of every conjunct of a sentence. -/
def joinLeft (disjunct : Sentence) : Sentence → Sentence
  | .connected .conjunction left right => .and (joinLeft disjunct left) (joinLeft disjunct right)
  | s => .or disjunct s

/-- The disjunction of two conjunctions, as a conjunction of disjunctions. -/
def joinConjunctions : Sentence → Sentence → Sentence
  | .connected .conjunction left right, other =>
    .and (joinConjunctions left other) (joinConjunctions right other)
  | s, other => joinLeft s other

/-- Move disjunctions below conjunctions. Negations are left alone with all that is below them. -/
def distribute : Sentence → Sentence
  | .atom a => .atom a
  | .negation body => .negation body
  | .connected .disjunction left right => joinConjunctions left.distribute right.distribute
  | .connected connective left right => .connected connective left.distribute right.distribute
  | .quantified quantifier bound body => .quantified quantifier bound body.distribute

/-! ### Collecting clauses -/

/-- The literals of a sentence or of its negation, read as one disjunction whatever its connectives
are. -/
def disjuncts (polarity : Polarity) : Sentence → List Literal
  | .atom a => [⟨a, polarity, false⟩]
  | .negation body => body.disjuncts polarity.flip
  | .connected _ left right => left.disjuncts polarity ++ right.disjuncts polarity
  | .quantified _ _ body => body.disjuncts polarity

/-- The parts of a sentence below its outermost conjunctions, each as a list of literals. -/
def conjuncts : Sentence → List (List Literal)
  | .connected .conjunction left right => left.conjuncts ++ right.conjuncts
  | s => [s.disjuncts .positive]

/-- The clauses of a conjunction of disjunctions, without the tautologies. -/
def clauses (s : Sentence) : List Clause :=
  (s.conjuncts.map fun ls => Clause.ofLiterals ls).filter fun c => !c.isTautology

/-- The clauses of any sentence, and the vocabulary with the Skolem symbols that were invented. -/
def clausalForm (s : Sentence) (voc : Vocabulary) : List Clause × Vocabulary :=
  let (matrix, extended) :=
    s.withoutImplications.negationsInward.distinctBinders.withoutQuantifiers voc
  (matrix.distribute.clauses, extended)

end Sentence

/-- The text of a conjunction of clauses. -/
def conjunctionText (cs : List Clause) : String :=
  " ∧ ".intercalate (cs.map fun c => "[" ++ c.text ++ "]")

end ClausalReasoner

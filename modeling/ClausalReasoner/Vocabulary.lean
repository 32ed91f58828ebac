/-
This file keeps the symbols that are in use and invents new ones. A new name is a fixed stem with
the next number of its kind behind it, and numbers whose name is already in use, as a constant, a
function or a predicate, are passed over. The numbers passed over are not tried again.
-/

import ClausalReasoner.Sentence

namespace ClausalReasoner

/-- The symbols in use, and for each kind of invented name the number to try next. -/
structure Vocabulary where
  constants : List String := []
  functions : List String := []
  predicates : List String := []
  nextSkolemConstant : Nat := 0
  nextSkolemFunction : Nat := 0
  nextAnswer : Nat := 0
  deriving Inhabited, Repr

namespace Vocabulary

/-! ### Symbols in use -/

/-- Add a constant. -/
def addConstant (voc : Vocabulary) (name : String) : Vocabulary :=
  { voc with constants := voc.constants.insert name }

/-- Add a function symbol. -/
def addFunction (voc : Vocabulary) (name : String) : Vocabulary :=
  { voc with functions := voc.functions.insert name }

/-- Add a predicate symbol. -/
def addPredicate (voc : Vocabulary) (name : String) : Vocabulary :=
  { voc with predicates := voc.predicates.insert name }

/-- Whether a name is in use as a constant. -/
def isConstant (voc : Vocabulary) (name : String) : Bool :=
  voc.constants.contains name

/-- Whether a name is in use as a function symbol. -/
def isFunction (voc : Vocabulary) (name : String) : Bool :=
  voc.functions.contains name

/-- Whether a name is in use as a predicate symbol. -/
def isPredicate (voc : Vocabulary) (name : String) : Bool :=
  voc.predicates.contains name

/-- Whether a name is in use as a symbol of any kind. -/
def isKnown (voc : Vocabulary) (name : String) : Bool :=
  voc.isConstant name || voc.isFunction name || voc.isPredicate name

/-! ### Registering the symbols of expressions -/

mutual

/-- Add the symbols of a term. -/
def registerTerm (voc : Vocabulary) : Term → Vocabulary
  | .constant name => voc.addConstant name
  | .var _ => voc
  | .app function ts => registerTerms (voc.addFunction function) ts

/-- Add the symbols of the terms of a list. -/
def registerTerms (voc : Vocabulary) : List Term → Vocabulary
  | [] => voc
  | t :: ts => registerTerms (registerTerm voc t) ts

end

/-- Add the symbols of an atom. The equality sign is no symbol of the vocabulary. -/
def registerAtom (voc : Vocabulary) : Atom → Vocabulary
  | .predicate name ts => (voc.addPredicate name).registerTerms ts
  | .equality left right => voc.registerTerms [left, right]

/-- Add the symbols of a sentence. -/
def registerSentence (voc : Vocabulary) : Sentence → Vocabulary
  | .atom a => voc.registerAtom a
  | .negation body => voc.registerSentence body
  | .connected _ left right => (voc.registerSentence left).registerSentence right
  | .quantified _ _ body => voc.registerSentence body

/-! ### Inventing names -/

/-- The number of symbols in use. Among one more candidates than this, one is unused. -/
def size (voc : Vocabulary) : Nat :=
  voc.constants.length + voc.functions.length + voc.predicates.length

/-- The first number from `number` on whose name is unused, looking at no more than `tries`
candidates before settling for the one after them. -/
def firstUnused (voc : Vocabulary) (stem : String) : (tries number : Nat) → Nat
  | 0, number => number
  | tries + 1, number =>
    if voc.isKnown (stem ++ toString number) then voc.firstUnused stem tries (number + 1)
    else number

/-- The first unused number for a stem from `number` on. -/
def unusedNumber (voc : Vocabulary) (stem : String) (number : Nat) : Nat :=
  voc.firstUnused stem voc.size number

/-- Invent a constant and add it. -/
def skolemConstant (voc : Vocabulary) : String × Vocabulary :=
  let number := voc.unusedNumber "SC" voc.nextSkolemConstant
  let name := "SC" ++ toString number
  (name, { voc.addConstant name with nextSkolemConstant := number + 1 })

/-- Invent a function symbol and add it. -/
def skolemFunction (voc : Vocabulary) : String × Vocabulary :=
  let number := voc.unusedNumber "SF" voc.nextSkolemFunction
  let name := "SF" ++ toString number
  (name, { voc.addFunction name with nextSkolemFunction := number + 1 })

/-- Invent a predicate for answers and add it. -/
def answerPredicate (voc : Vocabulary) : String × Vocabulary :=
  let number := voc.unusedNumber "Answer" voc.nextAnswer
  let name := "Answer" ++ toString number
  (name, { voc.addPredicate name with nextAnswer := number + 1 })

end Vocabulary

end ClausalReasoner

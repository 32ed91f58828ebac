/-
This file holds sentences: atoms joined by connectives and bound by quantifiers. A quantifier binds
a list of variables at once; the list may be empty and may name a variable twice, and nothing here
forbids a variable to be bound again further down.
-/

import ClausalReasoner.Term

namespace ClausalReasoner

/-- The binary connectives. -/
inductive Connective where
  | conjunction
  | disjunction
  | implication
  | biconditional
  deriving DecidableEq, Inhabited, Repr

/-- The two quantifiers. -/
inductive Quantifier where
  | universal
  | existential
  deriving DecidableEq, Inhabited, Repr

/-- A sentence. Its free variables are allowed and keep their meaning as variables. -/
inductive Sentence where
  | atom (a : Atom)
  | negation (body : Sentence)
  | connected (connective : Connective) (left right : Sentence)
  | quantified (quantifier : Quantifier) (bound : List Variable) (body : Sentence)
  deriving DecidableEq, Inhabited, Repr

namespace Connective

/-- The place of a connective in the order of sentences. -/
def rank : Connective → Nat
  | .conjunction => 0
  | .disjunction => 1
  | .implication => 2
  | .biconditional => 3

instance : Ord Connective := ⟨fun left right => compare left.rank right.rank⟩

end Connective

namespace Quantifier

/-- The place of a quantifier in the order of sentences. -/
def rank : Quantifier → Nat
  | .universal => 0
  | .existential => 1

/-- The quantifier that negation turns a quantifier into. -/
def dual : Quantifier → Quantifier
  | .universal => .existential
  | .existential => .universal

instance : Ord Quantifier := ⟨fun left right => compare left.rank right.rank⟩

end Quantifier

/-- The lexicographic order of lists of variables. -/
def Variable.orderList : List Variable → List Variable → Ordering
  | [], [] => .eq
  | [], _ :: _ => .lt
  | _ :: _, [] => .gt
  | v :: vs, w :: ws => (v.order w).then (Variable.orderList vs ws)

namespace Sentence

/-! ### Building sentences -/

/-- The conjunction of two sentences. -/
abbrev and (left right : Sentence) : Sentence := .connected .conjunction left right

/-- The disjunction of two sentences. -/
abbrev or (left right : Sentence) : Sentence := .connected .disjunction left right

/-- The implication from one sentence to another. -/
abbrev implies (left right : Sentence) : Sentence := .connected .implication left right

/-- The biconditional of two sentences. -/
abbrev iff (left right : Sentence) : Sentence := .connected .biconditional left right

/-- A list of sentences joined by one connective, grouped to the left. The empty list has nothing
to stand for it, whatever the connective. -/
def joinAll (connective : Connective) : List Sentence → Option Sentence
  | [] => none
  | first :: rest => some (rest.foldl (Sentence.connected connective) first)

/-! ### Order -/

/-- Atoms come first, then negations, connected sentences and quantified ones; sentences of one
kind are ordered by their parts from the left. -/
def order : Sentence → Sentence → Ordering
  | .atom a, .atom b => a.order b
  | .atom _, _ => .lt
  | .negation _, .atom _ => .gt
  | .negation s, .negation t => order s t
  | .negation _, _ => .lt
  | .connected _ _ _, .atom _ => .gt
  | .connected _ _ _, .negation _ => .gt
  | .connected c s t, .connected d u v => (compare c d).then ((order s u).then (order t v))
  | .connected _ _ _, .quantified _ _ _ => .lt
  | .quantified q vs s, .quantified r ws t =>
    (compare q r).then ((Variable.orderList vs ws).then (order s t))
  | .quantified _ _ _, _ => .gt

instance : Ord Sentence := ⟨order⟩

/-! ### The variables of a sentence -/

/-- Whether a sentence is a single atom. -/
def isAtomic : Sentence → Bool
  | .atom _ => true
  | _ => false

/-- The variable occurrences in the atoms of a sentence, in reading order. The lists of the
quantifiers are not read. -/
def occurrences : Sentence → List Variable
  | .atom a => a.occurrences
  | .negation body => body.occurrences
  | .connected _ left right => left.occurrences ++ right.occurrences
  | .quantified _ _ body => body.occurrences

/-- The variables in the atoms of a sentence, each once, in the order of first occurrence. -/
def vars (s : Sentence) : List Variable :=
  firstOccurrences s.occurrences

/-- The entries of the quantifier lists of a sentence, from the outside in and from the left. -/
def binders : Sentence → List Variable
  | .atom _ => []
  | .negation body => body.binders
  | .connected _ left right => left.binders ++ right.binders
  | .quantified _ bound body => bound ++ body.binders

end Sentence

end ClausalReasoner

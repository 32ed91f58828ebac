/-
This file hands out the indices that tell variables apart and renames sentences with them. Fresh
variables keep their name and take the next index of a supply, which is passed along through every
operation that makes variables: whoever renames gets the supply back with the indices used up. A
supply never runs out here; a register of 32 bits does, and goes back to zero.
-/

import ClausalReasoner.Substitution

namespace ClausalReasoner

/-- A supply of indices: everything from `next` on is still unused. -/
structure Supply where
  next : Nat := 0
  deriving DecidableEq, Inhabited, Repr

namespace Supply

/-- The supply whose indices are above all those that the given variables carry. -/
def above (vs : List Variable) : Supply :=
  ⟨vs.foldl (fun next v => match v.index with
    | none => next
    | some index => max next (index + 1)) 0⟩

/-- Take the next index. -/
def take (supply : Supply) : Nat × Supply :=
  (supply.next, ⟨supply.next + 1⟩)

/-- Give each variable of a list the next index, from the left. -/
def freshen : Supply → List Variable → List (Variable × Variable) × Supply
  | supply, [] => ([], supply)
  | supply, v :: vs =>
    let (index, afterFirst) := supply.take
    let (pairs, rest) := afterFirst.freshen vs
    ((v, v.withIndex index) :: pairs, rest)

/-- The substitution that renames each variable of a list to a fresh one. -/
def freshRenaming (supply : Supply) (vs : List Variable) : Substitution × Supply :=
  let (pairs, rest) := supply.freshen vs
  (Substitution.ofList (pairs.map fun pair => (pair.1, .var pair.2)), rest)

end Supply

/-- A sentence with fresh variables, together with the renaming that led to it and the one that
leads back. -/
structure StandardizedSentence where
  given : Sentence
  standardized : Sentence
  forward : Substitution
  reverse : Substitution
  deriving Inhabited

namespace Sentence

/-- The variables of a sentence followed by those that only stand in quantifier lists. -/
def allVariables (s : Sentence) : List Variable :=
  firstOccurrences (s.occurrences ++ s.binders)

/-- Rename every variable of a sentence, the bound ones included, to a fresh one. -/
def standardizeApart (s : Sentence) (supply : Supply) : StandardizedSentence × Supply :=
  let (forward, rest) := supply.freshRenaming s.allVariables
  (⟨s, s.substitute forward, forward, forward.inverse⟩, rest)

end Sentence

end ClausalReasoner

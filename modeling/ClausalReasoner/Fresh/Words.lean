/-
This file takes indices from a register of 32 bits instead of an unbounded supply. The register holds
the next index and goes back to zero after the largest one, so it may come to hand out indices again
that variables carry already.
-/

import ClausalReasoner.Fresh

namespace ClausalReasoner

namespace Supply

/-- What a register of 32 bits keeps of a supply. -/
def inWords (supply : Supply) : Supply :=
  ⟨supply.next % UInt32.size⟩

/-- The register above the indices that the given variables carry, unless one carries the largest. -/
def aboveInWords (vs : List Variable) : Supply :=
  (above vs).inWords

/-- Take the next index from the register. -/
def takeInWords (register : Supply) : Nat × Supply :=
  let (index, rest) := register.take
  (index, rest.inWords)

/-- Give each variable of a list the next index of the register, from the left. -/
def freshenInWords : Supply → List Variable → List (Variable × Variable) × Supply
  | register, [] => ([], register)
  | register, v :: vs =>
    let (index, afterFirst) := register.takeInWords
    let (pairs, rest) := afterFirst.freshenInWords vs
    ((v, v.withIndex index) :: pairs, rest)

/-- The substitution that renames each variable of a list by the register. -/
def freshRenamingInWords (register : Supply) (vs : List Variable) : Substitution × Supply :=
  let (pairs, rest) := register.freshenInWords vs
  (Substitution.ofList (pairs.map fun pair => (pair.1, .var pair.2)), rest)

end Supply

/-- Rename every variable of a sentence by the register. -/
def Sentence.standardizeApartInWords (s : Sentence) (register : Supply) :
    StandardizedSentence × Supply :=
  let (forward, rest) := register.freshRenamingInWords s.allVariables
  (⟨s, s.substitute forward, forward, forward.inverse⟩, rest)

end ClausalReasoner

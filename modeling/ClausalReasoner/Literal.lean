/-
This file holds literals: atoms with a polarity. A literal may carry the mark of a reduced literal,
which chains use for the heads of their ancestors; the mark takes part in equality, so a reduced
literal never coincides with a plain one.
-/

import ClausalReasoner.Rendering
import ClausalReasoner.Unification

namespace ClausalReasoner

/-- Whether a literal affirms or denies its atom. -/
inductive Polarity where
  | positive
  | negative
  deriving DecidableEq, Inhabited, Repr

namespace Polarity

/-- The opposite polarity. -/
def flip : Polarity → Polarity
  | .positive => .negative
  | .negative => .positive

/-- Positive comes before negative. -/
def rank : Polarity → Nat
  | .positive => 0
  | .negative => 1

instance : Ord Polarity := ⟨fun left right => compare left.rank right.rank⟩

end Polarity

/-- An atom with a polarity and, for a literal of a chain, the mark that it was reduced. -/
structure Literal where
  atom : Atom
  polarity : Polarity := .positive
  reduced : Bool := false
  deriving DecidableEq, Inhabited, Repr

namespace Literal

/-- The literal that affirms an atom. -/
abbrev positive (a : Atom) : Literal := ⟨a, .positive, false⟩

/-- The literal that denies an atom. -/
abbrev negative (a : Atom) : Literal := ⟨a, .negative, false⟩

/-- Whether a literal affirms its atom. -/
def isPositive (l : Literal) : Bool :=
  l.polarity = .positive

/-- Whether a literal denies its atom. -/
def isNegative (l : Literal) : Bool :=
  l.polarity = .negative

/-- The literal with the mark of a reduced one. -/
def reduce (l : Literal) : Literal :=
  { l with reduced := true }

/-- The opposite literal, which is never reduced. -/
def negate (l : Literal) : Literal :=
  ⟨l.atom, l.polarity.flip, false⟩

/-- Whether two literals have the same atom and opposite polarities. Marks do not count. -/
def isNegationOf (l other : Literal) : Bool :=
  l.polarity = other.polarity.flip && l.atom = other.atom

/-- Literals are ordered by atom, then polarity, then mark. -/
def order (l other : Literal) : Ordering :=
  (l.atom.order other.atom).then
    ((compare l.polarity other.polarity).then (compare l.reduced other.reduced))

instance : Ord Literal := ⟨order⟩

/-- The heading under which facts are filed: the sign of the literal and its symbol. -/
def heading (l : Literal) : String :=
  match l.polarity with
  | .positive => "+" ++ l.atom.symbol
  | .negative => "-" ++ l.atom.symbol

/-- The weight of a literal is that of its atom. -/
def weight (l : Literal) : Nat :=
  l.atom.weight

/-- The variable occurrences of a literal in reading order. -/
def occurrences (l : Literal) : List Variable :=
  l.atom.occurrences

/-- Apply a substitution to the atom of a literal. -/
def substitute (σ : Substitution) (l : Literal) : Literal :=
  { l with atom := l.atom.substitute σ }

/-- A negative equality is put into parentheses after its sign, and a reduced literal stands in
brackets. -/
def text (l : Literal) : String :=
  let plain :=
    match l.polarity, l.atom with
    | .positive, a => a.text
    | .negative, .equality left right => "¬(" ++ (Atom.equality left right).text ++ ")"
    | .negative, a => "¬" ++ a.text
  if l.reduced then "[" ++ plain ++ "]" else plain

/-- The variable occurrences of a list of literals, from the left. -/
def occurrencesList (ls : List Literal) : List Variable :=
  ls.flatMap occurrences

/-- The variables of a list of literals, each once, in the order in which they are first met. -/
def varsList (ls : List Literal) : List Variable :=
  firstOccurrences (occurrencesList ls)

/-- Apply a substitution to each literal of a list. -/
def substituteList (σ : Substitution) (ls : List Literal) : List Literal :=
  ls.map (substitute σ)

end Literal

end ClausalReasoner

/-
This file reads and lists positions by walking. A subterm is reached step by step along its position.
The positions are listed by a walk through the whole term that has one path: a step is put at its end
before an argument is visited and taken off afterwards, and wherever the walk comes to a subterm it
notes down the path as it is then.
-/

import ClausalReasoner.Position

namespace ClausalReasoner

/-- The state of a walk: the path to where it stands, and the positions noted down. -/
structure Walk where
  path : Position := []
  noted : List Position := []
  deriving DecidableEq, Inhabited, Repr

namespace Walk

/-- Note down the path. -/
def note (walk : Walk) : Walk :=
  { walk with noted := walk.noted ++ [walk.path] }

/-- Go down to an argument. -/
def descend (walk : Walk) (step : Nat) : Walk :=
  { walk with path := walk.path ++ [step] }

/-- Go back from an argument. -/
def ascend (walk : Walk) : Walk :=
  { walk with path := walk.path.dropLast }

end Walk

namespace Term

/-- The subterm that one reaches by following a position step by step. -/
def follow (t : Term) (position : Position) : Option Term :=
  position.foldlM (fun subterm step => subterm.arguments[step]?) t

mutual

/-- Walk through a term as far as its subterms satisfy the condition `enter`. -/
def walkThrough (enter : Term → Bool) : Term → Walk → Walk
  | .constant name, walk => if enter (.constant name) then walk.note else walk
  | .var v, walk => if enter (.var v) then walk.note else walk
  | .app function ts, walk =>
    if enter (.app function ts) then walkThroughFrom enter 0 ts walk.note else walk

/-- Walk through the terms of a list, of which the first has the given number. -/
def walkThroughFrom (enter : Term → Bool) (number : Nat) : List Term → Walk → Walk
  | [], walk => walk
  | t :: ts, walk =>
    walkThroughFrom enter (number + 1) ts (walkThrough enter t (walk.descend number)).ascend

end

/-- The positions that a walk through a term notes down. -/
def walkedPositions (enter : Term → Bool) (t : Term) : List Position :=
  (walkThrough enter t {}).noted

end Term

namespace Atom

/-- The subterm of an atom that one reaches by following a position within one of its arguments. -/
def follow (a : Atom) : Position → Option Term
  | [] => none
  | argument :: rest => a.arguments[argument]?.bind fun t => t.follow rest

/-- The positions that walks through the arguments of an atom note down, each with the number of the
argument before it. -/
def walkedPositions (enter : Term → Bool) (a : Atom) : List Position :=
  a.arguments.zipIdx.flatMap fun (argument, number) =>
    (argument.walkedPositions enter).map (number :: ·)

end Atom

end ClausalReasoner

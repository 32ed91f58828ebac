/-
This file gives three stations of the clausal form as functions that are applied again to sentences
which they have just built. Negations move inward by calls for what stands below them, and a negated
implication is first written out, which makes it larger, and then called for once more. Bound
variables are renamed by substituting below the quantifier, which renames the lists of the
quantifiers further in as well, and then going on with what the substitution made. Disjunctions move
below conjunctions by calls for their two sides; when a conjunction comes out on one of them, its
parts are joined with the other side, and the disjunctions so made are called for in their turn.

How deep the calls of the first and of the last one nest is not apparent, so they are given a depth
and have no result when that is exceeded. The second one goes on with sentences that are no higher
than the given one.
-/

import ClausalReasoner.ClausalForm

namespace ClausalReasoner

namespace Sentence

/-- The number of connectives and quantifiers that stand inside one another at most. -/
def height : Sentence → Nat
  | .atom _ => 0
  | .negation body => body.height + 1
  | .connected _ left right => max left.height right.height + 1
  | .quantified _ _ body => body.height + 1

/-! ### Moving negations by calls -/

/-- Move the negations of a sentence inward, or those of its negation when `affirmed` does not hold.
Nothing comes out when the calls nest more than `depth` times. -/
def moveNegations : (depth : Nat) → (affirmed : Bool) → Sentence → Option Sentence
  | 0, _, _ => none
  | _ + 1, affirmed, .atom a => some (if affirmed then .atom a else .negation (.atom a))
  | depth + 1, affirmed, .negation body => moveNegations depth (!affirmed) body
  | depth + 1, true, .connected connective left right => do
    let first ← moveNegations depth true left
    let second ← moveNegations depth true right
    return .connected connective first second
  | depth + 1, false, .connected .conjunction left right => do
    let first ← moveNegations depth false left
    let second ← moveNegations depth false right
    return .or first second
  | depth + 1, false, .connected .disjunction left right => do
    let first ← moveNegations depth false left
    let second ← moveNegations depth false right
    return .and first second
  | depth + 1, false, .connected connective left right =>
    moveNegations depth false (connected connective left right).withoutImplications
  | depth + 1, affirmed, .quantified quantifier bound body => do
    let moved ← moveNegations depth affirmed body
    return .quantified (if affirmed then quantifier else quantifier.dual) bound moved

end Sentence

/-! ### Renaming by substitution -/

/-- Go through a quantifier list. A variable that was bound before gets a new name, which a
substitution takes note of. -/
def BinderNames.rebind (names : BinderNames) : List Variable → Substitution →
    List Variable × Substitution × BinderNames
  | [], σ => ([], σ, names)
  | v :: vs, σ =>
    if names.seen.contains v then
      let (w, named) := names.fresh
      let (rest, extended, last) := rebind { named with seen := w :: named.seen } vs
        (σ.insert v (.var w))
      (w :: rest, extended, last)
    else
      let (rest, extended, last) := rebind { names with seen := v :: names.seen } vs σ
      (v :: rest, extended, last)

namespace Sentence

/-- A substitution does not make a sentence higher. -/
theorem height_substitute_le (σ : Substitution) (s : Sentence) :
    (s.substitute σ).height ≤ s.height := by
  induction s with
  | atom a => exact Nat.le_refl _
  | negation body inductionHypothesis => exact Nat.succ_le_succ inductionHypothesis
  | connected connective left right leftHypothesis rightHypothesis =>
    simp only [substitute, height]
    omega
  | quantified quantifier bound body inductionHypothesis =>
    rw [substitute]
    cases replaceBinders σ.value bound with
    | nil => exact Nat.le_succ_of_le inductionHypothesis
    | cons v vs => exact Nat.succ_le_succ inductionHypothesis

/-- Rename the variables that quantifiers bind a second time, by substituting in what stands below
them before going on there. -/
def renameAgain : Sentence → BinderNames → Sentence × BinderNames
  | .atom a, names => (.atom a, names)
  | .negation body, names =>
    let (renamed, rest) := body.renameAgain names
    (.negation renamed, rest)
  | .connected connective left right, names =>
    let (first, between) := left.renameAgain names
    let (second, rest) := right.renameAgain between
    (.connected connective first second, rest)
  | .quantified quantifier bound body, names =>
    let (binders, σ, between) := names.rebind bound ∅
    let (renamed, rest) := (body.substitute σ).renameAgain between
    (.quantified quantifier binders renamed, rest)
termination_by s => s.height
decreasing_by
  · exact Nat.lt_succ_self _
  · exact Nat.lt_succ_of_le (Nat.le_max_left _ _)
  · exact Nat.lt_succ_of_le (Nat.le_max_right _ _)
  · exact Nat.lt_succ_of_le (height_substitute_le _ body)

/-! ### Moving disjunctions by calls -/

/-- The number of connectives and quantifiers of a sentence. -/
def size : Sentence → Nat
  | .atom _ => 0
  | .negation body => body.size + 1
  | .connected _ left right => left.size + right.size + 1
  | .quantified _ _ body => body.size + 1

/-- The two parts of a conjunction. -/
def conjunction? : Sentence → Option (Sentence × Sentence)
  | .connected .conjunction left right => some (left, right)
  | _ => none

/-- Move disjunctions below conjunctions, on both sides first. Of two conjunctions the left one is
taken apart, and what its parts make with the right side is called for again. Nothing comes out when
the calls nest more than `depth` times. -/
def distributeAgain : (depth : Nat) → Sentence → Option Sentence
  | 0, _ => none
  | _ + 1, .atom a => some (.atom a)
  | _ + 1, .negation body => some (.negation body)
  | depth + 1, .connected .disjunction left right => do
    let first ← distributeAgain depth left
    let second ← distributeAgain depth right
    match first.conjunction?, second.conjunction? with
    | some (one, other), _ =>
      return .and (← distributeAgain depth (.or one second))
        (← distributeAgain depth (.or other second))
    | none, some (one, other) =>
      return .and (← distributeAgain depth (.or first one))
        (← distributeAgain depth (.or first other))
    | none, none => return .or first second
  | depth + 1, .connected connective left right => do
    let first ← distributeAgain depth left
    let second ← distributeAgain depth right
    return .connected connective first second
  | depth + 1, .quantified quantifier bound body => do
    let moved ← distributeAgain depth body
    return .quantified quantifier bound moved

end Sentence

end ClausalReasoner

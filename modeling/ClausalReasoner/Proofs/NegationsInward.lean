/-
This file shows that moving negations inward by calls comes to an end, and what it comes to. A
negated implication is written out before the call is made again, which makes the sentence larger,
but there are no implications left in what is written out, and so it happens once at most on any way
down. The sentence that is written out is at most three times as high, which bounds how deep the
calls nest.

The result is the negation normal form of `NegationNormal`. It says what the sentence says, whether
or not the implications were written out before, and if they were it has negations at atoms only and
no implications.
-/

import ClausalReasoner.ClausalForm.Reapplied
import ClausalReasoner.Proofs.NegationNormal

namespace ClausalReasoner

universe u

namespace Sentence

/-! ### The calls come to an end -/

/-- Where implications are written out, three times the height of the sentence that they stood in is
deep enough, since the parts of an implication come to stand at most two levels further in. -/
theorem moveNegations_withoutImplications (s : Sentence) (affirmed : Bool) {depth : Nat}
    (deep : 3 * s.height < depth) :
    s.withoutImplications.moveNegations depth affirmed = some (s.settle true affirmed) := by
  induction s generalizing affirmed depth with
  | atom a =>
    obtain ⟨rest, rfl⟩ := Nat.exists_eq_add_one_of_ne_zero (Nat.ne_zero_of_lt deep)
    rfl
  | negation body inductionHypothesis =>
    rw [height] at deep
    obtain ⟨rest, rfl⟩ := Nat.exists_eq_add_one_of_ne_zero (Nat.ne_zero_of_lt deep)
    exact inductionHypothesis (!affirmed) (by omega)
  | connected connective left right leftHypothesis rightHypothesis =>
    rw [height] at deep
    obtain ⟨rest, rfl⟩ : ∃ rest, depth = rest + 3 := ⟨depth - 3, by omega⟩
    have first : ∀ affirmed later, rest ≤ later →
        left.withoutImplications.moveNegations later affirmed =
          some (left.settle true affirmed) :=
      fun affirmed later enough => leftHypothesis affirmed (by omega)
    have second : ∀ affirmed later, rest ≤ later →
        right.withoutImplications.moveNegations later affirmed =
          some (right.settle true affirmed) :=
      fun affirmed later enough => rightHypothesis affirmed (by omega)
    cases connective <;> cases affirmed <;>
      simp (disch := omega) [withoutImplications, moveNegations, settle, first, second]
  | quantified quantifier bound body inductionHypothesis =>
    rw [height] at deep
    obtain ⟨rest, rfl⟩ := Nat.exists_eq_add_one_of_ne_zero (Nat.ne_zero_of_lt deep)
    have inner := inductionHypothesis affirmed (show 3 * body.height < rest by omega)
    simp [withoutImplications, moveNegations, settle, inner]

/-- One call more is enough for any sentence: the one that is made again when a negated implication
has been written out. -/
theorem moveNegations_eq (s : Sentence) (affirmed : Bool) {depth : Nat}
    (deep : 3 * s.height + 1 < depth) :
    s.moveNegations depth affirmed = some (s.settle false affirmed) := by
  induction s generalizing affirmed depth with
  | atom a =>
    obtain ⟨rest, rfl⟩ := Nat.exists_eq_add_one_of_ne_zero (Nat.ne_zero_of_lt deep)
    rfl
  | negation body inductionHypothesis =>
    rw [height] at deep
    obtain ⟨rest, rfl⟩ := Nat.exists_eq_add_one_of_ne_zero (Nat.ne_zero_of_lt deep)
    exact inductionHypothesis (!affirmed) (by omega)
  | connected connective left right leftHypothesis rightHypothesis =>
    have writtenOut := (connected connective left right).moveNegations_withoutImplications false
      (show _ < depth - 1 by omega)
    rw [height] at deep
    obtain ⟨rest, rfl⟩ := Nat.exists_eq_add_one_of_ne_zero (Nat.ne_zero_of_lt deep)
    have first := fun affirmed =>
      leftHypothesis affirmed (show 3 * left.height + 1 < rest by omega)
    have second := fun affirmed =>
      rightHypothesis affirmed (show 3 * right.height + 1 < rest by omega)
    cases affirmed with
    | true => cases connective <;> simp [moveNegations, settle, first, second]
    | false =>
      cases connective with
      | conjunction => simp [moveNegations, settle, first, second]
      | disjunction => simp [moveNegations, settle, first, second]
      | implication => exact writtenOut
      | biconditional => exact writtenOut
  | quantified quantifier bound body inductionHypothesis =>
    rw [height] at deep
    obtain ⟨rest, rfl⟩ := Nat.exists_eq_add_one_of_ne_zero (Nat.ne_zero_of_lt deep)
    have inner := inductionHypothesis affirmed (show 3 * body.height + 1 < rest by omega)
    simp [moveNegations, settle, inner]

/-! ### What the result says -/

/-- **Negation normal form.** For every sentence the calls that move its negations inward come to an
end, at a depth that grows with the height of the sentence only, and their result is
`negationsInward`. That says what the sentence says, whether or not its implications were written
out before; and if they were, there are no implications and biconditionals in it and its negations
stand at atoms. -/
theorem negationsInward_isNormalForm (s : Sentence) :
    (∀ depth > 3 * s.height + 1, s.moveNegations depth true = some s.negationsInward) ∧
    (∀ depth > 3 * s.withoutImplications.height + 1,
      s.withoutImplications.moveNegations depth true = some s.withoutImplications.negationsInward) ∧
    s.withoutImplications.negationsInward.IsNegationNormal ∧
    ∀ {Universe : Type u} (meaning : Interpretation Universe) (values : Assignment Universe),
      (s.withoutImplications.negationsInward.holdsIn meaning values ↔ s.holdsIn meaning values) ∧
      (s.negationsInward.holdsIn meaning values ↔ s.holdsIn meaning values) := by
  have settled : ∀ (s : Sentence) {Universe : Type u} (meaning : Interpretation Universe)
      (values : Assignment Universe),
      s.negationsInward.holdsIn meaning values ↔ s.holdsIn meaning values := fun s _ _ _ =>
    (s.holdsIn_settle false true).trans (by rw [eq_self_iff_true, iff_true])
  refine ⟨fun depth => s.moveNegations_eq true, fun depth => moveNegations_eq _ true,
    s.isNegationNormal_settle false true, fun meaning values => ⟨?_, settled s meaning values⟩⟩
  exact (settled _ meaning values).trans s.holdsIn_withoutImplications

end Sentence

end ClausalReasoner

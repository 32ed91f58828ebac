/-
This file says what the way back from fresh variables comes to. A sentence is given fresh variables by
one simultaneous substitution, which reaches the quantifier lists as well, whether or not the
variables in them occur below and whether or not a list repeats them or is shadowed by another one.
The new variables may well be among those of the sentence. All the same the substitution is a
replacement of different variables by different ones, and so is the reverse one. Two such
replacements in turn are one, which leaves every variable of the sentence as it was. Only what
substituting does to a quantifier without variables, which is to drop it, is not undone.
-/

import ClausalReasoner.Proofs.CaptureFreeRenaming
import ClausalReasoner.Proofs.FreshVariables

namespace ClausalReasoner

/-! ### Replacing every variable by itself -/

namespace Sentence

/-- A sentence without its quantifiers over no variable. -/
def withoutEmptyQuantifiers : Sentence → Sentence
  | .atom a => .atom a
  | .negation body => .negation body.withoutEmptyQuantifiers
  | .connected connective left right =>
    .connected connective left.withoutEmptyQuantifiers right.withoutEmptyQuantifiers
  | .quantified quantifier bound body => .quantify quantifier bound body.withoutEmptyQuantifiers

/-- A replacement that leaves the variables of a sentence alone drops the empty quantifiers. -/
theorem relabel_of_fixed {change : Variable → Variable} {s : Sentence}
    (within : s.Inside fun v => change v = v) : s.relabel change = s.withoutEmptyQuantifiers := by
  induction s with
  | atom a =>
    have same : (a.replace fun v => .var (change v)) = a :=
      Atom.replace_eq_self fun v occurs => congrArg Term.var (within.1 v occurs)
    rw [relabel, withoutEmptyQuantifiers, same]
  | negation body inductionHypothesis => exact congrArg _ (inductionHypothesis within)
  | connected connective left right leftHypothesis rightHypothesis =>
    rw [relabel, withoutEmptyQuantifiers, leftHypothesis within.connected.1,
      rightHypothesis within.connected.2]
  | quantified quantifier bound body inductionHypothesis =>
    have listed : bound.map change = bound :=
      (List.map_congr_left within.quantified.1).trans (List.map_id bound)
    rw [relabel, withoutEmptyQuantifiers, inductionHypothesis within.quantified.2, listed]

end Sentence

/-! ### The way back -/

/-- The reverse of a renaming is a replacement of variables too, and it undoes the renaming. -/
theorem RenamesVariables.exists_back {forward : Substitution} {vs : List Variable}
    {rename : Variable → Variable} (renames : RenamesVariables forward vs rename) :
    ∃ back : Variable → Variable,
      (∀ v, forward.inverse.value v = .var (back v)) ∧ ∀ v ∈ vs, back (rename v) = v := by
  have isVariable : ∀ v, ∃ w, forward.inverse.value v = .var w := by
    intro v
    cases bound : forward.inverse.get? v with
    | none => exact ⟨v, Substitution.value_of_get?_none bound⟩
    | some t =>
      obtain ⟨w, _, _, rfl⟩ := renames.origin v t bound
      exact ⟨w, Substitution.value_of_get?_some bound⟩
  choose back isBack using isVariable
  refine ⟨back, isBack, fun v member => Term.var.inj ?_⟩
  rw [← isBack, Substitution.value_of_get?_some (renames.reverse v member)]

/-- Renaming a sentence and renaming it back drops the quantifiers over no variable and does nothing
else. -/
theorem RenamesVariables.substitute_inverse {s : Sentence} {forward : Substitution}
    {rename : Variable → Variable} (renames : RenamesVariables forward s.allVariables rename) :
    (s.substitute forward).substitute forward.inverse = s.withoutEmptyQuantifiers := by
  obtain ⟨back, isBack, undone⟩ := renames.exists_back
  calc (s.substitute forward).substitute forward.inverse
      = (s.relabel rename).relabel back := by
        rw [Sentence.substitute_eq_relabel renames.value, Sentence.substitute_eq_relabel isBack]
    _ = s.relabel fun v => back (rename v) := Sentence.relabel_relabel rename back s
    _ = s.withoutEmptyQuantifiers := Sentence.relabel_of_fixed
        ⟨fun v occurs => undone v (s.inside_allVariables.1 v occurs),
          fun v bound => undone v (s.inside_allVariables.2 v bound)⟩

namespace Sentence

/-- Standardizing apart is reversible. For every sentence and every supply, the reverse substitution
takes the sentence with fresh variables back to the sentence, but for quantifiers over no variable.
If the indices in the sentence are below those that the supply still holds, the sentence with fresh
variables has no variable of the sentence, free or bound. -/
theorem standardizeApart_reversible (s : Sentence) (supply : Supply) :
    (s.standardizeApart supply).1.standardized.substitute (s.standardizeApart supply).1.reverse =
      s.withoutEmptyQuantifiers ∧
    ((∀ v ∈ s.allVariables, ∀ index, v.index = some index → index < supply.next) →
      ∀ v ∈ (s.standardizeApart supply).1.standardized.allVariables, v ∉ s.allVariables) := by
  have distinct : s.allVariables.Nodup := nodup_firstOccurrences _
  obtain ⟨rename, renames⟩ := supply.exists_renamesVariables distinct
  refine ⟨renames.substitute_inverse, fun older v renamed member => ?_⟩
  obtain ⟨w, listed, rfl⟩ := exists_of_mem_renamed renames s.inside_allVariables
    (mem_firstOccurrences.1 renamed)
  obtain ⟨index, indexed, above, _⟩ := Clause.index_of_renamesVariables renames listed
  exact Nat.not_lt.2 above (older _ member index indexed)

/-- `∀x,x (P(x, x0) ∧ ∃ (∃x,u Q(x)))`, where `x0` is the variable `x` with the index 0 and the first
of the existential quantifiers has no variables. -/
def shadowed : Sentence :=
  let x : Variable := ⟨"x", none⟩
  .quantified .universal [x, x] (.and (.atom (.predicate "P" [.var x, .var ⟨"x", some 0⟩]))
    (.quantified .existential []
      (.quantified .existential [x, ⟨"u", none⟩] (.atom (.predicate "Q" [.var x])))))

-- A supply that starts anew makes `x` the variable `x0` of the sentence, and that one `x1`.
example :
    (shadowed.standardizeApart ⟨0⟩).1.standardized.allVariables =
      [⟨"x", some 0⟩, ⟨"x", some 1⟩, ⟨"u", some 2⟩] := by
  decide +kernel

end Sentence

end ClausalReasoner

/-
This file shows that renaming bound variables captures none. The renaming may substitute below every
quantifier that it changes and go on with the outcome, so a binder further in is replaced along with
what it binds and may be replaced once more; or it may carry along, in one pass over the sentence,
what the quantifiers further out made of the variables. Both are the same function, because a
replacement of variables by variables reaches the quantifier lists like everything else, and two of
them, one after the other, are one.

Of the single pass it is known that what a sentence says and its free variables are kept, and that
the binders of the result are distinct.
-/

import ClausalReasoner.ClausalForm.Reapplied
import ClausalReasoner.Proofs.DistinctBinders

namespace ClausalReasoner

universe u

/-! ### Quantifier lists -/

theorem Substitution.value_insert (σ : Substitution) (v : Variable) (t : Term) (u : Variable) :
    (σ.insert v t).value u = if u = v then t else σ.value u := by
  rw [value, get?_insert]
  by_cases same : u = v
  · rw [if_pos same.symm, if_pos same, Option.getD_some]
  · rw [if_neg fun back => same back.symm, if_neg same, value]

namespace BinderNames

/-- Going through a quantifier list with a substitution of variables leads to the binders and names
that going through it with the replacement of variables leads to, and to a substitution that is the
replacement again. -/
theorem rebind_eq (names : BinderNames) (vs : List Variable) {σ : Substitution}
    {change : Variable → Variable} (same : ∀ u, σ.value u = .var (change u)) :
    (names.rebind vs σ).1 = (names.bindAll vs change).1 ∧
    (∀ u, (names.rebind vs σ).2.1.value u = .var ((names.bindAll vs change).2.1 u)) ∧
    (names.rebind vs σ).2.2 = (names.bindAll vs change).2.2 := by
  induction vs generalizing names σ change with
  | nil => exact ⟨rfl, same, rfl⟩
  | cons v vs inductionHypothesis =>
    rw [rebind, bindAll]
    split
    · have extended : ∀ u, (σ.insert v (.var names.fresh.1)).value u =
          .var (if u = v then names.fresh.1 else change u) := by
        intro u
        rw [Substitution.value_insert, same, apply_ite Term.var]
      obtain ⟨binders, replaced, last⟩ := inductionHypothesis _ extended
      exact ⟨congrArg _ binders, replaced, last⟩
    · obtain ⟨binders, replaced, last⟩ := inductionHypothesis _ same
      exact ⟨congrArg _ binders, replaced, last⟩

theorem bindAll_cons_ne_nil (names : BinderNames) (v : Variable) (vs : List Variable)
    (change : Variable → Variable) : (names.bindAll (v :: vs) change).1 ≠ [] := by
  rw [bindAll]
  split <;> exact List.cons_ne_nil _ _

end BinderNames

namespace Sentence

/-! ### Replacing variables by variables -/

/-- Replace all variables of a sentence by variables, those of the quantifier lists included. An
empty quantifier is dropped. -/
def relabel (change : Variable → Variable) : Sentence → Sentence
  | .atom a => .atom (a.replace fun v => .var (change v))
  | .negation body => .negation (body.relabel change)
  | .connected connective left right =>
    .connected connective (left.relabel change) (right.relabel change)
  | .quantified quantifier bound body =>
    .quantify quantifier (bound.map change) (body.relabel change)

theorem substitute_eq_relabel {σ : Substitution} {change : Variable → Variable}
    (same : ∀ v, σ.value v = .var (change v)) (s : Sentence) :
    s.substitute σ = s.relabel change := by
  induction s with
  | atom a => exact congrArg (fun value => Sentence.atom (a.replace value)) (funext same)
  | negation body inductionHypothesis => exact congrArg _ inductionHypothesis
  | connected connective left right leftHypothesis rightHypothesis =>
    rw [substitute, relabel, leftHypothesis, rightHypothesis]
  | quantified quantifier bound body inductionHypothesis =>
    rw [substitute, relabel, inductionHypothesis, replaceBinders_eq_map fun v _ => same v]

theorem relabel_quantify (change : Variable → Variable) (quantifier : Quantifier)
    (bound : List Variable) (body : Sentence) : (quantify quantifier bound body).relabel change =
      quantify quantifier (bound.map change) (body.relabel change) := by
  cases bound <;> rfl

theorem relabel_relabel (first second : Variable → Variable) (s : Sentence) :
    (s.relabel first).relabel second = s.relabel fun v => second (first v) := by
  induction s with
  | atom a => exact congrArg Sentence.atom (a.replace_replace _ _)
  | negation body inductionHypothesis => exact congrArg _ inductionHypothesis
  | connected connective left right leftHypothesis rightHypothesis =>
    rw [relabel, relabel, relabel, leftHypothesis, rightHypothesis]
  | quantified quantifier bound body inductionHypothesis =>
    rw [relabel, relabel_quantify, relabel, inductionHypothesis, List.map_map]
    rfl

theorem quantify_of_ne_nil {bound : List Variable} (some : bound ≠ []) (quantifier : Quantifier)
    (body : Sentence) : quantify quantifier bound body = .quantified quantifier bound body := by
  cases bound with
  | nil => exact absurd rfl some
  | cons v vs => rfl

/-! ### Going on with the outcome, and carrying it along -/

theorem renameAgain_connected (connective : Connective) (left right : Sentence)
    (names : BinderNames) :
    (connected connective left right).renameAgain names =
      let first := left.renameAgain names
      let second := right.renameAgain first.2
      (.connected connective first.1 second.1, second.2) := by
  rw [renameAgain]

/-- What is substituted below a quantifier is a replacement of variables. -/
theorem renameAgain_quantified (quantifier : Quantifier) (bound : List Variable) (body : Sentence)
    (names : BinderNames) :
    (quantified quantifier bound body).renameAgain names =
      let binding := names.bindAll bound id
      let inner := (body.relabel binding.2.1).renameAgain binding.2.2
      (.quantified quantifier binding.1 inner.1, inner.2) := by
  have unchanged : ∀ v, (∅ : Substitution).value v = .var (id v) := fun _ => rfl
  obtain ⟨binders, replaced, last⟩ := names.rebind_eq bound unchanged
  rw [renameAgain]
  simp only [binders, last, substitute_eq_relabel replaced]

/-- Going on with a sentence whose variables were replaced is carrying the replacement along. -/
theorem renameAgain_relabel (s : Sentence) (change : Variable → Variable) (names : BinderNames) :
    (s.relabel change).renameAgain names = s.renameBinders true change names := by
  induction s generalizing change names with
  | atom a => rw [relabel, renameAgain, renameBinders]
  | negation body inductionHypothesis =>
    rw [relabel, renameAgain, inductionHypothesis, renameBinders]
  | connected connective left right leftHypothesis rightHypothesis =>
    simp only [relabel, renameAgain_connected, leftHypothesis, rightHypothesis, renameBinders]
  | quantified quantifier bound body inductionHypothesis =>
    cases bound with
    | nil => exact inductionHypothesis change names
    | cons v vs =>
      have listed := names.bindAll_cons_ne_nil (change v) (vs.map change) id
      rw [relabel, List.map_cons, quantify_of_ne_nil (List.cons_ne_nil _ _)]
      simp only [renameAgain_quantified, relabel_relabel, inductionHypothesis, renameBinders,
        List.map_cons, if_true, quantify_of_ne_nil listed]

/-- At the outset nothing has been replaced, and an empty quantifier stays. -/
theorem renameAgain_eq (s : Sentence) (names : BinderNames) :
    s.renameAgain names = s.renameBinders false id names := by
  induction s generalizing names with
  | atom a =>
    have same : a = a.replace fun v => .var (id v) := a.replace_var.symm
    rw [renameAgain, renameBinders, ← same]
  | negation body inductionHypothesis => rw [renameAgain, inductionHypothesis, renameBinders]
  | connected connective left right leftHypothesis rightHypothesis =>
    simp only [renameAgain_connected, leftHypothesis, rightHypothesis, renameBinders]
  | quantified quantifier bound body =>
    rw [renameAgain_quantified, renameBinders_quantified, List.map_id]
    simp only [renameAgain_relabel]
    rfl

/-- **Renaming bound variables captures none.** For every sentence the renaming by substitution
below the quantifiers is `distinctBinders`. What comes out says under every assignment what the
sentence says, has the same free variables, and binds no variable at two places. -/
theorem distinctBinders_captureFree (s : Sentence) :
    (s.renameAgain { taken := s.variableNames }).1 = s.distinctBinders ∧
    (∀ {Universe : Type u} (meaning : Interpretation Universe) (values : Assignment Universe),
      s.distinctBinders.holdsIn meaning values ↔ s.holdsIn meaning values) ∧
    (∀ v, v ∈ s.distinctBinders.freeVars ↔ v ∈ s.freeVars) ∧
    s.distinctBinders.binders.Nodup :=
  ⟨congrArg Prod.fst (s.renameAgain_eq _), fun _ values => s.holdsIn_distinctBinders values,
    fun _ => mem_freeVars_distinctBinders, s.nodup_binders_distinctBinders⟩

-- Of a variable that is listed twice the second one counts, and it is renamed again further in. The
-- first new name is passed over because a free variable has it.
example :
    let x : Variable := ⟨"x", none⟩
    let about (v : Variable) : Sentence := .atom (.predicate "P" [.var v, .var ⟨"q0", none⟩])
    (quantified .universal [x, x]
        (.and (about x) (.quantified .existential [x] (about x)))).distinctBinders =
      .quantified .universal [x, ⟨"q1", none⟩] (.and (about ⟨"q1", none⟩)
        (.quantified .existential [⟨"q2", none⟩] (about ⟨"q2", none⟩))) := by
  decide +kernel

end Sentence

end ClausalReasoner

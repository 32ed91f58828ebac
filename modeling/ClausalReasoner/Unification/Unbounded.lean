/-
This file unifies with loops that nothing bounds beforehand. The occurs check takes the terms that
are still to be searched from a stack and follows the bindings of the variables that it meets, of
each variable once. It ends because only so many variables are bound, and because the stack gets
lighter as long as no further one is met. Cascading goes on until a round changes nothing, and the
search goes on wherever the bindings lead. How long these two take is not apparent, so they are given
a number of rounds and a depth, and an attempt that exceeds one of them is unfinished.
-/

import ClausalReasoner.Unification

namespace ClausalReasoner

namespace Substitution

/-! ### The occurs check -/

/-- The bound variables that a search has not met. -/
def unmet (θ : Substitution) (met : List Variable) : List Variable :=
  θ.domain.filter fun v => !met.contains v

/-- To meet a variable takes it from those that were not met. -/
theorem unmet_cons (θ : Substitution) (w : Variable) (met : List Variable) :
    θ.unmet (w :: met) = (θ.unmet met).filter (· ≠ w) := by
  unfold unmet
  rw [List.filter_filter]
  refine List.filter_congr fun v _ => ?_
  by_cases same : v = w <;> simp [same]

theorem length_unmet_le (θ : Substitution) (w : Variable) (met : List Variable) :
    (θ.unmet (w :: met)).length ≤ (θ.unmet met).length := by
  rw [unmet_cons]
  exact List.length_filter_le _ _

theorem length_unmet_lt {θ : Substitution} {w : Variable} {t : Term} {met : List Variable}
    (bound : θ.get? w = some t) (new : ¬ met.contains w) :
    (θ.unmet (w :: met)).length < (θ.unmet met).length := by
  have isBound : w ∈ θ.domain := List.mem_map_of_mem (mem_of_lookup bound)
  rw [unmet_cons, List.length_filter_lt_length_iff_exists]
  exact ⟨w, List.mem_filter.2 ⟨isBound, by simpa using new⟩, by simp⟩

/-- Whether a variable stands in one of the terms of a stack or in what their variables are bound
to, however many bindings lead there. The bindings of variables that were met before are passed
over. -/
def searchStack (θ : Substitution) (v : Variable) : List Term → List Variable → Bool
  | [], _ => false
  | .constant _ :: rest, met => θ.searchStack v rest met
  | .var w :: rest, met =>
    if w = v then true
    else if met.contains w then θ.searchStack v rest met
    else
      match _bound : θ.get? w with
      | none => θ.searchStack v rest (w :: met)
      | some t => θ.searchStack v (t :: rest) (w :: met)
  | .app _ ts :: rest, met => θ.searchStack v (List.reverseAux ts rest) met
termination_by stack met => ((θ.unmet met).length, Term.weightList stack)
decreasing_by
  · exact Prod.Lex.right _ (by simp [Term.weightList, Term.weight])
  · exact Prod.Lex.right _ (by simp [Term.weightList, Term.weight])
  · exact Prod.Lex.right' _ (θ.length_unmet_le w met) (by simp [Term.weightList, Term.weight])
  · exact Prod.Lex.left _ _ (length_unmet_lt ‹_› ‹_›)
  · exact Prod.Lex.right _ (by simp [Term.weightList, Term.weight, List.reverseAux_eq])

/-! ### Cascading -/

/-- Apply a substitution to its own range until a round changes nothing. Nothing comes out when that
takes more than the given number of rounds. -/
def cascadeToRest : (rounds : Nat) → Substitution → Option Substitution
  | 0, _ => none
  | rounds + 1, σ => if σ.cascadeRound = σ then some σ else cascadeToRest rounds σ.cascadeRound

end Substitution

namespace Unification

/-! ### The search -/

/-- What an attempt ends in when it ends: a unifier, if there is one. -/
def ofOption : Option Substitution → Unification
  | none => .impossible
  | some θ => .unifier θ

/-- Bind a variable to a term, unless the variable occurs in it, and cascade. -/
def closeToRest (rounds : Nat) (v : Variable) (t : Term) (θ : Substitution) : Unification :=
  if θ.searchStack v [t] [] then .impossible
  else
    match (θ.insert v t).cascadeToRest rounds with
    | none => .unfinished
    | some extended => .unifier extended

/-- Unify a variable with a term. A bound variable, on either side, is replaced by its term and the
search goes on with `step`. -/
def variableToRest (rounds : Nat) (step : Term → Term → Substitution → Unification) (v : Variable)
    (t : Term) (θ : Substitution) : Unification :=
  match θ.get? v with
  | some bound => step bound t θ
  | none =>
    match t.asVariable? with
    | none => closeToRest rounds v t θ
    | some w =>
      match θ.get? w with
      | some bound => step (.var v) bound θ
      | none => closeToRest rounds v t θ

/-- Unify two terms. The calls may nest `depth` times, through what variables are bound to as well,
and each cascade may take so many rounds. -/
def termsToRest (rounds : Nat) : (depth : Nat) → Term → Term → Substitution → Unification
  | 0, _, _, _ => .unfinished
  | depth + 1, t, u, θ =>
    if t = u then .unifier θ
    else
      match t, u with
      | .var v, _ => variableToRest rounds (termsToRest rounds depth) v u θ
      | _, .var v => variableToRest rounds (termsToRest rounds depth) v t θ
      | .app f ts, .app g us =>
        if f = g then sameLength (termsToRest rounds depth) ts us θ else .impossible
      | _, _ => .impossible

/-- Unify two lists of terms from the left. -/
def listsToRest (rounds depth : Nat) (ts us : List Term) (θ : Substitution) : Unification :=
  sameLength (termsToRest rounds depth) ts us θ

/-- Unify two atoms that are built by the same symbol. -/
def atomsToRest (rounds depth : Nat) (a b : Atom) (θ : Substitution) : Unification :=
  if a.sameSymbol b then listsToRest rounds depth a.arguments b.arguments θ else .impossible

end Unification

end ClausalReasoner

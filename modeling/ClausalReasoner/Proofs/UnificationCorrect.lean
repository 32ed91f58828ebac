/-
This file says what unification finds. An attempt that starts from a solved substitution and ends
with a unifier ends with a solved substitution that the replacements respect which respected the
first one and satisfy the equation, and no others. That makes it a unifier, since a solved
substitution respects itself, and a most general one. An attempt that ends in failure leaves no
replacement that respects the start and satisfies the equation. Nothing is said of an attempt that
meets the bound on its depth.

A second invariant of the attempts is that the unifier is built from the variables and symbols of
what was unified.
-/

import ClausalReasoner.Proofs.SolvedForm
import ClausalReasoner.Proofs.Symbols

namespace ClausalReasoner

namespace Unification

/-- The outcome of an attempt settles an equation between replacements on top of a substitution. -/
def Settles (θ : Substitution) (equation : (Variable → Term) → Prop) : Unification → Prop
  | .unfinished => True
  | .impossible => ∀ value, Substitution.Respects value θ → ¬ equation value
  | .unifier extended => extended.IsSolved ∧ ∀ value,
      Substitution.Respects value extended ↔ Substitution.Respects value θ ∧ equation value

/-- Only the replacements that respect the substitution matter. -/
theorem Settles.congr {θ : Substitution} {first second : (Variable → Term) → Prop}
    {outcome : Unification} (settles : outcome.Settles θ first)
    (same : ∀ value, Substitution.Respects value θ → (first value ↔ second value)) :
    outcome.Settles θ second := by
  cases outcome with
  | unfinished => trivial
  | impossible =>
    exact fun value respects holds => settles value respects ((same value respects).2 holds)
  | unifier extended =>
    exact ⟨settles.1, fun value => (settles.2 value).trans (and_congr_right (same value))⟩

variable {step : Term → Term → Substitution → Unification}

/-- Lists of one length are settled when the step settles every pair of terms. -/
theorem settles_lists
    (settled : ∀ t u θ, θ.IsSolved →
      (step t u θ).Settles θ fun value => t.replace value = u.replace value) :
    ∀ (ts us : List Term) (θ : Substitution), θ.IsSolved → ts.length = us.length →
      (lists step ts us θ).Settles θ fun value =>
        Term.replaceList value ts = Term.replaceList value us
  | [], [], θ, solved, _ => ⟨solved, fun _ => (and_iff_left rfl).symm⟩
  | t :: ts, u :: us, θ, solved, sameLength => by
    have first := settled t u θ solved
    rw [lists]
    cases outcome : step t u θ with
    | unfinished => trivial
    | impossible =>
      rw [outcome] at first
      intro value respects equal
      exact first value respects (List.cons.inj equal).1
    | unifier extended =>
      rw [outcome] at first
      have rest := settles_lists settled ts us extended first.1 (Nat.succ.inj sameLength)
      simp only
      cases later : lists step ts us extended with
      | unfinished => trivial
      | impossible =>
        rw [later] at rest
        intro value respects equal
        obtain ⟨heads, tails⟩ := List.cons.inj equal
        exact rest value ((first.2 value).2 ⟨respects, heads⟩) tails
      | unifier last =>
        rw [later] at rest
        refine ⟨rest.1, fun value => ?_⟩
        rw [rest.2, first.2, and_assoc]
        simp only [Term.replaceList, List.cons.injEq]
  | [], _ :: _, _, _, sameLength => by simp at sameLength
  | _ :: _, [], _, _, sameLength => by simp at sameLength

theorem settles_sameLength
    (settled : ∀ t u θ, θ.IsSolved →
      (step t u θ).Settles θ fun value => t.replace value = u.replace value)
    (ts us : List Term) (θ : Substitution) (solved : θ.IsSolved) :
    (sameLength step ts us θ).Settles θ fun value =>
      Term.replaceList value ts = Term.replaceList value us := by
  rw [sameLength]
  split
  · next same => exact settles_lists settled ts us θ solved same
  · next different =>
    intro value _ equal
    apply different
    rw [← Term.length_replaceList value ts, equal, Term.length_replaceList]

/-- No replacement makes a variable equal to an application in which it stands. -/
theorem replace_ne_of_mem {v : Variable} {t : Term} (occurs : v ∈ t.occurrences)
    (different : t ≠ .var v) (value : Variable → Term) : value v ≠ t.replace value := fun equal =>
  absurd (Term.weight_lt_weight_replace occurs different)
    (Nat.not_lt.2 (Nat.le_of_eq (congrArg Term.weight equal.symm)))

/-- Binding a free variable, or finding that it occurs, settles its equation with a term that is
neither the variable itself nor a bound one. -/
theorem settles_close {v : Variable} {t : Term} {θ : Substitution} (solved : θ.IsSolved)
    (free : θ.get? v = none) (different : t ≠ .var v)
    (unbound : ∀ w, t = .var w → θ.get? w = none) :
    (close v t θ).Settles θ fun value => value v = t.replace value := by
  rw [close]
  cases found : θ.occursIn v t with
  | true =>
    rw [if_pos rfl]
    intro value respects
    show value v ≠ t.replace value
    rw [← respects.replace_substitute]
    refine replace_ne_of_mem (Substitution.mem_of_occursIn solved free found) ?_ value
    cases t with
    | constant name => exact fun same => Term.noConfusion same
    | var w =>
      rw [Term.substitute, Term.replace, Substitution.value_of_get?_none (unbound w rfl)]
      exact different
    | app function ts => exact fun same => Term.noConfusion same
  | false =>
    rw [if_neg Bool.false_ne_true]
    obtain ⟨absent, apart⟩ := Substitution.notMem_of_not_occursIn found
    exact ⟨solved.bind absent apart, fun value =>
      Substitution.respects_bind_iff solved free absent apart⟩

theorem settles_variableWith
    (settled : ∀ t u θ, θ.IsSolved →
      (step t u θ).Settles θ fun value => t.replace value = u.replace value)
    {v : Variable} {t : Term} {θ : Substitution} (solved : θ.IsSolved) (different : t ≠ .var v) :
    (variableWith step v t θ).Settles θ fun value => value v = t.replace value := by
  rw [variableWith]
  cases bound : θ.get? v with
  | some u =>
    refine (settled u t θ solved).congr fun value respects => ?_
    rw [respects.replace_get? bound]
  | none =>
    cases t with
    | constant name => exact settles_close solved bound different fun w same => Term.noConfusion same
    | app function ts =>
      exact settles_close solved bound different fun w same => Term.noConfusion same
    | var w =>
      simp only [Term.asVariable?]
      cases other : θ.get? w with
      | some u =>
        refine (settled (.var v) u θ solved).congr fun value respects => ?_
        rw [respects.replace_get? other]
        rfl
      | none =>
        refine settles_close solved bound different fun u same => ?_
        rw [← Term.var.inj same]
        exact other

/-- Every attempt that starts from a solved substitution settles its equation. -/
theorem settles_terms (depth : Nat) : ∀ t u θ, θ.IsSolved →
    (terms depth t u θ).Settles θ fun value => t.replace value = u.replace value := by
  induction depth with
  | zero => exact fun t u θ solved => trivial
  | succ depth settled =>
    intro t u θ solved
    unfold terms
    split
    · next same => exact ⟨solved, fun value => (and_iff_left (by rw [same])).symm⟩
    · next different =>
      split
      · next v => exact settles_variableWith settled solved (Ne.symm different)
      · next v _ =>
        refine (settles_variableWith settled solved different).congr fun value _ => ?_
        exact eq_comm
      · next f ts g us =>
        split
        · next same =>
          refine (settles_sameLength settled ts us θ solved).congr fun value _ => ?_
          simp only [Term.replace, same, Term.app.injEq, true_and]
        · next clash =>
          intro value _ equal
          exact clash (Term.app.inj equal).1
      · next leftNoVariable rightNoVariable noApplications =>
        intro value _ equal
        cases t with
        | var v => exact leftNoVariable v rfl
        | constant name =>
          cases u with
          | var v => exact rightNoVariable v rfl
          | constant other => exact different equal
          | app function ts => exact Term.noConfusion equal
        | app function ts =>
          cases u with
          | var v => exact rightNoVariable v rfl
          | constant other => exact Term.noConfusion equal
          | app other us => exact noApplications _ _ _ _ rfl rfl

/-! ### What unifiers are built from -/

variable {allowed : Variable → Prop} {known : Symbol → Prop}

/-- The unifier, if the attempt found one, is built from given variables and symbols. -/
def BuiltFrom (allowed : Variable → Prop) (known : Symbol → Prop) : Unification → Prop
  | .unifier θ => θ.BuiltFrom allowed known
  | _ => True

theorem builtFrom_lists
    (built : ∀ t u θ, t.BuiltFrom allowed known → u.BuiltFrom allowed known →
      θ.BuiltFrom allowed known → (step t u θ).BuiltFrom allowed known) :
    ∀ (ts us : List Term) (θ : Substitution), (∀ t ∈ ts, t.BuiltFrom allowed known) →
      (∀ u ∈ us, u.BuiltFrom allowed known) → θ.BuiltFrom allowed known →
        (lists step ts us θ).BuiltFrom allowed known
  | [], [], _, _, _, start => start
  | t :: ts, u :: us, θ, lefts, rights, start => by
    have first := built t u θ (lefts t List.mem_cons_self) (rights u List.mem_cons_self) start
    rw [lists]
    cases outcome : step t u θ with
    | unfinished => trivial
    | impossible => trivial
    | unifier extended =>
      rw [outcome] at first
      exact builtFrom_lists built ts us extended
        (fun t member => lefts t (List.mem_cons_of_mem _ member))
        (fun u member => rights u (List.mem_cons_of_mem _ member)) first
  | [], _ :: _, _, _, _, _ => trivial
  | _ :: _, [], _, _, _, _ => trivial

theorem builtFrom_sameLength
    (built : ∀ t u θ, t.BuiltFrom allowed known → u.BuiltFrom allowed known →
      θ.BuiltFrom allowed known → (step t u θ).BuiltFrom allowed known)
    (ts us : List Term) (θ : Substitution) (lefts : ∀ t ∈ ts, t.BuiltFrom allowed known)
    (rights : ∀ u ∈ us, u.BuiltFrom allowed known)
    (start : θ.BuiltFrom allowed known) :
    (sameLength step ts us θ).BuiltFrom allowed known := by
  rw [sameLength]
  split
  · exact builtFrom_lists built ts us θ lefts rights start
  · trivial

theorem builtFrom_close {v : Variable} {t : Term} {θ : Substitution} (inside : allowed v)
    (term : t.BuiltFrom allowed known) (start : θ.BuiltFrom allowed known) :
    (close v t θ).BuiltFrom allowed known := by
  rw [close]
  split
  · trivial
  · exact start.bind inside term

theorem builtFrom_variableWith
    (built : ∀ t u θ, t.BuiltFrom allowed known → u.BuiltFrom allowed known →
      θ.BuiltFrom allowed known → (step t u θ).BuiltFrom allowed known)
    {v : Variable} {t : Term} {θ : Substitution} (inside : allowed v)
    (term : t.BuiltFrom allowed known) (start : θ.BuiltFrom allowed known) :
    (variableWith step v t θ).BuiltFrom allowed known := by
  have bound : ∀ {w : Variable} {u : Term}, θ.get? w = some u → u.BuiltFrom allowed known :=
    fun found => (start _ (Substitution.mem_of_lookup found)).2
  rw [variableWith]
  split
  · next u found => exact built u t θ (bound found) term start
  · split
    · exact builtFrom_close inside term start
    · split
      · next u found => exact built _ u θ (.ofVariable inside) (bound found) start
      · exact builtFrom_close inside term start

/-- A unifier is built from the variables and symbols of what was unified and of the substitution
that the attempt started from. -/
theorem builtFrom_terms (depth : Nat) : ∀ t u θ, t.BuiltFrom allowed known →
    u.BuiltFrom allowed known → θ.BuiltFrom allowed known →
      (terms depth t u θ).BuiltFrom allowed known := by
  induction depth with
  | zero => exact fun t u θ _ _ _ => trivial
  | succ depth built =>
    intro t u θ left right start
    unfold terms
    split
    · exact start
    · split
      · next v _ =>
        exact builtFrom_variableWith built (left.1 v (List.mem_singleton_self v)) right start
      · next v _ _ =>
        exact builtFrom_variableWith built (right.1 v (List.mem_singleton_self v)) left start
      · split
        · exact builtFrom_sameLength built _ _ θ left.arguments right.arguments start
        · trivial
      · trivial

end Unification

/-! ### The unifiers of terms and atoms -/

namespace Unification

theorem eq_unifier_of_toOption {outcome : Unification} {θ : Substitution}
    (found : outcome.toOption = some θ) : outcome = .unifier θ := by
  cases outcome with
  | unifier other => exact congrArg _ (Option.some.inj found)
  | unfinished => exact absurd found nofun
  | impossible => exact absurd found nofun

end Unification

/-- A unifier makes the terms equal. -/
theorem Term.substitute_eq_of_unify {t u : Term} {θ : Substitution} (found : t.unify u = some θ) :
    t.substitute θ = u.substitute θ := by
  have settles := Unification.settles_terms (Unification.depthBound [t] [u] ∅) t u ∅
    Substitution.isSolved_empty
  rw [Unification.eq_unifier_of_toOption found] at settles
  exact ((settles.2 _).1 settles.1.respects).2

namespace Atom

/-- Atoms of one symbol are equal when their arguments are. -/
theorem eq_of_sameSymbol {a b : Atom} (same : a.sameSymbol b) (equal : a.arguments = b.arguments) :
    a = b := by
  cases a with
  | predicate p ts =>
    cases b with
    | predicate q us =>
      rw [sameSymbol, decide_eq_true_iff] at same
      exact congrArg₂ _ same equal
    | equality left right => exact absurd same Bool.false_ne_true
  | equality left right =>
    cases b with
    | predicate q us => exact absurd same Bool.false_ne_true
    | equality other more =>
      obtain ⟨first, rest⟩ := List.cons.inj equal
      exact congrArg₂ _ first (List.cons.inj rest).1

theorem sameSymbol_replace {a b : Atom} (value : Variable → Term) :
    (a.replace value).sameSymbol (b.replace value) = a.sameSymbol b := by
  cases a <;> cases b <;> rfl

theorem sameSymbol_of_unify {a b : Atom} {θ : Substitution} (found : a.unify b = some θ) :
    a.sameSymbol b ∧ (Unification.sameLength (Unification.terms
      (Unification.depthBound a.arguments b.arguments ∅)) a.arguments b.arguments ∅) =
        .unifier θ := by
  rw [unify, unifyWith] at found
  split at found
  · next same => exact ⟨same, Unification.eq_unifier_of_toOption found⟩
  · exact absurd found nofun

/-- A unifier makes the atoms equal. -/
theorem substitute_eq_of_unify {a b : Atom} {θ : Substitution} (found : a.unify b = some θ) :
    a.substitute θ = b.substitute θ := by
  obtain ⟨same, outcome⟩ := sameSymbol_of_unify found
  have settles := Unification.settles_sameLength (Unification.settles_terms
    (Unification.depthBound a.arguments b.arguments ∅)) a.arguments b.arguments ∅
      Substitution.isSolved_empty
  rw [outcome] at settles
  refine eq_of_sameSymbol ?_ ?_
  · rw [substitute, substitute, sameSymbol_replace]
    exact same
  · rw [substitute, substitute, arguments_replace, arguments_replace]
    exact ((settles.2 _).1 settles.1.respects).2

/-- A unifier is built from the variables and symbols of the atoms. -/
theorem builtFrom_of_unify {a b : Atom} {θ : Substitution} {allowed : Variable → Prop}
    {known : Symbol → Prop} (left : ∀ t ∈ a.arguments, t.BuiltFrom allowed known)
    (right : ∀ t ∈ b.arguments, t.BuiltFrom allowed known) (found : a.unify b = some θ) :
    θ.BuiltFrom allowed known := by
  have built := Unification.builtFrom_sameLength (Unification.builtFrom_terms
    (Unification.depthBound a.arguments b.arguments ∅)) a.arguments b.arguments ∅ left right
      Substitution.builtFrom_empty
  rwa [(sameSymbol_of_unify found).2] at built

end Atom

end ClausalReasoner

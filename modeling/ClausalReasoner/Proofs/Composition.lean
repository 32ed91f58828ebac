/-
This file says what composing substitutions comes to. Composing applies the later substitution to
what the first one gives, adds what the later one binds besides, and cascades the whole. A round of
cascading replaces variables further, whatever cycles there may be among the bindings, and so the
composed substitution gives instances of what the two give in turn. On the other side nothing is
lost: a replacement that respects both substitutions respects the composed one.

That the added bindings are those of the later substitution needs that it binds no variable twice,
which is so for every unifier, since unification only binds variables that are free.
-/

import ClausalReasoner.Proofs.QueryVariables
import ClausalReasoner.Proofs.UnificationCorrect

namespace ClausalReasoner

namespace Substitution

variable {σ θ first later : Substitution} {v : Variable}

/-! ### Refining -/

/-- What a substitution gives to the variables is what a replacement gives them, changed further in
one way for all of them. -/
def Refines (σ : Substitution) (value : Variable → Term) : Prop :=
  ∃ change : Variable → Term, ∀ v, σ.value v = (value v).replace change

theorem Refines.refl (σ : Substitution) : σ.Refines σ.value :=
  ⟨.var, fun _ => (Term.replace_var _).symm⟩

theorem Refines.trans {value : Variable → Term} (here : σ.Refines θ.value)
    (there : θ.Refines value) : σ.Refines value := by
  obtain ⟨change, changed⟩ := here
  obtain ⟨before, given⟩ := there
  refine ⟨fun v => (before v).replace change, fun v => ?_⟩
  rw [changed, given, Term.replace_replace]

/-- What refines the result of two substitutions in turn refines the first one. -/
theorem Refines.ofSubstitute
    (refines : σ.Refines fun v => (first.value v).substitute later) : σ.Refines first.value := by
  obtain ⟨change, changed⟩ := refines
  exact ⟨_, fun v => (changed v).trans (Term.replace_replace _ _ _)⟩

/-- An atom under a refined substitution is an instance of what it was. -/
theorem Refines.exists_instance {value : Variable → Term} (refines : σ.Refines value) (a : Atom) :
    ∃ change : Variable → Term, a.substitute σ = (a.replace value).replace change := by
  obtain ⟨change, changed⟩ := refines
  refine ⟨change, ?_⟩
  rw [Atom.replace_replace]
  exact Atom.replace_congr fun v _ => changed v

/-! ### Cascading -/

/-- A round of cascading applies the substitution once more. -/
theorem value_cascadeRound (σ : Substitution) (v : Variable) :
    σ.cascadeRound.value v = (σ.value v).substitute σ := by
  rw [value, cascadeRound, get?_mapRange]
  cases bound : σ.get? v with
  | none =>
    rw [value_of_get?_none bound]
    exact (value_of_get?_none bound).symm
  | some t =>
    rw [value_of_get?_some bound]
    rfl

theorem refines_cascadeWithin (rounds : Nat) (σ : Substitution) :
    (cascadeWithin rounds σ).Refines σ.value := by
  induction rounds generalizing σ with
  | zero => exact .refl σ
  | succ rounds inductionHypothesis =>
    rw [cascadeWithin]
    split
    · exact .refl σ
    · exact (inductionHypothesis σ.cascadeRound).trans ⟨σ.value, σ.value_cascadeRound⟩

theorem Respects.cascadeWithin {value : Variable → Term} (rounds : Nat)
    (respects : Respects value σ) : Respects value (cascadeWithin rounds σ) := by
  induction rounds generalizing σ with
  | zero => exact respects
  | succ rounds inductionHypothesis =>
    rw [Substitution.cascadeWithin]
    split
    · exact respects
    · refine inductionHypothesis fun v => ?_
      rw [value_cascadeRound, respects.replace_substitute]
      exact respects v

/-! ### Substitutions that bind no variable twice -/

theorem IsFunctional.mapRange (functional : σ.IsFunctional) (change : Term → Term) :
    (σ.mapRange change).IsFunctional := by
  intro v first second here there
  obtain ⟨entry, inside, same⟩ := List.mem_map.1 here
  obtain ⟨other, among, equal⟩ := List.mem_map.1 there
  obtain ⟨rfl, rfl⟩ := Prod.mk.inj same
  obtain ⟨key, rfl⟩ := Prod.mk.inj equal
  exact congrArg change (functional entry.1 entry.2 other.2 inside (key ▸ among))

theorem IsFunctional.cascadeWithin (rounds : Nat) (functional : σ.IsFunctional) :
    (cascadeWithin rounds σ).IsFunctional := by
  induction rounds generalizing σ with
  | zero => exact functional
  | succ rounds inductionHypothesis =>
    rw [Substitution.cascadeWithin]
    split
    · exact functional
    · exact inductionHypothesis (functional.mapRange _)

/-- Binding a free variable leaves every variable with one binding at most. -/
theorem IsFunctional.bind (functional : σ.IsFunctional) (free : σ.get? v = none) (t : Term) :
    (σ.bind v t).IsFunctional := by
  refine IsFunctional.cascadeWithin _ fun w first second here there => ?_
  have fresh : ∀ u, (v, u) ∉ σ.bindings := fun u inside =>
    lookup_eq_none_iff.1 free (v, u) inside rfl
  rcases mem_place here with new | old
  · obtain ⟨rfl, rfl⟩ := Prod.mk.inj new
    rcases mem_place there with again | other
    · exact (Prod.mk.inj again).2.symm
    · exact absurd other (fresh second)
  · rcases mem_place there with new | other
    · obtain ⟨rfl, rfl⟩ := Prod.mk.inj new
      exact absurd old (fresh first)
    · exact functional w first second old other

/-- The binding that is looked up from the front is the one looked up from the back. -/
theorem IsFunctional.lookup_reverse (functional : σ.IsFunctional) (v : Variable) :
    lookup v σ.bindings.reverse = σ.get? v := by
  cases bound : σ.get? v with
  | none =>
    rw [lookup_eq_none_iff]
    exact fun entry member => lookup_eq_none_iff.1 bound entry (List.mem_reverse.1 member)
  | some t =>
    cases back : lookup v σ.bindings.reverse with
    | none =>
      have member := List.mem_reverse.2 (mem_of_lookup bound)
      exact absurd rfl (lookup_eq_none_iff.1 back _ member)
    | some u =>
      have other := List.mem_reverse.1 (mem_of_lookup back)
      exact congrArg some (functional v u t other (mem_of_lookup bound))

end Substitution

/-! ### Unifiers bind no variable twice -/

namespace Unification

/-- The unifier, if the attempt found one, has a property. -/
def Yields (good : Substitution → Prop) : Unification → Prop
  | .unifier θ => good θ
  | _ => True

variable {good : Substitution → Prop} {step : Term → Term → Substitution → Unification}

theorem yields_lists (yields : ∀ t u θ, good θ → (step t u θ).Yields good) :
    ∀ (ts us : List Term) (θ : Substitution), good θ → (lists step ts us θ).Yields good
  | [], [], _, start => start
  | t :: ts, u :: us, θ, start => by
    have first := yields t u θ start
    rw [lists]
    cases outcome : step t u θ with
    | unfinished => trivial
    | impossible => trivial
    | unifier extended =>
      rw [outcome] at first
      exact yields_lists yields ts us extended first
  | [], _ :: _, _, _ => trivial
  | _ :: _, [], _, _ => trivial

theorem yields_sameLength (yields : ∀ t u θ, good θ → (step t u θ).Yields good)
    (ts us : List Term) (θ : Substitution) (start : good θ) :
    (sameLength step ts us θ).Yields good := by
  rw [sameLength]
  split
  · exact yields_lists yields ts us θ start
  · trivial

theorem yields_variableWith (binds : ∀ θ v t, good θ → θ.get? v = none → good (θ.bind v t))
    (yields : ∀ t u θ, good θ → (step t u θ).Yields good) (v : Variable) (t : Term)
    (θ : Substitution) (start : good θ) : (variableWith step v t θ).Yields good := by
  have closes : θ.get? v = none → (close v t θ).Yields good := by
    intro free
    rw [close]
    split
    · trivial
    · exact binds θ v t start free
  rw [variableWith]
  split
  · exact yields _ t θ start
  · next free =>
    split
    · exact closes free
    · split
      · exact yields (.var v) _ θ start
      · exact closes free

/-- A property that binding a free variable preserves is one of every unifier. -/
theorem yields_terms (binds : ∀ θ v t, good θ → θ.get? v = none → good (θ.bind v t))
    (depth : Nat) : ∀ t u θ, good θ → (terms depth t u θ).Yields good := by
  induction depth with
  | zero => exact fun t u θ _ => trivial
  | succ depth yields =>
    intro t u θ start
    unfold terms
    split
    · exact start
    · split
      · exact yields_variableWith binds yields _ u θ start
      · exact yields_variableWith binds yields _ t θ start
      · split
        · exact yields_sameLength yields _ _ θ start
        · trivial
      · trivial

end Unification

/-- A unifier binds no variable twice. -/
theorem Atom.isFunctional_of_unify {a b : Atom} {θ : Substitution} (found : a.unify b = some θ) :
    θ.IsFunctional := by
  have empty : (∅ : Substitution).IsFunctional :=
    fun _ _ _ absent _ => absurd absent List.not_mem_nil
  have binds : ∀ (θ : Substitution) (v : Variable) (t : Term), θ.IsFunctional → θ.get? v = none →
      (θ.bind v t).IsFunctional := fun _ _ t functional free => functional.bind free t
  have yields := Unification.yields_sameLength (Unification.yields_terms binds
    (Unification.depthBound a.arguments b.arguments ∅)) a.arguments b.arguments ∅ empty
  rwa [(sameSymbol_of_unify found).2] at yields

/-! ### Composing -/

namespace Substitution

variable {first later : Substitution}

theorem lookup_filter (keep : Variable → Bool) {v : Variable} (kept : keep v)
    (entries : List (Variable × Term)) :
    lookup v (entries.filter fun entry => keep entry.1) = lookup v entries := by
  induction entries with
  | nil => rfl
  | cons entry rest inductionHypothesis =>
    rw [List.filter_cons]
    by_cases same : entry.1 = v
    · rw [if_pos (same ▸ kept), lookup, lookup, if_pos same, if_pos same]
    · rw [lookup, if_neg same, ← inductionHypothesis]
      split
      · rw [lookup, if_neg same]
      · rfl

/-- Adjoining leaves the bindings that are there, and adds the later ones for other variables. -/
theorem get?_adjoin (functional : later.IsFunctional) (σ : Substitution) (v : Variable) :
    (σ.adjoin later).get? v = (σ.get? v).or (later.get? v) := by
  let added := later.bindings.filter fun entry => !σ.binds entry.1
  have adjoined : σ.adjoin later = added.foldl (fun σ entry => σ.insert entry.1 entry.2) σ := by
    rw [List.foldl_filter, adjoin]
    congr 1
    funext joined entry
    cases σ.binds entry.1 <;> rfl
  rw [adjoined, get?_foldl_insert]
  cases bound : σ.get? v with
  | some t =>
    have absent : lookup v added.reverse = none := by
      refine lookup_eq_none_iff.2 fun entry member same => ?_
      have free := (List.mem_filter.1 (List.mem_reverse.1 member)).2
      rw [same, binds, bound] at free
      exact absurd free Bool.false_ne_true
    rw [absent, Option.none_or, Option.some_or]
  | none =>
    have kept : (!σ.binds v) = true := by rw [binds, bound]; rfl
    have functionalAdded : IsFunctional ⟨added⟩ := fun v here there first second =>
      functional v here there (List.mem_of_mem_filter first) (List.mem_of_mem_filter second)
    rw [functionalAdded.lookup_reverse v, Option.or_none, Option.none_or]
    exact lookup_filter (fun w => !σ.binds w) kept later.bindings

/-- Before cascading, composing applies the later substitution to what the first one gives. -/
theorem value_joinedWith (functional : later.IsFunctional) (v : Variable) :
    (first.joinedWith later).value v = (first.value v).substitute later := by
  rw [value, joinedWith, get?_adjoin functional, get?_mapRange]
  cases bound : first.get? v with
  | some t =>
    rw [value_of_get?_some bound]
    rfl
  | none =>
    rw [value_of_get?_none bound]
    rfl

/-- The composed substitution gives instances of what the two substitutions give in turn. -/
theorem refines_compose (functional : later.IsFunctional) :
    (first.compose later).Refines fun v => (first.value v).substitute later := by
  obtain ⟨change, changed⟩ :=
    refines_cascadeWithin ((first.joinedWith later).size + 1) (first.joinedWith later)
  exact ⟨change, fun v => (changed v).trans
    (congrArg (Term.replace change) (value_joinedWith functional v))⟩

/-- What respects both substitutions respects the composed one. -/
theorem Respects.compose {value : Variable → Term} (respectsFirst : Respects value first)
    (respectsLater : Respects value later) (functional : later.IsFunctional) :
    Respects value (first.compose later) := by
  refine Respects.cascadeWithin _ fun v => ?_
  rw [value_joinedWith functional, respectsLater.replace_substitute]
  exact respectsFirst v

/-! ### The part of a substitution for some variables -/

theorem isFunctional_restrict (σ : Substitution) {vs : List Variable} (distinct : vs.Nodup) :
    (σ.restrict vs).IsFunctional := by
  refine isFunctional_ofList ?_
  have keys : (vs.filterMap fun v => (σ.get? v).map fun t => (v, t)).map Prod.fst =
      vs.filter σ.binds := by
    clear distinct
    induction vs with
    | nil => rfl
    | cons v vs inductionHypothesis =>
      cases bound : σ.get? v <;> simp [binds, bound, inductionHypothesis]
  rw [keys]
  exact distinct.filter _

theorem value_restrict (σ : Substitution) {vs : List Variable} {v : Variable} (member : v ∈ vs) :
    (σ.restrict vs).value v = σ.value v := by
  have entries : ∀ {w : Variable} {t : Term}, (w, t) ∈ (vs.filterMap fun v =>
      (σ.get? v).map fun t => (v, t)) → σ.get? w = some t := by
    intro w t inside
    obtain ⟨u, _, found⟩ := List.mem_filterMap.1 inside
    obtain ⟨s, bound, same⟩ := Option.map_eq_some_iff.1 found
    obtain ⟨rfl, rfl⟩ := Prod.mk.inj same
    exact bound
  cases bound : σ.get? v with
  | some t =>
    have inside : (v, t) ∈ vs.filterMap fun v => (σ.get? v).map fun t => (v, t) :=
      List.mem_filterMap.2 ⟨v, member, by rw [bound]; rfl⟩
    rw [value_of_get?_some bound]
    exact value_of_get?_some (get?_ofList_of_functional (fun w first second here there =>
      Option.some.inj ((entries here).symm.trans (entries there))) inside)
  | none =>
    rw [value_of_get?_none bound]
    refine value_of_get?_none ?_
    cases found : (σ.restrict vs).get? v with
    | none => rfl
    | some t => exact absurd (entries (mem_of_get?_ofList found)) (by simp [bound])

end Substitution

end ClausalReasoner

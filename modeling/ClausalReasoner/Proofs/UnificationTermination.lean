/-
This file shows that unification ends on top of a solved substitution, in every one of its loops.
The occurs check ends on any substitution whatever; on a solved one it finds what `occursIn` finds.
Whenever it lets a binding pass, the new variable stands neither in its term nor in the instance of
the term, so that cascading the binding comes to rest after two rounds, and the third one notices.
With these two loops out of the way the search makes the calls that the bounded search makes. That
one never meets the bound on its depth, and an attempt that ended is not changed by going deeper.
-/

import ClausalReasoner.Proofs.MostGeneralUnifiers
import ClausalReasoner.Unification.Unbounded
import Mathlib.Logic.Function.Iterate

namespace ClausalReasoner

namespace Substitution

variable {θ : Substitution} {v : Variable} {t : Term}

/-! ### The occurs check -/

/-- The terms that are put on a stack bring their variables. -/
theorem mem_occurrencesList_reverseAux {w : Variable} {ts rest : List Term} :
    w ∈ Term.occurrencesList (ts.reverseAux rest) ↔
      w ∈ Term.occurrencesList ts ∨ w ∈ Term.occurrencesList rest := by
  simp only [Term.mem_occurrencesList, List.reverseAux_eq, List.mem_append, List.mem_reverse,
    or_and_right, exists_or]

/-- The search stays within every set that the bindings do not lead out of. -/
theorem mem_of_searchStack {inside : Variable → Prop}
    (closed : ∀ u, inside u → ∀ w ∈ θ.successors u, inside w) {stack : List Term}
    {met : List Variable} (start : ∀ w ∈ Term.occurrencesList stack, inside w)
    (found : θ.searchStack v stack met = true) : inside v := by
  fun_induction searchStack θ v stack met with
  | case1 met => exact absurd found Bool.false_ne_true
  | case2 name rest met inductionHypothesis => exact inductionHypothesis start found
  | case3 rest met => exact start v List.mem_cons_self
  | case4 w rest met different old inductionHypothesis =>
    exact inductionHypothesis (fun u occurs => start u (List.mem_cons_of_mem _ occurs)) found
  | case5 w rest met different new free inductionHypothesis =>
    exact inductionHypothesis (fun u occurs => start u (List.mem_cons_of_mem _ occurs)) found
  | case6 w rest met different new t bound inductionHypothesis =>
    refine inductionHypothesis (fun u occurs => ?_) found
    rcases List.mem_append.1 occurs with here | later
    · refine closed w (start w List.mem_cons_self) u ?_
      rw [successors, bound]
      exact Term.mem_vars.2 here
    · exact start u (List.mem_cons_of_mem _ later)
  | case7 function ts rest met inductionHypothesis =>
    refine inductionHypothesis (fun u occurs => start u ?_) found
    exact List.mem_append.2 (mem_occurrencesList_reverseAux.1 occurs)

/-- What holds of a stack holds of it with a variable on top, when the variable is another one and
is met now. -/
theorem notMem_of_met {w : Variable} {rest : List Term} {met : List Variable} (different : w ≠ v)
    (here : v ∉ θ.successors w) (absent : v ∉ Term.occurrencesList rest)
    (apart : ∀ u ∈ Term.occurrencesList rest, u ∉ w :: met → v ∉ θ.successors u) :
    v ∉ Term.occurrencesList (.var w :: rest) ∧
      ∀ u ∈ Term.occurrencesList (.var w :: rest), u ∉ met → v ∉ θ.successors u := by
  refine ⟨List.not_mem_cons_of_ne_of_not_mem (Ne.symm different) absent,
    List.forall_mem_cons.2 ⟨fun _ => here, fun u occurs unmet => ?_⟩⟩
  by_cases same : u = w
  · exact same ▸ here
  · exact apart u occurs (List.not_mem_cons_of_ne_of_not_mem same unmet)

/-- A variable that the search does not find stands neither on the stack nor in what a variable of
the stack is bound to, unless that one was met before. -/
theorem notMem_of_not_searchStack {stack : List Term} {met : List Variable}
    (clear : θ.searchStack v stack met = false) :
    v ∉ Term.occurrencesList stack ∧ ∀ w ∈ Term.occurrencesList stack, w ∉ met →
      v ∉ θ.successors w := by
  fun_induction searchStack θ v stack met with
  | case1 met => exact ⟨List.not_mem_nil, fun w occurs => absurd occurs List.not_mem_nil⟩
  | case2 name rest met inductionHypothesis => exact inductionHypothesis clear
  | case3 rest met => exact absurd clear.symm Bool.false_ne_true
  | case4 w rest met different old inductionHypothesis =>
    obtain ⟨absent, apart⟩ := inductionHypothesis clear
    refine ⟨List.not_mem_cons_of_ne_of_not_mem (Ne.symm different) absent,
      List.forall_mem_cons.2 ⟨fun new => ?_, apart⟩⟩
    exact absurd (List.contains_iff_mem.1 old) new
  | case5 w rest met different new free inductionHypothesis =>
    obtain ⟨absent, apart⟩ := inductionHypothesis clear
    have here : v ∉ θ.successors w := by
      rw [successors, free]
      exact List.not_mem_nil
    exact notMem_of_met different here absent apart
  | case6 w rest met different new t bound inductionHypothesis =>
    obtain ⟨absent, apart⟩ := inductionHypothesis clear
    have absentHere : v ∉ t.occurrences := fun occurs => absent (List.mem_append_left _ occurs)
    have absentLater : v ∉ Term.occurrencesList rest :=
      fun occurs => absent (List.mem_append_right _ occurs)
    have here : v ∉ θ.successors w := by
      rw [successors, bound]
      exact fun next => absentHere (Term.mem_vars.1 next)
    exact notMem_of_met different here absentLater fun u occurs =>
      apart u (List.mem_append_right _ occurs)
  | case7 function ts rest met inductionHypothesis =>
    obtain ⟨absent, apart⟩ := inductionHypothesis clear
    refine ⟨fun occurs => absent ?_, fun u occurs => apart u ?_⟩
    · exact mem_occurrencesList_reverseAux.2 (List.mem_append.1 occurs)
    · exact mem_occurrencesList_reverseAux.2 (List.mem_append.1 occurs)

/-- What the search of a term does not find does not stand in the instance of the term either. -/
theorem notMem_substitute_of_not_searchStack (clear : θ.searchStack v [t] [] = false) :
    v ∉ (t.substitute θ).occurrences := by
  obtain ⟨absent, apart⟩ := notMem_of_not_searchStack clear
  intro occurs
  obtain ⟨w, here, there⟩ := Term.mem_occurrences_replace.1 occurs
  have onStack : w ∈ Term.occurrencesList [t] := List.mem_append_left _ here
  cases bound : θ.get? w with
  | none =>
    rw [value_of_get?_none bound] at there
    exact absent (List.mem_singleton.1 there ▸ onStack)
  | some s =>
    rw [value_of_get?_some bound] at there
    refine apart w onStack List.not_mem_nil ?_
    rw [successors, bound]
    exact Term.mem_vars.2 there

/-- On a solved substitution the occurs check with a stack finds what `occursIn` finds. -/
theorem IsSolved.searchStack_eq (solved : θ.IsSolved) (free : θ.get? v = none) :
    θ.searchStack v [t] [] = θ.occursIn v t := by
  cases found : θ.occursIn v t with
  | true =>
    have occurs := mem_of_occursIn solved free found
    by_contra other
    exact notMem_substitute_of_not_searchStack (Bool.eq_false_iff.2 other) occurs
  | false =>
    obtain ⟨absent, apart⟩ := notMem_of_not_occursIn found
    refine Bool.eq_false_iff.2 fun other => ?_
    have reached := mem_of_searchStack (fun _ inside _ => solved.mem_of_mem_successors inside)
      (fun w occurs => Or.inl (by simpa [Term.occurrencesList] using occurs)) other
    exact reached.elim absent apart

/-! ### Cascading -/

/-- Cascading that comes to rest is done when one round more is allowed than it takes. -/
theorem cascadeToRest_eq {σ : Substitution} {needed rounds : Nat} (enough : needed < rounds)
    (fixed : (cascadeRound^[needed] σ).cascadeRound = cascadeRound^[needed] σ) :
    σ.cascadeToRest rounds = some (cascadeRound^[needed] σ) := by
  induction needed generalizing σ rounds with
  | zero =>
    obtain ⟨rest, rfl⟩ := Nat.exists_eq_add_one_of_ne_zero (Nat.ne_zero_of_lt enough)
    exact if_pos fixed
  | succ needed inductionHypothesis =>
    obtain ⟨rest, rfl⟩ := Nat.exists_eq_add_one_of_ne_zero (Nat.ne_zero_of_lt enough)
    rw [cascadeToRest]
    split
    · next still => exact congrArg some (Function.iterate_fixed still (needed + 1)).symm
    · exact inductionHypothesis (Nat.lt_of_succ_lt_succ enough) fixed

/-- Cascading a solved substitution ends after the round that changes nothing. -/
theorem IsSolved.cascadeToRest_succ (solved : θ.IsSolved) (rounds : Nat) :
    θ.cascadeToRest (rounds + 1) = some θ.cascade := by
  rw [cascade, cascadeWithin_of_fixed solved.cascadeRound_eq]
  exact cascadeToRest_eq (Nat.succ_pos rounds) solved.cascadeRound_eq

/-- Cascading a new binding of a solved substitution takes three rounds at most, of which the last
one changes nothing. -/
theorem IsSolved.cascadeToRest_insert (solved : θ.IsSolved) (absent : v ∉ t.occurrences)
    (apart : v ∉ (t.substitute θ).occurrences) {rounds : Nat} (enough : 3 ≤ rounds) :
    (θ.insert v t).cascadeToRest rounds = some (θ.bind v t) := by
  rw [bind_eq solved absent apart]
  exact cascadeToRest_eq enough
    (isSolved_cascadeRound_cascadeRound_insert solved absent apart).cascadeRound_eq

end Substitution

namespace Unification

variable {θ : Substitution}

/-! ### The search -/

/-- Binding a free variable ends, and in what `close` ends in. -/
theorem closeToRest_eq (solved : θ.IsSolved) {v : Variable} (free : θ.get? v = none) (t : Term)
    {rounds : Nat} (enough : 3 ≤ rounds) : closeToRest rounds v t θ = close v t θ := by
  rw [closeToRest, close, solved.searchStack_eq free]
  cases found : θ.occursIn v t with
  | true => rfl
  | false =>
    obtain ⟨absent, apart⟩ := Substitution.notMem_of_not_occursIn found
    rw [solved.cascadeToRest_insert absent apart enough]

/-- What an attempt ended in is what another one ends in too. -/
def Foretells : Unification → Unification → Prop
  | .unfinished, _ => True
  | ended, other => other = ended

@[refl]
theorem Foretells.refl (outcome : Unification) : outcome.Foretells outcome := by
  cases outcome <;> trivial

variable {step other : Term → Term → Substitution → Unification}

/-- Working through two lists, when a step foretells another and keeps substitutions solved. -/
theorem foretells_lists
    (each : ∀ t u θ, θ.IsSolved → (step t u θ).Foretells (other t u θ))
    (settled : ∀ t u θ, θ.IsSolved →
      (step t u θ).Settles θ fun value => t.replace value = u.replace value)
    (ts us : List Term) {θ : Substitution} (solved : θ.IsSolved) :
    (lists step ts us θ).Foretells (lists other ts us θ) := by
  induction ts generalizing us θ with
  | nil => cases us <;> rfl
  | cons t ts inductionHypothesis =>
    cases us with
    | nil => rfl
    | cons u us =>
      have here := each t u θ solved
      have settles := settled t u θ solved
      rw [lists, lists]
      cases outcome : step t u θ with
      | unfinished => trivial
      | impossible =>
        rw [outcome] at here
        rw [show other t u θ = .impossible from here]
      | unifier extended =>
        rw [outcome] at here settles
        rw [show other t u θ = .unifier extended from here]
        exact inductionHypothesis us settles.1

theorem foretells_sameLength
    (each : ∀ t u θ, θ.IsSolved → (step t u θ).Foretells (other t u θ))
    (settled : ∀ t u θ, θ.IsSolved →
      (step t u θ).Settles θ fun value => t.replace value = u.replace value)
    (ts us : List Term) {θ : Substitution} (solved : θ.IsSolved) :
    (sameLength step ts us θ).Foretells (sameLength other ts us θ) := by
  rw [sameLength, sameLength]
  split
  · exact foretells_lists each settled ts us solved
  · rfl

theorem foretells_variableWith
    (each : ∀ t u θ, θ.IsSolved → (step t u θ).Foretells (other t u θ))
    (v : Variable) (t : Term) (solved : θ.IsSolved) {rounds : Nat} (enough : 3 ≤ rounds) :
    (variableWith step v t θ).Foretells (variableToRest rounds other v t θ) := by
  rw [variableWith, variableToRest]
  cases bound : θ.get? v with
  | some u => exact each u t θ solved
  | none =>
    have closed := closeToRest_eq solved bound t enough
    cases t with
    | constant name => exact closed ▸ .refl _
    | app function ts => exact closed ▸ .refl _
    | var w =>
      simp only [Term.asVariable?]
      cases θ.get? w with
      | some u => exact each (.var v) u θ solved
      | none => exact closed ▸ .refl _

/-- A bounded search that ended within its depth foretells the search at every greater depth. -/
theorem foretells_terms {rounds : Nat} (enough : 3 ≤ rounds) {depth later : Nat}
    (deeper : depth ≤ later) (t u : Term) (solved : θ.IsSolved) :
    (terms depth t u θ).Foretells (termsToRest rounds later t u θ) := by
  induction depth generalizing later t u θ with
  | zero => trivial
  | succ depth inductionHypothesis =>
    obtain ⟨rest, rfl⟩ := Nat.exists_eq_add_one_of_ne_zero (Nat.ne_zero_of_lt deeper)
    have each : ∀ t u θ, θ.IsSolved →
        (terms depth t u θ).Foretells (termsToRest rounds rest t u θ) :=
      fun t u θ solved => inductionHypothesis (Nat.le_of_succ_le_succ deeper) t u solved
    unfold terms termsToRest
    split
    · rfl
    · cases t with
      | var v => exact foretells_variableWith each v u solved enough
      | constant name =>
        cases u with
        | var v => exact foretells_variableWith each v _ solved enough
        | _ => rfl
      | app f ts =>
        cases u with
        | var v => exact foretells_variableWith each v _ solved enough
        | constant name => rfl
        | app g us =>
          by_cases same : f = g
          · simp only [if_pos same]
            exact foretells_sameLength each (settles_terms depth) ts us solved
          · simp only [if_neg same]
            rfl

/-- An attempt that ended within the bound is told by the unifier that it found, and so is the one
that it foretells. -/
theorem Foretells.eq_ofOption {parts : List Term} {outcome last : Unification}
    (foretells : outcome.Foretells last) (ends : Ends parts θ outcome) :
    last = .ofOption outcome.toOption := by
  cases outcome with
  | unfinished => exact ends.elim
  | impossible => exact foretells
  | unifier extended => exact foretells

theorem listsToRest_eq (solved : θ.IsSolved) {rounds : Nat} (enough : 3 ≤ rounds)
    (ts us : List Term) {depth : Nat} (deep : depthBound ts us θ ≤ depth) :
    listsToRest rounds depth ts us θ = .ofOption (Term.unifyListWith ts us θ) := by
  have foretells := foretells_sameLength
    (fun t u θ solved => foretells_terms enough deep t u solved) (settles_terms _) ts us solved
  exact foretells.eq_ofOption (ends_unifyLists ts us solved)

end Unification

/-! ### Unification ends -/

namespace Substitution.IsSolved

variable {θ : Substitution}

/-- **Unification ends.** On top of a solved substitution the search for a unifier of two terms, two
atoms or two lists of terms comes to an end, given a depth of calls that can be computed beforehand,
and finds what the bounded search finds. None of the cascades on the way takes more than three
rounds. -/
theorem unification_ends (solved : θ.IsSolved) {rounds : Nat} (enough : 3 ≤ rounds) :
    (∀ t u : Term, ∀ depth ≥ Unification.depthBound [t] [u] θ,
      Unification.termsToRest rounds depth t u θ = .ofOption (t.unifyWith u θ)) ∧
    (∀ a b : Atom, ∀ depth ≥ Unification.depthBound a.arguments b.arguments θ,
      Unification.atomsToRest rounds depth a b θ = .ofOption (a.unifyWith b θ)) ∧
    ∀ ts us : List Term, ∀ depth ≥ Unification.depthBound ts us θ,
      Unification.listsToRest rounds depth ts us θ = .ofOption (Term.unifyListWith ts us θ) := by
  refine ⟨fun t u depth deep => ?_, fun a b depth deep => ?_, fun ts us depth deep => ?_⟩
  · have foretells := Unification.foretells_terms enough deep t u solved
    exact foretells.eq_ofOption (Unification.ends_unify t u solved)
  · unfold Unification.atomsToRest Atom.unifyWith
    split
    · exact Unification.listsToRest_eq solved enough _ _ deep
    · rfl
  · exact Unification.listsToRest_eq solved enough ts us deep

/-- The search for a unifier of `House(x, z)` and `House(Door(z), Roof(A))` goes on with what `z` is
bound to, and changes it. -/
theorem unification_ends_roofKnown :
    roofKnown.IsSolved ∧ 3 ≤ 3 ∧
      Unification.termsToRest 3 (Unification.depthBound [houseUnderRoof] [houseWithDoor] roofKnown)
        houseUnderRoof houseWithDoor roofKnown = .unifier roofFound := by
  have ends := (isSolved_roofKnown.unification_ends (Nat.le_refl 3)).1 houseUnderRoof houseWithDoor
    _ (Nat.le_refl _)
  rw [unifyWith_roofKnown] at ends
  exact ⟨isSolved_roofKnown, Nat.le_refl 3, ends⟩

end Substitution.IsSolved

end ClausalReasoner

/-
This file shows what dropping quantifiers for Skolem terms does to a sentence in negation normal
form whose binders are distinct. Where the result is valid, the sentence holds. Where the sentence
holds, the Skolem symbols can be interpreted so that the result is valid, under a condition: every
existential quantifier speaks only of variables whose values are determined by the universal
variables in scope, since these are all that a Skolem term is given.

The recursion carries the universal variables in scope and what the existential quantifiers further
out made of the variables. As the binders are distinct, none of the variables that are still to be
bound stands in the scope or is replaced by anything yet.
-/

import ClausalReasoner.Proofs.DistinctBinders

namespace ClausalReasoner

universe u

variable {Universe : Type u} {meaning : Interpretation Universe} {values : Assignment Universe}

/-! ### Skolem terms -/

/-- A term that is made by one invented symbol, applied to the variables in scope, can be given
every function of these variables as its meaning. -/
structure SkolemTerm (scope : List Variable) (voc : Vocabulary) (t : Term)
    (extended : Vocabulary) : Prop where
  within : voc.Within extended
  known : ∀ symbol ∈ t.symbols, extended.knows symbol
  occurrences : ∀ v ∈ t.occurrences, v ∈ scope
  interpretable : ∀ {Universe : Type u} (meaning : Interpretation Universe)
    (choice : List Universe → Universe), ∃ chosen : Interpretation Universe,
      meaning.Agree (fun symbol => extended.knows symbol → voc.knows symbol) chosen ∧
        ∀ values : Assignment Universe, t.valueIn chosen values = choice (scope.map values)

theorem Vocabulary.skolemConstant_isSkolemTerm (voc : Vocabulary) :
    SkolemTerm.{u} [] voc (.constant voc.skolemConstant.1) voc.skolemConstant.2 := by
  have invents := voc.skolemConstant_invents
  refine ⟨invents.within, fun symbol inside => ?_, fun v occurs => absurd occurs List.not_mem_nil,
    fun meaning choice => ?_⟩
  · rw [List.mem_singleton.1 inside]
    exact invents.known
  · refine ⟨{ meaning with constant := fun name =>
      if name = voc.skolemConstant.1 then choice [] else meaning.constant name },
      ⟨rfl, fun symbol old => ?_⟩, fun values => if_pos rfl⟩
    cases symbol with
    | constant name =>
      refine (if_neg fun same => invents.unknown ?_).symm
      rw [← same]
      exact old (same ▸ invents.known)
    | function name => rfl
    | predicate name => rfl

theorem Vocabulary.skolemFunction_isSkolemTerm (voc : Vocabulary) (scope : List Variable) :
    SkolemTerm.{u} scope voc (.app voc.skolemFunction.1 (scope.map Term.var))
      voc.skolemFunction.2 := by
  have invents := voc.skolemFunction_invents
  refine ⟨invents.within, fun symbol inside => ?_, fun v occurs => ?_, fun meaning choice => ?_⟩
  · rcases List.mem_cons.1 inside with rfl | deeper
    · exact invents.known
    · obtain ⟨t, member, there⟩ := Term.mem_symbolsList.1 deeper
      obtain ⟨v, _, rfl⟩ := List.mem_map.1 member
      exact absurd there List.not_mem_nil
  · obtain ⟨t, member, there⟩ := Term.mem_occurrencesList.1 occurs
    obtain ⟨w, listed, rfl⟩ := List.mem_map.1 member
    rw [List.mem_singleton.1 there]
    exact listed
  · refine ⟨{ meaning with function := fun name =>
      if name = voc.skolemFunction.1 then choice else meaning.function name },
      ⟨rfl, fun symbol old => ?_⟩, fun values => ?_⟩
    · cases symbol with
      | constant name => rfl
      | function name =>
        refine (if_neg fun same => invents.unknown ?_).symm
        rw [← same]
        exact old (same ▸ invents.known)
      | predicate name => rfl
    · rw [Term.valueIn, Term.valuesIn_eq_map, List.map_map]
      exact congrFun (if_pos rfl) (scope.map values)

namespace Sentence

theorem exists_skolemTerms_cons (scope : List Variable) (voc : Vocabulary) (v : Variable)
    (vs : List Variable) (value : Variable → Term) :
    ∃ t extended, SkolemTerm.{u} scope voc t extended ∧
      skolemTerms scope voc (v :: vs) value =
        skolemTerms scope extended vs fun w => if w = v then t else value w := by
  cases scope with
  | nil => exact ⟨_, _, voc.skolemConstant_isSkolemTerm, rfl⟩
  | cons w ws => exact ⟨_, _, voc.skolemFunction_isSkolemTerm (w :: ws), rfl⟩

/-- The Skolem terms for a quantifier list can be given all functions of the variables in scope as
their meanings at once. -/
structure SkolemTerms (scope : List Variable) (voc : Vocabulary) (vs : List Variable)
    (start here : Variable → Term) (extended : Vocabulary) : Prop where
  within : voc.Within extended
  unlisted : ∀ v, v ∉ vs → here v = start v
  known : ∀ v ∈ vs, ∀ symbol ∈ (here v).symbols, extended.knows symbol
  occurrences : ∀ v ∈ vs, ∀ w ∈ (here v).occurrences, w ∈ scope
  interpretable : ∀ {Universe : Type u} (meaning : Interpretation Universe)
    (choice : Variable → List Universe → Universe), ∃ chosen : Interpretation Universe,
      meaning.Agree (fun symbol => extended.knows symbol → voc.knows symbol) chosen ∧
        ∀ v ∈ vs, ∀ values : Assignment Universe,
          (here v).valueIn chosen values = choice v (scope.map values)

theorem skolemTerms_areSkolemTerms (scope : List Variable) (voc : Vocabulary)
    (vs : List Variable) (start : Variable → Term) :
    SkolemTerms.{u} scope voc vs start (skolemTerms scope voc vs start).1
      (skolemTerms scope voc vs start).2 := by
  induction vs generalizing voc start with
  | nil =>
    exact ⟨.refl voc, fun _ _ => rfl, fun v member => absurd member List.not_mem_nil,
      fun v member => absurd member List.not_mem_nil, fun meaning _ =>
        ⟨meaning, .refl _ meaning, fun v member => absurd member List.not_mem_nil⟩⟩
  | cons v vs inductionHypothesis =>
    obtain ⟨t, between, first, unfolded⟩ := exists_skolemTerms_cons.{u} scope voc v vs start
    have rest := inductionHypothesis between fun w => if w = v then t else start w
    have last : ∀ w ∈ v :: vs, w ∈ vs ∨ (skolemTerms scope between vs
        fun w => if w = v then t else start w).1 w = t := by
      intro w member
      by_cases later : w ∈ vs
      · exact Or.inl later
      · rw [rest.unlisted w later, if_pos ((List.mem_cons.1 member).resolve_right later)]
        exact Or.inr rfl
    rw [unfolded]
    refine ⟨first.within.trans rest.within, fun w absent => ?_, fun w member symbol inside => ?_,
      fun w member u occurs => ?_, fun meaning choice => ?_⟩
    · obtain ⟨different, later⟩ := List.ne_and_not_mem_of_not_mem_cons absent
      rw [rest.unlisted w later, if_neg different]
    · rcases last w member with later | same
      · exact rest.known w later symbol inside
      · exact rest.within symbol (first.known symbol (same ▸ inside))
    · rcases last w member with later | same
      · exact rest.occurrences w later u occurs
      · exact first.occurrences u (same ▸ occurs)
    · obtain ⟨meaningFirst, agreeFirst, valuesFirst⟩ := first.interpretable meaning (choice v)
      obtain ⟨chosen, agree, valuesRest⟩ := rest.interpretable meaningFirst choice
      refine ⟨chosen, (agreeFirst.mono fun symbol old known => ?_).trans
        (agree.mono fun symbol old known => ?_), fun w member values => ?_⟩
      · exact old (rest.within symbol known)
      · exact first.within symbol (old known)
      · by_cases later : w ∈ vs
        · exact valuesRest w later values
        · rw [(last w member).resolve_left later, (List.mem_cons.1 member).resolve_right later,
            ← valuesFirst values]
          refine Term.valueIn_congr (fun symbol inside => ?_) fun _ _ => rfl
          exact agree.symm.symbols symbol fun _ => first.known symbol inside

/-! ### The recursion -/

/-- The variables that a sentence binds are distinct, and none of them stands in the scope or is
replaced by anything. -/
structure Skolemizable (scope : List Variable) (value : Variable → Term) (s : Sentence) :
    Prop where
  nodup : s.binders.Nodup
  apart : ∀ v ∈ scope, v ∉ s.binders
  kept : ∀ v ∈ s.binders, value v = .var v

theorem replaceBinders_eq_self {value : Variable → Term} {bound : List Variable}
    (kept : ∀ v ∈ bound, value v = .var v) : replaceBinders value bound = bound :=
  (Sentence.replaceBinders_eq_map kept).trans bound.map_id'

namespace Skolemizable

variable {scope : List Variable} {value : Variable → Term} {connective : Connective}
  {quantifier : Quantifier} {bound : List Variable} {left right body : Sentence}

theorem ofNegation (able : Skolemizable scope value (.negation body)) :
    Skolemizable scope value body :=
  ⟨able.nodup, able.apart, able.kept⟩

theorem onLeft (able : Skolemizable scope value (.connected connective left right)) :
    Skolemizable scope value left :=
  ⟨(List.nodup_append.1 able.nodup).1,
    fun v member bound => able.apart v member (List.mem_append_left _ bound),
    fun v bound => able.kept v (List.mem_append_left _ bound)⟩

theorem onRight (able : Skolemizable scope value (.connected connective left right)) :
    Skolemizable scope value right :=
  ⟨(List.nodup_append.1 able.nodup).2.1,
    fun v member bound => able.apart v member (List.mem_append_right _ bound),
    fun v bound => able.kept v (List.mem_append_right _ bound)⟩

/-- A variable of the quantifier list is not bound again further down. -/
theorem notMem_binders (able : Skolemizable scope value (.quantified quantifier bound body))
    {v : Variable} (listed : v ∈ bound) : v ∉ body.binders :=
  fun again => (List.nodup_append.1 able.nodup).2.2 v listed v again rfl

theorem kept_bound (able : Skolemizable scope value (.quantified quantifier bound body)) :
    ∀ v ∈ bound, value v = .var v :=
  fun v listed => able.kept v (List.mem_append_left _ listed)

theorem universal (able : Skolemizable scope value (.quantified quantifier bound body)) :
    Skolemizable (scope ++ bound) value body := by
  refine ⟨(List.nodup_append.1 able.nodup).2.1, fun v member again => ?_,
    fun v bound => able.kept v (List.mem_append_right _ bound)⟩
  rcases List.mem_append.1 member with old | new
  · exact able.apart v old (List.mem_append_right _ again)
  · exact able.notMem_binders new again

theorem existential (able : Skolemizable scope value (.quantified quantifier bound body))
    {here : Variable → Term} (unlisted : ∀ v, v ∉ bound → here v = .var v) :
    Skolemizable scope (fun v => (value v).replace here) body := by
  refine ⟨(List.nodup_append.1 able.nodup).2.1,
    fun v member again => able.apart v member (List.mem_append_right _ again),
    fun v again => ?_⟩
  rw [able.kept v (List.mem_append_right _ again)]
  exact unlisted v fun listed => able.notMem_binders listed again

end Skolemizable

section

variable {scope : List Variable} {value : Variable → Term} {quantifier : Quantifier}
  {bound : List Variable} {body : Sentence} {voc : Vocabulary}

theorem skolemize_universal
    (able : Skolemizable scope value (.quantified .universal bound body)) :
    (quantified .universal bound body).skolemize scope value voc =
      body.skolemize (scope ++ bound) value voc := by
  rw [skolemize, replaceBinders_eq_self able.kept_bound]

theorem skolemize_existential
    (able : Skolemizable scope value (.quantified .existential bound body)) :
    (quantified .existential bound body).skolemize scope value voc =
      body.skolemize scope (fun v => (value v).replace (skolemTerms scope voc bound .var).1)
        (skolemTerms scope voc bound .var).2 := by
  rw [skolemize, replaceBinders_eq_self able.kept_bound]

/-- A term whose variables are not listed is left alone by the Skolem terms for a list. -/
theorem SkolemTerms.replace_eq_self {here : Variable → Term} {extended : Vocabulary}
    (terms : SkolemTerms.{u} scope voc bound .var here extended) {t : Term}
    (absent : ∀ v ∈ t.occurrences, v ∉ bound) : t.replace here = t :=
  Term.replace_eq_self fun v occurs => terms.unlisted v (absent v occurs)

end

/-! ### What stands in the result -/

theorem isQuantifierFree_skolemize (s : Sentence) (scope : List Variable)
    (value : Variable → Term) (voc : Vocabulary) :
    (s.skolemize scope value voc).1.isQuantifierFree := by
  induction s generalizing scope value voc with
  | atom a => rfl
  | negation body inductionHypothesis => exact inductionHypothesis scope value voc
  | connected connective left right leftHypothesis rightHypothesis =>
    exact (Bool.and_eq_true _ _).mpr
      ⟨leftHypothesis scope value voc, rightHypothesis scope value _⟩
  | quantified quantifier bound body inductionHypothesis =>
    cases quantifier with
    | universal => exact inductionHypothesis _ value voc
    | existential => exact inductionHypothesis scope _ _

theorem IsNegationNormal.skolemize {s : Sentence} (normal : s.IsNegationNormal)
    (scope : List Variable) (value : Variable → Term) (voc : Vocabulary) :
    (s.skolemize scope value voc).1.IsNegationNormal := by
  induction normal generalizing scope value voc with
  | atom a => exact .atom _
  | negation a => exact .negation _
  | conjunction _ _ leftHypothesis rightHypothesis =>
    exact .conjunction (leftHypothesis scope value voc) (rightHypothesis scope value _)
  | disjunction _ _ leftHypothesis rightHypothesis =>
    exact .disjunction (leftHypothesis scope value voc) (rightHypothesis scope value _)
  | quantified quantifier bound _ inductionHypothesis =>
    cases quantifier with
    | universal => exact inductionHypothesis _ value voc
    | existential => exact inductionHypothesis scope _ _

theorem within_skolemize (s : Sentence) (scope : List Variable) (value : Variable → Term)
    (voc : Vocabulary) : voc.Within (s.skolemize scope value voc).2 := by
  induction s generalizing scope value voc with
  | atom a => exact .refl voc
  | negation body inductionHypothesis => exact inductionHypothesis scope value voc
  | connected connective left right leftHypothesis rightHypothesis =>
    exact (leftHypothesis scope value voc).trans (rightHypothesis scope value _)
  | quantified quantifier bound body inductionHypothesis =>
    cases quantifier with
    | universal => exact inductionHypothesis _ value voc
    | existential =>
      exact (skolemTerms_areSkolemTerms.{0} scope voc _ .var).within.trans
        (inductionHypothesis scope _ _)

/-- The variables of the result come from the scope, from quantifier lists or from what the free
variables were replaced by. -/
theorem mem_occurrences_skolemize {s : Sentence} {scope : List Variable}
    {value : Variable → Term} (able : Skolemizable scope value s) {voc : Vocabulary} {v : Variable}
    (occurs : v ∈ (s.skolemize scope value voc).1.occurrences) :
    v ∈ scope ∨ v ∈ s.binders ∨ ∃ w ∈ s.freeVars, v ∈ (value w).occurrences := by
  induction s generalizing scope value voc with
  | atom a => exact Or.inr (Or.inr (Atom.mem_occurrences_replace.1 occurs))
  | negation body inductionHypothesis => exact inductionHypothesis able.ofNegation occurs
  | connected connective left right leftHypothesis rightHypothesis =>
    rcases List.mem_append.1 occurs with here | there
    · rcases leftHypothesis able.onLeft here with inScope | bound | ⟨w, free, inside⟩
      · exact Or.inl inScope
      · exact Or.inr (Or.inl (List.mem_append_left _ bound))
      · exact Or.inr (Or.inr ⟨w, List.mem_append_left _ free, inside⟩)
    · rcases rightHypothesis able.onRight there with inScope | bound | ⟨w, free, inside⟩
      · exact Or.inl inScope
      · exact Or.inr (Or.inl (List.mem_append_right _ bound))
      · exact Or.inr (Or.inr ⟨w, List.mem_append_right _ free, inside⟩)
  | quantified quantifier bound body inductionHypothesis =>
    cases quantifier with
    | universal =>
      rw [skolemize_universal able] at occurs
      rcases inductionHypothesis able.universal occurs with inScope | deeper | ⟨w, free, inside⟩
      · exact (List.mem_append.1 inScope).imp_right fun listed =>
          Or.inl (List.mem_append_left _ listed)
      · exact Or.inr (Or.inl (List.mem_append_right _ deeper))
      · by_cases listed : w ∈ bound
        · rw [able.kept_bound w listed, Term.occurrences, List.mem_singleton] at inside
          exact Or.inr (Or.inl (List.mem_append_left _ (inside ▸ listed)))
        · exact Or.inr (Or.inr ⟨w, mem_freeVars_quantified.2 ⟨free, listed⟩, inside⟩)
    | existential =>
      have terms := skolemTerms_areSkolemTerms.{0} scope voc bound .var
      rw [skolemize_existential able] at occurs
      rcases inductionHypothesis (able.existential terms.unlisted) occurs with
        inScope | deeper | ⟨w, free, inside⟩
      · exact Or.inl inScope
      · exact Or.inr (Or.inl (List.mem_append_right _ deeper))
      · obtain ⟨u, there, inner⟩ := Term.mem_occurrences_replace.1 inside
        by_cases listed : u ∈ bound
        · exact Or.inl (terms.occurrences u listed v inner)
        · rw [terms.unlisted u listed, Term.occurrences, List.mem_singleton] at inner
          subst inner
          refine Or.inr (Or.inr ⟨w, mem_freeVars_quantified.2 ⟨free, fun listedW => ?_⟩, there⟩)
          rw [able.kept_bound w listedW, Term.occurrences, List.mem_singleton] at there
          exact listed (there ▸ listedW)

/-! ### From the result back to the sentence -/

/-- What the free variables are replaced by holds no variable that is still to be bound. -/
def ValuesApart (value : Variable → Term) (s : Sentence) : Prop :=
  ∀ v ∈ s.freeVars, ∀ w ∈ (value v).occurrences, w ∉ s.binders

namespace ValuesApart

variable {scope : List Variable} {value : Variable → Term} {connective : Connective}
  {quantifier : Quantifier} {bound : List Variable} {left right body : Sentence}

theorem onLeft (apart : ValuesApart value (.connected connective left right)) :
    ValuesApart value left :=
  fun v free w occurs binds =>
    apart v (List.mem_append_left _ free) w occurs (List.mem_append_left _ binds)

theorem onRight (apart : ValuesApart value (.connected connective left right)) :
    ValuesApart value right :=
  fun v free w occurs binds =>
    apart v (List.mem_append_right _ free) w occurs (List.mem_append_right _ binds)

theorem universal (apart : ValuesApart value (.quantified quantifier bound body))
    (able : Skolemizable scope value (.quantified quantifier bound body)) :
    ValuesApart value body := by
  intro v free w occurs binds
  by_cases listed : v ∈ bound
  · rw [able.kept_bound v listed, Term.occurrences, List.mem_singleton] at occurs
    exact able.notMem_binders listed (occurs ▸ binds)
  · exact apart v (mem_freeVars_quantified.2 ⟨free, listed⟩) w occurs
      (List.mem_append_right _ binds)

/-- The Skolem terms for a quantifier list do not reach what the variables that are free outside
the quantifier were replaced by. -/
theorem replace_eq_self (apart : ValuesApart value (.quantified quantifier bound body))
    {here : Variable → Term} (unlisted : ∀ v, v ∉ bound → here v = .var v) {v : Variable}
    (free : v ∈ body.freeVars) (absent : v ∉ bound) : (value v).replace here = value v :=
  Term.replace_eq_self fun w occurs => unlisted w fun listed =>
    apart v (mem_freeVars_quantified.2 ⟨free, absent⟩) w occurs (List.mem_append_left _ listed)

theorem existential (apart : ValuesApart value (.quantified quantifier bound body))
    (able : Skolemizable scope value (.quantified quantifier bound body))
    {here : Variable → Term} (unlisted : ∀ v, v ∉ bound → here v = .var v)
    (inScope : ∀ v ∈ bound, ∀ w ∈ (here v).occurrences, w ∈ scope) :
    ValuesApart (fun v => (value v).replace here) body := by
  intro v free w occurs binds
  beta_reduce at occurs
  by_cases listed : v ∈ bound
  · rw [able.kept_bound v listed] at occurs
    exact able.apart w (inScope v listed w occurs) (List.mem_append_right _ binds)
  · rw [apart.replace_eq_self unlisted free listed] at occurs
    exact apart v (mem_freeVars_quantified.2 ⟨free, listed⟩) w occurs
      (List.mem_append_right _ binds)

end ValuesApart

/-- The variables that one side of a connective binds do not stand in the result of the other. -/
theorem notMem_occurrences_skolemize {s : Sentence} {scope : List Variable}
    {value : Variable → Term} (able : Skolemizable scope value s) (voc : Vocabulary)
    {elsewhere : List Variable} (scopeApart : ∀ v ∈ scope, v ∉ elsewhere)
    (bindersApart : ∀ v ∈ s.binders, v ∉ elsewhere)
    (valuesApart : ∀ v ∈ s.freeVars, ∀ w ∈ (value v).occurrences, w ∉ elsewhere) :
    ∀ v ∈ (s.skolemize scope value voc).1.freeVars, v ∉ elsewhere := by
  intro v free
  rcases mem_occurrences_skolemize able (mem_occurrences_of_mem_freeVars free) with
    inScope | binds | ⟨w, there, inside⟩
  · exact scopeApart v inScope
  · exact bindersApart v binds
  · exact valuesApart w there v inside

/-- Two results that never fail together, and of which neither speaks of what the other varies
over, do not both fail. -/
theorem holds_of_disjoint {first second : Sentence} {boundFirst boundSecond : List Variable}
    (apartFirst : ∀ v ∈ first.freeVars, v ∉ boundSecond)
    (apartSecond : ∀ v ∈ second.freeVars, v ∉ boundFirst)
    (holds : ∀ chosen, Assignment.AgreeOff (boundFirst ++ boundSecond) chosen values →
      first.holdsIn meaning chosen ∨ second.holdsIn meaning chosen) :
    (∀ chosen, Assignment.AgreeOff boundFirst chosen values → first.holdsIn meaning chosen) ∨
      ∀ chosen, Assignment.AgreeOff boundSecond chosen values → second.holdsIn meaning chosen := by
  by_contra neither
  push Not at neither
  obtain ⟨⟨chosenFirst, agreeFirst, failsFirst⟩, chosenSecond, agreeSecond, failsSecond⟩ := neither
  have agree : Assignment.AgreeOff (boundFirst ++ boundSecond)
      (chosenSecond.override boundFirst chosenFirst) values := by
    intro v absent
    rw [List.mem_append, not_or] at absent
    rw [Assignment.override_of_notMem absent.1]
    exact agreeSecond v absent.2
  rcases holds _ agree with left | right
  · refine failsFirst ((holdsIn_congr_values fun v free => ?_).1 left)
    by_cases listed : v ∈ boundFirst
    · exact Assignment.override_of_mem listed
    · rw [Assignment.override_of_notMem listed, agreeFirst v listed]
      exact agreeSecond v (apartFirst v free)
  · refine failsSecond ((holdsIn_congr_values fun v free => ?_).1 right)
    exact Assignment.override_of_notMem (apartSecond v free)

/-- Where the result holds for all values of the variables that the sentence binds, the sentence
holds. A disjunction of results that always holds has a side that always holds, because the two
sides have no bound variable in common. -/
theorem holdsIn_of_skolemize {s : Sentence} (normal : s.IsNegationNormal) {scope : List Variable}
    {value : Variable → Term} (able : Skolemizable scope value s) (apart : ValuesApart value s)
    (voc : Vocabulary) {values : Assignment Universe}
    (holds : ∀ chosen, Assignment.AgreeOff s.binders chosen values →
      (s.skolemize scope value voc).1.holdsIn meaning chosen) :
    s.holdsIn meaning fun v => (value v).valueIn meaning values := by
  induction normal generalizing scope value voc values with
  | atom a => exact (a.holdsIn_replace meaning values value).1 (holds values fun _ _ => rfl)
  | negation a =>
    exact fun affirmed => holds values (fun _ _ => rfl)
      ((a.holdsIn_replace meaning values value).2 affirmed)
  | @conjunction left right _ _ leftHypothesis rightHypothesis =>
    refine ⟨leftHypothesis able.onLeft apart.onLeft voc fun chosen agree => ?_,
      rightHypothesis able.onRight apart.onRight (left.skolemize scope value voc).2
        fun chosen agree => ?_⟩
    · exact (holds chosen fun v absent => agree v fun bound =>
        absent (List.mem_append_left _ bound)).1
    · exact (holds chosen fun v absent => agree v fun bound =>
        absent (List.mem_append_right _ bound)).2
  | @disjunction left right _ _ leftHypothesis rightHypothesis =>
    have disjoint := (List.nodup_append.1 able.nodup).2.2
    have apartLeft := notMem_occurrences_skolemize able.onLeft voc
      (fun v inScope there => able.apart v inScope (List.mem_append_right _ there))
      (fun v here there => disjoint v here v there rfl)
      (fun v free w occurs there =>
        apart v (List.mem_append_left _ free) w occurs (List.mem_append_right _ there))
    have apartRight := notMem_occurrences_skolemize able.onRight
      (left.skolemize scope value voc).2
      (fun v inScope here => able.apart v inScope (List.mem_append_left _ here))
      (fun v there here => disjoint v here v there rfl)
      (fun v free w occurs here =>
        apart v (List.mem_append_right _ free) w occurs (List.mem_append_left _ here))
    exact (holds_of_disjoint apartLeft apartRight holds).imp
      (leftHypothesis able.onLeft apart.onLeft voc)
      (rightHypothesis able.onRight apart.onRight _)
  | @quantified quantifier bound body _ inductionHypothesis =>
    cases quantifier with
    | universal =>
      rw [skolemize_universal able] at holds
      refine Quantifier.holdsOver_universal_iff.2 fun inside agree => ?_
      have always : ∀ chosen, Assignment.AgreeOff body.binders chosen
          (values.override bound inside) →
            (body.skolemize (scope ++ bound) value voc).1.holdsIn meaning chosen := by
        refine fun chosen agreeChosen => holds chosen fun v absent => ?_
        rw [binders, List.mem_append, not_or] at absent
        rw [agreeChosen v absent.2, Assignment.override_of_notMem absent.1]
      have inner := inductionHypothesis able.universal (apart.universal able) voc always
      refine (holdsIn_congr_values fun v free => ?_).1 inner
      by_cases listed : v ∈ bound
      · rw [able.kept_bound v listed]
        exact Assignment.override_of_mem listed
      · refine Eq.trans (Term.valueIn_congr_values fun w occurs => ?_) (agree v listed).symm
        refine Assignment.override_of_notMem fun listedW => ?_
        exact apart v (mem_freeVars_quantified.2 ⟨free, listed⟩) w occurs
          (List.mem_append_left _ listedW)
    | existential =>
      have terms := skolemTerms_areSkolemTerms.{0} scope voc bound .var
      rw [skolemize_existential able] at holds
      have inner := inductionHypothesis (able.existential terms.unlisted)
        (apart.existential able terms.unlisted terms.occurrences) _ fun chosen agree =>
          holds chosen fun v absent => agree v fun deeper =>
            absent (List.mem_append_right _ deeper)
      refine Quantifier.holdsOver_existential_iff.2 ⟨Assignment.override _ bound fun v =>
        ((value v).replace (skolemTerms scope voc bound .var).1).valueIn meaning values,
        Assignment.agreeOff_override, (holdsIn_congr_values fun v free => ?_).1 inner⟩
      by_cases listed : v ∈ bound
      · rw [Assignment.override_of_mem listed]
      · rw [Assignment.override_of_notMem listed, apart.replace_eq_self terms.unlisted free listed]

/-! ### From the sentence to the result -/

/-- The Skolem symbols can be interpreted so that the result holds wherever the sentence does. -/
def Expands (scope : List Variable) (value : Variable → Term) (voc : Vocabulary) (s : Sentence)
    (meaning : Interpretation Universe) : Prop :=
  ∃ chosen : Interpretation Universe,
    meaning.Agree (fun symbol => (s.skolemize scope value voc).2.knows symbol → voc.knows symbol)
      chosen ∧
    ∀ values, (s.holdsIn meaning fun v => (value v).valueIn meaning values) →
      (s.skolemize scope value voc).1.holdsIn chosen values

/-- The symbols of a sentence, and of what its free variables are replaced by, are known. -/
structure Registered (value : Variable → Term) (voc : Vocabulary) (s : Sentence) : Prop where
  symbols : ∀ symbol ∈ s.symbols, voc.knows symbol
  values : ∀ v ∈ s.freeVars, ∀ symbol ∈ (value v).symbols, voc.knows symbol

namespace Registered

variable {value : Variable → Term} {voc : Vocabulary} {connective : Connective}
  {left right : Sentence}

theorem onLeft (registered : Registered value voc (.connected connective left right)) :
    Registered value voc left :=
  ⟨fun symbol inside => registered.symbols symbol (List.mem_append_left _ inside),
    fun v free => registered.values v (List.mem_append_left _ free)⟩

theorem onRight (registered : Registered value voc (.connected connective left right)) :
    Registered value voc right :=
  ⟨fun symbol inside => registered.symbols symbol (List.mem_append_right _ inside),
    fun v free => registered.values v (List.mem_append_right _ free)⟩

theorem mono {s : Sentence} (registered : Registered value voc s) {wider : Vocabulary}
    (within : voc.Within wider) : Registered value wider s :=
  ⟨fun symbol inside => within symbol (registered.symbols symbol inside),
    fun v free symbol inside => within symbol (registered.values v free symbol inside)⟩

theorem universal {scope bound : List Variable} {quantifier : Quantifier} {body : Sentence}
    (registered : Registered value voc (.quantified quantifier bound body))
    (able : Skolemizable scope value (.quantified quantifier bound body)) :
    Registered value voc body := by
  refine ⟨registered.symbols, fun v free symbol inside => ?_⟩
  by_cases listed : v ∈ bound
  · rw [able.kept_bound v listed] at inside
    exact absurd inside List.not_mem_nil
  · exact registered.values v (mem_freeVars_quantified.2 ⟨free, listed⟩) symbol inside

theorem existential {scope bound : List Variable} {quantifier : Quantifier} {body : Sentence}
    {here : Variable → Term} {extended : Vocabulary}
    (registered : Registered value voc (.quantified quantifier bound body))
    (able : Skolemizable scope value (.quantified quantifier bound body))
    (terms : SkolemTerms.{u} scope voc bound .var here extended) :
    Registered (fun v => (value v).replace here) extended body := by
  refine ⟨fun symbol inside => terms.within symbol (registered.symbols symbol inside),
    fun v free symbol inside => ?_⟩
  rcases Term.mem_symbols_replace.1 inside with old | ⟨w, _, made⟩
  · exact terms.within symbol ((registered.universal able).values v free symbol old)
  · by_cases listed : w ∈ bound
    · exact terms.known w listed symbol made
    · rw [terms.unlisted w listed] at made
      exact absurd made List.not_mem_nil

/-- Interpretations that agree on what is known read the sentence alike. -/
theorem holdsIn_congr {s : Sentence} (registered : Registered value voc s)
    {other : Interpretation Universe} (agree : meaning.Agree (fun symbol => voc.knows symbol) other) :
    (s.holdsIn meaning fun v => (value v).valueIn meaning values) ↔
      s.holdsIn other fun v => (value v).valueIn other values := by
  refine Sentence.holdsIn_congr agree.equality
    (fun symbol inside => agree.symbols symbol (registered.symbols symbol inside)) fun v free => ?_
  exact Term.valueIn_congr
    (fun symbol inside => agree.symbols symbol (registered.values v free symbol inside))
    fun _ _ => rfl

end Registered

/-- The symbols of the result are known afterwards. -/
theorem Registered.knows_skolemize {s : Sentence} {scope : List Variable}
    {value : Variable → Term} {voc : Vocabulary} (registered : Registered value voc s)
    (able : Skolemizable scope value s) :
    ∀ symbol ∈ (s.skolemize scope value voc).1.symbols,
      (s.skolemize scope value voc).2.knows symbol := by
  induction s generalizing scope value voc with
  | atom a =>
    intro symbol inside
    rcases Atom.mem_symbols_replace.1 inside with own | ⟨v, occurs, new⟩
    · exact registered.symbols symbol own
    · exact registered.values v occurs symbol new
  | negation body inductionHypothesis =>
    exact inductionHypothesis ⟨registered.symbols, registered.values⟩ able.ofNegation
  | connected connective left right leftHypothesis rightHypothesis =>
    have first := within_skolemize left scope value voc
    intro symbol inside
    rcases List.mem_append.1 inside with here | there
    · exact within_skolemize right scope value _ symbol
        (leftHypothesis registered.onLeft able.onLeft symbol here)
    · exact rightHypothesis (registered.onRight.mono first) able.onRight symbol there
  | quantified quantifier bound body inductionHypothesis =>
    cases quantifier with
    | universal =>
      rw [skolemize_universal able]
      exact inductionHypothesis (registered.universal able) able.universal
    | existential =>
      have terms := skolemTerms_areSkolemTerms.{0} scope voc bound .var
      rw [skolemize_existential able]
      exact inductionHypothesis (registered.existential able terms)
        (able.existential terms.unlisted)

/-- What is chosen for the right side leaves the result of the left side as it is. -/
theorem exists_expansion_of_both {scope : List Variable} {value : Variable → Term}
    {voc : Vocabulary} {connective : Connective} {left right : Sentence}
    (able : Skolemizable scope value (.connected connective left right))
    (registered : Registered value voc (.connected connective left right))
    (expandsLeft : left.Expands scope value voc meaning)
    (expandsRight : ∀ chosen : Interpretation Universe,
      right.Expands scope value (left.skolemize scope value voc).2 chosen) :
    ∃ chosen : Interpretation Universe,
      meaning.Agree (fun symbol =>
        ((connected connective left right).skolemize scope value voc).2.knows symbol →
          voc.knows symbol) chosen ∧
      ∀ values,
        ((left.holdsIn meaning fun v => (value v).valueIn meaning values) →
          (left.skolemize scope value voc).1.holdsIn chosen values) ∧
        ((right.holdsIn meaning fun v => (value v).valueIn meaning values) →
          (right.skolemize scope value (left.skolemize scope value voc).2).1.holdsIn
            chosen values) := by
  obtain ⟨between, agreeFirst, first⟩ := expandsLeft
  obtain ⟨chosen, agreeSecond, second⟩ := expandsRight between
  have within := within_skolemize left scope value voc
  have withinRight := within_skolemize right scope value (left.skolemize scope value voc).2
  refine ⟨chosen, (agreeFirst.mono fun symbol old known => ?_).trans
    (agreeSecond.mono fun symbol old known => ?_), fun values => ⟨fun holds => ?_, fun holds => ?_⟩⟩
  · exact old (withinRight symbol known)
  · exact within symbol (old known)
  · exact (Sentence.holdsIn_congr_meaning agreeSecond fun symbol inside _ =>
      registered.onLeft.knows_skolemize able.onLeft symbol inside).1 (first values holds)
  · exact second values ((registered.onRight.holdsIn_congr
      (agreeFirst.mono fun symbol known _ => known)).1 holds)

/-- The values that a list of arguments gives to the variables in scope. -/
def scopeValues (scope : List Variable) (arguments : List Universe) (default : Universe) :
    Assignment Universe :=
  fun v => ((scope.zip arguments).lookup v).getD default

theorem scopeValues_map (default : Universe) {scope : List Variable} {v : Variable}
    (member : v ∈ scope) : scopeValues scope (scope.map values) default v = values v := by
  induction scope with
  | nil => exact absurd member List.not_mem_nil
  | cons w ws inductionHypothesis =>
    rw [scopeValues, List.map_cons, List.zip_cons_cons, List.lookup_cons]
    by_cases same : v = w
    · rw [same, beq_self_eq_true]
      rfl
    · rw [beq_false_of_ne same]
      exact inductionHypothesis ((List.mem_cons.1 member).resolve_left same)

/-- The Skolem symbols of one quantifier list get the values that make the body hold, if there are
such values. The choice is made once for all assignments that agree on the scope. -/
theorem exists_interpretation_of_skolemTerms {scope : List Variable} {value : Variable → Term}
    {voc extended : Vocabulary} {bound : List Variable} {body : Sentence}
    {here : Variable → Term}
    (able : Skolemizable scope value (.quantified .existential bound body))
    (terms : SkolemTerms.{u} scope voc bound .var here extended)
    (registered : Registered value voc (.quantified .existential bound body))
    (inScope : ∀ v ∈ body.freeVars, v ∉ bound → ∀ w ∈ (value v).occurrences, w ∈ scope)
    (meaning : Interpretation Universe) :
    ∃ chosen : Interpretation Universe,
      meaning.Agree (fun symbol => extended.knows symbol → voc.knows symbol) chosen ∧
      ∀ values, ((quantified .existential bound body).holdsIn meaning
          fun v => (value v).valueIn meaning values) →
        body.holdsIn chosen fun v => ((value v).replace here).valueIn chosen values := by
  classical
  let through : Assignment Universe → Assignment Universe :=
    fun values v => (value v).valueIn meaning values
  let witness : Assignment Universe → Assignment Universe := fun values =>
    if found : ∃ inside, Assignment.AgreeOff bound inside values ∧ body.holdsIn meaning inside
      then found.choose else values
  have witness_spec : ∀ values, (quantified .existential bound body).holdsIn meaning values →
      Assignment.AgreeOff bound (witness values) values ∧ body.holdsIn meaning (witness values) := by
    intro values holds
    have found := Quantifier.holdsOver_existential_iff.1 holds
    simp only [witness, dif_pos found]
    exact found.choose_spec
  obtain ⟨chosen, agree, chosenValues⟩ := terms.interpretable meaning fun v arguments =>
    witness (through (scopeValues scope arguments (meaning.constant ""))) v
  refine ⟨chosen, agree, fun values holds => ?_⟩
  let seen := scopeValues scope (scope.map values) (meaning.constant "")
  -- Outside the quantifier only the scope counts, so the choice made for the scope will do.
  have same : ∀ v ∈ body.freeVars, v ∉ bound → through values v = through seen v :=
    fun v free absent => Term.valueIn_congr_values fun w occurs =>
      (scopeValues_map _ (inScope v free absent w occurs)).symm
  have holdsSeen : (quantified .existential bound body).holdsIn meaning (through seen) := by
    refine (holdsIn_congr_values fun v free => ?_).1 holds
    obtain ⟨inner, absent⟩ := mem_freeVars_quantified.1 free
    exact same v inner absent
  obtain ⟨agreeOff, holdsWitness⟩ := witness_spec _ holdsSeen
  have agreeOld : meaning.Agree (fun symbol => voc.knows symbol) chosen :=
    agree.mono fun symbol known _ => known
  have known : ∀ symbol ∈ body.symbols, voc.knows symbol := registered.symbols
  refine (Sentence.holdsIn_congr agree.equality (fun symbol inside =>
    agreeOld.symbols symbol (known symbol inside)) fun v free => ?_).1 holdsWitness
  by_cases listed : v ∈ bound
  · rw [able.kept_bound v listed]
    exact (chosenValues v listed values).symm
  · have apart : ∀ w ∈ (value v).occurrences, w ∉ bound := fun w occurs listedW =>
      able.apart w (inScope v free listed w occurs) (List.mem_append_left _ listedW)
    rw [agreeOff v listed, ← same v free listed, SkolemTerms.replace_eq_self terms apart]
    refine Term.valueIn_congr (fun symbol inside => agreeOld.symbols symbol ?_) fun _ _ => rfl
    exact registered.values v (mem_freeVars_quantified.2 ⟨free, listed⟩) symbol inside

/-- Where existential quantifiers speak of nothing but what is determined by the scope, the Skolem
symbols can be interpreted. -/
theorem IsNegationNormal.expands {s : Sentence} (normal : s.IsNegationNormal)
    {scope : List Variable} {value : Variable → Term} {voc : Vocabulary}
    (able : Skolemizable scope value s) {anchored : Variable → Prop}
    (given : s.Anchored true anchored)
    (inScope : ∀ v, anchored v → ∀ w ∈ (value v).occurrences, w ∈ scope)
    (registered : Registered value voc s) (meaning : Interpretation Universe) :
    s.Expands scope value voc meaning := by
  induction normal generalizing scope value voc anchored meaning with
  | atom a =>
    exact ⟨meaning, .refl _ meaning, fun values => (a.holdsIn_replace meaning values value).2⟩
  | negation a =>
    exact ⟨meaning, .refl _ meaning, fun values =>
      mt (a.holdsIn_replace meaning values value).1⟩
  | @conjunction left right _ _ leftHypothesis rightHypothesis =>
    have within := within_skolemize left scope value voc
    obtain ⟨chosen, agree, both⟩ := exists_expansion_of_both able registered
      (leftHypothesis able.onLeft given.1 inScope registered.onLeft meaning)
      (rightHypothesis able.onRight given.2 inScope (registered.onRight.mono within))
    exact ⟨chosen, agree, fun values holds => ⟨(both values).1 holds.1, (both values).2 holds.2⟩⟩
  | @disjunction left right _ _ leftHypothesis rightHypothesis =>
    have within := within_skolemize left scope value voc
    obtain ⟨chosen, agree, both⟩ := exists_expansion_of_both able registered
      (leftHypothesis able.onLeft given.1 inScope registered.onLeft meaning)
      (rightHypothesis able.onRight given.2 inScope (registered.onRight.mono within))
    exact ⟨chosen, agree, fun values holds => holds.imp (both values).1 (both values).2⟩
  | @quantified quantifier bound body _ inductionHypothesis =>
    cases quantifier with
    | universal =>
      have wider : ∀ v, anchored v ∨ v ∈ bound → ∀ w ∈ (value v).occurrences, w ∈ scope ++ bound := by
        intro v reach w occurs
        rcases reach with old | listed
        · exact List.mem_append_left _ (inScope v old w occurs)
        · rw [able.kept_bound v listed, Term.occurrences, List.mem_singleton] at occurs
          exact List.mem_append_right _ (occurs ▸ listed)
      obtain ⟨chosen, agree, holdsInner⟩ := inductionHypothesis able.universal given.2 wider
        (registered.universal able) meaning
      rw [Expands, skolemize_universal able]
      exact ⟨chosen, agree, fun values holds => holdsInner values
        (Quantifier.holdsOver_universal_iff.1 holds _ fun _ _ => rfl)⟩
    | existential =>
      have terms := skolemTerms_areSkolemTerms.{u} scope voc bound .var
      have determined : ∀ v ∈ body.freeVars, v ∉ bound → ∀ w ∈ (value v).occurrences, w ∈ scope :=
        fun v free absent => inScope v (given.1 rfl v free absent)
      have anchoredInScope : ∀ v, anchored v ∨ v ∈ bound →
          ∀ w ∈ ((value v).replace (skolemTerms scope voc bound .var).1).occurrences,
            w ∈ scope := by
        intro v reach w occurs
        by_cases listed : v ∈ bound
        · rw [able.kept_bound v listed] at occurs
          exact terms.occurrences v listed w occurs
        · have old := inScope v (reach.resolve_right listed)
          rw [SkolemTerms.replace_eq_self terms fun u there listedU =>
            able.apart u (old u there) (List.mem_append_left _ listedU)] at occurs
          exact old w occurs
      obtain ⟨between, agreeFirst, first⟩ := exists_interpretation_of_skolemTerms able terms
        registered determined meaning
      obtain ⟨chosen, agreeSecond, second⟩ := inductionHypothesis
        (able.existential terms.unlisted) given.2 anchoredInScope
        (registered.existential able terms) between
      rw [Expands, skolemize_existential able]
      refine ⟨chosen, (agreeFirst.mono fun symbol old known => ?_).trans
        (agreeSecond.mono fun symbol old known => ?_), fun values holds => second values
          (first values holds)⟩
      · exact old (within_skolemize body scope _ _ symbol known)
      · exact terms.within symbol (old known)

end Sentence

end ClausalReasoner

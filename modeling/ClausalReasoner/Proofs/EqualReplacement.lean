/-
This file says why equals may be replaced by equals. An atom keeps its truth value when a subterm is
exchanged for a term of the same value, matching turns the pattern into the target, and so what
demodulation and paramodulation make of valid literals is valid in every normal interpretation in
which the demodulators are valid.
-/

import ClausalReasoner.EqualityReasoning
import ClausalReasoner.Proofs.ExactMatching
import ClausalReasoner.Proofs.ResolutionInvariant
import ClausalReasoner.Proofs.Scope

namespace ClausalReasoner

universe u

variable {Universe : Type u} {meaning : Interpretation Universe} {values : Assignment Universe}

/-! ### Exchanging a subterm for one of the same value -/

/-- Modifying an element of a list does not change the images if it does not change its image. -/
theorem map_modify {Element Image : Type*} {image : Element → Image} {change : Element → Element}
    {list : List Element} {place : Nat} {element : Element} (there : list[place]? = some element)
    (same : image (change element) = image element) :
    (list.modify place change).map image = list.map image := by
  induction list generalizing place with
  | nil => exact absurd there nofun
  | cons first rest inductionHypothesis =>
    cases place with
    | zero =>
      obtain rfl := Option.some.inj there
      rw [List.modify_zero_cons, List.map_cons, List.map_cons, same]
    | succ place =>
      rw [List.modify_succ_cons, List.map_cons, List.map_cons, inductionHypothesis there]

theorem Term.valueIn_replaceAt {old new : Term}
    (same : new.valueIn meaning values = old.valueIn meaning values) {position : Position}
    {t : Term} (there : t.at? position = some old) :
    (replaceAt new position t).valueIn meaning values = t.valueIn meaning values := by
  induction position generalizing t with
  | nil => rw [replaceAt, same, Option.some.inj there]
  | cons step rest inductionHypothesis =>
    obtain ⟨argument, inside, below⟩ := Option.bind_eq_some_iff.1 there
    cases t with
    | constant name => rfl
    | var v => rfl
    | app function ts =>
      rw [replaceAt, valueIn, valueIn, valuesIn_eq_map, valuesIn_eq_map]
      exact congrArg _ (map_modify inside (inductionHypothesis below))

theorem Atom.holdsIn_withArguments {a : Atom} {ts : List Term}
    (same : ts.map (Term.valueIn meaning values) = a.arguments.map (Term.valueIn meaning values)) :
    (a.withArguments ts).holdsIn meaning values ↔ a.holdsIn meaning values := by
  cases a with
  | predicate name arguments =>
    rw [withArguments, holdsIn, holdsIn, Term.valuesIn_eq_map, Term.valuesIn_eq_map, same]
    rfl
  | equality left right =>
    obtain ⟨first, second, rfl⟩ : ∃ first second, ts = [first, second] :=
      List.length_eq_two.1 (by simpa [arguments] using congrArg List.length same)
    obtain ⟨sameLeft, rest⟩ := List.cons.inj same
    obtain ⟨sameRight, _⟩ := List.cons.inj rest
    rw [withArguments, holdsIn, holdsIn, sameLeft, sameRight]

theorem Atom.holdsIn_replaceAt {old new : Term}
    (same : new.valueIn meaning values = old.valueIn meaning values) {position : Position}
    {a : Atom} (there : a.at? position = some old) :
    (a.replaceAt new position).holdsIn meaning values ↔ a.holdsIn meaning values := by
  cases position with
  | nil => exact Iff.rfl
  | cons argument rest =>
    obtain ⟨t, inside, below⟩ := Option.bind_eq_some_iff.1 there
    exact holdsIn_withArguments (map_modify inside (Term.valueIn_replaceAt same below))

/-! ### Matching -/

/-- A match turns the pattern into the target. -/
theorem Term.substitute_eq_of_matchWith {pattern target : Term} {σ matched : Substitution}
    (found : pattern.matchWith target σ = some matched) : pattern.substitute matched = target :=
  ((allows_matchWith_iff pattern target σ).1 ⟨matched, found, matched.admits_value⟩).2

/-! ### Valid literals -/

/-- Literals are valid together when under every assignment one of them holds. -/
def Literal.AllValid (meaning : Interpretation Universe) (ls : List Literal) : Prop :=
  ∀ values, ∃ l ∈ ls, l.holdsIn meaning values

/-- Validity passes from clauses to their instances, factors and resolvents. -/
theorem resolutionInvariant_allValid (meaning : Interpretation Universe) :
    ResolutionInvariant (Literal.AllValid meaning) where
  instantiate ls θ valid values := by
    obtain ⟨l, member, holds⟩ := valid (values.through meaning θ)
    exact ⟨l.substitute θ, mem_firstOccurrences.2 (List.mem_map_of_mem member),
      (l.holdsIn_substitute meaning values θ).2 holds⟩
  resolve first second l m θ validFirst validSecond memberFirst memberSecond isPositive isNegative
      same values := by
    have kept : ∀ other ∈ first.erase l ++ second.erase m,
        other.holdsIn meaning (values.through meaning θ) →
          ∃ k ∈ firstOccurrences
            (Literal.substituteList θ (first.erase l ++ second.erase m)),
            k.holdsIn meaning values := fun other member holds =>
      ⟨other.substitute θ, mem_firstOccurrences.2 (List.mem_map_of_mem member),
        (other.holdsIn_substitute meaning values θ).2 holds⟩
    obtain ⟨other, memberOther, holds⟩ := validFirst (values.through meaning θ)
    by_cases resolved : other = l
    · obtain ⟨another, memberAnother, holdsAnother⟩ := validSecond (values.through meaning θ)
      by_cases resolvedToo : another = m
      · -- Both clauses hold by the literals that are resolved upon, which contradict each other.
        subst resolved resolvedToo
        have positive : (other.atom.substitute θ).holdsIn meaning values := by
          rw [Atom.holdsIn_substitute]
          simpa only [Literal.holdsIn, of_decide_eq_true isPositive] using holds
        have negative : ¬ (another.atom.substitute θ).holdsIn meaning values := by
          rw [Atom.holdsIn_substitute]
          simpa only [Literal.holdsIn, of_decide_eq_true isNegative] using holdsAnother
        exact absurd (same ▸ positive) negative
      · exact kept another (List.mem_append_right _
          ((List.mem_erase_of_ne resolvedToo).2 memberAnother)) holdsAnother
    · exact kept other (List.mem_append_left _ ((List.mem_erase_of_ne resolved).2 memberOther)) holds

/-! ### Demodulation and paramodulation -/

/-- An equation holds under an assignment exactly if its sides have the same value. -/
theorem Interpretation.IsNormal.holdsIn_iff (normal : meaning.IsNormal) {left right : Term} :
    (Atom.equality left right).holdsIn meaning values ↔
      left.valueIn meaning values = right.valueIn meaning values :=
  normal _ _

/-- Demodulation exchanges a subterm. -/
theorem exists_of_demodulate {equation a changed : Atom}
    (found : demodulate equation a = some changed) :
    ∃ new position, changed = a.replaceAt new position := by
  obtain ⟨⟨left, right⟩, _, rest⟩ := Option.bind_eq_some_iff.1 found
  obtain ⟨⟨position, σ⟩, _, replaced⟩ := Option.bind_eq_some_iff.1 rest
  dsimp only at replaced
  split at replaced
  · exact absurd replaced nofun
  · exact ⟨_, position, (Option.some.inj replaced).symm⟩

theorem holdsIn_of_demodulate (normal : meaning.IsNormal) {equation a changed : Atom}
    (valid : equation.isEquality → ∀ values, equation.holdsIn meaning values)
    (found : demodulate equation a = some changed) :
    changed.holdsIn meaning values ↔ a.holdsIn meaning values := by
  obtain ⟨⟨left, right⟩, sides, rest⟩ := Option.bind_eq_some_iff.1 found
  obtain ⟨⟨position, σ⟩, first, replaced⟩ := Option.bind_eq_some_iff.1 rest
  dsimp only at replaced
  split at replaced
  · exact absurd replaced nofun
  · rw [← Option.some.inj replaced]
    cases equation with
    | predicate name ts => exact absurd sides nofun
    | equality first second =>
      obtain ⟨rfl, rfl⟩ := Prod.mk.inj (Option.some.inj sides)
      obtain ⟨subterm, there, matched⟩ := Atom.at?_of_search _ _ first
      refine Atom.holdsIn_replaceAt ?_ there
      rw [← Term.substitute_eq_of_matchWith matched, Term.valueIn_substitute,
        Term.valueIn_substitute]
      exact normal.holdsIn_iff.1 (valid rfl (values.through meaning σ))

/-- What is known of a site: it changes a literal of the target by a positive equality of the
source, read in one direction or the other. -/
structure ParamodulationSite.Proper (site : ParamodulationSite) : Prop where
  target : site.target.literals = site.before ++ site.literal :: site.after
  member : site.equation ∈ site.source.literals
  positive : site.equation.isPositive
  sides : site.equation.atom = .equality site.old site.new ∨
    site.equation.atom = .equality site.new site.old

theorem append_of_mem_splits {Element : Type} {list before after : List Element}
    {element : Element} (member : (before, element, after) ∈ splits list) :
    list = before ++ element :: after := by
  induction list generalizing before with
  | nil => exact absurd member List.not_mem_nil
  | cons first rest inductionHypothesis =>
    rcases List.mem_cons.1 member with same | later
    · obtain ⟨rfl, rfl, rfl⟩ := by simpa using same
      rfl
    · obtain ⟨⟨front, found, back⟩, inside, same⟩ := List.mem_map.1 later
      obtain ⟨rfl, rfl, rfl⟩ := by simpa using same
      rw [inductionHypothesis inside]
      rfl

theorem proper_of_mem_sitesFrom {target source : Clause} {site : ParamodulationSite}
    (member : site ∈ sitesFrom target source) :
    site.Proper ∧ site.target = target ∧ site.source = source := by
  obtain ⟨equation, positive, inside⟩ := List.mem_flatMap.1 member
  obtain ⟨memberSource, isPositive⟩ := List.mem_filter.1 positive
  split at inside
  · exact absurd inside List.not_mem_nil
  · next left right sides =>
    have atom : equation.atom = .equality left right := by
      cases same : equation.atom with
      | predicate name ts => rw [same] at sides; exact absurd sides nofun
      | equality first second =>
        rw [same] at sides
        obtain ⟨rfl, rfl⟩ := Prod.mk.inj (Option.some.inj sides)
        rfl
    obtain ⟨⟨old, new⟩, direction, made⟩ := List.mem_flatMap.1 inside
    obtain ⟨⟨before, literal, after⟩, split, rfl⟩ := List.mem_map.1 made
    refine ⟨⟨append_of_mem_splits split, memberSource, isPositive, ?_⟩, rfl, rfl⟩
    rcases List.mem_cons.1 direction with forward | rest
    · obtain ⟨rfl, rfl⟩ := Prod.mk.inj forward
      exact Or.inl atom
    · obtain ⟨rfl, rfl⟩ := Prod.mk.inj (List.mem_singleton.1 rest)
      exact Or.inr atom

/-- A property of the literals of clauses that demodulation with the given equations preserves. -/
structure DemodulationInvariant (equations : List Atom) (holds : List Literal → Prop) : Prop where
  demodulate : ∀ equation ∈ equations, ∀ before l after changed,
    holds (before ++ l :: after) → ClausalReasoner.demodulate equation l.atom = some changed →
      holds (firstOccurrences (before ++ ⟨changed, l.polarity, false⟩ :: after))

/-- A property of the literals of clauses that is preserved by all rules of the given clause
procedure with the given demodulators. -/
structure EqualityInvariant (equations : List Atom) (holds : List Literal → Prop) : Prop
    extends ResolutionInvariant holds, DemodulationInvariant equations holds where
  paramodulate : ∀ (site : ParamodulationSite) θ ls, site.Proper → holds site.target.literals →
    holds site.source.literals → site.result = some (θ, ls) →
      holds (firstOccurrences (Literal.substituteList θ ls))
  reflexive : ∀ x, holds [.positive (.equality (.var x) (.var x))]

theorem holdsIn_of_atom_iff {l : Literal} {changed : Atom} {mark : Bool}
    (same : changed.holdsIn meaning values ↔ l.atom.holdsIn meaning values) :
    (⟨changed, l.polarity, mark⟩ : Literal).holdsIn meaning values ↔ l.holdsIn meaning values := by
  obtain ⟨a, polarity, reduced⟩ := l
  cases polarity with
  | positive => exact same
  | negative => exact not_congr same

/-- What a site results in was found by unifying the side that is looked for with a subterm. -/
theorem ParamodulationSite.unified_of_result {site : ParamodulationSite} {θ : Substitution}
    {ls : List Literal} (found : site.result = some (θ, ls)) :
    ∃ position subterm, site.literal.atom.at? position = some subterm ∧
      site.old.substitute θ = subterm.substitute θ ∧ ls = site.literals position := by
  obtain ⟨⟨position, unifier⟩, first, replaced⟩ := Option.bind_eq_some_iff.1 found
  dsimp only at replaced
  split at replaced
  · exact absurd replaced nofun
  · obtain ⟨rfl, rfl⟩ := Prod.mk.inj (Option.some.inj replaced)
    obtain ⟨subterm, there, attempt⟩ := Atom.at?_of_search _ _ first
    rw [Term.unlessVariable] at attempt
    split at attempt
    · exact absurd attempt nofun
    · exact ⟨position, subterm, there, Term.substitute_eq_of_unify attempt, rfl⟩

/-- The equality of a site identifies its two sides wherever it holds. -/
theorem ParamodulationSite.Proper.valueIn_eq (normal : meaning.IsNormal)
    {site : ParamodulationSite} (proper : site.Proper)
    (holds : site.equation.holdsIn meaning values) :
    site.new.valueIn meaning values = site.old.valueIn meaning values := by
  rw [Literal.holdsIn, of_decide_eq_true proper.positive] at holds
  rcases proper.sides with forward | backward
  · exact (normal.holdsIn_iff.1 (forward ▸ holds)).symm
  · exact normal.holdsIn_iff.1 (backward ▸ holds)

/-- In a normal interpretation in which the demodulators are valid, demodulation leaves it as it is
whether one of the literals holds, for every assignment by itself. -/
theorem demodulationInvariant_truth (normal : meaning.IsNormal) {equations : List Atom}
    (valid : ∀ equation ∈ equationsAmong equations, ∀ values, equation.holdsIn meaning values)
    (values : Assignment Universe) (truth : Prop) :
    DemodulationInvariant equations fun ls => (∃ l ∈ ls, l.holdsIn meaning values) ↔ truth where
  demodulate equation member before l after changed given found := by
    have same : changed.holdsIn meaning values ↔ l.atom.holdsIn meaning values :=
      holdsIn_of_demodulate normal
        (fun isEquality => valid equation (List.mem_filter.2 ⟨member, isEquality⟩)) found
    rw [← given]
    simp only [mem_firstOccurrences, List.mem_append, List.mem_cons, or_and_right, exists_or,
      exists_eq_left, holdsIn_of_atom_iff same]

/-- In a normal interpretation in which the demodulators are valid, validity passes from clauses to
everything that the given clause procedure makes of them. -/
theorem equalityInvariant_allValid (normal : meaning.IsNormal) {equations : List Atom}
    (valid : ∀ equation ∈ equationsAmong equations, ∀ values, equation.holdsIn meaning values) :
    EqualityInvariant equations (Literal.AllValid meaning) where
  toResolutionInvariant := resolutionInvariant_allValid meaning
  demodulate equation member before l after changed given found values :=
    ((demodulationInvariant_truth normal valid values True).demodulate equation member before l
      after changed (iff_true_intro (given values)) found).2 trivial
  paramodulate site θ ls proper target source found := by
    obtain ⟨position, subterm, there, same, rfl⟩ := site.unified_of_result found
    intro values
    have kept : ∀ other ∈ site.literals position,
        other.holdsIn meaning (values.through meaning θ) →
          ∃ k ∈ firstOccurrences (Literal.substituteList θ (site.literals position)),
            k.holdsIn meaning values := fun other member holds =>
      ⟨other.substitute θ, mem_firstOccurrences.2 (List.mem_map_of_mem member),
        (other.holdsIn_substitute meaning values θ).2 holds⟩
    obtain ⟨other, member, holds⟩ := source (values.through meaning θ)
    by_cases isEquation : other = site.equation
    · have sameSides := proper.valueIn_eq normal (isEquation ▸ holds)
      have sameSubterm : subterm.valueIn meaning (values.through meaning θ) =
          site.old.valueIn meaning (values.through meaning θ) := by
        rw [← Term.valueIn_substitute, ← Term.valueIn_substitute, same]
      obtain ⟨another, inside, holdsAnother⟩ := target (values.through meaning θ)
      rw [proper.target] at inside
      rcases List.mem_append.1 inside with early | late
      · exact kept another
          (List.mem_append_left _ (List.mem_append_left _ early)) holdsAnother
      · rcases List.mem_cons.1 late with rfl | later
        · exact kept _
            (List.mem_append_left _ (List.mem_append_right _ List.mem_cons_self))
            ((holdsIn_of_atom_iff
              (Atom.holdsIn_replaceAt (sameSides.trans sameSubterm.symm) there)).2 holdsAnother)
        · exact kept another (List.mem_append_left _
            (List.mem_append_right _ (List.mem_cons_of_mem _ later))) holdsAnother
    · exact kept other (List.mem_append_right _ ((List.mem_erase_of_ne isEquation).2 member)) holds
  reflexive x values :=
    ⟨_, List.mem_singleton_self _, (normal _ _).2 rfl⟩

end ClausalReasoner

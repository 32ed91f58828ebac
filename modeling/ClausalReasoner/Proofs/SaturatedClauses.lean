/-
This file shows that clauses from which nothing new can be inferred have a model. Clauses are taken
to be saturated when what factoring and resolution would make of their instances is again covered by
one of them. Some literals may be set aside, which the clauses then have to do without; as long as
no clause consists of such literals only there is an interpretation in which the others suffice.

The model is made of terms. Literals are denied, as many as possible, so that no instance of a
clause loses all of its literals. When a literal and its negation could both not be denied, each
because of some instance, then resolving the two clauses would leave an instance that has lost all
of its literals already, so at least one of the two is denied and what is not denied is true.
-/

import Mathlib.Data.Set.Finite.Lattice
import Mathlib.Order.Preorder.Chain
import Mathlib.Order.Zorn
import ClausalReasoner.Semantics
import ClausalReasoner.Proofs.Replacement

namespace ClausalReasoner

universe u

/-! ### Replacing the variables of a literal -/

namespace Literal

/-- Put terms in the place of the variables in the atom of a literal. -/
def replace (value : Variable → Term) (l : Literal) : Literal :=
  { l with atom := l.atom.replace value }

theorem replace_replace (first second : Variable → Term) (l : Literal) :
    (l.replace first).replace second = l.replace fun v => (first v).replace second := by
  rw [replace, replace, replace, Atom.replace_replace]

theorem replace_congr {first second : Variable → Term} {l : Literal}
    (same : ∀ v ∈ l.occurrences, first v = second v) : l.replace first = l.replace second := by
  rw [replace, replace, Atom.replace_congr same]

end Literal

/-- What is left of two clauses when instances of them are resolved upon a literal is covered by an
instance of one of the given clauses. -/
def ResolvesIn (cs : List Clause) (c d : Clause) : Prop :=
  ∀ l ∈ c.positives, ∀ m ∈ d.negatives, ∀ first second,
    l.atom.replace first = m.atom.replace second →
      ∃ r ∈ cs, ∃ into : Variable → Term, ∀ k ∈ r.literals,
        k.replace into ∈ (c.literals.erase l).map (Literal.replace first) ++
          (d.literals.erase m).map (Literal.replace second)

/-- Clauses are saturated when they cover what can be inferred from their instances: merging two
literals that an instance makes equal is covered by a clause with fewer literals, and any two of the
clauses are resolved. -/
structure Saturated (cs : List Clause) : Prop where
  factor : ∀ c ∈ cs, ∀ l ∈ c.literals, ∀ m ∈ c.literals, l ≠ m → ∀ value,
    l.replace value = m.replace value →
      ∃ d ∈ cs, d.size < c.size ∧ ∃ into : Variable → Term,
        ∀ k ∈ d.literals, k.replace into ∈ c.literals.map (Literal.replace value)
  resolvent : ∀ c ∈ cs, ∀ d ∈ cs, ResolvesIn cs c d

namespace Saturated

/-! ### Denying literals -/

/-- Every instance of every clause keeps a literal that is neither set aside nor denied. -/
def LeavesSome (cs : List Clause) (aside : Literal → Prop) (denied : Set Literal) : Prop :=
  ∀ c ∈ cs, ∀ value, ∃ l ∈ c.literals, ¬ aside l ∧ l.replace value ∉ denied

variable {cs : List Clause} {aside : Literal → Prop} {denied : Set Literal}

/-- An instance of a clause has lost all literals but those that are set aside. -/
def Exhausts (aside : Literal → Prop) (denied : Set Literal) (c : Clause)
    (value : Variable → Term) : Prop :=
  ∀ l ∈ c.literals, ¬ aside l → l.replace value ∈ denied

theorem leavesSome_iff : LeavesSome cs aside denied ↔
    ∀ c ∈ cs, ∀ value, ¬ Exhausts aside denied c value := by
  simp only [LeavesSome, Exhausts, not_forall, exists_prop]

/-- Whether a literal is set aside depends on its symbol only. -/
def Symbolic (aside : Literal → Prop) : Prop :=
  ∀ l value, aside (Literal.replace value l) ↔ aside l

/-- What covers an exhausted instance is exhausted. -/
theorem Exhausts.of_subset (symbolic : Symbolic aside) {c : Clause} {into : Variable → Term}
    {ls : List Literal} (covered : ∀ k ∈ c.literals, k.replace into ∈ ls)
    (lost : ∀ l ∈ ls, ¬ aside l → l ∈ denied) : Exhausts aside denied c into :=
  fun k member kept => lost _ (covered k member) fun put => kept ((symbolic k into).1 put)

/-- If denying one more literal exhausts an instance, then there is one in which a single literal
becomes the one denied and all others were lost before. -/
theorem exists_single (saturated : Saturated cs) (symbolic : Symbolic aside)
    (leaves : LeavesSome cs aside denied) {last : Literal}
    (exhausted : ¬ LeavesSome cs aside (insert last denied)) :
    ∃ c ∈ cs, ∃ value, ∃ l ∈ c.literals, ¬ aside l ∧ l.replace value = last ∧
      ∀ k ∈ c.literals, k ≠ l → ¬ aside k → k.replace value ∈ denied := by
  simp only [leavesSome_iff, not_forall, not_not, exists_prop] at exhausted
  obtain ⟨c, member, value, lost⟩ := exhausted
  induction size : c.size using Nat.strong_induction_on generalizing c value with
  | _ number inductionHypothesis =>
    obtain ⟨l, inside, kept, undenied⟩ := leaves c member value
    have isLast : ∀ k ∈ c.literals, ¬ aside k → k.replace value ∉ denied →
        k.replace value = last :=
      fun k there kept undenied => (lost k there kept).resolve_right undenied
    by_cases another : ∃ k ∈ c.literals, k ≠ l ∧ ¬ aside k ∧ k.replace value ∉ denied
    · obtain ⟨k, there, different, keptToo, undeniedToo⟩ := another
      have equal : k.replace value = l.replace value :=
        (isLast k there keptToo undeniedToo).trans (isLast l inside kept undenied).symm
      obtain ⟨d, among, smaller, into, covered⟩ :=
        saturated.factor c member k there l inside different value equal
      refine inductionHypothesis d.size (size ▸ smaller) d among into ?_ rfl
      refine Exhausts.of_subset symbolic covered fun m image unset => ?_
      obtain ⟨source, origin, rfl⟩ := List.mem_map.1 image
      exact lost source origin fun put => unset ((symbolic source value).2 put)
    · refine ⟨c, member, value, l, inside, kept, isLast l inside kept undenied, ?_⟩
      intro k there different keptToo
      by_contra undeniedToo
      exact another ⟨k, there, different, keptToo, undeniedToo⟩

/-- Of a literal and its negation one can be denied if nothing is exhausted yet. -/
theorem leavesSome_insert (saturated : Saturated cs) (symbolic : Symbolic aside)
    (leaves : LeavesSome cs aside denied) (a : Atom) :
    LeavesSome cs aside (insert (.positive a) denied) ∨
      LeavesSome cs aside (insert (.negative a) denied) := by
  by_contra neither
  obtain ⟨noPositive, noNegative⟩ := not_or.1 neither
  obtain ⟨c, member, first, l, inside, _, isPositive, others⟩ :=
    saturated.exists_single symbolic leaves noPositive
  obtain ⟨d, among, second, m, there, _, isNegative, rest⟩ :=
    saturated.exists_single symbolic leaves noNegative
  have positive : l ∈ c.positives :=
    List.mem_filter.2 ⟨inside, decide_eq_true (congrArg Literal.polarity isPositive)⟩
  have negative : m ∈ d.negatives :=
    List.mem_filter.2 ⟨there, decide_eq_true (congrArg Literal.polarity isNegative)⟩
  have equal : l.atom.replace first = m.atom.replace second :=
    (congrArg Literal.atom isPositive).trans (congrArg Literal.atom isNegative).symm
  obtain ⟨r, inferred, into, covered⟩ :=
    saturated.resolvent c member d among l positive m negative first second equal
  refine leavesSome_iff.1 leaves r inferred into ?_
  refine Exhausts.of_subset symbolic covered fun k image unset => ?_
  have lost : ∀ (e : Clause) (key : Literal) (value : Variable → Term),
      (∀ k ∈ e.literals, k ≠ key → ¬ aside k → k.replace value ∈ denied) →
        k ∈ (e.literals.erase key).map (Literal.replace value) → k ∈ denied := by
    intro e key value others image
    obtain ⟨source, origin, rfl⟩ := List.mem_map.1 image
    obtain ⟨different, origin⟩ := (List.Nodup.mem_erase_iff e.distinct).1 origin
    exact others source origin different fun put => unset ((symbolic source value).2 put)
  rcases List.mem_append.1 image with left | right
  · exact lost c l first others left
  · exact lost d m second rest right

/-- Literals can be denied until no more can be. -/
theorem exists_maximal (none : LeavesSome cs aside ∅) :
    ∃ denied, Maximal (LeavesSome cs aside) denied := by
  refine zorn_subset {denied | LeavesSome cs aside denied} fun chain members isChain => ?_
  rcases chain.eq_empty_or_nonempty with rfl | nonempty
  · exact ⟨∅, none, fun s member => absurd member (Set.notMem_empty s)⟩
  · refine ⟨⋃₀ chain, ?_, fun s member => Set.subset_sUnion_of_mem member⟩
    refine leavesSome_iff.2 fun c member value lost => ?_
    -- an instance is finite, so a single member of the chain has denied all it lost
    have finite : {k | ∃ l ∈ c.literals, ¬ aside l ∧ k = l.replace value}.Finite := by
      refine (List.finite_toSet (c.literals.map (Literal.replace value))).subset ?_
      rintro k ⟨l, inside, _, rfl⟩
      exact List.mem_map_of_mem inside
    have among : {k | ∃ l ∈ c.literals, ¬ aside l ∧ k = l.replace value} ⊆ ⋃₀ chain := by
      rintro k ⟨l, inside, kept, rfl⟩
      exact lost l inside kept
    obtain ⟨denied, inChain, all⟩ :=
      isChain.directedOn.exists_mem_subset_of_finite_of_subset_sUnion nonempty finite among
    exact leavesSome_iff.1 (members inChain) c member value fun l inside kept =>
      all ⟨l, inside, kept, rfl⟩

/-- Where as much as possible is denied, one of a literal and its negation is. -/
theorem denied_of_maximal (saturated : Saturated cs) (symbolic : Symbolic aside)
    (maximal : Maximal (LeavesSome cs aside) denied) (a : Atom) :
    Literal.positive a ∈ denied ∨ Literal.negative a ∈ denied :=
  (saturated.leavesSome_insert symbolic maximal.prop a).imp
    (fun leaves => maximal.le_of_ge leaves (Set.subset_insert _ denied) (Set.mem_insert _ denied))
    (fun leaves => maximal.le_of_ge leaves (Set.subset_insert _ denied) (Set.mem_insert _ denied))

/-! ### The model -/

end Saturated

/-- The interpretation over terms in which the given atoms hold and every term is its own value. -/
def Interpretation.ofTerms (truth : Atom → Prop) : Interpretation (ULift.{u} Term) where
  constant name := ⟨.constant name⟩
  function name values := ⟨.app name (values.map ULift.down)⟩
  predicate name values := truth (.predicate name (values.map ULift.down))
  equality left right := truth (.equality left.down right.down)

section ofTerms

variable (truth : Atom → Prop) (values : Assignment (ULift.{u} Term))

mutual

/-- The value of a term is what becomes of the term when its variables are replaced. -/
theorem Term.valueIn_ofTerms : ∀ t : Term,
    (t.valueIn (.ofTerms truth) values).down = t.replace fun v => (values v).down
  | .constant _ => rfl
  | .var _ => rfl
  | .app function ts => by
    rw [valueIn, replace, ← Term.valuesIn_ofTerms ts]
    rfl

/-- The values of terms are what becomes of them when their variables are replaced. -/
theorem Term.valuesIn_ofTerms : ∀ ts : List Term,
    (valuesIn (.ofTerms truth) values ts).map ULift.down =
      replaceList (fun v => (values v).down) ts
  | [] => rfl
  | t :: ts => by
    rw [valuesIn, replaceList, ← Term.valueIn_ofTerms t, ← Term.valuesIn_ofTerms ts]
    rfl

end

theorem Atom.holdsIn_ofTerms (a : Atom) :
    a.holdsIn (.ofTerms truth) values ↔ truth (a.replace fun v => (values v).down) := by
  cases a with
  | predicate name ts =>
    rw [replace, ← Term.valuesIn_ofTerms truth values ts]
    rfl
  | equality left right =>
    rw [replace, ← Term.valueIn_ofTerms truth values left, ← Term.valueIn_ofTerms truth values right]
    rfl

end ofTerms

/-- Saturated clauses without reduced literals have a model in which the literals that were set
aside are false, unless one of the clauses consists of such literals only. -/
theorem Saturated.exists_model {cs : List Clause} (saturated : Saturated cs)
    (plain : ∀ c ∈ cs, ∀ l ∈ c.literals, l.reduced = false) {aside : Literal → Prop}
    (symbolic : Symbolic aside) (some : ∀ c ∈ cs, ∃ l ∈ c.literals, ¬ aside l) :
    ∃ truth : Atom → Prop, (∀ a, aside (.positive a) → ¬ truth a) ∧
      ∀ c ∈ cs, c.ValidIn (Interpretation.ofTerms.{u} truth) := by
  have none : LeavesSome cs aside ∅ := fun c member value =>
    (some c member).imp fun l kept => ⟨kept.1, kept.2, Set.notMem_empty _⟩
  obtain ⟨denied, maximal⟩ := exists_maximal none
  refine ⟨fun a => ¬ aside (.positive a) ∧ .positive a ∉ denied, fun a put holds => holds.1 put, ?_⟩
  intro c member values
  obtain ⟨l, inside, kept, undenied⟩ := maximal.prop c member fun v => (values v).down
  refine ⟨l, inside, ?_⟩
  obtain ⟨a, polarity, reduced⟩ := l
  obtain rfl : reduced = false := plain c member _ inside
  cases polarity with
  | positive =>
    refine (Atom.holdsIn_ofTerms _ values a).2 ⟨fun put => kept ?_, undenied⟩
    exact (symbolic (.positive a) _).1 put
  | negative =>
    intro holds
    obtain ⟨_, affirmed⟩ := (Atom.holdsIn_ofTerms _ values a).1 holds
    exact (saturated.denied_of_maximal symbolic maximal _).elim affirmed undenied

end ClausalReasoner

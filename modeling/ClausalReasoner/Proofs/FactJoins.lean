/-
This file says what joining atoms with facts finds. Whatever is found makes every one of the atoms an
instance of a fact, even though facts are not given fresh variables and one of their variables may
be met again further on: what a later step binds only refines what was found before. And everything
is found: a replacement that makes each atom equal to a fact respects one of the substitutions.
-/

import ClausalReasoner.Proofs.Composition
import ClausalReasoner.Proofs.StoredClauses

namespace ClausalReasoner

/-! ### Headings -/

/-- The heading of a literal tells its polarity. -/
theorem Literal.polarity_of_heading {l : Literal} {a : Atom}
    (same : l.heading = (Literal.positive a).heading) : l.polarity = .positive := by
  cases polarity : l.polarity with
  | positive => rfl
  | negative =>
    have texts : "-" ++ l.atom.symbol = "+" ++ a.symbol := by
      rw [heading, polarity] at same
      exact same
    have characters := congrArg String.toList texts
    rw [String.toList_append, String.toList_append] at characters
    exact absurd (List.cons.inj characters).1 (by decide)

theorem Atom.symbol_eq_of_unify {a b : Atom} {θ : Substitution} (found : a.unify b = some θ) :
    a.symbol = b.symbol := by
  have same := (sameSymbol_of_unify found).1
  cases a <;> cases b <;> simp_all [sameSymbol, symbol]

namespace KnowledgeBase

variable {kb : KnowledgeBase} {a : Atom} {atoms : List Atom} {θ : Substitution}
  {origins : List StepNumber}

/-- A literal is stored as a unit clause. -/
def StoresUnit (kb : KnowledgeBase) (k : Literal) : Prop :=
  ∃ c ∈ kb.clauses.toList, c.literals = [k]

theorem storesUnit_iff {k : Literal} :
    kb.StoresUnit k ↔ [k] ∈ kb.clauses.toList.map Clause.literals := by
  simp only [StoresUnit, List.mem_map]

/-- An atom is stored as a fact. -/
def IsFact (kb : KnowledgeBase) (a : Atom) : Prop :=
  ∃ c ∈ kb.clauses.toList, c.literals = [.positive a]

/-! ### Fetching facts -/

/-- What is fetched for an atom are its unifiers with facts, and the steps that these came from. -/
theorem exists_isFact_of_mem_fetchFacts (filed : kb.Filed)
    (plain : ∀ c ∈ kb.clauses.toList, ∀ l ∈ c.literals, l.reduced = false)
    {found : Substitution × Option StepNumber} (member : found ∈ kb.fetchFacts (.positive a)) :
    ∃ fact, kb.IsFact fact ∧ a.unify fact = some found.1 := by
  obtain ⟨c, isUnder, matched⟩ := List.mem_filterMap.1 member
  obtain ⟨l, first, unified⟩ := Option.bind_eq_some_iff.1 matched
  obtain ⟨θ, unifier, rfl⟩ := Option.map_eq_some_iff.1 unified
  rw [filed.facts] at isUnder
  obtain ⟨inside, under⟩ := List.mem_filter.1 isUnder
  obtain ⟨k, literals, heading⟩ := Clause.exists_of_isUnder under
  rw [literals] at first
  obtain rfl : k = l := Option.some.inj first
  have isPlain := plain c inside k (literals ▸ List.mem_singleton_self k)
  have isPositive := Literal.polarity_of_heading heading
  obtain ⟨fact, polarity, reduced⟩ := k
  obtain rfl : reduced = false := isPlain
  obtain rfl : polarity = .positive := isPositive
  exact ⟨fact, ⟨c, inside, literals⟩, unifier⟩

/-- Every unifier of a literal with a stored unit clause of its polarity is fetched, with the step
that the clause came from. -/
theorem exists_mem_fetchFacts_of_storesUnit (filed : kb.Filed) {l k : Literal}
    (stored : kb.StoresUnit k) (polarity : k.polarity = l.polarity)
    (unifier : l.atom.unify k.atom = some θ) :
    ∃ number, (θ, some number) ∈ kb.fetchFacts l := by
  obtain ⟨c, inside, literals⟩ := stored
  obtain ⟨number, origin⟩ := Option.isSome_iff_exists.1 (filed.origins c inside)
  have heading : k.heading = l.heading := by
    rw [Literal.heading, Literal.heading, polarity, Atom.symbol_eq_of_unify unifier]
  refine ⟨number, List.mem_filterMap.2 ⟨c, ?_, ?_⟩⟩
  · rw [filed.facts]
    refine List.mem_filter.2 ⟨inside, ?_⟩
    rw [c.isUnder_of_literals literals]
    exact decide_eq_true heading
  · rw [literals, origin]
    show (l.atom.unify k.atom).map _ = _
    rw [unifier]
    rfl

/-- Every unifier of an atom with a fact is fetched, with the step that the fact came from. -/
theorem exists_mem_fetchFacts (filed : kb.Filed) {fact : Atom} (isFact : kb.IsFact fact)
    (unifier : a.unify fact = some θ) :
    ∃ number, (θ, some number) ∈ kb.fetchFacts (.positive a) :=
  exists_mem_fetchFacts_of_storesUnit (l := .positive a) (k := .positive fact) filed isFact rfl
    unifier

/-! ### Joining facts -/

/-- An atom is an instance of a fact. -/
def IsInstanceOfFact (kb : KnowledgeBase) (a : Atom) : Prop :=
  ∃ fact, kb.IsFact fact ∧ ∃ change : Variable → Term, a = fact.replace change

/-- A substitution that is found for a list of atoms refines the one that was given, and makes each
atom an instance of a fact. -/
theorem joinFacts_sound (filed : kb.Filed)
    (plain : ∀ c ∈ kb.clauses.toList, ∀ l ∈ c.literals, l.reduced = false)
    {found : Substitution × List StepNumber}
    (member : found ∈ kb.joinFacts (atoms.map Literal.positive) θ origins) :
    found.1.Refines θ.value ∧ ∀ a ∈ atoms, kb.IsInstanceOfFact (a.substitute found.1) := by
  induction atoms generalizing θ origins with
  | nil =>
    rw [List.mem_singleton.1 member]
    exact ⟨.refl θ, fun a absent => absurd absent List.not_mem_nil⟩
  | cons first rest inductionHypothesis =>
    obtain ⟨⟨binding, origin⟩, fetched, inside⟩ := List.mem_flatMap.1 member
    obtain ⟨fact, isFact, unifier⟩ := exists_isFact_of_mem_fetchFacts filed plain fetched
    obtain ⟨refines, instances⟩ := inductionHypothesis inside
    have composed := refines.trans
      (Substitution.refines_compose (Atom.isFunctional_of_unify unifier))
    refine ⟨composed.ofSubstitute, List.forall_mem_cons.2 ⟨?_, instances⟩⟩
    obtain ⟨change, changed⟩ := composed.exists_instance first
    refine ⟨fact, isFact, fun v => (binding.value v).replace change, ?_⟩
    calc first.substitute found.1
        = ((first.substitute θ).substitute binding).replace change := by
          rw [changed]
          exact congrArg (Atom.replace change) (first.replace_replace θ.value binding.value).symm
      _ = (fact.substitute binding).replace change := by
          rw [Atom.substitute_eq_of_unify unifier]
      _ = fact.replace fun v => (binding.value v).replace change :=
          fact.replace_replace binding.value change

/-- A replacement that makes each literal of a list equal to a stored unit clause of its polarity
respects one of the substitutions that are found. -/
theorem joinFacts_complete (filed : kb.Filed) {ls : List Literal} {value : Variable → Term}
    (facts : ∀ l ∈ ls, ∃ k, kb.StoresUnit k ∧ k.polarity = l.polarity ∧
      l.atom.replace value = k.atom.replace value)
    (respects : Substitution.Respects value θ) :
    ∃ found ∈ kb.joinFacts ls θ origins, Substitution.Respects value found.1 := by
  induction ls generalizing θ origins with
  | nil => exact ⟨_, List.mem_singleton_self _, respects⟩
  | cons first rest inductionHypothesis =>
    obtain ⟨⟨k, stored, polarity, equal⟩, later⟩ := List.forall_mem_cons.1 facts
    have unifiable : (first.substitute θ).atom.replace value = k.atom.replace value := by
      rw [← equal]
      exact congrArg Literal.atom (Literal.replace_substitute respects first)
    obtain ⟨binding, unifier, respectsBinding⟩ := Atom.exists_unify unifiable
    obtain ⟨number, fetched⟩ := exists_mem_fetchFacts_of_storesUnit
      (l := first.substitute θ) filed stored polarity unifier
    obtain ⟨found, inside, respectsFound⟩ : ∃ found ∈ kb.joinFacts rest
        (θ.compose binding) (origins ++ [number]), Substitution.Respects value found.1 :=
      inductionHypothesis later
        (respects.compose respectsBinding (Atom.isFunctional_of_unify unifier))
    exact ⟨found, List.mem_flatMap.2 ⟨_, fetched, inside⟩, respectsFound⟩

/-- What is found for the body of a rule makes each of its atoms an instance of a fact. -/
theorem fetchAllFacts_sound (filed : kb.Filed)
    (plain : ∀ c ∈ kb.clauses.toList, ∀ l ∈ c.literals, l.reduced = false) {body : List Literal}
    {found : Substitution × List StepNumber}
    (member : found ∈ kb.fetchAllFacts (body.map fun l => .positive l.atom)) :
    ∀ l ∈ body, kb.IsInstanceOfFact (l.atom.substitute found.1) := by
  have atoms : found ∈ kb.joinFacts ((body.map Literal.atom).map .positive) ∅ [] := by
    rw [List.map_map]
    exact member
  exact fun l inside => (joinFacts_sound filed plain atoms).2 l.atom (List.mem_map_of_mem inside)

/-- A replacement that makes each atom of the body of a rule equal to a fact respects one of the
substitutions that are found. -/
theorem fetchAllFacts_complete (filed : kb.Filed) {body : List Literal} {value : Variable → Term}
    (facts : ∀ l ∈ body, ∃ fact, kb.IsFact fact ∧ l.atom.replace value = fact.replace value) :
    ∃ found ∈ kb.fetchAllFacts (body.map fun l => .positive l.atom),
      Substitution.Respects value found.1 := by
  refine joinFacts_complete filed (fun k member => ?_) (Substitution.respects_empty value)
  obtain ⟨l, inside, rfl⟩ := List.mem_map.1 member
  obtain ⟨fact, isFact, equal⟩ := facts l inside
  exact ⟨.positive fact, isFact, rfl, equal⟩

end KnowledgeBase

end ClausalReasoner

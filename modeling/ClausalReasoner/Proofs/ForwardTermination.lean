/-
This file shows that chaining forward ends where facts are ground, rules are range restricted and
definite clauses hold no functions. What a rule derives then is an atom over the predicates and the
constants of the definite clauses, and there are only so many of these. A round that goes on has
collected something; what it collects is no fact yet, because a ground fact is a renaming of itself,
and it is one when the round is over, because no other clause has its key. So every round but the
last makes the atoms that are no facts fewer.

Inside a round the loops that go on until nothing changes are cascades. Those of unification end
whatever is unified. Those of what was found for the body of a rule end as well, since a ground fact
binds a variable to nothing that holds a variable.
-/

import ClausalReasoner.Proofs.ForwardCompleteness
import ClausalReasoner.Proofs.RenamingTest
import ClausalReasoner.Proofs.RetrievalTermination
import Mathlib.Data.List.Sections

namespace ClausalReasoner

/-! ### Atoms over given constants -/

/-- To choose so many times from one list is to make a list of its members. -/
theorem mem_sections_replicate {Element : Type} {list choices : List Element} {number : Nat} :
    list ∈ (List.replicate number choices).sections ↔
      list.length = number ∧ ∀ element ∈ list, element ∈ choices := by
  rw [List.mem_sections]
  induction number generalizing list with
  | zero => simp +contextual
  | succ number inductionHypothesis =>
    cases list with
    | nil => simp [List.replicate_succ]
    | cons element rest =>
      simp [List.replicate_succ, inductionHypothesis, and_left_comm]

/-- The term that a symbol is by itself, if it is a constant. -/
def Symbol.asConstant? : Symbol → Option Term
  | .constant name => some (.constant name)
  | _ => none

namespace Atom

theorem withArguments_of_sameSymbol {a b : Atom} (same : a.sameSymbol b) :
    a.withArguments b.arguments = b := by
  cases a <;> cases b <;> simp_all [sameSymbol, withArguments, arguments]

theorem sameSymbol_withArguments (a : Atom) (ts : List Term) :
    a.sameSymbol (a.withArguments ts) := by
  cases a with
  | predicate name us => simp [withArguments, sameSymbol]
  | equality left right => unfold withArguments; split <;> simp_all [sameSymbol]

end Atom

namespace KnowledgeBase

/-- The atoms of the definite clauses. -/
def definiteAtoms (kb : KnowledgeBase) : List Atom :=
  kb.storedDefinites.flatMap fun c => c.literals.map Literal.atom

/-- The constants of the definite clauses. -/
def definiteConstants (kb : KnowledgeBase) : List Term :=
  (kb.storedDefinites.flatMap Clause.symbols).filterMap Symbol.asConstant?

/-- The ground atoms over the predicates and the constants of the definite clauses: each atom of
these with constants for arguments, in every way. -/
def groundAtoms (kb : KnowledgeBase) : Finset Atom :=
  (kb.definiteAtoms.flatMap fun a =>
    (List.replicate a.arity kb.definiteConstants).sections.map a.withArguments).toFinset

/-- No function is applied in a definite clause. -/
def FunctionFree (kb : KnowledgeBase) : Prop :=
  ∀ c ∈ kb.storedDefinites, ∀ name, Symbol.function name ∉ c.symbols

variable {kb later : KnowledgeBase} {fact a : Atom} {t : Term}

theorem mem_definiteAtoms :
    a ∈ kb.definiteAtoms ↔ ∃ c ∈ kb.storedDefinites, ∃ l ∈ c.literals, l.atom = a := by
  simp only [definiteAtoms, List.mem_flatMap, List.mem_map]

/-- The atoms are those that have the symbol of a definite atom and as many arguments, which are
constants. -/
theorem mem_groundAtoms_iff : fact ∈ kb.groundAtoms ↔
    (∃ a ∈ kb.definiteAtoms, a.sameSymbol fact ∧ a.arity = fact.arity) ∧
      ∀ t ∈ fact.arguments, t ∈ kb.definiteConstants := by
  simp only [groundAtoms, List.mem_toFinset, List.mem_flatMap, List.mem_map,
    mem_sections_replicate]
  constructor
  · rintro ⟨a, isDefinite, ts, ⟨long, constants⟩, rfl⟩
    have same := Atom.arguments_withArguments long
    refine ⟨⟨a, isDefinite, a.sameSymbol_withArguments ts, ?_⟩, same.symm ▸ constants⟩
    rw [Atom.arity.eq_def (a.withArguments ts), same, long]
  · rintro ⟨⟨a, isDefinite, same, long⟩, constants⟩
    exact ⟨a, isDefinite, fact.arguments, ⟨long.symm, constants⟩,
      Atom.withArguments_of_sameSymbol same⟩

/-- An argument of a definite atom is a variable, or one of the constants. -/
theorem FunctionFree.argument (functionFree : kb.FunctionFree) (isDefinite : a ∈ kb.definiteAtoms)
    (member : t ∈ a.arguments) :
    (∃ v, t = .var v) ∨ ∃ name, t = .constant name ∧ .constant name ∈ kb.definiteConstants := by
  obtain ⟨c, stored, l, inside, rfl⟩ := mem_definiteAtoms.1 isDefinite
  have known : ∀ symbol ∈ t.symbols, symbol ∈ c.symbols := fun symbol stands =>
    Clause.mem_symbols.2 ⟨l, inside,
      List.mem_append_right _ (Term.mem_symbolsList.2 ⟨t, member, stands⟩)⟩
  cases t with
  | var v => exact Or.inl ⟨v, rfl⟩
  | constant name =>
    refine Or.inr ⟨name, rfl, List.mem_filterMap.2 ⟨.constant name, ?_, rfl⟩⟩
    exact List.mem_flatMap.2 ⟨c, stored, known _ (List.mem_singleton_self _)⟩
  | app function ts => exact absurd (known _ List.mem_cons_self) (functionFree c stored function)

/-- What a rule derives from atoms over the constants is such an atom. -/
theorem FunctionFree.mem_groundAtoms_of_rule (functionFree : kb.FunctionFree) {rule : Clause}
    (stored : rule ∈ kb.storedDefinites) (ranged : rule.IsRangeRestricted) {head : Literal}
    (isHead : head ∈ rule.positives) {value : Variable → Term}
    (body : ∀ l ∈ rule.negatives, l.atom.replace value ∈ kb.groundAtoms) :
    head.atom.replace value ∈ kb.groundAtoms := by
  have isDefinite : ∀ l ∈ rule.literals, l.atom ∈ kb.definiteAtoms :=
    fun l inside => mem_definiteAtoms.2 ⟨rule, stored, l, inside, rfl⟩
  have headDefinite := isDefinite head (List.mem_of_mem_filter isHead)
  have values : ∀ v ∈ head.atom.occurrences, value v ∈ kb.definiteConstants := by
    intro v occurs
    obtain ⟨l, isBody, inBody⟩ := ranged head isHead v occurs
    obtain ⟨t, member, here⟩ := Term.mem_occurrencesList.1 inBody
    have image : t.replace value ∈ (l.atom.replace value).arguments := by
      rw [Atom.arguments_replace, Term.replaceList_eq_map]
      exact List.mem_map_of_mem member
    have constant := (mem_groundAtoms_iff.1 (body l isBody)).2 _ image
    rcases functionFree.argument (isDefinite l (List.mem_of_mem_filter isBody)) member with
      ⟨w, rfl⟩ | ⟨name, rfl, _⟩
    · rw [List.mem_singleton.1 here]
      exact constant
    · exact absurd here List.not_mem_nil
  refine mem_groundAtoms_iff.2 ⟨⟨head.atom, headDefinite, ?_, ?_⟩, fun t member => ?_⟩
  · cases head.atom <;> simp [Atom.replace, Atom.sameSymbol]
  · rw [Atom.arity, Atom.arity, Atom.arguments_replace, Term.length_replaceList]
  · rw [Atom.arguments_replace, Term.replaceList_eq_map] at member
    obtain ⟨s, inside, rfl⟩ := List.mem_map.1 member
    rcases functionFree.argument headDefinite inside with ⟨v, rfl⟩ | ⟨name, rfl, isConstant⟩
    · exact values v (Term.mem_occurrencesList.2 ⟨_, inside, List.mem_singleton_self v⟩)
    · exact isConstant

/-- A ground fact is an atom over the constants. -/
theorem FunctionFree.mem_groundAtoms_of_isFact (functionFree : kb.FunctionFree)
    (isFact : kb.IsFact fact) (ground : fact.isGround) : fact ∈ kb.groundAtoms := by
  obtain ⟨c, inside, literals⟩ := isFact
  have stored : c ∈ kb.storedDefinites :=
    List.mem_filter.2 ⟨inside, Clause.isDefinite_of_literals literals⟩
  have isDefinite : fact ∈ kb.definiteAtoms :=
    mem_definiteAtoms.2 ⟨c, stored, _, literals ▸ List.mem_singleton_self _, rfl⟩
  refine mem_groundAtoms_iff.2 ⟨⟨fact, isDefinite, ?_, rfl⟩, fun t member => ?_⟩
  · cases fact <;> simp [Atom.sameSymbol]
  · rcases functionFree.argument isDefinite member with ⟨v, rfl⟩ | ⟨name, rfl, isConstant⟩
    · have occurs : v ∈ fact.occurrences :=
        Term.mem_occurrencesList.2 ⟨_, member, List.mem_singleton_self v⟩
      exact absurd (Atom.isGround_iff.1 ground v occurs) id
    · exact isConstant

/-! ### Joining ground facts -/

/-- All substitutions that are cascaded while atoms are joined with ground facts are solved. -/
theorem Restricted.isSolved_of_mem_cascaded (restricted : kb.Restricted) (filed : kb.Filed)
    (plain : ∀ c ∈ kb.clauses.toList, ∀ l ∈ c.literals, l.reduced = false) {atoms : List Atom}
    {θ : Substitution} (solved : θ.IsSolved) :
    ∀ σ ∈ kb.cascadedWhileJoining (atoms.map .positive) θ, σ.IsSolved := by
  induction atoms generalizing θ with
  | nil => exact fun σ absent => absurd absent List.not_mem_nil
  | cons first rest inductionHypothesis =>
    intro σ member
    obtain ⟨binding, fetched, inside⟩ := List.mem_flatMap.1 member
    obtain ⟨found, among, rfl⟩ := List.mem_map.1 fetched
    obtain ⟨fact, isFact, unifier⟩ := exists_isFact_of_mem_fetchFacts filed plain among
    have free : ∀ v ∈ found.1.mentioned, θ.get? v = none := by
      intro v mentioned
      rcases (Atom.isSolved_of_unify unifier).2 v mentioned with ofAtom | ofFact
      · obtain ⟨w, _, image⟩ := Atom.mem_occurrences_replace.1 ofAtom
        exact solved.unbound image
      · exact absurd (Atom.isGround_iff.1 (restricted.facts fact isFact) v ofFact) id
    have together : (θ.joinedWith found.1).IsSolved :=
      solved.joinedWith (Atom.isSolved_of_unify unifier).1 (Atom.isFunctional_of_unify unifier)
        (Substitution.rangeFree_of_mentioned free)
    rcases List.mem_cons.1 inside with rfl | further
    · exact together
    · have composed : θ.compose found.1 = θ.joinedWith found.1 :=
        Substitution.cascadeWithin_of_fixed together.cascadeRound_eq
      rw [composed] at further
      exact inductionHypothesis together σ further

end KnowledgeBase

namespace ForwardChaining

open KnowledgeBase

variable {kb later : KnowledgeBase} {query : Literal}

/-! ### What the rounds keep -/

/-- What is true of the knowledge base between the rounds: it is restricted, its rules are those at
the start, and its facts are atoms over the constants at the start. -/
structure Within (kb later : KnowledgeBase) : Prop where
  filed : later.Filed
  regular : later.Regular
  restricted : later.Restricted
  rules : ∀ c ∈ later.clauses.toList, c.isRule → c ∈ kb.storedDefinites
  facts : ∀ fact, later.IsFact fact → fact ∈ kb.groundAtoms

theorem Within.start (filed : kb.Filed) (regular : kb.Regular) (restricted : kb.Restricted)
    (functionFree : kb.FunctionFree) : Within kb kb where
  filed := filed
  regular := regular
  restricted := restricted
  rules _ inside ruled := List.mem_filter.2 ⟨inside, Clause.isDefinite_of_isRule ruled⟩
  facts fact isFact :=
    functionFree.mem_groundAtoms_of_isFact isFact (restricted.facts fact isFact)

/-- What a round collects are atoms over the constants. -/
theorem Within.mem_groundAtoms_of_collected (within : Within kb later)
    (functionFree : kb.FunctionFree) :
    ∀ entry ∈ (roundOf later query).collected, entry.1.atom ∈ kb.groundAtoms := by
  refine forall_mem_collected (fun l => l.atom ∈ kb.groundAtoms)
    (fun rule isRule session head isHead join member _ => ?_) later.session
  rw [within.filed.rules] at isRule
  obtain ⟨stored, ruled⟩ := List.mem_filter.1 isRule
  obtain ⟨forward, _, positives, negatives, _⟩ :=
    (session.copyOf_standardizeApart rule).1.exists_sides
  rw [positives] at isHead
  obtain ⟨original, isOriginal, rfl⟩ := List.mem_map.1 isHead
  -- the variables of the rule get the values that those of its copy have
  let value := fun v => (forward v).substitute join.1
  have ofCopy : ∀ l : Literal, (l.replace forward).atom.substitute join.1 = l.atom.replace value :=
    fun l => l.atom.replace_replace forward join.1.value
  have derived : original.atom.replace value ∈ kb.groundAtoms := by
    refine functionFree.mem_groundAtoms_of_rule (within.rules rule stored ruled)
      (within.restricted.rules rule stored ruled) isOriginal fun l isBody => ?_
    obtain ⟨fact, isFact, change, same⟩ := fetchAllFacts_sound within.filed within.regular.plain
      member (l.replace forward) (negatives ▸ List.mem_map_of_mem isBody)
    rw [ofCopy, Atom.replace_of_isGround (within.restricted.facts fact isFact)] at same
    exact same ▸ within.facts fact isFact
  show (original.replace forward).atom.substitute join.1 ∈ kb.groundAtoms
  rw [ofCopy]
  exact derived

theorem Within.afterRound (within : Within kb later) (functionFree : kb.FunctionFree) :
    Within kb (close later (roundOf later query)) := by
  obtain ⟨filed, regular, restricted, rules, facts⟩ := within
  obtain ⟨added, closed, _⟩ := exists_adds_close later (roundOf later query)
  refine ⟨filed.adds closed, regular_close regular (regular_round regular later.session),
    restricted_close filed regular restricted, fun c inside ruled => ?_, fun fact isFact => ?_⟩
  · exact rules c (mem_of_isRule_of_close filed regular restricted inside ruled) ruled
  · rcases isFact_or_collected_of_close filed regular restricted isFact with
      old | ⟨entry, member, rfl⟩
    · exact facts fact old
    · exact Within.mem_groundAtoms_of_collected ⟨filed, regular, restricted, rules, facts⟩
        functionFree entry member

/-! ### Rounds that bring something new -/

/-- What a round collects is no fact yet. -/
theorem not_isFact_of_mem_collected (filed : later.Filed) (regular : later.Regular) :
    ∀ entry ∈ (roundOf later query).collected, ¬ later.IsFact entry.1.atom := by
  intro entry member isFact
  have positive := (validIn_of_mem_collected.{0} filed regular entry member).1
  have new : later.isRenamingOfFact entry.1 = false :=
    forall_mem_collected (fun l => later.isRenamingOfFact l = false)
      (fun _ _ _ _ _ _ _ unknown => unknown) later.session entry member
  have known : later.isRenamingOfFact entry.1 :=
    filed.isRenamingOfFact_iff.2 ⟨entry.1, positive ▸ isFact, rfl, rfl⟩
  exact absurd (new.symm.trans known) Bool.false_ne_true

instance (later : KnowledgeBase) (fact : Atom) : Decidable (later.IsFact fact) :=
  inferInstanceAs (Decidable (∃ c ∈ later.clauses.toList, c.literals = [.positive fact]))

/-- The number of atoms over the constants that are no facts. -/
def missing (kb later : KnowledgeBase) : Nat :=
  (kb.groundAtoms.filter fun fact => ¬ later.IsFact fact).card

theorem missing_le (kb later : KnowledgeBase) : missing kb later ≤ kb.groundAtoms.card :=
  Finset.card_filter_le _ _

/-- With every round that collects something fewer atoms are no facts. -/
theorem Within.missing_afterRound_lt (within : Within kb later) (functionFree : kb.FunctionFree)
    (something : (roundOf later query).collected ≠ []) :
    missing kb (close later (roundOf later query)) < missing kb later := by
  obtain ⟨entry, member⟩ := List.exists_mem_of_ne_nil _ something
  obtain ⟨added, closed, _, known⟩ :=
    exists_adds_facts query within.filed within.regular within.restricted
  have kept : ∀ fact, later.IsFact fact → (close later (roundOf later query)).IsFact fact := by
    rintro fact ⟨c, inside, literals⟩
    exact ⟨c, closed.clauses ▸ List.mem_append_left _ inside, literals⟩
  refine Finset.card_lt_card (Finset.ssubset_iff_of_subset ?_ |>.2 ⟨entry.1.atom, ?_, ?_⟩)
  · exact Finset.monotone_filter_right _ fun fact _ unknown isFact =>
      unknown (kept fact isFact)
  · exact Finset.mem_filter.2 ⟨within.mem_groundAtoms_of_collected functionFree entry member,
      not_isFact_of_mem_collected within.filed within.regular entry member⟩
  · exact fun inside => (Finset.mem_filter.1 inside).2 (known entry member)

/-! ### The rounds come to an end -/

/-- The knowledge bases in which the rounds for a query begin. -/
def begun (query : Literal) : (fuel : Nat) → KnowledgeBase → List KnowledgeBase
  | 0, _ => []
  | fuel + 1, kb =>
    if (roundOf kb query).answered || (roundOf kb query).collected.isEmpty then [kb]
    else kb :: begun query fuel (close kb (roundOf kb query))

/-- The rounds end when there may be more of them than atoms that are no facts. -/
theorem Within.exists_of_rounds (within : Within kb later) (functionFree : kb.FunctionFree)
    {fuel : Nat} (enough : missing kb later < fuel) :
    ∃ reply, rounds query fuel later = some reply := by
  induction fuel generalizing later with
  | zero => exact absurd enough (Nat.not_lt_zero _)
  | succ fuel inductionHypothesis =>
    rw [rounds]
    split
    · exact ⟨_, rfl⟩
    · split
      · exact ⟨_, rfl⟩
      · next goesOn =>
        have fewer : missing kb (close later (roundOf later query)) < missing kb later :=
          within.missing_afterRound_lt functionFree (mt List.isEmpty_iff.2 goesOn)
        exact inductionHypothesis (within.afterRound functionFree)
          (Nat.lt_of_lt_of_le fewer (Nat.le_of_lt_succ enough))

/-- At most one round more begins than there are atoms that are no facts. -/
theorem Within.length_begun_le (within : Within kb later) (functionFree : kb.FunctionFree)
    (fuel : Nat) : (begun query fuel later).length ≤ missing kb later + 1 := by
  induction fuel generalizing later with
  | zero => exact Nat.zero_le _
  | succ fuel inductionHypothesis =>
    rw [begun]
    split
    · exact Nat.le_add_left _ _
    · next goesOn =>
      have something : (roundOf later query).collected ≠ [] := by simp_all
      have fewer := within.missing_afterRound_lt functionFree something
      have rest : (begun query fuel (close later (roundOf later query))).length ≤
          missing kb (close later (roundOf later query)) + 1 :=
        inductionHypothesis (within.afterRound functionFree)
      rw [List.length_cons]
      omega

/-- Every knowledge base in which a round begins is one between the rounds. -/
theorem Within.of_mem_begun (within : Within kb later) (functionFree : kb.FunctionFree)
    {fuel : Nat} : ∀ before ∈ begun query fuel later, Within kb before := by
  induction fuel generalizing later with
  | zero => exact fun _ absent => absurd absent List.not_mem_nil
  | succ fuel inductionHypothesis =>
    rw [begun]
    split
    · exact List.forall_mem_singleton.2 within
    · exact List.forall_mem_cons.2 ⟨within, inductionHypothesis (within.afterRound functionFree)⟩

theorem Within.exists_of_ask (within : Within kb later) (functionFree : kb.FunctionFree) (a : Atom)
    {fuel : Nat} (enough : kb.groundAtoms.card < fuel) :
    ∃ answer last, ask fuel later (.atom a) = some (.ok answer, last) := by
  rw [ask]
  split
  · obtain ⟨⟨answer, last⟩, ran⟩ :=
      within.exists_of_rounds functionFree (Nat.lt_of_le_of_lt (missing_le kb later) enough)
    exact ⟨answer, last, by rw [ran]; rfl⟩
  · exact ⟨_, _, rfl⟩

end ForwardChaining

namespace KnowledgeBase

variable {kb : KnowledgeBase}

/-- **Chaining forward ends without functions.** In a reachable knowledge base let the facts be
ground, the rules range restricted and the definite clauses without functions. Then every atomic
query, with functions or without, is answered if as many rounds are allowed as there are ground
atoms over the predicates and the constants of the definite clauses, and one more. More rounds than
that do not begin, and whatever atoms are joined with the facts in one of them, every cascade comes
to rest. -/
theorem Reachable.forwardChaining_ends (reachable : kb.Reachable) (restricted : kb.Restricted)
    (functionFree : kb.FunctionFree) (a : Atom) :
    (∀ fuel > kb.groundAtoms.card, ∃ answer last,
      ForwardChaining.ask fuel kb (.atom a) = some (.ok answer, last)) ∧
    (∀ fuel, (ForwardChaining.begun (.positive a) fuel kb).length ≤ kb.groundAtoms.card + 1 ∧
      ∀ before ∈ ForwardChaining.begun (.positive a) fuel kb, ∀ atoms : List Atom,
        ∀ σ ∈ before.cascadedWhileJoining (atoms.map .positive) ∅, σ.ComesToRest) ∧
    (kb.procedure = .forwardChaining → ∀ fuel > kb.groundAtoms.card, ∃ answer last,
      kb.ask fuel (.atom a) = some (.ok answer, last)) := by
  have start : ForwardChaining.Within kb kb :=
    .start reachable.filed reachable.regular restricted functionFree
  refine ⟨fun fuel enough => start.exists_of_ask functionFree a enough,
    fun fuel => ⟨?_, fun before begins atoms σ cascaded => ?_⟩, fun forward fuel enough => ?_⟩
  · exact (start.length_begun_le functionFree fuel).trans
      (Nat.succ_le_succ (ForwardChaining.missing_le kb kb))
  · have between := start.of_mem_begun functionFree before begins
    have solved := between.restricted.isSolved_of_mem_cascaded between.filed between.regular.plain
      Substitution.isSolved_empty σ cascaded
    exact solved.isAcyclic.comesToRest.1
  · -- what is asked then is the query with fresh variables
    have asks : ForwardChaining.Within kb (kb.atQuery (.atom a)) :=
      ⟨reachable.filed.adds (.ofSame rfl rfl rfl rfl), reachable.regular.supplied _ kb.derivation,
        ⟨restricted.facts, restricted.rules⟩, start.rules, start.facts⟩
    have fresh : kb.freshQuery (.atom a) =
        .atom (a.substitute ((Sentence.atom a).standardizeApart kb.supply).1.forward) := rfl
    obtain ⟨answer, last, answered⟩ := asks.exists_of_ask functionFree
      (a.substitute ((Sentence.atom a).standardizeApart kb.supply).1.forward) enough
    rw [← fresh] at answered
    have ran : kb.procedure.ask fuel (kb.atQuery (.atom a)) (kb.freshQuery (.atom a)) =
        some (.ok answer, last) := by
      rw [forward]
      exact answered
    exact ⟨_, last, congrArg (Option.map _) ran⟩

/-- `Rich(Father(y))`, the atom. -/
def someFatherRich : Atom :=
  .predicate "Rich" [.app "Father" [.var ⟨"y", none⟩]]

/-- There are three atoms to be had in the market, so that four rounds are enough, also for a query
about fathers. -/
theorem forwardChaining_ends_market :
    market.Reachable ∧ market.Restricted ∧ market.FunctionFree ∧
      market.procedure = .forwardChaining ∧ market.groundAtoms.card = 3 ∧
      (∃ answer last, market.ask 4 (.atom someFatherRich) = some (.ok answer, last)) ∧
      (ForwardChaining.begun (.positive someFatherRich) 4 market).length ≤ 4 := by
  have reachable : market.Reachable :=
    (((Reachable.initial _).telling platoIsWise).telling platoIsGoodIfWise).telling theRichAreGood
  have procedure : market.procedure = .forwardChaining := by cbv
  have symbols : market.storedDefinites.flatMap Clause.symbols =
      [.predicate "Wise", .constant "Plato", .predicate "Wise", .constant "Plato",
        .predicate "Good", .constant "Plato", .predicate "Rich", .predicate "Good"] := by cbv
  have functionFree : market.FunctionFree := by
    intro c stored name applied
    have among := List.mem_flatMap.2 ⟨c, stored, applied⟩
    rw [symbols] at among
    simp at among
  have atoms : market.definiteAtoms =
      [.predicate "Wise" [.constant "Plato"], .predicate "Wise" [.constant "Plato"],
        .predicate "Good" [.constant "Plato"], .predicate "Rich" [.var ⟨"x", some 0⟩],
        .predicate "Good" [.var ⟨"x", some 0⟩]] := by cbv
  have constants : market.definiteConstants =
      [.constant "Plato", .constant "Plato", .constant "Plato"] := by cbv
  have three : market.groundAtoms.card = 3 := by
    rw [groundAtoms, atoms, constants]
    decide +kernel
  have ends := reachable.forwardChaining_ends restricted_market functionFree someFatherRich
  exact ⟨reachable, restricted_market, functionFree, procedure, three,
    ends.2.2 procedure 4 (by omega), (ends.2.1 4).1.trans (by omega)⟩

end KnowledgeBase

end ClausalReasoner

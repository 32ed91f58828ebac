/-
This file says that forward chaining finds everything there is to find, provided that all facts are
ground and that every variable of the head of a rule stands in its body. Then all facts that are
derived are ground as well, so being a fact up to the names of variables is being a fact, and a round
that brings nothing new leaves the facts closed under the rules. A set of ground atoms that is closed
under definite clauses is a model of them, and since forward chaining derives nothing but
consequences it is the least one.

A derived fact is not stored when a clause with its key is there already. The key of a ground atom
is that of no other clause, however many literals the other one has, so the fact is stored then.
-/

import ClausalReasoner.Proofs.ForwardSoundness
import ClausalReasoner.Proofs.KeySeparation

namespace ClausalReasoner

universe u

/-! ### Keys of ground literals -/

/-- The key of a ground literal is that of no other list of literals. -/
theorem eq_singleton_of_canonicalKey_eq {ls : List Literal} {l : Literal}
    (ground : l.atom.isGround) (same : canonicalKey ls = canonicalKey [l]) : ls = [l] := by
  obtain ⟨m, number, other, rfl, equal⟩ := exists_singleton_of_canonicalKey_eq same
  -- a number is no ground term, so a literal that became ground had no variables
  have groundToo : m.atom.isGround := by
    rw [Literal.replace_of_isGround ground] at equal
    have numbered : (m.atom.replace (byNumber number)).isGround := by
      rw [show m.atom.replace (byNumber number) = l.atom from congrArg Literal.atom equal]
      exact ground
    refine Atom.isGround_iff.2 fun v occurs => ?_
    exact absurd (Atom.isGround_replace.1 numbered v occurs) Bool.false_ne_true
  rw [Literal.replace_of_isGround groundToo, Literal.replace_of_isGround ground] at equal
  rw [equal]

/-! ### Restricted knowledge bases -/

theorem Atom.isSome_unify_comm {a b : Atom} : (a.unify b).isSome = (b.unify a).isSome := by
  have turned : ∀ {a b : Atom}, (a.unify b).isSome → (b.unify a).isSome := by
    intro a b found
    obtain ⟨θ, unifier⟩ := Option.isSome_iff_exists.1 found
    obtain ⟨other, turned, _⟩ := exists_unify (substitute_eq_of_unify unifier).symm
    exact Option.isSome_iff_exists.2 ⟨other, turned⟩
  exact Bool.eq_iff_iff.2 ⟨turned, turned⟩

namespace KnowledgeBase

variable {kb later last : KnowledgeBase} {a : Atom}

/-- The facts are ground and the rules range restricted. -/
structure Restricted (kb : KnowledgeBase) : Prop where
  facts : ∀ fact, kb.IsFact fact → fact.isGround
  rules : ∀ c ∈ kb.clauses.toList, c.isRule → c.IsRangeRestricted

/-- No fact unifies with an atom. -/
def Denies (kb : KnowledgeBase) (a : Atom) : Prop :=
  ∀ fact, kb.IsFact fact → (a.unify fact).isSome = false

/-- Where facts are ground, a ground atom that is a fact up to the names of variables is a fact. -/
theorem Restricted.isFact_of_isRenamingOfFact (restricted : kb.Restricted) (filed : kb.Filed)
    (plain : ∀ c ∈ kb.clauses.toList, ∀ l ∈ c.literals, l.reduced = false) {l : Literal}
    (positive : l = .positive l.atom) (ground : l.atom.isGround) (known : kb.isRenamingOfFact l) :
    kb.IsFact l.atom := by
  obtain ⟨candidate, among, renames⟩ := List.any_eq_true.1 known
  obtain ⟨c, under, first⟩ := List.mem_filterMap.1 among
  cases unified : l.atom.unify candidate.atom with
  | none =>
    rw [unified, Bool.and_false] at renames
    exact absurd renames Bool.false_ne_true
  | some θ =>
    have fetched : (θ, c.origin) ∈ kb.fetchFacts (.positive l.atom) := by
      refine List.mem_filterMap.2 ⟨c, positive ▸ under, ?_⟩
      rw [first]
      show (l.atom.unify candidate.atom).map _ = _
      rw [unified]
      rfl
    obtain ⟨fact, isFact, unifier⟩ := exists_isFact_of_mem_fetchFacts filed plain fetched
    have equal := Atom.substitute_eq_of_unify unifier
    rw [Atom.substitute, Atom.substitute, Atom.replace_of_isGround ground,
      Atom.replace_of_isGround (restricted.facts fact isFact)] at equal
    exact equal ▸ isFact

/-- Joining the body of a range restricted rule with ground facts makes its head ground. -/
theorem Restricted.isGround_head (restricted : kb.Restricted) (filed : kb.Filed)
    (plain : ∀ c ∈ kb.clauses.toList, ∀ l ∈ c.literals, l.reduced = false) {rule : Clause}
    (ranged : rule.IsRangeRestricted) {head : Literal} (isHead : head ∈ rule.positives)
    {join : Substitution × List StepNumber}
    (member : join ∈ kb.fetchAllFacts (rule.negatives.map fun l => .positive l.atom)) :
    (head.substitute join.1).atom.isGround := by
  refine Atom.isGround_replace.2 fun v occurs => ?_
  obtain ⟨l, isBody, inBody⟩ := ranged head isHead v occurs
  obtain ⟨fact, isFact, change, same⟩ := fetchAllFacts_sound filed plain member l isBody
  have ground : (l.atom.substitute join.1).isGround := by
    rw [same, Atom.replace_of_isGround (restricted.facts fact isFact)]
    exact restricted.facts fact isFact
  exact Atom.isGround_replace.1 ground v inBody

end KnowledgeBase

namespace ForwardChaining

open KnowledgeBase

variable {kb last : KnowledgeBase} {query : Literal}

/-! ### What a round collects -/

/-- A round counts as answered exactly if one of the facts it has collected unifies with the query.
-/
def Round.Tells (query : Literal) (round : Round) : Prop :=
  round.answered = true ↔ ∃ entry ∈ round.collected, (entry.1.atom.unify query.atom).isSome

theorem Round.Tells.collect {round : Round} (tells : round.Tells query) (kb : KnowledgeBase)
    (head : Literal) (sources : List StepNumber) (join : Substitution × List StepNumber) :
    (collect kb query head sources round join).Tells query := by
  rw [ForwardChaining.collect]
  split
  · exact tells
  · next unanswered =>
    dsimp only
    split
    · exact tells
    · have none := mt tells.2 unanswered
      simp only [Round.Tells, List.mem_append, List.mem_singleton]
      constructor
      · exact fun answers => ⟨_, Or.inr rfl, answers⟩
      · rintro ⟨entry, old | rfl, unifies⟩
        · exact absurd ⟨entry, old, unifies⟩ none
        · exact unifies

theorem Round.Tells.tryRule {round : Round} (tells : round.Tells query) (kb : KnowledgeBase)
    (rule : Clause) : (tryRule kb query round rule).Tells query := by
  rw [ForwardChaining.tryRule]
  split
  · exact tells
  · dsimp only
    split
    · exact tells
    · exact foldl_invariant (Round.Tells query) (fun _ _ _ before => before.collect kb _ _ _) tells

theorem tells_round (kb : KnowledgeBase) (query : Literal) (session : Session) :
    (round kb query session).Tells query := by
  refine foldl_invariant (Round.Tells query) (fun _ rule _ before => before.tryRule kb rule) ?_
  exact ⟨fun answered => absurd answered Bool.false_ne_true,
    fun found => absurd found.choose_spec.1 List.not_mem_nil⟩

/-- The facts that a round collects in a restricted knowledge base are ground. -/
theorem isGround_of_mem_collected (filed : kb.Filed) (regular : kb.Regular)
    (restricted : kb.Restricted) :
    ∀ entry ∈ (roundOf kb query).collected, entry.1.atom.isGround := by
  refine forall_mem_collected (fun l => l.atom.isGround)
    (fun rule isRule session head isHead join member _ => ?_) kb.session
  rw [filed.rules] at isRule
  obtain ⟨stored, ruled⟩ := List.mem_filter.1 isRule
  exact restricted.isGround_head filed regular.plain
    ((session.copyOf_standardizeApart rule).1.isRangeRestricted
      (restricted.rules rule stored ruled)) isHead member

/-- What closing a round adds in a restricted knowledge base are the collected facts, and all of
these are facts afterwards. -/
theorem exists_adds_facts (query : Literal) (filed : kb.Filed) (regular : kb.Regular)
    (restricted : kb.Restricted) : ∃ added, kb.Adds (close kb (roundOf kb query)) added ∧
      (∀ c ∈ added, ∃ entry ∈ (roundOf kb query).collected,
        c.literals = [.positive entry.1.atom]) ∧
      ∀ entry ∈ (roundOf kb query).collected,
        (close kb (roundOf kb query)).IsFact entry.1.atom := by
  obtain ⟨added, closed, copies, stored⟩ := exists_adds_close kb (roundOf kb query)
  have ground : ∀ entry ∈ (roundOf kb query).collected, entry.1.atom.isGround :=
    isGround_of_mem_collected filed regular restricted
  have literals_of_copy : ∀ {copy : Clause} {entry : Literal × StepNumber},
      entry ∈ (roundOf kb query).collected → copy.CopyOf (Clause.ofLiterals [entry.1]) →
        copy.literals = [.positive entry.1.atom] := by
    rintro copy entry member ⟨forward, _, literals, _⟩
    rw [literals, Clause.literals_ofLiterals,
      ← (validIn_of_mem_collected.{0} filed regular entry member).1]
    exact congrArg (List.cons · []) (Literal.replace_of_isGround (ground entry member) forward)
  refine ⟨added, closed, fun c new => ?_, fun entry member => ?_⟩
  · obtain ⟨entry, member, isCopy⟩ := copies c new
    exact ⟨entry, member, literals_of_copy member isCopy⟩
  · obtain ⟨copy, isCopy, c, inside, same⟩ := stored entry member
    rw [Clause.key_eq, Clause.key_eq, literals_of_copy member isCopy] at same
    exact ⟨c, inside, eq_singleton_of_canonicalKey_eq (ground entry member) same⟩

theorem isFact_or_collected_of_close (filed : kb.Filed) (regular : kb.Regular)
    (restricted : kb.Restricted) {fact : Atom}
    (isFact : (close kb (roundOf kb query)).IsFact fact) :
    kb.IsFact fact ∨ ∃ entry ∈ (roundOf kb query).collected, entry.1.atom = fact := by
  obtain ⟨added, closed, facts, _⟩ := exists_adds_facts query filed regular restricted
  obtain ⟨c, inside, literals⟩ := isFact
  rw [closed.clauses] at inside
  rcases List.mem_append.1 inside with old | new
  · exact Or.inl ⟨c, old, literals⟩
  · obtain ⟨entry, member, same⟩ := facts c new
    exact Or.inr ⟨entry, member,
      congrArg Literal.atom (List.cons.inj (same.symm.trans literals)).1⟩

/-- Closing a round adds no rules. -/
theorem mem_of_isRule_of_close (filed : kb.Filed) (regular : kb.Regular)
    (restricted : kb.Restricted) {c : Clause}
    (inside : c ∈ (close kb (roundOf kb query)).clauses.toList) (ruled : c.isRule) :
    c ∈ kb.clauses.toList := by
  obtain ⟨added, closed, facts, _⟩ := exists_adds_facts query filed regular restricted
  rw [closed.clauses] at inside
  rcases List.mem_append.1 inside with old | new
  · exact old
  · obtain ⟨_, _, literals⟩ := facts c new
    exact absurd ((Clause.isRule_of_literals literals).symm.trans ruled) Bool.false_ne_true

/-- A knowledge base stays restricted when a round is over. -/
theorem restricted_close (filed : kb.Filed) (regular : kb.Regular) (restricted : kb.Restricted) :
    (close kb (roundOf kb query)).Restricted := by
  refine ⟨fun fact isFact => ?_, fun c inside ruled => ?_⟩
  · rcases isFact_or_collected_of_close filed regular restricted isFact with
      old | ⟨entry, member, rfl⟩
    · exact restricted.facts fact old
    · exact isGround_of_mem_collected filed regular restricted entry member
  · exact restricted.rules c (mem_of_isRule_of_close filed regular restricted inside ruled) ruled

/-! ### Rounds that bring nothing new -/

/-- A round has collected nothing so far. -/
def Round.Quiet (round : Round) : Prop :=
  round.answered = false ∧ round.collected = []

/-- If steps make no state quiet that was not, then a fold that ends in a quiet state has been quiet
all along. -/
theorem exists_quiet_of_foldl {State Element : Type} {step : State → Element → State}
    {quiet : State → Prop} (back : ∀ state element, quiet (step state element) → quiet state)
    {list : List Element} {state : State} (last : quiet (list.foldl step state)) :
    quiet state ∧ ∀ element ∈ list, ∃ before, quiet before ∧ quiet (step before element) := by
  induction list generalizing state with
  | nil => exact ⟨last, fun _ absent => absurd absent List.not_mem_nil⟩
  | cons first rest inductionHypothesis =>
    obtain ⟨next, later⟩ := inductionHypothesis last
    exact ⟨back state first next,
      List.forall_mem_cons.2 ⟨⟨state, back state first next, next⟩, later⟩⟩

/-- Nothing is collected under a join only if the head is a fact under it. -/
theorem Round.Quiet.of_collect {head : Literal} {sources : List StepNumber} {round : Round}
    {join : Substitution × List StepNumber}
    (quiet : (collect kb query head sources round join).Quiet) :
    round.Quiet ∧ kb.isRenamingOfFact (head.substitute join.1) := by
  rw [collect] at quiet
  split at quiet
  · next answered => exact absurd (quiet.1.symm.trans answered) Bool.false_ne_true
  · dsimp only at quiet
    split at quiet
    · next known =>
      rw [quiet.2] at known
      exact ⟨quiet, (Bool.or_eq_true_iff.1 known).resolve_right Bool.false_ne_true⟩
    · exact absurd (List.append_eq_nil_iff.1 quiet.2).2 (List.cons_ne_nil _ _)

/-- Nothing is collected from a rule only if its head is a fact under every way to join its body
with facts. -/
theorem Round.Quiet.of_tryRule {round : Round} {rule : Clause}
    (quiet : (tryRule kb query round rule).Quiet) :
    round.Quiet ∧ ∀ head rest, (round.session.standardizeApart rule).1.positives = head :: rest →
      ∀ join ∈ kb.fetchAllFacts
          ((round.session.standardizeApart rule).1.negatives.map fun l => .positive l.atom),
        kb.isRenamingOfFact (head.substitute join.1) := by
  rw [tryRule] at quiet
  split at quiet
  · next answered => exact absurd (quiet.1.symm.trans answered) Bool.false_ne_true
  · dsimp only at quiet
    split at quiet
    · next none =>
      exact ⟨quiet, fun head rest positives =>
        absurd (positives.symm.trans none) (List.cons_ne_nil head rest)⟩
    · next first others firstPositives =>
      obtain ⟨before, each⟩ := exists_quiet_of_foldl (fun _ _ after => after.of_collect.1) quiet
      refine ⟨before, fun head rest positives join member => ?_⟩
      obtain ⟨rfl, _⟩ := List.cons.inj (firstPositives.symm.trans positives)
      obtain ⟨_, _, after⟩ := each join member
      exact after.of_collect.2

/-- When a round brings nothing new in a restricted knowledge base, every rule has a copy whose head
is a fact under every way to join the body with facts. -/
theorem exists_copy_of_quiet (filed : kb.Filed) (regular : kb.Regular)
    (restricted : kb.Restricted) (quiet : (roundOf kb query).Quiet) {rule : Clause}
    (stored : rule ∈ kb.clauses.toList) (ruled : rule.isRule) :
    ∃ copy : Clause, copy.CopyOf rule ∧ ∀ head ∈ copy.positives,
      ∀ join ∈ kb.fetchAllFacts (copy.negatives.map fun l => .positive l.atom),
        (head.atom.substitute join.1).isGround ∧ kb.IsFact (head.atom.substitute join.1) := by
  have isRule : rule ∈ kb.rules := filed.rules ▸ List.mem_filter.2 ⟨stored, ruled⟩
  obtain ⟨_, each⟩ := exists_quiet_of_foldl (fun _ _ after => after.of_tryRule.1) quiet
  obtain ⟨before, _, after⟩ := each rule isRule
  have isCopy := (before.session.copyOf_standardizeApart rule).1
  have plain := (regular.clauses rule stored).standardizeApart before.session
  refine ⟨(before.session.standardizeApart rule).1, isCopy, fun head isHead join member => ?_⟩
  have ground := restricted.isGround_head filed regular.plain
    (isCopy.isRangeRestricted (restricted.rules rule stored ruled)) isHead member
  have alone := Clause.positives_of_isDefinite
    (isCopy.isDefinite (Clause.isDefinite_of_isRule ruled)) isHead
  have positive : head.substitute join.1 = .positive (head.atom.substitute join.1) :=
    congrArg (Literal.substitute join.1)
      (Clause.eq_positive_of_mem_positives (fun l inside => (plain l inside).plain) isHead)
  exact ⟨ground, restricted.isFact_of_isRenamingOfFact filed regular.plain positive ground
    (after.of_tryRule.2 head [] alone join member)⟩

/-- In a restricted knowledge base in which a round brings nothing new the facts are closed under
the rules. -/
theorem isFact_of_quiet (filed : kb.Filed) (regular : kb.Regular) (restricted : kb.Restricted)
    (quiet : (roundOf kb query).Quiet) {rule : Clause} (stored : rule ∈ kb.clauses.toList)
    (ruled : rule.isRule) {head : Literal} (isHead : head ∈ rule.positives)
    {value : Variable → Term} (body : ∀ l ∈ rule.negatives, kb.IsFact (l.atom.replace value)) :
    kb.IsFact (head.atom.replace value) := by
  obtain ⟨copy, isCopy, isFact⟩ :=
    exists_copy_of_quiet filed regular restricted quiet stored ruled
  obtain ⟨forward, back, positives, negatives, undone⟩ := isCopy.exists_sides
  -- the variables of the copy get the values that those of the rule have
  let copyValue := fun v => (back v).replace value
  have ofCopy : ∀ l ∈ rule.literals,
      (l.replace forward).atom.replace copyValue = l.atom.replace value := by
    intro l inside
    rw [← Atom.replace_replace]
    exact congrArg (fun l => l.atom.replace value) (undone l inside)
  have copyBody : ∀ l ∈ copy.negatives,
      ∃ fact, kb.IsFact fact ∧ l.atom.replace copyValue = fact.replace copyValue := by
    intro l inside
    rw [negatives] at inside
    obtain ⟨original, isBody, rfl⟩ := List.mem_map.1 inside
    have known := body original isBody
    refine ⟨_, known, ?_⟩
    rw [ofCopy original (List.mem_of_mem_filter isBody),
      Atom.replace_of_isGround (restricted.facts _ known)]
  obtain ⟨join, member, respects⟩ := fetchAllFacts_complete filed copyBody
  obtain ⟨ground, known⟩ :=
    isFact (head.replace forward) (positives ▸ List.mem_map_of_mem isHead) join member
  have equal : (head.replace forward).atom.substitute join.1 = head.atom.replace value := by
    rw [← ofCopy head (List.mem_of_mem_filter isHead), ← Atom.replace_of_isGround ground copyValue,
      Atom.substitute, Atom.replace_replace]
    exact Atom.replace_congr fun v _ => respects v
  exact equal ▸ known

/-! ### The facts as a model -/

/-- In a restricted knowledge base in which a round brings nothing new the facts are a model of the
definite clauses. -/
theorem validIn_facts_of_quiet (filed : kb.Filed) (regular : kb.Regular)
    (restricted : kb.Restricted) (quiet : (roundOf kb query).Quiet) :
    ∀ c ∈ kb.storedDefinites, c.ValidIn (Interpretation.herbrand.{u} {a | kb.IsFact a}) := by
  intro c member
  obtain ⟨stored, definite⟩ := List.mem_filter.1 member
  obtain ⟨head, isHead⟩ := Clause.exists_head definite
  rw [Clause.validIn_herbrand_iff definite isHead]
  intro value _ body
  cases ruled : c.isRule with
  | true => exact isFact_of_quiet filed regular restricted quiet stored ruled isHead body
  | false =>
    have positive := Clause.eq_positive_of_mem_positives (regular.plain c stored) isHead
    have isFact : kb.IsFact head.atom :=
      ⟨c, stored, positive ▸ Clause.literals_of_isDefinite definite ruled isHead⟩
    rw [Atom.replace_of_isGround (restricted.facts _ isFact)]
    exact isFact

/-! ### All rounds -/

/-- What is true between the rounds for a query: consequences were added to a knowledge base, it has
stayed restricted, and no fact unifies with the query yet. -/
structure Unanswered (a : Atom) (kb later : KnowledgeBase) : Prop where
  consequences : AddsConsequences.{0} kb later
  restricted : later.Restricted
  denies : later.Denies a

variable {later : KnowledgeBase} {a : Atom}

/-- A round that does not answer the query leaves it unanswered. -/
theorem Unanswered.close (unanswered : Unanswered a kb later)
    (goesOn : (roundOf later (.positive a)).answered = false) :
    Unanswered a kb (close later (roundOf later (.positive a))) := by
  obtain ⟨consequences, restricted, denies⟩ := unanswered
  have filed := consequences.filed
  have regular := consequences.regular
  refine ⟨addsConsequences_close consequences, restricted_close filed regular restricted,
    fun fact isFact => ?_⟩
  rcases isFact_or_collected_of_close filed regular restricted isFact with
    old | ⟨entry, member, rfl⟩
  · exact denies fact old
  · refine Bool.eq_false_iff.2 fun unifies => ?_
    have answered := (tells_round later (.positive a) later.session).2
      ⟨entry, member, Atom.isSome_unify_comm.trans unifies⟩
    exact absurd (goesOn.symm.trans answered) Bool.false_ne_true

/-- A fact that unifies with the query has a proof. -/
theorem proofsFromFacts_ne_nil (filed : kb.Filed) {fact : Atom} (isFact : kb.IsFact fact)
    (unifies : (a.unify fact).isSome) (derivation : Derivation) :
    proofsFromFacts kb (.positive a) derivation ≠ [] := by
  obtain ⟨θ, unifier⟩ := Option.isSome_iff_exists.1 unifies
  obtain ⟨number, fetched⟩ := exists_mem_fetchFacts filed isFact unifier
  exact List.ne_nil_of_mem (List.mem_filterMap.2 ⟨_, fetched, rfl⟩)

theorem proofsFromKnownFacts_ne_nil {found : List (Substitution × Option StepNumber)}
    {θ : Substitution} {number : StepNumber} (member : (θ, some number) ∈ found)
    (derivation : Derivation) : proofsFromKnownFacts query found derivation ≠ [] := by
  induction found with
  | nil => exact absurd member List.not_mem_nil
  | cons entry rest inductionHypothesis =>
    obtain ⟨other, origin⟩ := entry
    cases origin with
    | some _ => exact List.cons_ne_nil _ _
    | none =>
      refine inductionHypothesis ((List.mem_cons.1 member).resolve_left fun same => ?_)
      exact Option.some_ne_none number (Prod.mk.inj same).2

/-- How the rounds come to an end without a proof: no fact unifies with the query, and the facts are
a model of the definite clauses. -/
theorem exists_of_rounds_without_proofs (start : Unanswered a kb kb) {fuel : Nat} {answer : Answer}
    (ran : rounds (.positive a) fuel kb = some (answer, last)) (noProofs : answer.proofs = []) :
    Unanswered a kb last ∧
      ∀ c ∈ last.storedDefinites, c.ValidIn (Interpretation.herbrand.{u} {b | last.IsFact b}) := by
  obtain ⟨before, unanswered, rfl, ⟨answered, proofs⟩ | ⟨goesOn, nothing, _⟩⟩ :=
    exists_last_round _ (fun _ before goesOn => Unanswered.close before goesOn) start ran
  all_goals
    obtain ⟨added, closed, new, facts⟩ := exists_adds_facts (.positive a)
      unanswered.consequences.filed unanswered.consequences.regular unanswered.restricted
  · obtain ⟨entry, member, unifies⟩ :=
      (tells_round before (.positive a) before.session).1 answered
    have filed : (close before (roundOf before (.positive a))).Filed :=
      (addsConsequences_close unanswered.consequences).filed
    exact absurd (proofs.symm.trans noProofs) (proofsFromFacts_ne_nil filed (facts entry member)
      (Atom.isSome_unify_comm.trans unifies) _)
  · refine ⟨unanswered.close goesOn, ?_⟩
    have none : added = [] := List.eq_nil_iff_forall_not_mem.2 fun c inside => by
      obtain ⟨entry, member, _⟩ := new c inside
      rw [nothing] at member
      exact absurd member List.not_mem_nil
    have same : (close before (roundOf before (.positive a))).clauses.toList =
        before.clauses.toList := by
      rw [closed.clauses, none, List.append_nil]
    simp only [storedDefinites, IsFact, same]
    exact validIn_facts_of_quiet.{u} unanswered.consequences.filed
      unanswered.consequences.regular unanswered.restricted ⟨goesOn, nothing⟩

theorem denies_of_isEmpty (filed : kb.Filed)
    (unknown : (kb.fetchFacts (.positive a)).isEmpty) : kb.Denies a := by
  intro fact isFact
  refine Bool.eq_false_iff.2 fun unifies => ?_
  obtain ⟨θ, unifier⟩ := Option.isSome_iff_exists.1 unifies
  obtain ⟨number, fetched⟩ := exists_mem_fetchFacts filed isFact unifier
  rw [List.isEmpty_iff.1 unknown] at fetched
  exact absurd fetched List.not_mem_nil

/-- How forward chaining comes to an end without a proof in a restricted knowledge base. -/
theorem exists_of_ask_without_proofs (filed : kb.Filed) (regular : kb.Regular)
    (restricted : kb.Restricted) {fuel : Nat} {answer : Answer}
    (asked : ask fuel kb (.atom a) = some (.ok answer, last)) (noProofs : answer.proofs = []) :
    Unanswered a kb last ∧
      ∀ c ∈ last.storedDefinites, c.ValidIn (Interpretation.herbrand.{u} {b | last.IsFact b}) := by
  rw [ask] at asked
  split at asked
  · next unknown =>
    obtain ⟨⟨found, after⟩, ran, same⟩ := Option.map_eq_some_iff.1 asked
    obtain ⟨sameAnswer, rfl⟩ := Prod.mk.inj same
    obtain rfl := Except.ok.inj sameAnswer
    exact exists_of_rounds_without_proofs
      ⟨.refl filed regular, restricted, denies_of_isEmpty filed unknown⟩ ran noProofs
  · next known =>
    obtain ⟨sameOutcome, rfl⟩ := Prod.mk.inj (Option.some.inj asked)
    obtain rfl := Except.ok.inj sameOutcome
    obtain ⟨found, fetched⟩ := List.exists_mem_of_ne_nil _ (mt List.isEmpty_iff.2 known)
    obtain ⟨fact, isFact, unifier⟩ := exists_isFact_of_mem_fetchFacts filed regular.plain fetched
    obtain ⟨number, inside⟩ := exists_mem_fetchFacts filed isFact unifier
    exact absurd noProofs (proofsFromKnownFacts_ne_nil inside _)

end ForwardChaining

namespace KnowledgeBase

variable {kb last : KnowledgeBase} {a : Atom} {fuel : Nat} {answer : Answer}

/-- Facts that are ground and a model of definite clauses that entail them are the atoms of the
least Herbrand model of these. -/
theorem facts_eq_leastHerbrandModel {cs : List Clause}
    (ground : ∀ fact, last.IsFact fact → fact.isGround)
    (model : ∀ c ∈ cs, c.ValidIn (Interpretation.herbrand.{0} {b | last.IsFact b}))
    (valid : ∀ atoms : Set Atom, (∀ c ∈ cs, c.ValidIn (Interpretation.herbrand.{0} atoms)) →
      ∀ c ∈ last.storedDefinites, c.ValidIn (Interpretation.herbrand.{0} atoms)) :
    {b | last.IsFact b} = leastHerbrandModel cs := by
  refine eq_leastHerbrandModel model fun fact isFact => ⟨ground fact isFact, fun atoms given => ?_⟩
  exact (Atom.validIn_herbrand_iff (ground fact isFact)).1
    (validIn_of_isFact (valid atoms given) isFact)

/-- Every instance of an atom is an instance of what the atom becomes with fresh variables. -/
theorem exists_replace_fresh (kb : KnowledgeBase) (a : Atom) (value : Variable → Term) :
    ∃ other : Variable → Term,
      (a.substitute ((Sentence.atom a).standardizeApart kb.supply).1.forward).replace other =
        a.replace value := by
  obtain ⟨rename, renames⟩ := kb.exists_renamesVariables_query (.atom a)
  refine ⟨fun v => (((Sentence.atom a).standardizeApart kb.supply).1.forward.inverse.value
    v).replace value, ?_⟩
  rw [Atom.substitute, Atom.replace_replace]
  refine Atom.replace_congr fun v occurs => ?_
  have listed : v ∈ (Sentence.atom a).allVariables :=
    mem_firstOccurrences.2 (List.mem_append_left _ occurs)
  rw [renames.value v, Term.replace,
    Substitution.value_of_get?_some (renames.reverse v listed), Term.replace]

/-- **Forward chaining is complete** where facts are ground and rules range restricted. Whenever it
comes to an end without a proof in a reachable knowledge base, the definite clauses entail no
instance of the atom, and the facts that are stored then are the atoms of the least Herbrand model,
which is that of the definite clauses before as well as after. -/
theorem Reachable.not_entails_of_forwardChaining (reachable : kb.Reachable)
    (forward : kb.procedure = .forwardChaining) (restricted : kb.Restricted)
    (asked : kb.ask fuel (.atom a) = some (.ok answer, last)) (noProofs : answer.proofs = []) :
    (∀ value : Variable → Term, ¬ Entails.{u} (fun _ => True)
      (last.clauses.toList.filter Clause.isDefinite) (.atom (a.replace value))) ∧
    leastHerbrandModel (last.clauses.toList.filter Clause.isDefinite) =
      leastHerbrandModel (kb.clauses.toList.filter Clause.isDefinite) ∧
    ∀ fact, (∃ c ∈ last.clauses.toList, c.literals = [.positive fact]) ↔
      fact ∈ leastHerbrandModel (kb.clauses.toList.filter Clause.isDefinite) := by
  obtain ⟨found, ran, proofs⟩ := exists_answer_of_ask asked
  have fresh : kb.freshQuery (.atom a) =
      .atom (a.substitute ((Sentence.atom a).standardizeApart kb.supply).1.forward) := rfl
  rw [forward, fresh, Procedure.ask] at ran
  have filed : (kb.atQuery (.atom a)).Filed := reachable.filed.adds (.ofSame rfl rfl rfl rfl)
  have regular : (kb.atQuery (.atom a)).Regular := reachable.regular.supplied _ kb.derivation
  have restrictedNow : (kb.atQuery (.atom a)).Restricted := ⟨restricted.facts, restricted.rules⟩
  have noneFound : found.proofs = [] := List.map_eq_nil_iff.1 (proofs.symm.trans noProofs)
  obtain ⟨⟨consequences, restrictedLast, denies⟩, model⟩ :=
    ForwardChaining.exists_of_ask_without_proofs.{0} filed regular restrictedNow ran noneFound
  have modelAbove := (ForwardChaining.exists_of_ask_without_proofs.{u} filed regular restrictedNow
    ran noneFound).2
  obtain ⟨added, adds, _⟩ := consequences.adds
  have kept : ∀ c ∈ kb.storedDefinites, c ∈ last.storedDefinites := by
    intro c member
    obtain ⟨stored, definite⟩ := List.mem_filter.1 member
    exact List.mem_filter.2 ⟨adds.clauses ▸ List.mem_append_left _ stored, definite⟩
  have leastBefore : {b | last.IsFact b} = leastHerbrandModel kb.storedDefinites :=
    facts_eq_leastHerbrandModel restrictedLast.facts (fun c member => model c (kept c member))
      fun atoms given => consequences.validIn given
  have leastAfter : {b | last.IsFact b} = leastHerbrandModel last.storedDefinites :=
    facts_eq_leastHerbrandModel restrictedLast.facts model fun atoms given => given
  refine ⟨fun value entails => ?_, leastAfter.symm.trans leastBefore,
    fun fact => Set.ext_iff.1 leastBefore fact⟩
  -- every variable stands for some ground term
  let ground : Assignment (ULift.{u} GroundTerm) := fun _ => ⟨⟨.constant "", rfl⟩⟩
  have isFact : last.IsFact ((a.replace value).replace fun v => (ground v).down.val) :=
    (Atom.holdsIn_herbrand ground _).1 (entails _ _ trivial modelAbove ground)
  obtain ⟨other, instances⟩ := kb.exists_replace_fresh a
    fun v => (value v).replace fun v => (ground v).down.val
  rw [← Atom.replace_replace] at instances
  have equal := instances.trans
    (Atom.replace_of_isGround (restrictedLast.facts _ isFact) other).symm
  obtain ⟨θ, unifier, _⟩ := Atom.exists_unify equal
  have denied := denies _ isFact
  rw [unifier] at denied
  exact absurd denied.symm Bool.false_ne_true

/-- `Wise(Plato) → Good(Plato)`. -/
def platoIsGoodIfWise : Sentence :=
  .implies platoIsWise (.atom (.predicate "Good" [.constant "Plato"]))

/-- `Rich(x) → Good(x)`. -/
def theRichAreGood : Sentence :=
  .implies (.atom (.predicate "Rich" [.var ⟨"x", none⟩]))
    (.atom (.predicate "Good" [.var ⟨"x", none⟩]))

/-- `Rich(y)`, the atom. -/
def someoneRich : Atom :=
  .predicate "Rich" [.var ⟨"y", none⟩]

/-- The knowledge base that chains forward and was told who is wise and who is good. -/
def market : KnowledgeBase :=
  ((KnowledgeBase.telling { procedure := .forwardChaining } platoIsWise).telling
    platoIsGoodIfWise).telling theRichAreGood

theorem restricted_market : market.Restricted := by
  have ground : market.clauses.toList.all
      fun c => !c.isUnit || c.literals.all fun l => l.atom.isGround := by cbv
  have ranged : market.clauses.toList.all
      fun c => !c.isRule || decide c.IsRangeRestricted := by cbv
  constructor
  · rintro fact ⟨c, member, literals⟩
    have unit := List.all_eq_true.1 ground c member
    rw [Clause.isUnit, Clause.size, literals] at unit
    exact (List.all_eq_true.1 unit) _ List.mem_cons_self
  · intro c member ruled
    have rule := List.all_eq_true.1 ranged c member
    rw [ruled] at rule
    exact of_decide_eq_true rule

set_option maxRecDepth 10000 in
/-- That no one is rich comes out after it is derived that Plato is good. -/
theorem not_entails_of_forwardChaining_market :
    ∃ answer last, market.ask 2 (.atom someoneRich) = some (.ok answer, last) ∧
      answer.proofs = [] ∧
      (∀ value : Variable → Term, ¬ Entails.{u} (fun _ => True)
        (last.clauses.toList.filter Clause.isDefinite) (.atom (someoneRich.replace value))) ∧
      ∀ fact, (∃ c ∈ last.clauses.toList, c.literals = [.positive fact]) ↔
        fact ∈ leastHerbrandModel (market.clauses.toList.filter Clause.isDefinite) := by
  have reachable : market.Reachable :=
    (((Reachable.initial _).telling platoIsWise).telling platoIsGoodIfWise).telling theRichAreGood
  have procedure : market.procedure = .forwardChaining := by cbv
  obtain ⟨answer, last, asked, noProofs⟩ := exists_of_isUnproved
    (by cbv : market.isUnproved 2 (.atom someoneRich))
  obtain ⟨denied, _, least⟩ :=
    reachable.not_entails_of_forwardChaining procedure restricted_market asked noProofs
  exact ⟨answer, last, asked, noProofs, denied, least⟩

end KnowledgeBase

end ClausalReasoner

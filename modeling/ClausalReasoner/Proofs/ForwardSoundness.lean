/-
This file says that forward chaining derives nothing but consequences. Where the definite clauses are
valid, a rule whose body is joined with facts makes its head valid under the substitution found, so
every fact that is collected in a round is a consequence of the clauses before the round. The facts
of earlier rounds are consequences of the clauses at the start, and so are, in turn, those that are
derived from them. An answer is a fact that the query unifies with, told in the variables of the
query.
-/

import ClausalReasoner.Proofs.DefiniteClauses
import ClausalReasoner.Proofs.FactJoins
import ClausalReasoner.Proofs.Soundness

namespace ClausalReasoner

universe u

variable {Universe : Type u} {meaning : Interpretation Universe}

/-- The head of a valid definite clause is valid under a substitution that makes the body valid. -/
theorem Clause.ValidIn.head {c : Clause} (valid : c.ValidIn meaning) (definite : c.isDefinite)
    {head : Literal} (isHead : head ∈ c.positives) {σ : Substitution}
    (body : ∀ l ∈ c.negatives, (Sentence.atom (l.atom.substitute σ)).ValidIn meaning) :
    (Sentence.atom (head.atom.substitute σ)).ValidIn meaning := by
  intro values
  have through := (holdsIn_iff_of_isDefinite definite isHead).1 (valid (values.through meaning σ))
  refine (Atom.holdsIn_substitute ..).2 (through fun l isBody => ?_)
  exact (Atom.holdsIn_substitute ..).1 (body l isBody values)

/-- The instances of a valid atom are valid. -/
theorem Sentence.ValidIn.replace {a : Atom} (valid : (Sentence.atom a).ValidIn meaning)
    (change : Variable → Term) : (Sentence.atom (a.replace change)).ValidIn meaning :=
  fun _ => (Atom.holdsIn_replace ..).2 (valid _)

/-! ### Facts that are entailed -/

/-- A clause consists of a fact that others entail. -/
def Clause.IsEntailedFact (cs : List Clause) (c : Clause) : Prop :=
  ∃ fact, c.literals = [.positive fact] ∧ Entails (fun {_ : Type u} _ => True) cs (.atom fact)

theorem Clause.IsEntailedFact.validIn {cs : List Clause} {c : Clause}
    (entailed : IsEntailedFact.{u} cs c) (valid : ∀ d ∈ cs, d.ValidIn meaning) :
    c.ValidIn meaning := by
  obtain ⟨fact, literals, entails⟩ := entailed
  intro values
  rw [Clause.holdsIn, literals]
  exact ⟨_, List.mem_singleton_self _, entails Universe meaning trivial valid values⟩

namespace KnowledgeBase

variable {kb later : KnowledgeBase}

/-- The stored clauses that have exactly one positive literal. -/
def storedDefinites (kb : KnowledgeBase) : List Clause :=
  kb.clauses.toList.filter Clause.isDefinite

theorem validIn_of_isFact (valid : ∀ c ∈ kb.storedDefinites, c.ValidIn meaning) {fact : Atom}
    (isFact : kb.IsFact fact) : (Sentence.atom fact).ValidIn meaning := by
  obtain ⟨c, member, literals⟩ := isFact
  intro values
  obtain ⟨l, inside, holds⟩ := valid c
    (List.mem_filter.2 ⟨member, Clause.isDefinite_of_literals literals⟩) values
  rw [literals] at inside
  rwa [List.mem_singleton.1 inside] at holds

/-- One knowledge base is another with facts added that its definite clauses entail. -/
structure AddsConsequences (kb later : KnowledgeBase) : Prop where
  filed : later.Filed
  regular : later.Regular
  adds : ∃ added, kb.Adds later added ∧ ∀ c ∈ added, c.IsEntailedFact.{u} kb.storedDefinites

theorem AddsConsequences.refl (filed : kb.Filed) (regular : kb.Regular) :
    AddsConsequences.{u} kb kb :=
  ⟨filed, regular, [], .refl kb, fun _ absent => absurd absent List.not_mem_nil⟩

/-- Where the definite clauses at the start are valid, so are those that there are later. -/
theorem AddsConsequences.validIn (consequences : AddsConsequences.{u} kb later)
    (valid : ∀ c ∈ kb.storedDefinites, c.ValidIn meaning) :
    ∀ c ∈ later.storedDefinites, c.ValidIn meaning := by
  obtain ⟨added, adds, entailed⟩ := consequences.adds
  intro c member
  rw [storedDefinites, adds.clauses, List.filter_append] at member
  rcases List.mem_append.1 member with old | new
  · exact valid c old
  · exact (entailed c (List.mem_of_mem_filter new)).validIn valid

end KnowledgeBase

/-! ### The rounds -/

namespace ForwardChaining

open KnowledgeBase

variable {kb last : KnowledgeBase} {query : Literal}

/-- The facts that a round collects are positive, and they are valid where the definite clauses
are. -/
theorem validIn_of_mem_collected (filed : kb.Filed) (regular : kb.Regular) :
    ∀ entry ∈ (roundOf kb query).collected, entry.1 = .positive entry.1.atom ∧
      Entails (fun {_ : Type u} _ => True) kb.storedDefinites (.atom entry.1.atom) := by
  refine forall_mem_collected (fun l => l = .positive l.atom ∧
      Entails (fun {_ : Type u} _ => True) kb.storedDefinites (.atom l.atom))
    (fun rule isRule session head isHead join member _ => ?_) kb.session
  rw [filed.rules] at isRule
  obtain ⟨stored, ruled⟩ := List.mem_filter.1 isRule
  have definite : rule.isDefinite := Clause.isDefinite_of_isRule ruled
  have apart := (session.copyOf_standardizeApart rule).1
  have plain := (regular.clauses rule stored).standardizeApart session
  refine ⟨?_, fun Universe meaning _ valid => ?_⟩
  · exact congrArg (Literal.substitute join.1)
      (Clause.eq_positive_of_mem_positives (fun l inside => (plain l inside).plain) isHead)
  · have validRule : (session.standardizeApart rule).1.ValidIn meaning :=
      (resolutionInvariant_allValid meaning).standardizeApart
        (valid rule (List.mem_filter.2 ⟨stored, definite⟩)) session
    refine validRule.head (apart.isDefinite definite) isHead fun l isBody => ?_
    obtain ⟨fact, isFact, change, same⟩ := fetchAllFacts_sound filed regular.plain member l isBody
    rw [same]
    exact (validIn_of_isFact valid isFact).replace change

/-- Closing a round adds consequences to consequences. -/
theorem addsConsequences_close {later : KnowledgeBase}
    (consequences : AddsConsequences.{u} kb later) :
    AddsConsequences.{u} kb (close later (roundOf later query)) := by
  obtain ⟨added, adds, entailed⟩ := consequences.adds
  obtain ⟨more, closed, copies, _⟩ := exists_adds_close later (roundOf later query)
  refine ⟨consequences.filed.adds closed,
    regular_close consequences.regular (regular_round consequences.regular later.session),
    _, adds.trans closed, List.forall_mem_append.2 ⟨entailed, fun c member => ?_⟩⟩
  obtain ⟨entry, collected, forward, _, literals, _⟩ := copies c member
  obtain ⟨positive, entails⟩ :=
    validIn_of_mem_collected.{u} consequences.filed consequences.regular entry collected
  refine ⟨entry.1.atom.replace forward, ?_, fun Universe meaning admitted valid => ?_⟩
  · rw [literals, Clause.literals_ofLiterals, positive]
    rfl
  · exact (entails Universe meaning admitted (consequences.validIn valid)).replace forward

/-- What the rounds leave behind are consequences of what they started from. -/
theorem addsConsequences_of_rounds (filed : kb.Filed) (regular : kb.Regular) {fuel : Nat}
    {answer : Answer} (ran : rounds query fuel kb = some (answer, last)) :
    AddsConsequences.{u} kb last := by
  obtain ⟨before, consequences, rfl, _⟩ := exists_last_round _
    (fun _ before _ => addsConsequences_close before) (AddsConsequences.refl.{u} filed regular) ran
  exact addsConsequences_close consequences

/-! ### Answers -/

/-- The bindings of a proof are those of a unifier of the query with a fact. -/
theorem exists_of_mem_proofsFromFacts {derivation : Derivation} {proof : Proof}
    (member : proof ∈ proofsFromFacts kb query derivation) :
    ∃ found ∈ kb.fetchFacts query, proof.bindings = found.1.restrict query.atom.vars := by
  obtain ⟨found, fetched, proved⟩ := List.mem_filterMap.1 member
  obtain ⟨number, _, rfl⟩ := Option.map_eq_some_iff.1 proved
  exact ⟨found, fetched, rfl⟩

theorem exists_of_mem_proofsFromKnownFacts {found : List (Substitution × Option StepNumber)}
    {derivation : Derivation} {proof : Proof}
    (member : proof ∈ proofsFromKnownFacts query found derivation) :
    ∃ entry ∈ found, proof.bindings = entry.1.restrict query.atom.vars := by
  induction found generalizing derivation with
  | nil => exact absurd member List.not_mem_nil
  | cons entry rest inductionHypothesis =>
    obtain ⟨θ, origin⟩ := entry
    have later : ∀ {derivation : Derivation},
        proof ∈ proofsFromKnownFacts query rest derivation →
          ∃ entry ∈ (θ, origin) :: rest, proof.bindings = entry.1.restrict query.atom.vars := by
      intro derivation inside
      obtain ⟨entry, listed, bindings⟩ := inductionHypothesis inside
      exact ⟨entry, List.mem_cons_of_mem _ listed, bindings⟩
    cases origin with
    | none => exact later member
    | some number =>
      rcases List.mem_cons.1 member with rfl | inside
      · exact ⟨_, List.mem_cons_self, rfl⟩
      · exact later inside

/-- What forward chaining answers an atom with, and what it has added, if it comes to an end: the
bindings of every proof are those of a unifier with a fact. -/
theorem exists_of_ask_atom (filed : kb.Filed) (regular : kb.Regular) {a : Atom} {fuel : Nat}
    {outcome : Except Failure Answer} (asked : ask fuel kb (.atom a) = some (outcome, last)) :
    AddsConsequences.{u} kb last ∧ ∃ answer, outcome = .ok answer ∧
      ∀ proof ∈ answer.proofs, ∃ θ fact, last.IsFact fact ∧ a.unify fact = some θ ∧
        proof.bindings = θ.restrict a.vars := by
  have isUnifier : ∀ {later : KnowledgeBase}, AddsConsequences.{u} kb later →
      ∀ found ∈ later.fetchFacts (.positive a), ∀ bindings,
        bindings = found.1.restrict a.vars →
          ∃ θ fact, later.IsFact fact ∧ a.unify fact = some θ ∧ bindings = θ.restrict a.vars := by
    intro later consequences found fetched bindings same
    obtain ⟨fact, isFact, unifier⟩ :=
      exists_isFact_of_mem_fetchFacts consequences.filed consequences.regular.plain fetched
    exact ⟨found.1, fact, isFact, unifier, same⟩
  rw [ask] at asked
  split at asked
  · obtain ⟨⟨answer, after⟩, ran, same⟩ := Option.map_eq_some_iff.1 asked
    obtain ⟨rfl, rfl⟩ := Prod.mk.inj same
    have consequences := addsConsequences_of_rounds.{u} filed regular ran
    refine ⟨consequences, answer, rfl, ?_⟩
    obtain ⟨_, _, _, ⟨_, proofs⟩ | ⟨_, _, proofs⟩⟩ :=
      exists_last_round (fun _ => True) (fun _ _ _ => trivial) trivial ran
    · rw [proofs]
      intro proof member
      obtain ⟨found, fetched, bindings⟩ := exists_of_mem_proofsFromFacts member
      exact isUnifier consequences found fetched _ bindings
    · rw [proofs]
      exact fun _ absent => absurd absent List.not_mem_nil
  · obtain ⟨rfl, rfl⟩ := Prod.mk.inj (Option.some.inj asked)
    have start := AddsConsequences.refl.{u} filed regular
    refine ⟨start, _, rfl, fun proof member => ?_⟩
    obtain ⟨found, fetched, bindings⟩ := exists_of_mem_proofsFromKnownFacts member
    exact isUnifier start found fetched _ bindings

end ForwardChaining

namespace KnowledgeBase

variable {kb last : KnowledgeBase} {a : Atom} {fuel : Nat} {outcome : Except Failure Answer}

/-- The query under the bindings that are told for it is an instance of what the query with fresh
variables becomes under those that were found. -/
theorem substitute_told (kb : KnowledgeBase) (a : Atom) (θ : Substitution) :
    a.substitute ((θ.restrict
        (a.substitute ((Sentence.atom a).standardizeApart kb.supply).1.forward).vars).inTermsOf
          ((Sentence.atom a).standardizeApart kb.supply).1.reverse) =
      ((a.substitute ((Sentence.atom a).standardizeApart kb.supply).1.forward).substitute
        θ).substitute ((Sentence.atom a).standardizeApart kb.supply).1.reverse := by
  obtain ⟨rename, renames⟩ := kb.exists_renamesVariables_query (.atom a)
  have functional := θ.isFunctional_restrict (nodup_firstOccurrences
    (a.substitute ((Sentence.atom a).standardizeApart kb.supply).1.forward).occurrences)
  simp only [Atom.substitute, Atom.replace_replace]
  refine Atom.replace_congr fun v occurs => ?_
  have listed : v ∈ (Sentence.atom a).allVariables :=
    mem_firstOccurrences.2 (List.mem_append_left _ occurs)
  have renamed : rename v ∈
      (a.substitute ((Sentence.atom a).standardizeApart kb.supply).1.forward).vars := by
    refine Atom.mem_vars.2 (Atom.mem_occurrences_replace.2 ⟨v, occurs, ?_⟩)
    rw [renames.value v]
    exact List.mem_singleton_self _
  refine (renames.value_inTermsOf functional listed).trans ?_
  rw [renames.value v]
  exact congrArg (Term.substitute _) (θ.value_restrict renamed)

/-- **Forward chaining is sound.** Whenever it comes to an end in a reachable knowledge base, it has
answered the atom; every clause that it added is a fact that the definite clauses stored before
entail, and for every proof they entail the atom under the bindings of the proof. -/
theorem Reachable.entails_of_forwardChaining (reachable : kb.Reachable)
    (forward : kb.procedure = .forwardChaining)
    (asked : kb.ask fuel (.atom a) = some (outcome, last)) :
    (∃ added, last.clauses.toList = kb.clauses.toList ++ added ∧
      ∀ c ∈ added, ∃ fact, c.literals = [.positive fact] ∧
        Entails (fun {_ : Type u} _ => True) (kb.clauses.toList.filter Clause.isDefinite)
          (.atom fact)) ∧
    ∃ answer, outcome = .ok answer ∧ ∀ proof ∈ answer.proofs,
      Entails (fun {_ : Type u} _ => True) (kb.clauses.toList.filter Clause.isDefinite)
        ((Sentence.atom a).substitute proof.bindings) := by
  obtain ⟨found, ran, rfl⟩ := exists_of_ask asked
  have fresh : kb.freshQuery (.atom a) =
      .atom (a.substitute ((Sentence.atom a).standardizeApart kb.supply).1.forward) := rfl
  rw [forward, fresh, Procedure.ask] at ran
  have filed : (kb.atQuery (.atom a)).Filed := reachable.filed.adds (.ofSame rfl rfl rfl rfl)
  have regular : (kb.atQuery (.atom a)).Regular := reachable.regular.supplied _ kb.derivation
  obtain ⟨consequences, answer, rfl, proofs⟩ :=
    ForwardChaining.exists_of_ask_atom.{u} filed regular ran
  obtain ⟨added, adds, entailed⟩ := consequences.adds
  refine ⟨⟨added, adds.clauses, entailed⟩, _, rfl, fun proof member => ?_⟩
  obtain ⟨before, inside, rfl⟩ := List.mem_map.1 member
  obtain ⟨θ, fact, isFact, unifier, bindings⟩ := proofs before inside
  intro Universe meaning _ valid
  have validFact := (validIn_of_isFact (consequences.validIn valid) isFact).replace θ.value
  have validQuery : (Sentence.atom ((a.substitute
      ((Sentence.atom a).standardizeApart kb.supply).1.forward).substitute θ)).ValidIn meaning := by
    rw [Atom.substitute_eq_of_unify unifier]
    exact validFact
  rw [bindings]
  have told := congrArg (fun b => (Sentence.atom b).ValidIn meaning) (kb.substitute_told a θ)
  exact told.mpr (validQuery.replace _)

/-- `Wise(Plato)`. -/
def platoIsWise : Sentence :=
  .atom (.predicate "Wise" [.constant "Plato"])

/-- `Wise(x) → Good(x)`. -/
def theWiseAreGood : Sentence :=
  .implies (.atom (.predicate "Wise" [.var ⟨"x", none⟩]))
    (.atom (.predicate "Good" [.var ⟨"x", none⟩]))

/-- `Good(y)`, the atom. -/
def someoneGood : Atom :=
  .predicate "Good" [.var ⟨"y", none⟩]

/-- The knowledge base that chains forward and was told who is wise and what that means. -/
def academy : KnowledgeBase :=
  (KnowledgeBase.telling { procedure := .forwardChaining } platoIsWise).telling theWiseAreGood

theorem procedure_academy : academy.procedure = .forwardChaining := by cbv

theorem reachable_academy : academy.Reachable :=
  ((Reachable.initial _).telling platoIsWise).telling theWiseAreGood

set_option maxRecDepth 10000 in
/-- That someone is good is proved by deriving that Plato is. -/
theorem entails_of_forwardChaining_academy :
    ∃ answer last proof, academy.ask 2 (.atom someoneGood) = some (.ok answer, last) ∧
      proof ∈ answer.proofs ∧
      Entails (fun {_ : Type u} _ => True) (academy.clauses.toList.filter Clause.isDefinite)
        ((Sentence.atom someoneGood).substitute proof.bindings) := by
  obtain ⟨answer, last, proof, asked, member⟩ := exists_of_isProved
    (by cbv : academy.isProved 2 (.atom someoneGood))
  obtain ⟨_, found, same, entailed⟩ :=
    reachable_academy.entails_of_forwardChaining procedure_academy asked
  obtain rfl := Except.ok.inj same
  exact ⟨answer, last, proof, asked, member, entailed proof member⟩

end KnowledgeBase

end ClausalReasoner

/-
This file says when joining literals with facts ends. The only loop in it is the cascading of the
substitutions that are composed along the way. Each of them is made of the substitution found so far
and of a unifier of a literal and a fact. If the variables of the fact are not met in the former, the
two are solved together, and there is nothing to cascade. Nothing checks for cycles when they are put
together, though: a fact with variables that serves two literals brings its variables in again, and
`P(y)` makes `y` an instance of itself when it serves `P(F(z))` and `P(z)`.
-/

import ClausalReasoner.Proofs.Cascading
import ClausalReasoner.Proofs.FactRetrieval
import ClausalReasoner.Proofs.MostGeneralUnifiers

namespace ClausalReasoner

namespace Substitution

variable {θ binding : Substitution}

/-! ### Putting two substitutions together -/

theorem mem_bindings_adjoin {σ later : Substitution} {entry : Variable × Term}
    (member : entry ∈ (σ.adjoin later).bindings) :
    entry ∈ σ.bindings ∨ entry ∈ later.bindings := by
  refine foldl_invariant (fun joined : Substitution =>
    ∀ entry ∈ joined.bindings, entry ∈ σ.bindings ∨ entry ∈ later.bindings)
    (fun joined added inside kept => ?_) (fun _ old => Or.inl old) entry member
  split
  · exact kept
  · intro entry placed
    rcases mem_place placed with rfl | old
    · exact Or.inr inside
    · exact kept entry old

/-- No variable that is bound by the first substitution stands in the range of the second one. -/
def RangeFree (θ binding : Substitution) : Prop :=
  ∀ entry ∈ binding.bindings, ∀ v ∈ entry.2.occurrences, θ.get? v = none

/-- A solved substitution into terms without the variables bound so far goes together with a solved
one. -/
theorem IsSolved.joinedWith (solved : θ.IsSolved) (solvedBinding : binding.IsSolved)
    (functional : binding.IsFunctional) (free : θ.RangeFree binding) :
    (θ.joinedWith binding).IsSolved := by
  have unbound : ∀ {v}, θ.get? v = none → binding.get? v = none →
      (θ.joinedWith binding).get? v = none := by
    intro v here there
    rw [Substitution.joinedWith, get?_adjoin functional, get?_mapRange, here, there]
    rfl
  intro entry member v occurs
  rcases mem_bindings_adjoin member with changed | new
  · obtain ⟨old, inside, rfl⟩ := List.mem_map.1 changed
    obtain ⟨w, stands, image⟩ := Term.mem_occurrences_replace.1 occurs
    refine unbound ?_ (solvedBinding.unbound image)
    cases bound : binding.get? w with
    | none =>
      rw [value_of_get?_none bound] at image
      rw [List.mem_singleton.1 image]
      exact solved old inside w stands
    | some t =>
      rw [value_of_get?_some bound] at image
      exact free (w, t) (mem_of_lookup bound) v image
  · exact unbound (free entry new v occurs) (solvedBinding entry new v occurs)

theorem rangeFree_of_mentioned (free : ∀ v ∈ binding.mentioned, θ.get? v = none) :
    θ.RangeFree binding :=
  fun entry member v occurs => free v (mem_mentioned.2 ⟨entry, member, Or.inr occurs⟩)

theorem mentioned_joinedWith {v : Variable} (speaks : v ∈ (θ.joinedWith binding).mentioned) :
    v ∈ θ.mentioned ∨ v ∈ binding.mentioned := by
  obtain ⟨entry, member, stands⟩ := mem_mentioned.1 speaks
  rcases mem_bindings_adjoin member with changed | new
  · obtain ⟨old, inside, rfl⟩ := List.mem_map.1 changed
    rcases stands with rfl | occurs
    · exact Or.inl (mem_mentioned.2 ⟨old, inside, Or.inl rfl⟩)
    · obtain ⟨w, here, image⟩ := Term.mem_occurrences_replace.1 occurs
      cases bound : binding.get? w with
      | none =>
        rw [value_of_get?_none bound] at image
        rw [List.mem_singleton.1 image]
        exact Or.inl (mem_mentioned.2 ⟨old, inside, Or.inr here⟩)
      | some t =>
        rw [value_of_get?_some bound] at image
        exact Or.inr (mem_mentioned.2 ⟨(w, t), mem_of_lookup bound, Or.inr image⟩)
  · exact Or.inr (mem_mentioned.2 ⟨entry, new, stands⟩)

end Substitution

/-- A unifier of two atoms is solved and speaks of no variables but theirs. -/
theorem Atom.isSolved_of_unify {a b : Atom} {θ : Substitution} (found : a.unify b = some θ) :
    θ.IsSolved ∧ ∀ v ∈ θ.mentioned, v ∈ a.occurrences ∨ v ∈ b.occurrences := by
  obtain ⟨_, completes⟩ := Substitution.isSolved_empty.completes_of_unifyWith.2.1 a b θ found
  refine ⟨completes.solved, fun v speaks => ?_⟩
  rcases completes.mentioned v speaks with inside | absent
  · exact List.mem_append.1 inside
  · exact absurd absent List.not_mem_nil

/-- A literal has the polarity of another one and unifies with it. -/
structure Literal.Meets (l k : Literal) : Prop where
  polarity : k.polarity = l.polarity
  unifies : (l.atom.unify k.atom).isSome

namespace KnowledgeBase

variable {kb : KnowledgeBase} {ls : List Literal} {θ binding : Substitution}

/-! ### The substitutions that are cascaded -/

/-- The substitutions that are cascaded while literals are joined with facts. -/
def cascadedWhileJoining (kb : KnowledgeBase) : List Literal → Substitution → List Substitution
  | [], _ => []
  | l :: rest, θ =>
    (kb.fetch (l.substitute θ)).flatMap fun binding =>
      θ.joinedWith binding :: kb.cascadedWhileJoining rest (θ.compose binding)

theorem Reachable.exists_storesUnit_of_mem_fetch (reachable : kb.Reachable) {l : Literal}
    (fetched : binding ∈ kb.fetch l) :
    ∃ k, kb.StoresUnit k ∧ k.polarity = l.polarity ∧ l.atom.unify k.atom = some binding := by
  rw [reachable.fetch_eq] at fetched
  obtain ⟨c, member, unified⟩ := List.mem_filterMap.1 fetched
  unfold Literal.unifyUnit at unified
  split at unified
  · next k literals =>
    split at unified
    · next polarity => exact ⟨k, ⟨c, member, literals⟩, polarity, unified⟩
    · exact absurd unified nofun
  · exact absurd unified nofun

/-! ### Facts that serve one literal -/

/-- A stored unit clause that meets two of the literals has no variables. -/
def ServesOnce (kb : KnowledgeBase) (ls : List Literal) : Prop :=
  ls.Pairwise fun l m => ∀ k, kb.StoresUnit k → l.Meets k → m.Meets k → k.occurrences = []

/-- What unifies with an instance of a literal unifies with the literal, if they are apart. -/
theorem IsApartFrom.meets_of_unify (apart : kb.IsApartFrom ls) {l k : Literal} (member : l ∈ ls)
    (stored : kb.StoresUnit k) (polarity : k.polarity = l.polarity)
    (unified : (l.atom.substitute θ).unify k.atom = some binding) : l.Meets k := by
  obtain ⟨c, inside, literals⟩ := stored
  have separate : ∀ v ∈ Literal.occurrencesList [l], v ∉ Literal.occurrencesList [k] := by
    intro v here
    refine literals ▸ apart c inside v (List.mem_flatMap.2 ⟨l, member, ?_⟩)
    simpa [Literal.occurrencesList] using here
  obtain ⟨joint, onLiteral, onFact⟩ := Literal.exists_joint separate
    (fun v => (θ.value v).replace binding.value) binding.value
  have equal : l.atom.replace joint = k.atom.replace joint := by
    have first := congrArg Literal.atom (onLiteral l (List.mem_singleton_self l))
    have second := congrArg Literal.atom (onFact k (List.mem_singleton_self k))
    calc l.atom.replace joint
        = l.atom.replace fun v => (θ.value v).replace binding.value := first
      _ = (l.atom.substitute θ).substitute binding := (l.atom.replace_replace _ _).symm
      _ = k.atom.substitute binding := Atom.substitute_eq_of_unify unified
      _ = k.atom.replace joint := second.symm
  obtain ⟨found, unifier, _⟩ := Atom.exists_unify equal
  exact ⟨polarity, by rw [unifier]; rfl⟩

/-- Nothing that was found so far speaks of a fact that serves a literal still to come. -/
def LeavesFree (kb : KnowledgeBase) (θ : Substitution) (ls : List Literal) : Prop :=
  ∀ l ∈ ls, ∀ k, kb.StoresUnit k → l.Meets k → ∀ v ∈ k.occurrences, v ∉ θ.mentioned

section Step

variable {l k : Literal} {rest : List Literal}

/-- A unifier of the next literal and a fact speaks of no variable that is bound so far. -/
theorem LeavesFree.get?_eq_none (leaves : kb.LeavesFree θ (l :: rest)) (solved : θ.IsSolved)
    (stored : kb.StoresUnit k) (meets : l.Meets k)
    (unified : (l.atom.substitute θ).unify k.atom = some binding) :
    ∀ v ∈ binding.mentioned, θ.get? v = none := by
  intro v mentioned
  rcases (Atom.isSolved_of_unify unified).2 v mentioned with ofLiteral | ofFact
  · obtain ⟨w, _, image⟩ := Atom.mem_occurrences_replace.1 ofLiteral
    exact solved.unbound image
  · by_contra bound
    obtain ⟨t, found⟩ := Option.ne_none_iff_exists'.1 bound
    exact leaves l List.mem_cons_self k stored meets v ofFact
      (Substitution.mem_mentioned.2 ⟨(v, t), Substitution.mem_of_lookup found, Or.inl rfl⟩)

/-- The facts that serve later literals are still free when the next literal has been joined. -/
theorem LeavesFree.joinedWith (leaves : kb.LeavesFree θ (l :: rest)) (keeps : kb.KeepsApart)
    (apart : kb.IsApartFrom (l :: rest)) (once : kb.ServesOnce (l :: rest))
    (stored : kb.StoresUnit k) (meets : l.Meets k)
    (unified : (l.atom.substitute θ).unify k.atom = some binding) :
    kb.LeavesFree (θ.joinedWith binding) rest := by
  intro m later d other meetsLater v occurs mentioned
  have notOld : v ∉ θ.mentioned := leaves m (List.mem_cons_of_mem _ later) d other meetsLater v occurs
  rcases Substitution.mentioned_joinedWith mentioned with old | new
  · exact notOld old
  rcases (Atom.isSolved_of_unify unified).2 v new with ofLiteral | ofFact
  · obtain ⟨w, here, image⟩ := Atom.mem_occurrences_replace.1 ofLiteral
    cases bound : θ.get? w with
    | none =>
      rw [Substitution.value_of_get?_none bound] at image
      obtain rfl := List.mem_singleton.1 image
      obtain ⟨c, inside, literals⟩ := other
      exact apart c inside v (List.mem_flatMap.2 ⟨l, List.mem_cons_self, here⟩)
        (Clause.mem_occurrencesList (literals ▸ List.mem_singleton_self d) occurs)
    | some t =>
      rw [Substitution.value_of_get?_some bound] at image
      exact notOld (Substitution.mem_mentioned.2
        ⟨(w, t), Substitution.mem_of_lookup bound, Or.inr image⟩)
  · obtain rfl := keeps.eq_of_mem_occurrences stored other ofFact occurs
    have ground := (List.pairwise_cons.1 once).1 m later k stored meets meetsLater
    exact absurd (ground ▸ occurs) List.not_mem_nil

end Step

/-- All substitutions that are cascaded are solved, if no fact with variables serves two of the
literals. -/
theorem KeepsApart.isSolved_of_mem_cascaded (keeps : kb.KeepsApart) (reachable : kb.Reachable)
    (apart : kb.IsApartFrom ls) (once : kb.ServesOnce ls) (solved : θ.IsSolved)
    (leaves : kb.LeavesFree θ ls) : ∀ σ ∈ kb.cascadedWhileJoining ls θ, σ.IsSolved := by
  induction ls generalizing θ with
  | nil => exact fun σ absent => absurd absent List.not_mem_nil
  | cons l rest inductionHypothesis =>
    intro σ member
    obtain ⟨binding, fetched, inside⟩ := List.mem_flatMap.1 member
    obtain ⟨k, stored, polarity, unified⟩ := reachable.exists_storesUnit_of_mem_fetch fetched
    have meets : l.Meets k := apart.meets_of_unify List.mem_cons_self stored polarity unified
    have together : (θ.joinedWith binding).IsSolved :=
      solved.joinedWith (Atom.isSolved_of_unify unified).1 (Atom.isFunctional_of_unify unified)
        (Substitution.rangeFree_of_mentioned (leaves.get?_eq_none solved stored meets unified))
    rcases List.mem_cons.1 inside with rfl | further
    · exact together
    · have composed : θ.compose binding = θ.joinedWith binding :=
        Substitution.cascadeWithin_of_fixed together.cascadeRound_eq
      rw [composed] at further
      refine inductionHypothesis ?_ (List.Pairwise.of_cons once) together
        (leaves.joinedWith keeps apart once stored meets unified) σ further
      exact fun c among v listed => apart c among v (List.mem_append_right _ listed)

/-- **Retrieval ends where facts serve one literal.** In a knowledge base in use, let some literals
have no variable of a stored clause, and let no stored unit clause with variables meet two of them.
Then no substitution that is cascaded while they are joined with the facts has a cycle, and every
cascade comes to rest. -/
theorem Obtainable.comesToRest_of_mem_cascaded (obtainable : kb.Obtainable)
    (apart : kb.IsApartFrom ls) (once : kb.ServesOnce ls) :
    ∀ σ ∈ kb.cascadedWhileJoining ls ∅, σ.IsAcyclic ∧ σ.ComesToRest := by
  intro σ member
  have acyclic : σ.IsAcyclic :=
    (obtainable.keepsApart.isSolved_of_mem_cascaded obtainable.reachable apart once
      Substitution.isSolved_empty (fun _ _ _ _ _ _ _ absent => absurd absent List.not_mem_nil)
      σ member).isAcyclic
  exact ⟨acyclic, acyclic.comesToRest.1⟩

/-- `Visits(w, Lyceum)`. -/
def visitsLyceum : Literal :=
  .positive (.predicate "Visits" [.var ⟨"w", none⟩, .constant "Lyceum"])

theorem comesToRest_of_mem_cascaded_visitors :
    visitors.Obtainable ∧ visitors.IsApartFrom [visitsAgora, visitsLyceum] ∧
      visitors.ServesOnce [visitsAgora, visitsLyceum] ∧
      visitors.cascadedWhileJoining [visitsAgora, visitsLyceum] ∅ ≠ [] ∧
      ∀ σ ∈ visitors.cascadedWhileJoining [visitsAgora, visitsLyceum] ∅,
        σ.IsAcyclic ∧ σ.ComesToRest := by
  have obtainable : visitors.Obtainable := .tellAll (.initial _) _
  have apart : visitors.IsApartFrom [visitsAgora, visitsLyceum] :=
    obtainable.keepsApart.isApartFrom (by decide)
  have literals : visitors.clauses.toList.map Clause.literals =
      [[everyoneVisitsAgora], [platoVisitsLyceum]] := by cbv
  have once : visitors.ServesOnce [visitsAgora, visitsLyceum] := by
    refine List.pairwise_pair.2 fun k stored first second => ?_
    rw [storesUnit_iff, literals] at stored
    simp only [List.mem_cons, List.cons.injEq, and_true, List.not_mem_nil, or_false] at stored
    rcases stored with rfl | rfl
    · exact absurd second.2 (by decide +kernel)
    · rfl
  exact ⟨obtainable, apart, once, by cbv; simp, obtainable.comesToRest_of_mem_cascaded apart once⟩

/-! ### A fact that serves a term and what stands in it -/

/-- `P(F(z))` and `P(z)`. -/
def termAndVariable : List Literal :=
  [.positive (.predicate "P" [.app "F" [.var ⟨"z", none⟩]]),
    .positive (.predicate "P" [.var ⟨"z", none⟩])]

/-- The fact `P(y)` is met by `P(F(z))` and by `P(z)`, and `y` is then bound to `F(y)`. -/
theorem not_comesToRest_universalFact :
    universalFact.Obtainable ∧ universalFact.IsApartFrom termAndVariable ∧
      ∃ σ ∈ universalFact.cascadedWhileJoining termAndVariable ∅,
        ¬ σ.IsAcyclic ∧ ¬ σ.ComesToRest := by
  have obtainable : universalFact.Obtainable := .tellAll (.initial _) _
  have cascaded : universalFact.cascadedWhileJoining termAndVariable ∅ =
      [⟨[(⟨"y", some 0⟩, .app "F" [.var ⟨"z", none⟩])]⟩,
        ⟨[(⟨"y", some 0⟩, .app "F" [.var ⟨"y", some 0⟩]), (⟨"z", none⟩, .var ⟨"y", some 0⟩)]⟩] := by
    cbv
  refine ⟨obtainable, obtainable.keepsApart.isApartFrom (by decide), _,
    cascaded ▸ List.mem_cons_of_mem _ (List.mem_singleton_self _), fun acyclic => ?_, ?_⟩
  · exact acyclic ⟨"y", some 0⟩ (.single ⟨_, rfl, by decide⟩)
  · exact Substitution.not_comesToRest (v := ⟨"y", some 0⟩) rfl (by decide) (by decide)

end KnowledgeBase

end ClausalReasoner

/-
This file says what clauses factoring and resolution come up with. The factors of a clause begin with
the clause itself, and each of the others is what a replacement of variables makes of it that merges
two literals of one polarity. Everything that is found when two clauses are resolved is a copy of a
resolvent of theirs.
-/

import ClausalReasoner.Proofs.VariantResolvents

namespace ClausalReasoner

/-! ### Collecting in front -/

namespace InstanceInvariant

variable {holds : List Literal → Prop}

/-- Steps that put clauses with a property in front of the results. -/
theorem exists_found_foldl {Element : Type} {step : Collection → Element → Collection}
    {list : List Element}
    (each : ∀ collection : Collection, ∀ element ∈ list,
      ∃ new, (step collection element).found = new ++ collection.found ∧ AllHold holds new)
    (collection : Collection) :
    ∃ new, (list.foldl step collection).found = new ++ collection.found ∧ AllHold holds new := by
  refine foldl_invariant
    (fun later : Collection => ∃ new, later.found = new ++ collection.found ∧ AllHold holds new)
    (fun later element member kept => ?_) ⟨[], rfl, .nil⟩
  obtain ⟨before, found, all⟩ := kept
  obtain ⟨new, inFront, allNew⟩ := each later element member
  exact ⟨new ++ before, by rw [inFront, found, List.append_assoc], allNew.append all⟩

/-- What merging a pair of literals of a clause makes has a property. -/
def Merging (holds : List Literal → Prop) (c : Clause) (pair : Literal × Literal) : Prop :=
  ∀ θ, pair.1.atom.unify pair.2.atom = some θ →
    holds (firstOccurrences (Literal.substituteList θ c.literals))

theorem exists_found_addFactor (invariant : InstanceInvariant holds) {c : Clause}
    {pair : Literal × Literal} (merging : Merging holds c pair) (collection : Collection) :
    ∃ new, (ClausalReasoner.addFactor c collection pair).found = new ++ collection.found ∧
      AllHold holds new := by
  rw [ClausalReasoner.addFactor]
  cases unify : pair.1.atom.unify pair.2.atom with
  | none => exact ⟨[], rfl, .nil⟩
  | some θ =>
    rcases (collection.addUnified_cases .factoring c.literals θ c.sources).2 with
      ⟨_, _, same⟩ | ⟨d, literals, _, new⟩
    · exact ⟨[], same, .nil⟩
    · refine ⟨[d], new, .cons ?_ .nil⟩
      rw [literals]
      exact invariant.rename (c := Clause.ofLiterals _) (merging θ unify) collection.session

/-- If merging two literals of a clause makes clauses with a property, then all that is found when
factors of the clause are collected has it. -/
theorem exists_found_collectFactors (invariant : InstanceInvariant holds) (depth : Nat) {c : Clause}
    (merging : ∀ pair ∈ c.factorPairs, Merging holds c pair) (collection : Collection) :
    ∃ new, (ClausalReasoner.collectFactors depth c collection).found = new ++ collection.found ∧
      AllHold holds new := by
  induction depth generalizing c collection with
  | zero => exact ⟨[], rfl, .nil⟩
  | succ depth inductionHypothesis =>
    rw [ClausalReasoner.collectFactors]
    obtain ⟨direct, found, all⟩ := exists_found_foldl
      (fun collection pair member => invariant.exists_found_addFactor (merging pair member) collection)
      ⟨collection.session, collection.seen, []⟩
    rw [List.append_nil] at found
    have each : ∀ later : Collection, ∀ factor ∈ direct,
        ∃ new, (ClausalReasoner.collectFactors depth factor later).found = new ++ later.found ∧
          AllHold holds new := fun later factor member =>
      inductionHypothesis (fun pair _ θ _ => invariant.instantiate _ θ (all factor member)) later
    obtain ⟨new, inFront, allNew⟩ := exists_found_foldl each
      ⟨(c.factorPairs.foldl (ClausalReasoner.addFactor c)
          ⟨collection.session, collection.seen, []⟩).session,
        (c.factorPairs.foldl (ClausalReasoner.addFactor c)
          ⟨collection.session, collection.seen, []⟩).seen, direct ++ collection.found⟩
    dsimp only
    rw [found]
    exact ⟨new ++ direct, by rw [inFront, List.append_assoc], allNew.append all⟩

end InstanceInvariant

/-! ### Factors -/

/-- Literals are what a replacement of variables makes of others, and two literals of one polarity
have become one. -/
def Literal.MergeInto (ls ms : List Literal) : Prop :=
  ∃ value : Variable → Term, (∀ m, m ∈ ms ↔ m ∈ ls.map (Literal.replace value)) ∧
    ∃ l ∈ ls, ∃ k ∈ ls, l ≠ k ∧ l.polarity = k.polarity ∧ l.atom.replace value = k.atom.replace value

/-- Literals with two merged ones keep them merged. -/
theorem instanceInvariant_mergeInto (ls : List Literal) :
    InstanceInvariant (Literal.MergeInto ls) where
  instantiate ms θ merged := by
    obtain ⟨value, images, l, here, k, there, different, polarity, equal⟩ := merged
    refine ⟨fun v => (value v).replace θ.value, fun m => ?_, l, here, k, there, different, polarity,
      ?_⟩
    · rw [mem_firstOccurrences, Literal.substituteList, List.mem_map, List.mem_map]
      constructor
      · rintro ⟨n, inside, rfl⟩
        obtain ⟨source, member, rfl⟩ := List.mem_map.1 ((images n).1 inside)
        exact ⟨source, member, (source.replace_replace value θ.value).symm⟩
      · rintro ⟨source, member, rfl⟩
        exact ⟨source.replace value, (images _).2 (List.mem_map_of_mem member),
          source.replace_replace value θ.value⟩
    · rw [← Atom.replace_replace, ← Atom.replace_replace, equal]

/-- The factors of a clause begin with the clause itself, and in the others literals are merged. -/
theorem Session.exists_factors_eq_cons (session : Session) (c : Clause) :
    ∃ merged, (session.factors c).1 = c :: merged ∧
      ∀ f ∈ merged, Literal.MergeInto c.literals f.literals := by
  have merging : ∀ pair ∈ c.factorPairs,
      InstanceInvariant.Merging (Literal.MergeInto c.literals) c pair := by
    intro pair member θ unify
    obtain ⟨here, there, different, polarity⟩ := Clause.of_mem_factorPairs member
    exact ⟨θ.value, fun m => mem_firstOccurrences, _, here, _, there, different, polarity,
      Atom.substitute_eq_of_unify unify⟩
  obtain ⟨new, found, all⟩ := (instanceInvariant_mergeInto c.literals).exists_found_collectFactors
    (c.size + c.vars.length + 1) merging ⟨session, [c.key], [c]⟩
  refine ⟨new.reverse, ?_, fun f member => all f (List.mem_reverse.1 member)⟩
  rw [Session.factors]
  dsimp only
  rw [found, List.reverse_append, List.reverse_singleton, List.singleton_append]

/-! ### Resolvents -/

/-- What is found when two clauses are resolved are copies of resolvents of theirs. -/
theorem Session.exists_resolvent_of_mem (session : Session) {first second : Clause}
    (below : first.VariablesBelow session.supply.next)
    (some : (first.isEmpty && second.isEmpty) = false) {r : Clause}
    (member : r ∈ (session.resolvents first second).1) :
    ∃ s : Clause, s.IsResolvent first second ∧ r.CopyOf s := by
  rw [resolvents, some, if_neg Bool.false_ne_true] at member
  obtain ⟨isCopy, apart, _⟩ := session.copyOf_apartFrom below second
  refine foldl_invariant
    (fun collection : Collection => ∀ r ∈ collection.found,
      ∃ s : Clause, s.IsResolvent first second ∧ r.CopyOf s)
    (fun collection pair inside kept => ?_) (fun r none => absurd none List.not_mem_nil) r
    (List.mem_reverse.1 member)
  rw [addResolvent]
  split
  · exact kept
  · next θ unify =>
    intro r found
    rcases Collection.mem_or_of_mem_addUnified found with old | new
    · exact kept r old
    · obtain ⟨forward, back, literals, undone⟩ := (collection.session.copyOf_rename
        (Clause.ofLiterals (Literal.substituteList θ pair.remaining))).1
      refine ⟨_, ?_, forward, back, new.trans literals, undone⟩
      rcases List.mem_append.1 inside with here | there
      · obtain ⟨l, positive, tried⟩ := List.mem_flatMap.1 here
        obtain ⟨m, negative, rfl⟩ := List.mem_map.1 tried
        exact Or.inl ⟨first, _, .refl first, isCopy, apart, l, positive, m, negative, θ, unify, rfl⟩
      · obtain ⟨l, positive, tried⟩ := List.mem_flatMap.1 there
        obtain ⟨m, negative, rfl⟩ := List.mem_map.1 tried
        exact Or.inr
          ⟨_, first, isCopy, .refl first, apart.symm, l, positive, m, negative, θ, unify, rfl⟩

end ClausalReasoner

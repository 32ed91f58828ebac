/-
This file is about the variables of what is inferred. The rules give their results fresh variables, so
whatever the premises were, the results have no variables but those that the supply had still to hand
out. Demodulation comes after that; it puts in a side of an equation, which may bring in variables of
the equation. If certain variables are allowed, among them those that are still to be handed out and
those of the demodulators, then all that is inferred uses allowed variables only.
-/

import ClausalReasoner.Proofs.ChainVariants

namespace ClausalReasoner

variable {allowed : Variable → Prop}

/-- The variables that a supply has still to hand out are allowed. -/
def Supply.Permits (supply : Supply) (allowed : Variable → Prop) : Prop :=
  ∀ v index, v.index = some index → supply.next ≤ index → allowed v

theorem Supply.Permits.mono {supply later : Supply} (permits : supply.Permits allowed)
    (le : supply.next ≤ later.next) : later.Permits allowed :=
  fun v index indexed above => permits v index indexed (Nat.le_trans le above)

/-! ### Renaming and collecting -/

theorem Session.allUse_rename {session : Session} (permits : session.supply.Permits allowed)
    (c : Clause) : Literal.AllUse allowed (session.rename c).1.literals := by
  intro v occurs
  obtain ⟨index, indexed, above, _⟩ := (c.copyOf_renamed session.supply).2.2 v occurs
  exact permits v index indexed above

namespace Collection

/-- The results that were found use allowed variables only, and more of these can be handed out. -/
structure Uses (collection : Collection) (allowed : Variable → Prop) : Prop where
  permits : collection.session.supply.Permits allowed
  found : AllHold (Literal.AllUse allowed) collection.found

variable {collection : Collection}

theorem Uses.addUnified (uses : collection.Uses allowed) (rule : Rule) (ls : List Literal)
    (θ : Substitution) (sources : List StepNumber) :
    (collection.addUnified rule ls θ sources).Uses allowed := by
  refine ⟨uses.permits.mono (collection.next_le_addUnified rule ls θ sources), fun c member => ?_⟩
  rcases mem_or_of_mem_addUnified member with old | literals
  · exact uses.found c old
  · rw [literals]
    exact Session.allUse_rename uses.permits _

theorem Uses.addFactor (uses : collection.Uses allowed) (c : Clause) (pair : Literal × Literal) :
    (addFactor c collection pair).Uses allowed := by
  rw [ClausalReasoner.addFactor]
  split
  · exact uses
  · exact uses.addUnified _ _ _ _

theorem Uses.collectFactors (uses : collection.Uses allowed) (depth : Nat) (c : Clause) :
    (collectFactors depth c collection).Uses allowed := by
  induction depth generalizing c collection with
  | zero => exact uses
  | succ depth inductionHypothesis =>
    have direct : Uses (c.factorPairs.foldl (ClausalReasoner.addFactor c)
        ⟨collection.session, collection.seen, []⟩) allowed :=
      foldl_invariant (fun collection : Collection => collection.Uses allowed)
        (fun collection pair _ uses => uses.addFactor c pair) ⟨uses.permits, AllHold.nil⟩
    rw [ClausalReasoner.collectFactors]
    exact foldl_invariant (fun collection : Collection => collection.Uses allowed)
      (fun collection factor _ uses => inductionHypothesis uses factor)
      ⟨direct.permits, direct.found.append uses.found⟩

theorem Uses.addResolvent (uses : collection.Uses allowed) (pair : ResolutionPair) :
    (addResolvent collection pair).Uses allowed := by
  rw [ClausalReasoner.addResolvent]
  split
  · exact uses
  · exact uses.addUnified _ _ _ _

theorem Uses.addParamodulant (uses : collection.Uses allowed) (site : ParamodulationSite) :
    (addParamodulant collection site).Uses allowed := by
  refine ⟨uses.permits.mono (collection.next_le_addParamodulant site), ?_⟩
  rw [ClausalReasoner.addParamodulant]
  split
  · exact uses.found
  · dsimp only
    split
    · exact uses.found
    · exact uses.found.cons (Session.allUse_rename uses.permits _)

end Collection

/-! ### The rules -/

namespace Session

variable {session : Session}

/-- The factors of a clause use allowed variables if the clause does. -/
theorem allUse_factors (permits : session.supply.Permits allowed) {c : Clause}
    (uses : Literal.AllUse allowed c.literals) :
    AllHold (Literal.AllUse allowed) (session.factors c).1 := by
  have start : (⟨session, [c.key], [c]⟩ : Collection).Uses allowed :=
    ⟨permits, AllHold.nil.cons uses⟩
  exact fun factor member =>
    (start.collectFactors (c.size + c.vars.length + 1) c).found factor (List.mem_reverse.1 member)

theorem allUse_resolvents (permits : session.supply.Permits allowed) (first second : Clause) :
    AllHold (Literal.AllUse allowed) (session.resolvents first second).1 := by
  rw [resolvents]
  split
  · exact AllHold.nil.cons fun v occurs => absurd occurs List.not_mem_nil
  · have collected : Collection.Uses ((resolutionPairs first (session.apartFrom first second).1).foldl
        addResolvent ⟨(session.apartFrom first second).2, [], []⟩) allowed :=
      foldl_invariant (fun collection : Collection => collection.Uses allowed)
        (fun collection pair _ uses => uses.addResolvent pair)
        ⟨permits.mono (session.next_le_apartFrom first second), AllHold.nil⟩
    exact fun c member => collected.found c (List.mem_reverse.1 member)

theorem allUse_paramodulants (permits : session.supply.Permits allowed) (first second : Clause) :
    AllHold (Literal.AllUse allowed) (session.paramodulants first second).1 := by
  have collected : Collection.Uses ((paramodulationSites first
      (session.apartFrom first second).1).foldl addParamodulant
        ⟨(session.apartFrom first second).2, [], []⟩) allowed :=
    foldl_invariant (fun collection : Collection => collection.Uses allowed)
      (fun collection site _ uses => uses.addParamodulant site)
      ⟨permits.mono (session.next_le_apartFrom first second), AllHold.nil⟩
  exact fun c member => collected.found c (List.mem_reverse.1 member)

/-- A far parent is given fresh variables before it is used. -/
theorem allUse_reduceChains (permits : session.supply.Permits allowed) {near far reduced : Chain}
    (uses : Literal.AllUse allowed near.literals)
    (found : (session.reduceChains near far).1 = some reduced) :
    Literal.AllUse allowed reduced.literals := by
  have usesFar : Literal.AllUse allowed (session.renameChain far).1.literals := by
    intro v occurs
    obtain ⟨index, indexed, above, _⟩ := (session.areVariants_renameChain far).2 v occurs
    exact permits v index indexed above
  have same := session.reduceChains_fst near far
  rw [found, Option.map_some] at same
  obtain ⟨⟨θ, ls⟩, isReduction, literals⟩ := Option.map_eq_some_iff.1 same.symm
  exact literals ▸ allUse_reduction uses usesFar isReduction

end Session

/-- Everything that follows in one step uses allowed variables only. -/
theorem GivenClause.allUse_infer {options : GivenClauseOptions} {session : Session}
    (permits : session.supply.Permits allowed) (c : Clause) (others : List Clause) :
    AllHold (Literal.AllUse allowed) (infer options session c others).1 := by
  have each : ∀ found : ClauseSet × Session, ∀ other ∈ others,
      found.2.supply.Permits allowed ∧ AllHold (Literal.AllUse allowed) found.1.toList →
        (inferPair options.paramodulation c found other).2.supply.Permits allowed ∧
          AllHold (Literal.AllUse allowed)
            (inferPair options.paramodulation c found other).1.toList := by
    intro found other _ ⟨permits, all⟩
    refine ⟨permits.mono (next_le_inferPair options.paramodulation c found other), ?_⟩
    have resolved := all.insertAll (Session.allUse_resolvents permits c other)
    rw [inferPair]
    dsimp only
    split
    · exact resolved.insertAll (Session.allUse_paramodulants
        (permits.mono (found.2.next_le_resolvents c other)) c other)
    · exact resolved
  exact (foldl_invariant _ each ⟨permits, AllHold.nil⟩).2

/-! ### Demodulation -/

theorem exists_of_mem_modify {Element : Type} {change : Element → Element} {list : List Element}
    {place : Nat} {element : Element} (member : element ∈ list.modify place change) :
    element ∈ list ∨ ∃ old ∈ list, element = change old := by
  induction list generalizing place with
  | nil =>
    rw [List.modify_nil] at member
    exact Or.inl member
  | cons first rest inductionHypothesis =>
    cases place with
    | zero =>
      rw [List.modify_zero_cons] at member
      rcases List.mem_cons.1 member with changed | later
      · exact Or.inr ⟨first, List.mem_cons_self, changed⟩
      · exact Or.inl (List.mem_cons_of_mem _ later)
    | succ place =>
      rw [List.modify_succ_cons] at member
      rcases List.mem_cons.1 member with rfl | later
      · exact Or.inl List.mem_cons_self
      · exact (inductionHypothesis later).imp (List.mem_cons_of_mem _)
          fun ⟨old, inside, changed⟩ => ⟨old, List.mem_cons_of_mem _ inside, changed⟩

namespace Term

theorem mem_occurrences_of_at? {t subterm : Term} {position : Position}
    (there : t.at? position = some subterm) {v : Variable} (occurs : v ∈ subterm.occurrences) :
    v ∈ t.occurrences := by
  induction position generalizing t with
  | nil => exact Option.some.inj there ▸ occurs
  | cons step rest inductionHypothesis =>
    obtain ⟨argument, inside, below⟩ := Option.bind_eq_some_iff.1 there
    cases t with
    | app function ts =>
      exact mem_occurrencesList.2 ⟨argument, List.mem_of_getElem? inside, inductionHypothesis below⟩
    | _ => exact absurd inside nofun

theorem mem_occurrences_of_replaceAt {new t : Term} {position : Position} {v : Variable}
    (occurs : v ∈ (replaceAt new position t).occurrences) :
    v ∈ new.occurrences ∨ v ∈ t.occurrences := by
  induction position generalizing t with
  | nil => exact Or.inl occurs
  | cons step rest inductionHypothesis =>
    cases t with
    | app function ts =>
      obtain ⟨changed, inside, here⟩ := mem_occurrencesList.1 occurs
      rcases exists_of_mem_modify inside with same | ⟨old, member, rfl⟩
      · exact Or.inr (mem_occurrencesList.2 ⟨changed, same, here⟩)
      · exact (inductionHypothesis here).imp_right
          fun below => mem_occurrencesList.2 ⟨old, member, below⟩
    | _ => exact Or.inr occurs

mutual

/-- What a match binds is built from what the pattern and the target are built from. -/
theorem builtFrom_of_matchWith {known : Symbol → Prop} : ∀ (pattern target : Term)
    (σ : Substitution) {matched : Substitution}, pattern.BuiltFrom allowed known →
      target.BuiltFrom allowed known → σ.BuiltFrom allowed known →
        pattern.matchWith target σ = some matched → matched.BuiltFrom allowed known
  | .var v, target, σ, matched, pattern, builtTarget, built, found => by
    rw [matchWith] at found
    split at found
    · split at found
      · exact Option.some.inj found ▸ built
      · exact absurd found nofun
    · rw [← Option.some.inj found]
      exact built.insert (pattern.1 v (List.mem_singleton_self v)) builtTarget
  | .constant a, .constant b, σ, matched, _, _, built, found => by
    rw [matchWith] at found
    split at found
    · exact Option.some.inj found ▸ built
    · exact absurd found nofun
  | .app f patterns, .app g targets, σ, matched, builtPattern, builtTarget, built, found => by
    rw [matchWith] at found
    split at found
    · exact builtFrom_of_matchListWith patterns targets σ builtPattern.arguments
        builtTarget.arguments built found
    · exact absurd found nofun
  | .constant _, .var _, _, _, _, _, _, found => by simp [matchWith] at found
  | .constant _, .app _ _, _, _, _, _, _, found => by simp [matchWith] at found
  | .app _ _, .constant _, _, _, _, _, _, found => by simp [matchWith] at found
  | .app _ _, .var _, _, _, _, _, _, found => by simp [matchWith] at found

theorem builtFrom_of_matchListWith {known : Symbol → Prop} : ∀ (patterns targets : List Term)
    (σ : Substitution) {matched : Substitution}, (∀ t ∈ patterns, t.BuiltFrom allowed known) →
      (∀ t ∈ targets, t.BuiltFrom allowed known) → σ.BuiltFrom allowed known →
        matchListWith patterns targets σ = some matched → matched.BuiltFrom allowed known
  | [], [], σ, matched, _, _, built, found => Option.some.inj found ▸ built
  | pattern :: patterns, target :: targets, σ, matched, builtPatterns, builtTargets, built,
    found => by
    obtain ⟨firstPattern, laterPatterns⟩ := List.forall_mem_cons.1 builtPatterns
    obtain ⟨firstTarget, laterTargets⟩ := List.forall_mem_cons.1 builtTargets
    rw [matchListWith] at found
    split at found
    · next between extended =>
      exact builtFrom_of_matchListWith patterns targets between laterPatterns laterTargets
        (builtFrom_of_matchWith pattern target σ firstPattern firstTarget built extended) found
    · exact absurd found nofun
  | [], _ :: _, _, _, _, _, _, found => by simp [matchListWith] at found
  | _ :: _, [], _, _, _, _, _, found => by simp [matchListWith] at found

end

end Term

namespace Atom

theorem mem_occurrences_of_withArguments {a : Atom} {ts : List Term} {v : Variable}
    (occurs : v ∈ (a.withArguments ts).occurrences) :
    v ∈ Term.occurrencesList ts ∨ v ∈ a.occurrences := by
  cases a with
  | predicate name arguments => exact Or.inl occurs
  | equality left right =>
    -- Too few arguments leave an equality as it is.
    rcases ts with _ | ⟨first, _ | ⟨second, rest⟩⟩
    · exact Or.inr occurs
    · exact Or.inr occurs
    · refine Or.inl (Term.mem_occurrencesList.2 ?_)
      obtain ⟨t, inside, here⟩ := Term.mem_occurrencesList.1 occurs
      exact ⟨t, List.mem_append_left rest inside, here⟩

theorem mem_occurrences_of_at? {a : Atom} {subterm : Term} {position : Position}
    (there : a.at? position = some subterm) {v : Variable} (occurs : v ∈ subterm.occurrences) :
    v ∈ a.occurrences := by
  cases position with
  | nil => exact absurd there nofun
  | cons argument rest =>
    obtain ⟨t, inside, below⟩ := Option.bind_eq_some_iff.1 there
    exact Term.mem_occurrencesList.2
      ⟨t, List.mem_of_getElem? inside, Term.mem_occurrences_of_at? below occurs⟩

theorem mem_occurrences_of_replaceAt {new : Term} {a : Atom} {position : Position} {v : Variable}
    (occurs : v ∈ (a.replaceAt new position).occurrences) :
    v ∈ new.occurrences ∨ v ∈ a.occurrences := by
  cases position with
  | nil => exact Or.inr occurs
  | cons argument rest =>
    rcases mem_occurrences_of_withArguments occurs with inside | old
    · obtain ⟨changed, member, here⟩ := Term.mem_occurrencesList.1 inside
      rcases exists_of_mem_modify member with same | ⟨t, argument, rfl⟩
      · exact Or.inr (Term.mem_occurrencesList.2 ⟨changed, same, here⟩)
      · exact (Term.mem_occurrences_of_replaceAt here).imp_right
          fun below => Term.mem_occurrencesList.2 ⟨t, argument, below⟩
    · exact Or.inr old

/-- Demodulation brings in variables of the equation only. -/
theorem Uses.demodulate {equation a changed : Atom} (uses : a.Uses allowed)
    (usesEquation : equation.Uses allowed) (found : demodulate equation a = some changed) :
    changed.Uses allowed := by
  obtain ⟨⟨left, right⟩, sides, rest⟩ := Option.bind_eq_some_iff.1 found
  obtain ⟨⟨position, σ⟩, first, replaced⟩ := Option.bind_eq_some_iff.1 rest
  dsimp only at replaced
  split at replaced
  · exact absurd replaced nofun
  · cases equation with
    | predicate name ts => exact absurd sides nofun
    | equality one other =>
      obtain ⟨rfl, rfl⟩ := Prod.mk.inj (Option.some.inj sides)
      obtain ⟨subterm, there, matched⟩ := Atom.at?_of_search _ _ first
      have builtLeft := usesEquation.arguments one List.mem_cons_self
      have builtRight := usesEquation.arguments other
        (List.mem_cons_of_mem _ (List.mem_singleton_self _))
      have builtSubterm : subterm.BuiltFrom allowed fun _ => True :=
        ⟨fun v occurs => uses v (mem_occurrences_of_at? there occurs), fun _ _ => trivial⟩
      have built := Term.builtFrom_of_matchWith other subterm ∅ builtRight builtSubterm
        Substitution.builtFrom_empty matched
      rw [← Option.some.inj replaced]
      intro v occurs
      rcases mem_occurrences_of_replaceAt occurs with new | old
      · exact (built.substitute builtLeft).1 v new
      · exact uses v old

end Atom

/-- Demodulators that use allowed variables keep to these. -/
theorem demodulationInvariant_allUse {equations : List Atom}
    (uses : ∀ equation ∈ equations, equation.Uses allowed) :
    DemodulationInvariant equations (Literal.AllUse allowed) where
  demodulate equation listed before l after changed given found := by
    have member : l ∈ before ++ l :: after := List.mem_append_right _ List.mem_cons_self
    have usesLiteral : l.atom.Uses allowed :=
      fun v occurs => given v (Literal.mem_occurrencesList member occurs)
    intro v occurs
    obtain ⟨k, inside, here⟩ := List.mem_flatMap.1 occurs
    rcases List.mem_append.1 (mem_firstOccurrences.1 inside) with inBefore | inRest
    · exact given v (Literal.mem_occurrencesList (List.mem_append_left _ inBefore) here)
    · rcases List.mem_cons.1 inRest with rfl | inAfter
      · exact usesLiteral.demodulate (uses equation listed) found v here
      · exact given v (Literal.mem_occurrencesList
          (List.mem_append_right _ (List.mem_cons_of_mem _ inAfter)) here)

end ClausalReasoner

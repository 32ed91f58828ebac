/-
This file follows the origins of clauses and chains through the rules of inference. A clause that is
derived is derived from clauses whose origins are steps of the derivation, so the step that records
it rests on steps before it, and the new origin is a step again. The derivation only grows, so
origins that were known before stay known. The one clause without an origin is the empty one, from
which nothing is derived.
-/

import ClausalReasoner.Proofs.GivenClauseEvents
import ClausalReasoner.Proofs.OrderedProofs
import ClausalReasoner.Proofs.SaturationClosure

namespace ClausalReasoner

/-! ### Growing derivations -/

namespace Derivation

/-- A later derivation has at least as many steps and is well-founded if the earlier one is. -/
structure Grows (d later : Derivation) : Prop where
  wellFounded : d.WellFounded → later.WellFounded
  size : d.size ≤ later.size

variable {d later last : Derivation}

theorem Grows.refl (d : Derivation) : d.Grows d :=
  ⟨id, Nat.le_refl _⟩

theorem Grows.trans (first : d.Grows later) (second : later.Grows last) : d.Grows last :=
  ⟨fun wellFounded => second.wellFounded (first.wellFounded wellFounded),
    Nat.le_trans first.size second.size⟩

/-- The origin is a step of the derivation. -/
def Has (d : Derivation) (origin : Option StepNumber) : Prop :=
  ∃ number < d.size, origin = some number

theorem Has.grow {origin : Option StepNumber} (has : d.Has origin) (grows : d.Grows later) :
    later.Has origin :=
  has.imp fun _ ⟨known, same⟩ => ⟨Nat.lt_of_lt_of_le known grows.size, same⟩

/-- Something can be derived from the given steps: there are some, and the derivation has them. -/
structure Supports (d : Derivation) (sources : List StepNumber) : Prop where
  nonempty : sources ≠ []
  known : ∀ source ∈ sources, source < d.size

theorem Supports.grow {sources : List StepNumber} (supports : d.Supports sources)
    (grows : d.Grows later) : later.Supports sources :=
  ⟨supports.nonempty, fun source member =>
    Nat.lt_of_lt_of_le (supports.known source member) grows.size⟩

theorem Has.supports {origin : Option StepNumber} (has : d.Has origin) :
    d.Supports origin.toList := by
  obtain ⟨number, known, rfl⟩ := has
  exact ⟨List.cons_ne_nil _ _, fun source member => List.mem_singleton.1 member ▸ known⟩

theorem Supports.append {sources others : List StepNumber} (supports : d.Supports sources)
    (known : ∀ source ∈ others, source < d.size) : d.Supports (sources ++ others) :=
  ⟨List.append_ne_nil_of_left_ne_nil supports.nonempty _,
    List.forall_mem_append.2 ⟨supports.known, known⟩⟩

/-- A step that is derived from others fits behind them. -/
theorem Supports.fits {sources : List StepNumber} (supports : d.Supports sources) (rule : Rule)
    (derived : rule.rank = 2) (conclusion : Conclusion) (detail : Detail) :
    Step.Fits ⟨rule, conclusion, detail, sources⟩ d.size :=
  ⟨supports.known, iff_of_false supports.nonempty (Rule.rank_eq_two_iff.1 derived)⟩

theorem size_record (d : Derivation) (step : Step) : (d.record step).2.size = d.size + 1 :=
  Array.size_push _

theorem grows_record {step : Step} (fits : step.Fits d.size) : d.Grows (d.record step).2 :=
  ⟨fun wellFounded => wellFounded.record fits,
    Nat.le_of_lt (Nat.lt_of_lt_of_eq (Nat.lt_succ_self _) (size_record d step).symm)⟩

theorem has_record (d : Derivation) (step : Step) :
    (d.record step).2.Has (some (d.record step).1) :=
  ⟨_, Nat.lt_of_lt_of_eq (Nat.lt_succ_self d.size) (size_record d step).symm, rfl⟩

end Derivation

/-- It is known where a clause comes from, unless it is the empty clause and comes from nowhere. -/
def Clause.TracedIn (d : Derivation) (c : Clause) : Prop :=
  d.Has c.origin ∨ c.literals = [] ∧ c.origin = none

theorem Clause.vars_of_empty {c : Clause} (empty : c.literals = []) : c.vars = [] := by
  rw [vars, empty]
  rfl

/-- It is known where each clause of a list comes from. -/
def AllTraced (d : Derivation) (cs : List Clause) : Prop :=
  ∀ c ∈ cs, c.TracedIn d

namespace Clause.TracedIn

variable {d later : Derivation} {c : Clause}

theorem grow (traced : c.TracedIn d) (grows : d.Grows later) : c.TracedIn later :=
  traced.imp_left fun has => has.grow grows

theorem known (traced : c.TracedIn d) : ∀ source ∈ c.sources, source < d.size := by
  rcases traced with has | ⟨_, none⟩
  · exact has.supports.known
  · rw [sources, none]
    exact fun _ absent => absurd absent List.not_mem_nil

/-- A clause with literals comes from somewhere, so something can be derived from it. -/
theorem supports (traced : c.TracedIn d) {l : Literal} (member : l ∈ c.literals) :
    d.Supports c.sources := by
  rcases traced with has | ⟨empty, _⟩
  · exact has.supports
  · rw [empty] at member
    exact absurd member List.not_mem_nil

end Clause.TracedIn

theorem AllTraced.grow {d later : Derivation} {cs : List Clause} (traced : AllTraced d cs)
    (grows : d.Grows later) : AllTraced later cs :=
  fun c member => (traced c member).grow grows

namespace Session

/-! ### Rules that hand a session on -/

/-- The derivation of the session that is handed back has grown, and the result has a property in
it. -/
structure Yields {Output : Type} (session : Session) (made : Derivation → Output → Prop)
    (result : Output × Session) : Prop where
  grows : session.derivation.Grows result.2.derivation
  made : made result.2.derivation result.1

/-- What a step makes of every input in any later session it makes in going through a list, if it
lasts when the derivation grows. -/
theorem yields_mapList {Input Output : Type} {step : Session → Input → Output × Session}
    {made : Derivation → Output → Prop}
    (lasts : ∀ d later output, d.Grows later → made d output → made later output)
    {session : Session} {inputs : List Input}
    (each : ∀ later : Session, session.derivation.Grows later.derivation → ∀ input ∈ inputs,
      later.Yields made (step later input)) :
    session.Yields (fun d outputs => ∀ output ∈ outputs, made d output)
      (session.mapList step inputs) := by
  induction inputs generalizing session with
  | nil => exact ⟨.refl _, fun _ absent => absurd absent List.not_mem_nil⟩
  | cons input rest inductionHypothesis =>
    have first := each session (.refl _) input List.mem_cons_self
    have others := inductionHypothesis fun later grows other member =>
      each later (first.grows.trans grows) other (List.mem_cons_of_mem _ member)
    exact ⟨first.grows.trans others.grows, List.forall_mem_cons.2
      ⟨lasts _ _ _ others.grows first.made, others.made⟩⟩

variable (session : Session)

theorem has_conclude {rule : Rule} {c : Clause} {detail : Detail} {sources : List StepNumber}
    (fits : Step.Fits ⟨rule, .clause c.literals, detail, sources⟩ session.derivation.size) :
    session.Yields (fun d made => d.Has made.origin) (session.conclude rule c detail sources) :=
  ⟨Derivation.grows_record fits, Derivation.has_record _ _⟩

theorem traced_conclude {sources : List StepNumber}
    (supports : session.derivation.Supports sources) (rule : Rule) (derived : rule.rank = 2)
    (c : Clause) (detail : Detail) :
    session.Yields (fun d made => made.TracedIn d) (session.conclude rule c detail sources) :=
  have concluded := session.has_conclude (supports.fits rule derived (.clause c.literals) detail)
  ⟨concluded.grows, Or.inl concluded.made⟩

theorem origin_rename (c : Clause) : (session.rename c).1.origin = c.origin := by
  show (c.renamed session.supply).1.origin = c.origin
  rw [Clause.renamed]
  split <;> rfl

variable {session} {c : Clause} (traced : c.TracedIn session.derivation)

include traced

/-- A clause that is renamed keeps its origin. -/
theorem tracedIn_rename : (session.rename c).1.TracedIn session.derivation := by
  refine traced.imp (fun has => ?_) fun nothing => ⟨?_, ?_⟩
  · rwa [origin_rename]
  · show (c.renamed session.supply).1.literals = []
    rw [Clause.renamed, Clause.vars_of_empty nothing.1]
    exact nothing.1
  · rw [origin_rename]
    exact nothing.2

theorem traced_standardizeApart :
    session.Yields (fun d made => made.TracedIn d) (session.standardizeApart c) := by
  rw [standardizeApart]
  split
  · exact ⟨.refl _, traced⟩
  · next occurs =>
    obtain ⟨l, member⟩ := List.exists_mem_of_ne_nil _ (mt Clause.vars_of_empty occurs)
    have derived := (session.rename c).2.traced_conclude (traced.supports member) .renamed rfl
      (session.rename c).1 .none
    exact ⟨derived.grows, derived.made⟩

theorem traced_apartFrom (first : Clause) :
    session.Yields (fun d made => made.TracedIn d) (session.apartFrom first c) := by
  rw [apartFrom]
  split
  · exact ⟨.refl _, tracedIn_rename traced⟩
  · exact ⟨.refl _, traced⟩

end Session

/-! ### Collecting results -/

namespace Collection

/-- The derivation has grown, and what was found is traced in it. -/
structure TracedFrom (d : Derivation) (collection : Collection) : Prop where
  grows : d.Grows collection.session.derivation
  traced : AllTraced collection.session.derivation collection.found

theorem TracedFrom.sooner {d later : Derivation} {collection : Collection}
    (found : collection.TracedFrom later) (grows : d.Grows later) : collection.TracedFrom d :=
  ⟨grows.trans found.grows, found.traced⟩

variable {d : Derivation} {collection : Collection} (found : collection.TracedFrom d)

include found

theorem TracedFrom.conclude {sources : List StepNumber} (supports : d.Supports sources)
    (rule : Rule) (derived : rule.rank = 2) (c : Clause) (detail : Detail) (seen : List String) :
    TracedFrom d ⟨(collection.session.conclude rule c detail sources).2, seen,
      (collection.session.conclude rule c detail sources).1 :: collection.found⟩ := by
  have made := collection.session.traced_conclude (supports.grow found.grows) rule derived c detail
  exact ⟨found.grows.trans made.grows,
    List.forall_mem_cons.2 ⟨made.made, found.traced.grow made.grows⟩⟩

theorem TracedFrom.addUnified {sources : List StepNumber} (supports : d.Supports sources)
    (rule : Rule) (derived : rule.rank = 2) (ls : List Literal) (θ : Substitution) :
    (collection.addUnified rule ls θ sources).TracedFrom d := by
  have supplied : TracedFrom d ⟨(collection.session.rename
      (Clause.ofLiterals (Literal.substituteList θ ls))).2, collection.seen, collection.found⟩ :=
    ⟨found.grows, found.traced⟩
  rw [Collection.addUnified]
  dsimp only
  rw [add]
  split
  · exact supplied
  · exact supplied.conclude supports rule derived _ _ _

theorem TracedFrom.addFactor {c : Clause} (traced : c.TracedIn d) {pair : Literal × Literal}
    (member : pair ∈ c.factorPairs) : (addFactor c collection pair).TracedFrom d := by
  rw [ClausalReasoner.addFactor]
  split
  · exact found
  · exact found.addUnified (traced.supports (Clause.of_mem_factorPairs member).1) _ rfl _ _

theorem TracedFrom.addResolvent {pair : ResolutionPair}
    (positiveSide : pair.positiveSide.TracedIn d) (negativeSide : pair.negativeSide.TracedIn d)
    (positive : pair.positive ∈ pair.positiveSide.positives) :
    (addResolvent collection pair).TracedFrom d := by
  rw [ClausalReasoner.addResolvent]
  split
  · exact found
  · exact found.addUnified ((positiveSide.supports (List.mem_of_mem_filter positive)).append
      negativeSide.known) _ rfl _ _

theorem TracedFrom.addParamodulant {site : ParamodulationSite} (target : site.target.TracedIn d)
    (source : site.source.TracedIn d) (proper : site.Proper) :
    (addParamodulant collection site).TracedFrom d := by
  rw [ClausalReasoner.addParamodulant]
  split
  · exact found
  · next θ ls made =>
    have inside : site.literal ∈ site.target.literals :=
      proper.target ▸ List.mem_append_right _ List.mem_cons_self
    have supplied : TracedFrom d ⟨(collection.session.rename
        (Clause.ofLiterals (Literal.substituteList θ ls))).2, collection.seen, collection.found⟩ :=
      ⟨found.grows, found.traced⟩
    have concluded := supplied.conclude ((target.supports inside).append source.known)
      .paramodulation rfl
    dsimp only
    split
    · exact ⟨(concluded _ _ []).grows, fun c member =>
        (concluded _ _ []).traced c (List.mem_cons_of_mem _ member)⟩
    · exact concluded _ _ _

/-- The factors of factors are derived from a derivation that has grown already. -/
theorem TracedFrom.collectFactors (depth : Nat) {c : Clause} (traced : c.TracedIn d) :
    (collectFactors depth c collection).TracedFrom d := by
  induction depth generalizing c collection d with
  | zero => exact found
  | succ depth inductionHypothesis =>
    have now := traced.grow found.grows
    have direct : TracedFrom collection.session.derivation (c.factorPairs.foldl
        (ClausalReasoner.addFactor c) ⟨collection.session, collection.seen, []⟩) :=
      foldl_invariant (TracedFrom _)
        (fun collection pair member kept => TracedFrom.addFactor kept now member)
        ⟨.refl _, fun _ absent => absurd absent List.not_mem_nil⟩
    rw [ClausalReasoner.collectFactors]
    dsimp only
    generalize c.factorPairs.foldl (ClausalReasoner.addFactor c)
      ⟨collection.session, collection.seen, []⟩ = results at direct ⊢
    have joined : TracedFrom results.session.derivation
        ⟨results.session, results.seen, results.found ++ collection.found⟩ :=
      ⟨.refl _, List.forall_mem_append.2 ⟨direct.traced, found.traced.grow direct.grows⟩⟩
    exact (foldl_invariant (TracedFrom _) (fun collection factor member kept =>
      inductionHypothesis kept (direct.traced factor member)) joined).sooner
        (found.grows.trans direct.grows)

end Collection

namespace Session

variable (session : Session)

theorem traced_factors {c : Clause} (traced : c.TracedIn session.derivation) :
    session.Yields AllTraced (session.factors c) := by
  have start : Collection.TracedFrom session.derivation ⟨session, [c.key], [c]⟩ :=
    ⟨.refl _, List.forall_mem_cons.2 ⟨traced, fun _ absent => absurd absent List.not_mem_nil⟩⟩
  have found := start.collectFactors (c.size + c.vars.length + 1) traced
  exact ⟨found.grows, fun factor member => found.traced factor (List.mem_reverse.1 member)⟩

theorem traced_factorsApart {cs : List Clause} (traced : AllTraced session.derivation cs) :
    session.Yields AllTraced (session.factorsApart cs) := by
  have all : session.Yields (fun d groups => ∀ group ∈ groups, AllTraced d group)
      (session.mapList (fun session c =>
        (session.standardizeApart c).2.factors (session.standardizeApart c).1) cs) :=
    yields_mapList (fun _ _ _ grows made => made.grow grows) fun later grows c member => by
      have apart := traced_standardizeApart (traced.grow grows c member)
      have factors := (later.standardizeApart c).2.traced_factors apart.made
      exact ⟨apart.grows.trans factors.grows, factors.made⟩
  refine ⟨all.grows, fun factor member => ?_⟩
  obtain ⟨group, inside, there⟩ := List.mem_flatten.1 member
  exact all.made group inside factor there

theorem traced_resolvents {first second : Clause} (tracedFirst : first.TracedIn session.derivation)
    (tracedSecond : second.TracedIn session.derivation) :
    session.Yields AllTraced (session.resolvents first second) := by
  rw [resolvents]
  split
  · refine ⟨.refl _, fun c member => ?_⟩
    rw [List.mem_singleton.1 member]
    exact Or.inr ⟨rfl, rfl⟩
  · have apart := traced_apartFrom tracedSecond first
    have traced := tracedFirst.grow apart.grows
    have found : Collection.TracedFrom (session.apartFrom first second).2.derivation
        ((resolutionPairs first (session.apartFrom first second).1).foldl addResolvent
          ⟨(session.apartFrom first second).2, [], []⟩) := by
      refine foldl_invariant (Collection.TracedFrom _) (fun collection pair inside kept => ?_)
        ⟨.refl _, fun _ absent => absurd absent List.not_mem_nil⟩
      rcases List.mem_append.1 inside with here | there
      · obtain ⟨l, positive, tried⟩ := List.mem_flatMap.1 here
        obtain ⟨m, negative, rfl⟩ := List.mem_map.1 tried
        exact kept.addResolvent traced apart.made positive
      · obtain ⟨l, positive, tried⟩ := List.mem_flatMap.1 there
        obtain ⟨m, negative, rfl⟩ := List.mem_map.1 tried
        exact kept.addResolvent apart.made traced positive
    exact ⟨apart.grows.trans found.grows, fun c member =>
      found.traced c (List.mem_reverse.1 member)⟩

theorem traced_paramodulants {first second : Clause}
    (tracedFirst : first.TracedIn session.derivation)
    (tracedSecond : second.TracedIn session.derivation) :
    session.Yields AllTraced (session.paramodulants first second) := by
  have apart := traced_apartFrom tracedSecond first
  have traced := tracedFirst.grow apart.grows
  have found : Collection.TracedFrom (session.apartFrom first second).2.derivation
      ((paramodulationSites first (session.apartFrom first second).1).foldl addParamodulant
        ⟨(session.apartFrom first second).2, [], []⟩) := by
    refine foldl_invariant (Collection.TracedFrom _) (fun collection site inside kept => ?_)
      ⟨.refl _, fun _ absent => absurd absent List.not_mem_nil⟩
    rcases List.mem_append.1 inside with here | there
    · obtain ⟨proper, target, source⟩ := proper_of_mem_sitesFrom here
      exact kept.addParamodulant (target ▸ traced) (source ▸ apart.made) proper
    · obtain ⟨proper, target, source⟩ := proper_of_mem_sitesFrom there
      exact kept.addParamodulant (target ▸ apart.made) (source ▸ traced) proper
  exact ⟨apart.grows.trans found.grows, fun c member =>
    found.traced c (List.mem_reverse.1 member)⟩

/-! ### Demodulation -/

theorem traced_demodulateTimes (equation : Atom) (times : Nat) {c : Clause}
    (traced : c.TracedIn session.derivation) :
    session.Yields (fun d made => made.TracedIn d) (demodulateTimes equation times session c) := by
  induction times generalizing session c with
  | zero => exact ⟨.refl _, traced⟩
  | succ times inductionHypothesis =>
    rw [demodulateTimes]
    split
    · next changed recorded found =>
      obtain ⟨ls, first, concluded⟩ := Option.map_eq_some_iff.1 found
      obtain ⟨before, l, after, new, split, _, _⟩ :=
        DemodulationInvariant.split_of_demodulateFirst first
      have inside : l ∈ c.literals := split ▸ List.mem_append_right _ List.mem_cons_self
      have derived := session.traced_conclude (traced.supports inside) .demodulation rfl
        (Clause.ofLiterals ls) (.demodulator equation)
      rw [concluded] at derived
      have rest := inductionHypothesis recorded derived.made
      exact ⟨derived.grows.trans rest.grows, rest.made⟩
    · exact ⟨.refl _, traced⟩

theorem traced_simplify (equations : List Atom) {c : Clause}
    (traced : c.TracedIn session.derivation) :
    session.Yields (fun d made => made.TracedIn d) (session.simplify equations c) :=
  foldl_invariant (fun simplified : Clause × Session =>
      session.Yields (fun d made => made.TracedIn d) simplified)
    (fun simplified equation _ kept =>
      have further := simplified.2.traced_demodulateTimes equation maxApplications kept.made
      ⟨kept.grows.trans further.grows, further.made⟩) ⟨.refl _, traced⟩

/-! ### Chains -/

theorem has_concludeChain {sources : List StepNumber}
    (supports : session.derivation.Supports sources) (rule : Rule) (derived : rule.rank = 2)
    (ls : List Literal) (detail : Detail) :
    session.Yields (fun d made => d.Has made.origin)
      (session.concludeChain rule ls detail sources) :=
  ⟨Derivation.grows_record (supports.fits rule derived _ _), Derivation.has_record _ _⟩

theorem has_contrapositives {chain : Chain} (has : session.derivation.Has chain.origin) :
    session.Yields (fun d made => ∀ other ∈ made, d.Has other.origin)
      (session.contrapositives chain) := by
  have moved : session.Yields (fun d made => ∀ other ∈ made, d.Has other.origin)
      ((rotations [] chain.literals).tail.foldl (fun found ls =>
        let made := found.2.concludeChain .contrapositive ls .none chain.sources
        (made.1 :: found.1, made.2)) ([], session)) :=
    foldl_invariant (fun found : List Chain × Session =>
        session.Yields (fun d made => ∀ other ∈ made, d.Has other.origin) found)
      (fun found ls _ kept => by
        have made := found.2.has_concludeChain (has.grow kept.grows).supports .contrapositive rfl
          ls .none
        exact ⟨kept.grows.trans made.grows, List.forall_mem_cons.2
          ⟨made.made, fun other member => (kept.made other member).grow made.grows⟩⟩)
      ⟨.refl _, fun _ absent => absurd absent List.not_mem_nil⟩
  exact ⟨moved.grows, fun other member => moved.made other (List.mem_reverse.1 member)⟩

theorem origin_renameChain (chain : Chain) :
    (session.renameChain chain).1.origin = chain.origin := by
  show (chain.renamed session.supply).1.origin = chain.origin
  rw [Chain.renamed]
  split <;> rfl

theorem has_reduceChains {near far : Chain} (hasNear : session.derivation.Has near.origin)
    (hasFar : session.derivation.Has far.origin) :
    session.Yields (fun d made => ∀ chain, made = some chain → d.Has chain.origin)
      (session.reduceChains near far) := by
  rw [reduceChains]
  split
  · refine ⟨.refl _, fun chain none => ?_⟩
    cases none
  · dsimp only
    split
    · refine ⟨.refl _, fun chain none => ?_⟩
      cases none
    · next θ ls _ =>
      have renamed : session.derivation.Has (session.renameChain far).1.origin := by
        rwa [origin_renameChain]
      have made := (session.renameChain far).2.has_concludeChain
        (hasNear.supports.append renamed.supports.known) .reduction rfl ls (.unifier θ)
      exact ⟨made.grows, fun chain same => Option.some.inj same ▸ made.made⟩

theorem has_settleChain (times : Nat) {chain : Chain} (has : session.derivation.Has chain.origin) :
    session.Yields (fun d made => d.Has made.origin) (settleChain times session chain) := by
  induction times generalizing session chain with
  | zero => exact ⟨.refl _, has⟩
  | succ times inductionHypothesis =>
    have goesOn : ∀ found : Chain × Session,
        session.Yields (fun d made => d.Has made.origin) found →
          session.Yields (fun d made => d.Has made.origin) (settleChain times found.2 found.1) :=
      fun found made =>
        have rest := inductionHypothesis found.2 made.made
        ⟨made.grows.trans rest.grows, rest.made⟩
    rw [settleChain]
    split
    · next cancelled recorded found =>
      obtain ⟨head, _, concluded⟩ := Option.bind_eq_some_iff.1 found
      obtain ⟨θ, _, same⟩ := Option.map_eq_some_iff.1 concluded
      exact goesOn (cancelled, recorded) (same ▸ session.has_concludeChain has.supports _ rfl _ _)
    · split
      · next dropped recorded found =>
        obtain ⟨head, _, concluded⟩ := Option.bind_eq_some_iff.1 found
        split at concluded
        · exact goesOn (dropped, recorded) (Option.some.inj concluded ▸
            session.has_concludeChain has.supports _ rfl _ _)
        · cases concluded
      · exact ⟨.refl _, has⟩

end Session

end ClausalReasoner

/-
This file says how different the answers to a query are. The books enter a proof unless one with the
same bindings was entered before, so no bindings are entered twice, as they stand. But derived literals
have fresh variables, other ones each time: an answer with variables that is derived again has other
bindings, which differ from the earlier ones in the names of the variables only. Answers without
variables are therefore told once, whatever the procedure. Saturation looks at a clause only if its key
is new, and the key does not see the names of variables, so it tells every answer once.
-/

import ClausalReasoner.Proofs.FreshResults
import ClausalReasoner.Proofs.ReportedAnswers
import ClausalReasoner.Proofs.FreshAnswers
import ClausalReasoner.Proofs.FreshVariables
import ClausalReasoner.Proofs.SaturatedKeys
import ClausalReasoner.Proofs.AlikeCollections

namespace ClausalReasoner

variable {allowed : Variable → Prop} {ls ks : List Literal} {begun : AnswerBook}

/-! ### Substitutions up to the names of variables -/

namespace Substitution

/-- The second substitution binds the same variables as the first, and to the same terms but for the
names of the variables in them: a renaming makes the terms of the first into those of the second and
gives different variables different names. -/
def SameUpToNames (σ τ : Substitution) : Prop :=
  ∃ rename : Variable → Variable, Set.InjOn rename {v | v ∈ Term.occurrencesList σ.range} ∧
    τ = σ.mapRange (Term.replace (renamingBy rename))

theorem range_mapRange (σ : Substitution) (change : Term → Term) :
    (σ.mapRange change).range = σ.range.map change := by
  rw [range, range, mapRange, List.map_map, List.map_map]
  rfl

theorem mapRange_mapRange (σ : Substitution) (change later : Term → Term) :
    (σ.mapRange change).mapRange later = σ.mapRange (later ∘ change) := by
  rw [mapRange, mapRange, List.map_map]
  rfl

theorem mapRange_eq_self {σ : Substitution} {change : Term → Term}
    (kept : ∀ t ∈ σ.range, change t = t) : σ.mapRange change = σ := by
  obtain ⟨bindings⟩ := σ
  refine congrArg Substitution.mk ((List.map_congr_left fun entry member => ?_).trans
    (List.map_id bindings))
  exact congrArg (Prod.mk entry.1) (kept entry.2 (List.mem_map_of_mem member))

theorem mem_range_of_get? {σ : Substitution} {v : Variable} {t : Term} (bound : σ.get? v = some t) :
    t ∈ σ.range :=
  List.mem_map_of_mem (f := Prod.snd) (mem_of_lookup bound)

namespace SameUpToNames

variable {σ τ : Substitution}

/-- Names can be changed back, so it does not matter which of two answers was told first. -/
theorem symm (same : σ.SameUpToNames τ) : τ.SameUpToNames σ := by
  obtain ⟨rename, injective, rfl⟩ := same
  let back := Function.invFunOn rename {v | v ∈ Term.occurrencesList σ.range}
  have undone : Set.LeftInvOn back rename {v | v ∈ Term.occurrencesList σ.range} :=
    injective.leftInvOn_invFunOn
  have renamed : Term.occurrencesList (σ.mapRange (Term.replace (renamingBy rename))).range =
      (Term.occurrencesList σ.range).map rename := by
    rw [range_mapRange, Term.occurrencesList_eq_flatMap, Term.occurrencesList_eq_flatMap,
      List.flatMap_map, List.map_flatMap]
    exact List.flatMap_congr fun t _ => t.occurrences_renamingBy
  refine ⟨back, ?_, ?_⟩
  · intro _ here _ there equal
    obtain ⟨v, occurs, rfl⟩ := List.mem_map.1 (renamed ▸ here)
    obtain ⟨w, occursToo, rfl⟩ := List.mem_map.1 (renamed ▸ there)
    rw [undone occurs, undone occursToo] at equal
    rw [equal]
  · rw [mapRange_mapRange]
    refine (mapRange_eq_self fun t member => ?_).symm
    rw [Function.comp_apply, Term.replace_replace]
    refine Term.replace_eq_self fun v occurs => congrArg Term.var (undone ?_)
    exact Term.mem_occurrencesList.2 ⟨t, member, occurs⟩

/-- Two different variables as values are the same up to names as any other two. -/
theorem of_pair (v w : Variable) {first second firstToo secondToo : Variable}
    (different : first ≠ second) (differentToo : firstToo ≠ secondToo) :
    (mk [(v, .var first), (w, .var second)]).SameUpToNames
      ⟨[(v, .var firstToo), (w, .var secondToo)]⟩ := by
  let rename := Function.update (fun _ => secondToo) first firstToo
  have atFirst : rename first = firstToo := Function.update_self _ _ _
  have atSecond : rename second = secondToo := Function.update_of_ne different.symm _ _
  refine ⟨rename, ?_, ?_⟩
  · have values : {u | u ∈ Term.occurrencesList
        (mk [(v, .var first), (w, .var second)]).range} = {first, second} :=
      Set.ext fun u => List.mem_pair
    rw [values, Set.injOn_pair, atFirst, atSecond]
    exact fun equal => absurd equal differentToo
  · show _ = mk [(v, .var (rename first)), (w, .var (rename second))]
    rw [atFirst, atSecond]

/-- Without variables there is nothing to rename. -/
theorem eq_of_isGround (same : σ.SameUpToNames τ) (ground : ∀ t ∈ σ.range, t.isGround) : τ = σ := by
  obtain ⟨rename, _, rfl⟩ := same
  refine mapRange_eq_self fun t member => Term.replace_eq_self fun v occurs => ?_
  exact absurd occurs (Term.isGround_iff.1 (ground t member) v)

end SameUpToNames

end Substitution

/-! ### What is entered -/

namespace AnswerBook

variable {book after : AnswerBook}

theorem SameQuery.bindings (same : begun.SameQuery book) (l : Literal) :
    book.bindings l = begun.bindings l := by
  rw [AnswerBook.bindings, AnswerBook.bindings, same.vars]

/-- The proofs in the books of a refutation that asks for answers are those of the given answer
literals, in this order, and their bindings are all different. -/
structure HasEntered (begun book : AnswerBook) (ls : List Literal) : Prop where
  sameQuery : begun.SameQuery book
  asks : begun.predicate ≠ none
  answers : ∀ l ∈ ls, ∃ predicate, begun.predicate = some predicate ∧ l.isAnswer predicate
  bindings : book.proofs.map Proof.bindings = ls.map begun.bindings
  different : (ls.map begun.bindings).Nodup

theorem IsNew.hasEntered (isNew : begun.IsNew) (asks : begun.predicate ≠ none) :
    begun.HasEntered begun [] where
  sameQuery := .refl begun
  asks := asks
  answers _ absent := absurd absent List.not_mem_nil
  bindings := by rw [isNew.proofs]; rfl
  different := List.nodup_nil

theorem HasEntered.ofSame (entered : begun.HasEntered book ls) (same : book.SameQuery after)
    (proofs : after.proofs = book.proofs) : begun.HasEntered after ls :=
  ⟨entered.sameQuery.trans same, entered.asks, entered.answers,
    (congrArg _ proofs).trans entered.bindings, entered.different⟩

theorem HasEntered.enter (entered : begun.HasEntered book ls) {predicate : String} {l : Literal}
    (isPredicate : begun.predicate = some predicate) (isAnswer : l.isAnswer predicate)
    (isNew : begun.bindings l ∉ ls.map begun.bindings) (session : Session) (last : StepNumber) :
    begun.HasEntered (book.enter session last (book.bindings l)) (ls ++ [l]) where
  sameQuery := entered.sameQuery.trans (sameQuery_enter _ _ _ _)
  asks := entered.asks
  answers := List.forall_mem_append.2 ⟨entered.answers,
    fun _ member => ⟨predicate, isPredicate, List.mem_singleton.1 member ▸ isAnswer⟩⟩
  bindings := by
    show (book.proofs ++ [session.derivation.proof last (book.bindings l)]).map Proof.bindings =
      (ls ++ [l]).map begun.bindings
    rw [List.map_append, List.map_append, entered.bindings, entered.sameQuery.bindings]
    rfl
  different := by
    rw [List.map_append, List.map_singleton, List.nodup_append]
    exact ⟨entered.different, List.nodup_singleton _, fun bindings listed other alone same =>
      isNew (List.mem_singleton.1 alone ▸ same ▸ listed)⟩

/-- Derived literals are entered only if they are an answer literal with new bindings. -/
theorem HasEntered.check (entered : begun.HasEntered book ls) (session : Session)
    (ks : List Literal) (origin : Option StepNumber) (conclusion : Conclusion) :
    begun.HasEntered (book.check session ks origin conclusion).2.1 ls ∨
      ∃ l, ks = [l] ∧
        begun.HasEntered (book.check session ks origin conclusion).2.1 (ls ++ [l]) := by
  have polled : begun.HasEntered book.poll ls :=
    entered.ofSame (sameQuery_poll book) (proofs_poll book)
  unfold AnswerBook.check
  split
  · next none => exact absurd (entered.sameQuery.predicate.symm.trans none) entered.asks
  · next predicate isPredicate =>
    split
    · exact Or.inl (entered.ofSame ⟨rfl, rfl⟩ rfl)
    · split
      · exact Or.inl polled
      · next l answers =>
        obtain ⟨alone, isAnswer⟩ := isAnswer_of_answerLiteral? answers
        dsimp only
        split
        · exact Or.inl polled
        · next unknown =>
          have isNew : begun.bindings l ∉ ls.map begun.bindings := by
            rw [← entered.bindings, ← entered.sameQuery.bindings]
            intro listed
            obtain ⟨proof, member, same⟩ := List.mem_map.1 listed
            exact unknown (List.any_eq_true.2 ⟨proof, member, decide_eq_true same⟩)
          have added := entered.enter (entered.sameQuery.predicate.symm.trans isPredicate) isAnswer
            isNew (finalStep session origin conclusion).2 (finalStep session origin conclusion).1
          exact Or.inr ⟨l, alone, added.ofSame (sameQuery_poll _) (proofs_poll _)⟩

/-- The proofs in the books are those of answer literals that use allowed variables only, and more of
these can be handed out. -/
structure EntersOver (begun book : AnswerBook) (session : Session) (allowed : Variable → Prop) :
    Prop where
  permits : session.supply.Permits allowed
  entered : ∃ ls, begun.HasEntered book ls ∧ Literal.AllUse allowed ls

variable {session later : Session}

theorem HasEntered.entersOver (entered : begun.HasEntered book [])
    (permits : session.supply.Permits allowed) : begun.EntersOver book session allowed :=
  ⟨permits, [], entered, fun _ absent => absurd absent List.not_mem_nil⟩

theorem EntersOver.mono (enters : begun.EntersOver book session allowed)
    (grows : session.supply.next ≤ later.supply.next) : begun.EntersOver book later allowed :=
  ⟨enters.permits.mono grows, enters.entered⟩

theorem EntersOver.check (enters : begun.EntersOver book session allowed)
    (given : Literal.AllUse allowed ks) (origin : Option StepNumber) (conclusion : Conclusion) :
    begun.EntersOver (book.check session ks origin conclusion).2.1
      (book.check session ks origin conclusion).2.2 allowed := by
  obtain ⟨ls, entered, uses⟩ := enters.entered
  refine ⟨enters.permits.mono (Nat.le_of_eq
    (congrArg Supply.next (book.supply_check session ks origin conclusion)).symm), ?_⟩
  rcases entered.check session ks origin conclusion with same | ⟨l, rfl, more⟩
  · exact ⟨ls, same, uses⟩
  · exact ⟨ls ++ [l], more, uses.append given⟩

end AnswerBook

/-! ### Given clauses -/

namespace GivenClause

variable {options : GivenClauseOptions}

/-- Every step of a run makes clauses of allowed variables and enters answer literals that use these
only. -/
theorem stepInvariant_entersOver
    (demodulators : ∀ equation ∈ options.demodulators, equation.Uses allowed) :
    StepInvariant options (fun state => begun.EntersOver state.book state.session allowed)
      fun c => Literal.AllUse allowed c.literals where
  take {state given support} enters _ :=
    ⟨enters.mono (next_le_infer options state.session given _),
      allUse_infer enters.permits given _⟩
  examine {state c} enters uses := by
    have simplified := (demodulationInvariant_allUse demodulators).simplify state.session uses
    have after := enters.mono (Nat.le_of_eq
      (congrArg Supply.next (state.session.supply_simplify options.demodulators c)).symm)
    rw [examine]
    dsimp only
    split
    · exact ⟨after, fun new returned => absurd returned.symm (Option.some_ne_none (some new))⟩
    · refine ⟨after.check simplified _ _, fun new returned => ?_⟩
      have returned := Option.some.inj returned
      split at returned
      · exact absurd returned.symm (Option.some_ne_none new)
      · exact Option.some.inj returned ▸ simplified
  factor {state c} enters uses :=
    ⟨enters.mono (state.session.next_le_factors c), Session.allUse_factors enters.permits uses⟩
  add {state c} enters _ := by
    rw [book_addToSupport]
    exact enters.mono (Nat.le_of_eq (congrArg Supply.next (supply_addToSupport state c)).symm)
  attempt {state c} enters _ :=
    ⟨enters.mono (next_le_infer options state.session c _), allUse_infer enters.permits c _⟩

/-- The proofs that the given clause procedure reports are those of different answer literals. -/
theorem exists_hasEntered_of_ask
    (demodulators : ∀ equation ∈ options.demodulators, equation.Uses allowed) {fuel : Nat}
    {limit : TimeLimit} {kb last : KnowledgeBase} {query : Sentence} {answer : Answer}
    (enters : (kb.refute query limit).book.EntersOver (kb.refute query limit).book
      (kb.refute query limit).session allowed)
    (asked : ask fuel limit options kb query = some (.ok answer, last)) :
    ∃ book ls, (kb.refute query limit).book.HasEntered book ls ∧ Literal.AllUse allowed ls ∧
      answer.proofs = book.proofs := by
  rw [ask_eq] at asked
  generalize kb.refute query limit = refutation at enters asked ⊢
  obtain ⟨state, ran, outcome⟩ := Option.map_eq_some_iff.1 asked
  obtain ⟨ls, has, uses⟩ := ((stepInvariant_entersOver demodulators).run
    (enters.mono (next_le_start options refutation)) ran).entered
  exact ⟨state.book, ls, has, uses, AnswerBook.proofs_of_outcome (congrArg Prod.fst outcome)⟩

end GivenClause

/-! ### Model elimination -/

namespace ModelElimination

/-- Every step of the search makes chains of allowed variables and enters answer literals that use these
only. -/
theorem stepInvariant_entersOver (chains : List Chain) :
    StepInvariant chains (fun state => begun.EntersOver state.book state.session allowed)
      fun chain => Literal.AllUse allowed chain.literals where
  reach enters _ := enters
  fail {state near far session} enters _ _ failed := by
    have reduces := state.session.next_le_reduceChains near far
    rw [failed] at reduces
    exact enters.mono reduces
  settle {state near far reduced session} enters uses _ found := by
    have reduces := state.session.next_le_reduceChains near far
    rw [found] at reduces
    have settled := Session.allUse_settleChain reduced.size session
      (Session.allUse_reduceChains enters.permits uses (congrArg Prod.fst found))
    have after : begun.EntersOver state.book (session.settle reduced).2 allowed := by
      refine enters.mono ?_
      rw [Session.settle, Session.supply_settleChain]
      exact reduces
    exact ⟨after.check settled _ _, settled⟩

/-- The proofs that model elimination reports are those of different answer literals. -/
theorem exists_hasEntered_of_ask {fuel : Nat} {limit : TimeLimit} {kb last : KnowledgeBase}
    {query : Sentence} {answer : Answer}
    (goals : AllHold (Literal.AllUse allowed) (kb.refute query limit).goals)
    (enters : (kb.refute query limit).book.EntersOver (kb.refute query limit).book
      (kb.refute query limit).session allowed)
    (asked : ask fuel limit kb query = some (.ok answer, last)) :
    ∃ book ls, (kb.refute query limit).book.HasEntered book ls ∧ Literal.AllUse allowed ls ∧
      answer.proofs = book.proofs := by
  rw [ask_eq] at asked
  generalize kb.refute query limit = refutation at goals enters asked ⊢
  obtain ⟨state, ran, outcome⟩ := Option.map_eq_some_iff.1 asked
  have starts : AllChainsHold (Literal.AllUse allowed) (initialChains refutation).2.1 :=
    ChainInvariant.chainsOf (fun c goal ls perm =>
      Literal.AllUse.subset (goals c goal) perm.subset) _
  obtain ⟨ls, has, uses⟩ := ((stepInvariant_entersOver _).deepen
    (enters.mono (next_le_initialChains refutation)) starts ran).entered
  exact ⟨state.book, ls, has, uses, AnswerBook.proofs_of_outcome (congrArg Prod.fst outcome)⟩

end ModelElimination

/-! ### Saturation -/

/-- What two properties of the literals of clauses say is preserved if both are. -/
theorem ResolutionInvariant.and {left right : List Literal → Prop}
    (first : ResolutionInvariant left) (second : ResolutionInvariant right) :
    ResolutionInvariant fun ls => left ls ∧ right ls where
  instantiate ls θ given := ⟨first.instantiate ls θ given.1, second.instantiate ls θ given.2⟩
  resolve ls ms l m θ givenFirst givenSecond inFirst inSecond positive negative same :=
    ⟨first.resolve ls ms l m θ givenFirst.1 givenSecond.1 inFirst inSecond positive negative same,
      second.resolve ls ms l m θ givenFirst.2 givenSecond.2 inFirst inSecond positive negative same⟩

/-- Plain literals make plain literals. -/
theorem resolutionInvariant_plain : ResolutionInvariant fun ls => ∀ l ∈ ls, l.reduced = false where
  instantiate ls θ plain l member := by
    obtain ⟨source, origin, rfl⟩ := List.mem_map.1 (mem_firstOccurrences.1 member)
    exact plain source origin
  resolve first second l m θ plainFirst plainSecond _ _ _ _ _ k member := by
    obtain ⟨source, origin, rfl⟩ := List.mem_map.1 (mem_firstOccurrences.1 member)
    rcases List.mem_append.1 origin with here | there
    · exact plainFirst source (List.mem_of_mem_erase here)
    · exact plainSecond source (List.mem_of_mem_erase there)

/-- Answer literals with the same arguments up to names have the same key. -/
theorem canonicalKey_eq_of_arguments {predicate : String} {l m : Literal}
    (isAnswer : l.isAnswer predicate) (isAnswerToo : m.isAnswer predicate)
    (plain : l.reduced = false) (plainToo : m.reduced = false) {change : Variable → Variable}
    (injective : Set.InjOn change {v | v ∈ Term.occurrencesList l.atom.arguments})
    (arguments : m.atom.arguments = l.atom.arguments.map (Term.replace (renamingBy change))) :
    canonicalKey [m] = canonicalKey [l] := by
  obtain ⟨positive, ts, atom⟩ := Literal.isAnswer_iff.1 isAnswer
  obtain ⟨positiveToo, us, atomToo⟩ := Literal.isAnswer_iff.1 isAnswerToo
  obtain ⟨a, polarity, reduced⟩ := l
  obtain ⟨b, polarityToo, reducedToo⟩ := m
  dsimp only at positive atom positiveToo atomToo plain plainToo
  subst positive atom positiveToo atomToo plain plainToo
  have occurs : ∀ {v}, v ∈ Literal.occurrencesList
      [(⟨.predicate predicate ts, .positive, false⟩ : Literal)] → v ∈ Term.occurrencesList ts :=
    fun inside => by rwa [Literal.occurrencesList, List.flatMap_singleton] at inside
  have renamed : us = Term.replaceList (renamingBy change) ts :=
    arguments.trans (Term.replaceList_eq_map _ _).symm
  have variant : Variant change [⟨.predicate predicate ts, .positive, false⟩]
      [⟨.predicate predicate us, .positive, false⟩] :=
    ⟨fun v here w there => injective (occurs here) (occurs there), by rw [renamed]; exact .refl _⟩
  exact canonicalKey_eq_of_variant variant

namespace Saturation

variable {holds : List Literal → Prop} {state : State}

/-- The books enter answer literals with different keys, all of them keys of clauses that are known or
were added. The literals have the property that the clauses have and use allowed variables, and more
of these can be handed out. -/
structure State.Separates (state : State) (begun : AnswerBook) (allowed : Variable → Prop)
    (holds : List Literal → Prop) : Prop where
  keeps : state.Keeps holds begun
  permits : state.session.supply.Permits allowed
  entered : ∃ ls, begun.HasEntered state.book ls ∧ Literal.AllUse allowed ls ∧
    (∀ l ∈ ls, holds [l]) ∧ (ls.map fun l => canonicalKey [l]).Nodup ∧
      ls.map (fun l => canonicalKey [l]) ⊆ state.keys

theorem separates_consider (separates : state.Separates begun allowed holds) {c : Clause}
    (given : holds c.literals) (uses : Literal.AllUse allowed c.literals) :
    (consider state c).Separates begun allowed holds := by
  refine ⟨keeps_consider separates.keeps given,
    separates.permits.mono (next_le_consider state c), ?_⟩
  rw [consider]
  split
  · exact separates.entered
  · next isNew =>
    obtain ⟨ls, entered, allUse, hold, distinct, among⟩ := separates.entered
    let after : State := ⟨(state.book.checkClause state.session c).2.1,
      (state.book.checkClause state.session c).2.2, state.known, state.added.insert c⟩
    have keys : state.keys ⊆ after.keys := List.map_subset _ (List.append_subset.2
      ⟨List.subset_append_left _ _,
        List.subset_append_of_subset_right _ (state.added.subset_insert c)⟩)
    have own : c.key ∈ after.keys := by
      obtain ⟨member, inside, same⟩ := state.added.exists_key_insert c
      exact List.mem_map.2 ⟨member, List.mem_append_right _ inside, same⟩
    have unknown : c.key ∉ state.keys := by
      intro listed
      obtain ⟨member, inside, same⟩ := List.mem_map.1 listed
      refine isNew (Bool.or_eq_true_iff.2 ?_)
      rcases List.mem_append.1 inside with known | added
      · exact Or.inl (Bool.or_eq_true_iff.2 (Or.inr (ClauseSet.contains_iff.2 ⟨member, known, same⟩)))
      · exact Or.inr (ClauseSet.contains_iff.2 ⟨member, added, same⟩)
    rcases entered.check state.session c.literals c.origin (.clause c.literals) with
      same | ⟨l, alone, more⟩
    · exact ⟨ls, same, allUse, hold, distinct, List.Subset.trans among keys⟩
    · rw [c.key_eq, alone] at own unknown
      rw [alone] at given uses
      refine ⟨ls ++ [l], more, allUse.append uses, List.forall_mem_append.2
        ⟨hold, fun _ member => List.mem_singleton.1 member ▸ given⟩, ?_, ?_⟩
      · rw [List.map_append, List.map_singleton, List.nodup_append]
        exact ⟨distinct, List.nodup_singleton _, fun key listed other alone same =>
          unknown (among (List.mem_singleton.1 alone ▸ same ▸ listed))⟩
      · rw [List.map_append, List.map_singleton]
        exact List.append_subset.2 ⟨List.Subset.trans among keys,
          fun key member => List.mem_singleton.1 member ▸ own⟩

/-- Every step of saturation keeps the entered answer literals apart. -/
theorem stepInvariant_separates (invariant : ResolutionInvariant holds) :
    StepInvariant (fun state => state.Separates begun allowed holds)
      fun c => holds c.literals ∧ Literal.AllUse allowed c.literals where
  resolve {state first second} separates firstKnown secondKnown := by
    obtain ⟨keeps, all⟩ := (stepInvariant_keeps invariant).resolve separates.keeps firstKnown
      secondKnown
    exact ⟨⟨keeps, separates.permits.mono (state.session.next_le_resolvents first second),
      separates.entered⟩, fun c member => ⟨all c member,
        Session.allUse_resolvents separates.permits first second c member⟩⟩
  factor {state c} separates given := by
    obtain ⟨keeps, all⟩ := (stepInvariant_keeps invariant).factor separates.keeps given.1
    exact ⟨⟨keeps, separates.permits.mono (state.session.next_le_factors c), separates.entered⟩,
      fun d member => ⟨all d member, Session.allUse_factors separates.permits given.2 d member⟩⟩
  consider separates given := separates_consider separates given.1 given.2
  grow {state} separates := by
    obtain ⟨ls, entered, allUse, hold, distinct, among⟩ := separates.entered
    refine ⟨(stepInvariant_keeps invariant).grow separates.keeps, separates.permits, ls, entered,
      allUse, hold, distinct, ?_⟩
    rw [State.keys, clauses_grown]
    exact List.Subset.trans among (keys_grown state)

/-- The proofs that saturation reports are those of answer literals with different keys, which have
the property if the stored clauses and the goals do. -/
theorem exists_separated_of_ask (invariant : ResolutionInvariant holds) {fuel : Nat}
    {limit : TimeLimit} {kb last : KnowledgeBase} {query : Sentence} {answer : Answer}
    (stored : AllHold holds (kb.refute query limit).kb.clauses.toList)
    (goals : AllHold holds (kb.refute query limit).goals)
    (isNew : (kb.refute query limit).book.IsNew)
    (asks : (kb.refute query limit).book.predicate ≠ none)
    (permits : (kb.refute query limit).session.supply.Permits allowed)
    (asked : ask fuel limit kb query = some (.ok answer, last)) :
    ∃ book ls, (kb.refute query limit).book.HasEntered book ls ∧ Literal.AllUse allowed ls ∧
      (∀ l ∈ ls, holds [l]) ∧ (ls.map fun l => canonicalKey [l]).Nodup ∧
        answer.proofs = book.proofs := by
  rw [ask_eq] at asked
  generalize kb.refute query limit = refutation at stored goals isNew asks permits asked ⊢
  obtain ⟨state, ran, outcome⟩ := Option.map_eq_some_iff.1 asked
  have started : (start refutation).Separates refutation.book allowed holds :=
    ⟨keeps_start invariant stored goals isNew, permits.mono (next_le_start refutation), [],
      isNew.hasEntered asks, fun _ absent => absurd absent List.not_mem_nil,
      fun _ absent => absurd absent List.not_mem_nil, List.nodup_nil, List.nil_subset _⟩
  obtain ⟨ls, has, uses, hold, distinct, _⟩ := 
    ((stepInvariant_separates invariant).saturate started ran).entered
  exact ⟨state.book, ls, has, uses, hold, distinct,
    AnswerBook.proofs_of_outcome (congrArg Prod.fst outcome)⟩

end Saturation

/-! ### Values for listed variables -/

namespace Substitution

variable {vs : List Variable} {ts us : List Term}

theorem nodup_map_fst_zip (distinct : vs.Nodup) (ts : List Term) :
    ((vs.zip ts).map Prod.fst).Nodup := by
  induction vs generalizing ts with
  | nil => exact List.nodup_nil
  | cons v rest inductionHypothesis =>
    obtain ⟨fresh, distinct⟩ := List.nodup_cons.1 distinct
    cases ts with
    | nil => exact List.nodup_nil
    | cons t ts =>
      refine List.nodup_cons.2 ⟨fun again => ?_, inductionHypothesis distinct ts⟩
      obtain ⟨entry, later, rfl⟩ := List.mem_map.1 again
      exact fresh (List.of_mem_zip later).1

theorem get?_ofList_zip_iff (distinct : vs.Nodup) {v : Variable} {t : Term} :
    (ofList (vs.zip ts)).get? v = some t ↔ (v, t) ∈ vs.zip ts :=
  ⟨mem_of_get?_ofList, get?_ofList_of_mem (nodup_map_fst_zip distinct ts)⟩

/-- Lists of values agree as far as there are variables for them if they give every variable the
same. -/
theorem zip_eq_of_mem_iff (distinct : vs.Nodup)
    (same : ∀ v ∈ vs, ∀ t, (v, t) ∈ vs.zip ts ↔ (v, t) ∈ vs.zip us) : vs.zip ts = vs.zip us := by
  induction vs generalizing ts us with
  | nil => rfl
  | cons v rest inductionHypothesis =>
    obtain ⟨fresh, distinct⟩ := List.nodup_cons.1 distinct
    have first : ∀ t, (v, t) ∈ (v :: rest).zip ts ↔ (v, t) ∈ (v :: rest).zip us :=
      same v List.mem_cons_self
    have absent : ∀ {ts : List Term} {t : Term}, (v, t) ∉ rest.zip ts :=
      fun inside => fresh (List.of_mem_zip inside).1
    cases ts with
    | nil =>
      cases us with
      | nil => rfl
      | cons u us => exact absurd ((first u).2 List.mem_cons_self) List.not_mem_nil
    | cons t ts =>
      cases us with
      | nil => exact absurd ((first t).1 List.mem_cons_self) List.not_mem_nil
      | cons u us =>
        have equal := (List.mem_cons.1 ((first t).1 List.mem_cons_self)).resolve_right absent
        have later : rest.zip ts = rest.zip us := by
          refine inductionHypothesis distinct fun w member k => ?_
          have different : ∀ s, (w, k) ≠ (v, s) :=
            fun s isFirst => fresh ((Prod.mk.inj isFirst).1 ▸ member)
          have both := same w (List.mem_cons_of_mem _ member) k
          rw [List.zip_cons_cons, List.zip_cons_cons, List.mem_cons, List.mem_cons,
            or_iff_right (different t), or_iff_right (different u)] at both
          exact both
        rw [List.zip_cons_cons, List.zip_cons_cons, equal, later]

theorem map_value_ofList_zip (distinct : vs.Nodup) (length : ts.length = vs.length) :
    vs.map (ofList (vs.zip ts)).value = ts := by
  refine List.ext_getElem (by rw [List.length_map, length]) fun place here there => ?_
  rw [List.getElem_map]
  refine value_of_get?_some ((get?_ofList_zip_iff distinct).2 ?_)
  exact List.mem_of_getElem? (List.getElem?_zip_eq_some.2
    ⟨List.getElem?_eq_getElem _, List.getElem?_eq_getElem there⟩)

end Substitution

/-! ### Bindings told in terms of the query -/

namespace RenamesVariables

variable {forward : Substitution} {vs ws : List Variable} {rename : Variable → Variable}
  {ts us : List Term}

/-- A term without variables told in terms of the query is the term. -/
theorem substitute_of_isGround (renames : RenamesVariables forward vs rename) {t : Term}
    (ground : (t.substitute forward.inverse).isGround) : t.substitute forward.inverse = t := by
  refine Term.replace_eq_self fun v occurs => ?_
  obtain ⟨w, isVariable⟩ : ∃ w, forward.inverse.value v = .var w := by
    cases bound : forward.inverse.get? v with
    | none => exact ⟨v, Substitution.value_of_get?_none bound⟩
    | some t =>
      obtain ⟨w, _, _, rfl⟩ := renames.origin v t bound
      exact ⟨w, Substitution.value_of_get?_some bound⟩
  refine absurd ?_ (Term.isGround_iff.1 ground w)
  exact Term.mem_occurrences_replace.2 ⟨v, occurs, isVariable ▸ List.mem_singleton_self w⟩

/-- Values that are told as terms without variables are told as they are. -/
theorem kept_of_isGround (renames : RenamesVariables forward vs rename) (distinct : ws.Nodup)
    (listed : ∀ v ∈ ws, ∃ w ∈ vs, rename w = v)
    (ground : ∀ t ∈ ((Substitution.ofList (ws.zip ts)).inTermsOf forward.inverse).range, t.isGround) :
    ∀ v t, (v, t) ∈ ws.zip ts → t.substitute forward.inverse = t := by
  intro v t inside
  obtain ⟨w, origin, rfl⟩ := listed v (List.of_mem_zip inside).1
  have told := renames.get?_inTermsOf (Substitution.isFunctional_ofList
    (Substitution.nodup_map_fst_zip distinct ts)) origin
  rw [(Substitution.get?_ofList_zip_iff distinct).2 inside, Option.map_some] at told
  exact renames.substitute_of_isGround (ground _ (Substitution.mem_range_of_get? told))

section Told

variable (renames : RenamesVariables forward vs rename) (distinct : ws.Nodup)
  (kept : ∀ v t, (v, t) ∈ ws.zip ts → t.substitute forward.inverse = t)

include renames distinct kept

/-- If telling values does not change them, a variable is told to have the value of its new one. -/
theorem get?_told_iff {w : Variable} (member : w ∈ vs) {t : Term} :
    ((Substitution.ofList (ws.zip ts)).inTermsOf forward.inverse).get? w = some t ↔
      (rename w, t) ∈ ws.zip ts := by
  rw [renames.get?_inTermsOf (Substitution.isFunctional_ofList
    (Substitution.nodup_map_fst_zip distinct ts)) member, Option.map_eq_some_iff]
  constructor
  · rintro ⟨s, bound, rfl⟩
    have inside := (Substitution.get?_ofList_zip_iff distinct).1 bound
    exact (kept _ s inside).symm ▸ inside
  · exact fun inside => ⟨t, (Substitution.get?_ofList_zip_iff distinct).2 inside, kept _ t inside⟩

variable (keptToo : ∀ v u, (v, u) ∈ ws.zip us → u.substitute forward.inverse = u)
  (listed : ∀ v ∈ ws, ∃ w ∈ vs, rename w = v)

include keptToo listed

/-- Values that are told as the same are the same. -/
theorem ofList_zip_eq_of_told (same : (Substitution.ofList (ws.zip ts)).inTermsOf forward.inverse =
      (Substitution.ofList (ws.zip us)).inTermsOf forward.inverse) :
    Substitution.ofList (ws.zip ts) = Substitution.ofList (ws.zip us) := by
  refine congrArg Substitution.ofList (Substitution.zip_eq_of_mem_iff distinct fun v member t => ?_)
  obtain ⟨w, origin, rfl⟩ := listed v member
  rw [← renames.get?_told_iff distinct kept origin, same,
    renames.get?_told_iff distinct keptToo origin]

/-- Values that are told as the same up to names are the same up to names. -/
theorem exists_rename_of_told (length : ts.length = ws.length) (lengthToo : us.length = ws.length)
    (same : ((Substitution.ofList (ws.zip ts)).inTermsOf forward.inverse).SameUpToNames
      ((Substitution.ofList (ws.zip us)).inTermsOf forward.inverse)) :
    ∃ change : Variable → Variable, Set.InjOn change {v | v ∈ Term.occurrencesList ts} ∧
      us = ts.map (Term.replace (renamingBy change)) := by
  obtain ⟨change, injective, told⟩ := same
  refine ⟨change, injective.mono fun v occurs => ?_, ?_⟩
  · obtain ⟨t, inside, here⟩ := Term.mem_occurrencesList.1 occurs
    rw [← List.map_snd_zip (Nat.le_of_eq length)] at inside
    obtain ⟨⟨u, t⟩, entry, rfl⟩ := List.mem_map.1 inside
    obtain ⟨w, origin, rfl⟩ := listed u (List.of_mem_zip entry).1
    exact Term.mem_occurrencesList.2 ⟨t, Substitution.mem_range_of_get?
      ((renames.get?_told_iff distinct kept origin).2 entry), here⟩
  · have values : ∀ v ∈ ws, (Substitution.ofList (ws.zip us)).value v =
        ((Substitution.ofList (ws.zip ts)).value v).replace (renamingBy change) := by
      intro v member
      rw [← List.map_fst_zip (Nat.le_of_eq length.symm)] at member
      obtain ⟨⟨u, t⟩, entry, rfl⟩ := List.mem_map.1 member
      obtain ⟨w, origin, rfl⟩ := listed u (List.of_mem_zip entry).1
      have bound := (renames.get?_told_iff distinct kept origin).2 entry
      have boundToo : ((Substitution.ofList (ws.zip us)).inTermsOf forward.inverse).get? w =
          some (t.replace (renamingBy change)) := by
        rw [told, Substitution.get?_mapRange, bound, Option.map_some]
      have entryToo := (renames.get?_told_iff distinct keptToo origin).1 boundToo
      rw [Substitution.value_of_get?_some ((Substitution.get?_ofList_zip_iff distinct).2 entryToo),
        Substitution.value_of_get?_some ((Substitution.get?_ofList_zip_iff distinct).2 entry)]
    rw [← Substitution.map_value_ofList_zip distinct lengthToo, List.map_congr_left values]
    conv_rhs => rw [← Substitution.map_value_ofList_zip distinct length]
    rw [List.map_map]
    rfl

end Told

end RenamesVariables

/-! ### What is told -/

namespace KnowledgeBase

variable {kb last : KnowledgeBase} {query : Sentence} {limit : TimeLimit} {fuel : Nat}
  {answer : Answer} {predicate : String}

/-- The goals are renamed before a refutation begins. -/
theorem allUse_of_mem_goals (permits : kb.supply.Permits allowed) :
    AllHold (Literal.AllUse allowed) (kb.refute query limit).goals := by
  rw [refute_eq]
  have grows : ∀ (session : Session) (c : Clause),
      session.supply.next ≤ (session.addGoal c).2.supply.next :=
    fun session c => session.next_le_rename c
  exact Session.mapList_forall (fun next (_ : Clause) => Supply.Permits ⟨next⟩ allowed)
    (fun _ (c : Clause) => Literal.AllUse allowed c.literals)
    (fun le permits => permits.mono le) (fun _ => id) grows
    (fun session c permits => Session.allUse_rename permits c) kb.session fun _ _ => permits

theorem hasEntered_refute (kb : KnowledgeBase) (someVariable : query.vars ≠ [])
    (limit : TimeLimit) :
    (kb.refute query limit).book.HasEntered (kb.refute query limit).book [] := by
  refine (isNew_refute kb query limit).hasEntered ?_
  rw [refute_eq, if_neg someVariable]
  exact Option.some_ne_none _

/-- The proofs that a procedure reports are those of different answer literals, which use allowed
variables only. -/
theorem exists_hasEntered_of_ask {procedure : Procedure} (isRefutation : procedure.isRefutation)
    (someVariable : query.vars ≠ []) (permits : kb.supply.Permits allowed)
    (demodulators : ∀ equation ∈ procedure.demodulators, equation.Uses allowed)
    (asked : procedure.ask fuel kb query = some (.ok answer, last)) :
    ∃ book ls, (kb.refute query procedure.limit).book.HasEntered book ls ∧
      Literal.AllUse allowed ls ∧ answer.proofs = book.proofs := by
  have refuted : (kb.refute query procedure.limit).session.supply.Permits allowed :=
    permits.mono (kb.next_le_refute query procedure.limit)
  have enters := (kb.hasEntered_refute someVariable procedure.limit).entersOver refuted
  have goals : AllHold (Literal.AllUse allowed) (kb.refute query procedure.limit).goals :=
    allUse_of_mem_goals permits
  cases procedure with
  | forwardChaining => exact absurd isRefutation Bool.false_ne_true
  | backwardChaining => exact absurd isRefutation Bool.false_ne_true
  | saturation limit =>
    have invariant : ResolutionInvariant fun _ => True :=
      ⟨⟨fun _ _ _ => trivial⟩, fun _ _ _ _ _ _ _ _ _ _ _ _ => trivial⟩
    obtain ⟨book, ls, has, uses, _, _, proofs⟩ := Saturation.exists_separated_of_ask invariant
      (fun _ _ => trivial) (fun _ _ => trivial) (isNew_refute kb query _)
      (kb.hasEntered_refute someVariable _).asks refuted asked
    exact ⟨book, ls, has, uses, proofs⟩
  | givenClause limit options =>
    exact GivenClause.exists_hasEntered_of_ask demodulators enters asked
  | modelElimination limit =>
    exact ModelElimination.exists_hasEntered_of_ask goals enters asked

/-- The values that an answer literal has for the fresh variables of a query. -/
def valuesOf (kb : KnowledgeBase) (query : Sentence) (l : Literal) : Substitution :=
  .ofList ((kb.freshQuery query).vars.zip l.atom.arguments)

/-- The bindings that are told of an answer literal. -/
def toldOf (kb : KnowledgeBase) (query : Sentence) (l : Literal) : Substitution :=
  (kb.valuesOf query l).inTermsOf (query.standardizeApart kb.supply).1.reverse

/-- The variables of a query with fresh variables stand for variables of the query. -/
theorem exists_of_mem_vars_freshQuery {rename : Variable → Variable}
    (renames : RenamesVariables (query.standardizeApart kb.supply).1.forward query.allVariables
      rename) : ∀ v ∈ (kb.freshQuery query).vars, ∃ w ∈ query.allVariables, rename w = v :=
  fun _ member => Sentence.exists_of_mem_renamed renames query.inside_allVariables
    (List.mem_append_left _ (mem_firstOccurrences.1 member))

/-- The fresh variables of a query are not handed out again. -/
theorem permits_atQuery (kb : KnowledgeBase) (query : Sentence) : (kb.atQuery query).supply.Permits
    fun v => (query.standardizeApart kb.supply).1.reverse.get? v = none := by
  obtain ⟨rename, renames⟩ := kb.exists_renamesVariables_query query
  intro v index indexed above
  refine Option.eq_none_iff_forall_ne_some.2 fun t bound => ?_
  obtain ⟨w, member, rfl, _⟩ := renames.origin v t bound
  obtain ⟨other, same, _, below⟩ := Clause.index_of_renamesVariables renames member
  obtain rfl := Option.some.inj (indexed.symm.trans same)
  exact Nat.not_lt.2 above below

theorem bindings_refute (kb : KnowledgeBase) (query : Sentence) (limit : TimeLimit) (l : Literal) :
    ((kb.atQuery query).refute (kb.freshQuery query) limit).book.bindings l =
      kb.valuesOf query l := by
  rw [AnswerBook.bindings, refute_eq, valuesOf]

/-- Proofs that were entered for answer literals are told as these. -/
theorem bindings_of_hasEntered {book : AnswerBook} {found : Answer}
    (entered : ((kb.atQuery query).refute (kb.freshQuery query) limit).book.HasEntered book ls)
    (isFound : found.proofs = book.proofs)
    (proofs : answer.proofs = found.proofs.map fun proof =>
      { proof with bindings :=
          proof.bindings.inTermsOf (query.standardizeApart kb.supply).1.reverse }) :
    answer.proofs.map Proof.bindings = ls.map (kb.toldOf query) ∧
      ls.Pairwise fun l m => kb.valuesOf query l ≠ kb.valuesOf query m := by
  have values := funext (kb.bindings_refute query limit)
  constructor
  · have bindings : (book.proofs.map Proof.bindings).map
        (·.inTermsOf (query.standardizeApart kb.supply).1.reverse) = ls.map (kb.toldOf query) := by
      rw [entered.bindings, values, List.map_map]
      rfl
    rw [proofs, isFound, ← bindings, List.map_map, List.map_map]
    rfl
  · have different := entered.different
    rw [values] at different
    exact List.pairwise_map.1 different

/-- The proofs in an answer are told of answer literals with different values, which use allowed
variables only. -/
theorem exists_toldOf_of_ask (refutation : kb.procedure.isRefutation) (someVariable : query.vars ≠ [])
    (permits : (kb.atQuery query).supply.Permits allowed)
    (demodulators : ∀ equation ∈ kb.procedure.demodulators, equation.Uses allowed)
    (asked : kb.ask fuel query = some (.ok answer, last)) :
    ∃ ls, Literal.AllUse allowed ls ∧ answer.proofs.map Proof.bindings = ls.map (kb.toldOf query) ∧
      ls.Pairwise fun l m => kb.valuesOf query l ≠ kb.valuesOf query m := by
  obtain ⟨found, ran, proofs⟩ := exists_answer_of_ask asked
  obtain ⟨book, ls, entered, uses, isFound⟩ := exists_hasEntered_of_ask refutation
    (vars_freshQuery_ne_nil someVariable) permits demodulators ran
  exact ⟨ls, uses, bindings_of_hasEntered entered isFound proofs⟩

/-- Answers without variables are told once. -/
theorem pairwise_isGround_of_ask (refutation : kb.procedure.isRefutation)
    (someVariable : query.vars ≠ []) (asked : kb.ask fuel query = some (.ok answer, last)) :
    answer.proofs.Pairwise fun p q => p.bindings.SameUpToNames q.bindings →
      ∃ t ∈ p.bindings.range, ¬ t.isGround := by
  obtain ⟨rename, renames⟩ := kb.exists_renamesVariables_query query
  have listed := exists_of_mem_vars_freshQuery renames
  have distinct : (kb.freshQuery query).vars.Nodup := nodup_firstOccurrences _
  have permits : (kb.atQuery query).supply.Permits fun _ => True := fun _ _ _ _ => trivial
  obtain ⟨ls, _, told, different⟩ := exists_toldOf_of_ask refutation someVariable permits
    (fun _ _ _ _ => trivial) asked
  have pairs : (ls.map (kb.toldOf query)).Pairwise fun σ τ => σ.SameUpToNames τ →
      ∃ t ∈ σ.range, ¬ t.isGround := by
    refine List.pairwise_map.2 (different.imp fun {l m} different same => ?_)
    by_contra! ground
    have equal : kb.toldOf query m = kb.toldOf query l := same.eq_of_isGround ground
    have groundToo : ∀ t ∈ (kb.toldOf query m).range, t.isGround := by
      rw [equal]
      exact ground
    exact different (renames.ofList_zip_eq_of_told distinct
      (renames.kept_of_isGround distinct listed ground)
      (renames.kept_of_isGround distinct listed groundToo) listed equal.symm)
  rw [← told] at pairs
  exact List.pairwise_map.1 pairs

/-- The demodulators have none of the fresh variables that a query is given. -/
def SparesQuery (kb : KnowledgeBase) (query : Sentence) : Prop :=
  ∀ equation ∈ kb.procedure.demodulators,
    equation.Uses fun v => (query.standardizeApart kb.supply).1.reverse.get? v = none

/-- The values of an answer literal that has none of the fresh variables are told as they are. -/
theorem kept_of_allUse {l : Literal} (member : l ∈ ls) (uses : Literal.AllUse
      (fun v => (query.standardizeApart kb.supply).1.reverse.get? v = none) ls) :
    ∀ v t, (v, t) ∈ (kb.freshQuery query).vars.zip l.atom.arguments →
      t.substitute (query.standardizeApart kb.supply).1.reverse = t := by
  intro v t inside
  refine Substitution.IsSolved.substitute_eq_self fun w occurs => ?_
  exact uses w (Literal.mem_occurrencesList member
    (Term.mem_occurrencesList.2 ⟨t, (List.of_mem_zip inside).2, occurs⟩))

/-- No two answers are told as they stand. -/
theorem pairwise_ne_of_ask (refutation : kb.procedure.isRefutation) (someVariable : query.vars ≠ [])
    (spares : kb.SparesQuery query) (asked : kb.ask fuel query = some (.ok answer, last)) :
    answer.proofs.Pairwise fun p q => p.bindings ≠ q.bindings := by
  obtain ⟨rename, renames⟩ := kb.exists_renamesVariables_query query
  have listed := exists_of_mem_vars_freshQuery renames
  have distinct : (kb.freshQuery query).vars.Nodup := nodup_firstOccurrences _
  obtain ⟨ls, uses, told, different⟩ := exists_toldOf_of_ask refutation someVariable
    (kb.permits_atQuery query) spares asked
  have pairs : (ls.map (kb.toldOf query)).Pairwise (· ≠ ·) :=
    List.pairwise_map.2 (different.imp_of_mem fun here there different equal =>
      different (renames.ofList_zip_eq_of_told distinct (kept_of_allUse here uses)
        (kept_of_allUse there uses) listed equal))
  rw [← told] at pairs
  exact List.pairwise_map.1 pairs

/-! ### Saturation tells every answer once -/

/-- The predicate of the answer literal of a query with variables. -/
theorem predicate_refute (someVariable : query.vars ≠ []) :
    (kb.refute query limit).book.predicate = some kb.nextAnswerPredicate := by
  rw [refute_eq]
  exact if_neg someVariable

/-- Saturation tells no answer that it has told under other names. -/
theorem pairwise_not_sameUpToNames_of_ask (reachable : kb.Reachable)
    (procedure : kb.procedure = .saturation limit) (someVariable : query.vars ≠ [])
    (unmentioned : Symbol.predicate kb.nextAnswerPredicate ∉ query.symbols)
    (asked : kb.ask fuel query = some (.ok answer, last)) :
    answer.proofs.Pairwise fun p q => ¬ p.bindings.SameUpToNames q.bindings := by
  obtain ⟨rename, renames⟩ := kb.exists_renamesVariables_query query
  have listed := exists_of_mem_vars_freshQuery renames
  have distinct : (kb.freshQuery query).vars.Nodup := nodup_firstOccurrences _
  have varies : (kb.freshQuery query).vars ≠ [] := vars_freshQuery_ne_nil someVariable
  have regular : (kb.atQuery query).Regular := reachable.regular.supplied _ kb.derivation
  have affirms := affirms_of_mem_start regular.knowsClauses limit
    (unmentioned_freshQuery unmentioned)
  have plain : ∀ c ∈ ((kb.atQuery query).refute (kb.freshQuery query) limit).kb.clauses.toList ++
      ((kb.atQuery query).refute (kb.freshQuery query) limit).goals,
        ∀ l ∈ c.literals, l.reduced = false := by
    refine List.forall_mem_append.2 ⟨?_, plain_of_mem_goals _ _ limit⟩
    rw [refute_eq]
    exact regular.plain
  obtain ⟨found, ran, proofs⟩ := exists_answer_of_ask asked
  rw [procedure, Procedure.ask] at ran
  obtain ⟨book, ls, entered, uses, hold, keys, isFound⟩ := Saturation.exists_separated_of_ask
    ((equalityInvariant_affirms [] (kb.atQuery query).nextAnswerPredicate
      (kb.freshQuery query).vars.length).1.and resolutionInvariant_plain)
    (fun c stored => ⟨affirms c (List.mem_append_left _ stored),
      plain c (List.mem_append_left _ stored)⟩)
    (fun c goal => ⟨affirms c (List.mem_append_right _ goal),
      plain c (List.mem_append_right _ goal)⟩)
    (isNew_refute _ _ limit) (hasEntered_refute _ varies limit).asks
    ((kb.permits_atQuery query).mono (next_le_refute _ _ limit)) ran
  have isAnswer : ∀ l ∈ ls, l.isAnswer (kb.atQuery query).nextAnswerPredicate := by
    intro l member
    obtain ⟨predicate, isPredicate, isAnswer⟩ := entered.answers l member
    rw [predicate_refute varies] at isPredicate
    exact Option.some.inj isPredicate ▸ isAnswer
  have length : ∀ l ∈ ls, l.atom.arguments.length = (kb.freshQuery query).vars.length := by
    intro l member
    obtain ⟨_, arguments, atom⟩ := Literal.isAnswer_iff.1 (isAnswer l member)
    have sized := ((hold l member).1 l (List.mem_singleton_self l) arguments atom).2
    rw [atom]
    exact sized
  have pairs : (ls.map (kb.toldOf query)).Pairwise fun σ τ => ¬ σ.SameUpToNames τ := by
    refine List.pairwise_map.2 ((List.pairwise_map.1 keys).imp_of_mem
      fun {l m} here there different same => ?_)
    obtain ⟨change, injective, arguments⟩ := renames.exists_rename_of_told distinct
      (kept_of_allUse here uses) (kept_of_allUse there uses) listed (length l here)
      (length m there) same
    refine different (canonicalKey_eq_of_arguments (isAnswer l here) (isAnswer m there) ?_ ?_
      injective arguments).symm
    · exact (hold l here).2 l (List.mem_singleton_self l)
    · exact (hold m there).2 m (List.mem_singleton_self m)
  rw [← (bindings_of_hasEntered entered isFound proofs).1] at pairs
  exact List.pairwise_map.1 pairs

/-- **No answer is told twice as it stands, but with variables it may be told under other names.** For
a refutation procedure that answers a query with variables: two proofs whose bindings are the same up
to the names of variables have a variable in them. If the demodulators have none of the fresh
variables of the query, no two proofs have the same bindings. And if the procedure is saturation and
the query does not mention the answer predicate, no two proofs have the same bindings up to names. -/
theorem Reachable.answers_distinct (reachable : kb.Reachable)
    (refutation : kb.procedure.isRefutation) (someVariable : query.vars ≠ [])
    (asked : kb.ask fuel query = some (.ok answer, last)) :
    (answer.proofs.Pairwise fun p q => p.bindings.SameUpToNames q.bindings →
      ∃ t ∈ p.bindings.range, ¬ t.isGround) ∧
    (kb.SparesQuery query → answer.proofs.Pairwise fun p q => p.bindings ≠ q.bindings) ∧
    (∀ limit, kb.procedure = .saturation limit →
      Symbol.predicate kb.nextAnswerPredicate ∉ query.symbols →
        answer.proofs.Pairwise fun p q => ¬ p.bindings.SameUpToNames q.bindings) :=
  ⟨pairwise_isGround_of_ask refutation someVariable asked,
    fun spares => pairwise_ne_of_ask refutation someVariable spares asked,
    fun _ procedure unmentioned =>
      pairwise_not_sameUpToNames_of_ask reachable procedure someVariable unmentioned asked⟩

/-- `Able(y)`. -/
def everyoneIsAble : Sentence :=
  .atom (.predicate "Able" [.var ⟨"y", none⟩])

/-- The knowledge base that uses a procedure and was told that everyone is able. -/
def ableTo (procedure : Procedure) : KnowledgeBase :=
  KnowledgeBase.telling { procedure } everyoneIsAble

theorem reachable_ableTo (procedure : Procedure) : (ableTo procedure).Reachable :=
  (Reachable.initial procedure).telling everyoneIsAble

set_option maxRecDepth 10000 in
/-- Asked who is able, saturation tells once that everyone is and once that Plato is. -/
theorem answers_distinct_ableTo :
    ∃ answer last, ((ableTo (.saturation none)).telling platoIsAble).ask 2 someoneIsAble =
        some (.ok answer, last) ∧ answer.proofs.length = 2 ∧
      (answer.proofs.Pairwise fun p q => p.bindings.SameUpToNames q.bindings →
        ∃ t ∈ p.bindings.range, ¬ t.isGround) ∧
      (answer.proofs.Pairwise fun p q => p.bindings ≠ q.bindings) ∧
      answer.proofs.Pairwise fun p q => ¬ p.bindings.SameUpToNames q.bindings := by
  have procedure : ((ableTo (.saturation none)).telling platoIsAble).procedure =
    .saturation none := by cbv
  have bindings : ((ableTo (.saturation none)).telling platoIsAble).bindingsOf 2 someoneIsAble =
      some [.ofList [(⟨"x", none⟩, .var ⟨"x", some 6⟩)],
        .ofList [(⟨"x", none⟩, .constant "Plato")]] := by cbv
  have unmentioned : Symbol.predicate
      ((ableTo (.saturation none)).telling platoIsAble).nextAnswerPredicate ∉
        someoneIsAble.symbols := by
    rw [show ((ableTo (.saturation none)).telling platoIsAble).nextAnswerPredicate = "Answer0" by
      cbv]
    decide
  have spares : ((ableTo (.saturation none)).telling platoIsAble).SparesQuery someoneIsAble := by
    intro equation listed
    rw [procedure] at listed
    exact absurd listed List.not_mem_nil
  obtain ⟨answer, last, asked, told⟩ := exists_of_bindingsOf bindings
  obtain ⟨ground, exact, named⟩ := ((reachable_ableTo _).telling platoIsAble).answers_distinct
    (by rw [procedure]; rfl) (by decide) asked
  refine ⟨answer, last, asked, ?_, ground, exact spares, named none procedure unmentioned⟩
  rw [← List.length_map Proof.bindings, told]
  rfl

/-- `Able(x) ∨ Able(z)`. -/
def oneOfTwoIsAble : Sentence :=
  .or someoneIsAble (.atom (.predicate "Able" [.var ⟨"z", none⟩]))

set_option maxRecDepth 10000 in
/-- Answers with variables are told again under other names. Either side of the query leads model
elimination to the answer that any two are as asked for, and it reports both. -/
theorem not_answers_distinct_ableTo :
    (ableTo (.modelElimination none)).Reachable ∧
      (ableTo (.modelElimination none)).procedure = .modelElimination none ∧
      oneOfTwoIsAble.vars ≠ [] ∧
      ∃ answer last,
        (ableTo (.modelElimination none)).ask 1 oneOfTwoIsAble = some (.ok answer, last) ∧
        ¬ answer.proofs.Pairwise fun p q => ¬ p.bindings.SameUpToNames q.bindings := by
  have bindings : (ableTo (.modelElimination none)).bindingsOf 1 oneOfTwoIsAble =
      some [⟨[(⟨"x", none⟩, .var ⟨"y", some 7⟩), (⟨"z", none⟩, .var ⟨"z", some 4⟩)]⟩,
        ⟨[(⟨"x", none⟩, .var ⟨"x", some 6⟩), (⟨"z", none⟩, .var ⟨"y", some 8⟩)]⟩] := by cbv
  obtain ⟨answer, last, asked, told⟩ := exists_of_bindingsOf bindings
  refine ⟨reachable_ableTo _, by cbv, by decide, answer, last, asked, fun distinct => ?_⟩
  have pairs : (answer.proofs.map Proof.bindings).Pairwise fun σ τ => ¬ σ.SameUpToNames τ :=
    List.pairwise_map.2 distinct
  rw [told, List.pairwise_pair] at pairs
  exact pairs (.of_pair _ _ (by decide) (by decide))

end KnowledgeBase

end ClausalReasoner

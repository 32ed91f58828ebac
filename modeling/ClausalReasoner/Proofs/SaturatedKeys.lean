/-
This file shows that a saturation which ends without a refutation has closed its clauses under the
rules, when clauses are told apart by their keys. While clauses are added the keys of everything
that can be merged in them stay among the keys of the state, since a resolvent is added together
with all of its factors; and in the last pass, which adds nothing, the key of every resolvent of two
known clauses was found among those of the known clauses. So the final clauses have the keys of the
stored clauses, of the goals, and of all that resolving and merging makes of final clauses, however
many ties there are.
-/

import ClausalReasoner.Proofs.CollectedKeys
import ClausalReasoner.Proofs.NegativeVerdict

namespace ClausalReasoner

/-! ### Books that only a refutation completes -/

namespace AnswerBook

/-- There is no time limit, and the search is complete only if a refutation was entered, which takes
books without an answer predicate. -/
structure EndsByRefuting (book : AnswerBook) : Prop extends book.Unlimited where
  refuted : book.complete = true → book.predicate = none

theorem Checks.endsByRefuting {book after : AnswerBook} {ls : List Literal}
    (checks : book.Checks ls after) (ends : book.EndsByRefuting) : after.EndsByRefuting := by
  refine ⟨checks.unlimited ends.toUnlimited, fun complete => ?_⟩
  rw [checks.sameQuery.predicate]
  cases checks with
  | refuted noPredicate => exact noPredicate
  | contradictory => exact ends.refuted complete
  | @answered _ l _ _ session last =>
    have limit : (book.enter session last (book.bindings l)).limit = none := ends.limit
    rw [poll_of_noLimit limit] at complete
    exact ends.refuted complete
  | _ =>
    rw [poll_of_noLimit ends.limit] at complete
    exact ends.refuted complete

/-- Books with an outcome that is not a refutation are open. -/
theorem EndsByRefuting.isClosed_eq_false {book : AnswerBook} (ends : book.EndsByRefuting)
    {answer : Answer} (outcome : book.outcome = .ok answer)
    (unrefuted : book.predicate = none → answer.proofs = []) : book.isClosed = false := by
  cases complete : book.complete with
  | true => exact ends.toUnlimited.isClosed_eq_false outcome (unrefuted (ends.refuted complete))
  | false => rw [isClosed, complete, consistent_of_outcome outcome, Bool.or_self]

end AnswerBook

namespace Saturation

/-! ### What every state keeps -/

/-- The keys of the clauses that are known and of those that were added. -/
def State.keys (state : State) : List String :=
  state.clauses.map Clause.key

/-- The clauses of a state are plain and older than the supply, and its books, which are those of a
given refutation, end by refuting. -/
structure State.Keyed (state : State) (book : AnswerBook) : Prop where
  plain : ∀ c ∈ state.clauses, c.Plain
  below : ∀ c ∈ state.clauses, c.VariablesBelow state.session.supply.next
  ends : state.book.EndsByRefuting
  sameQuery : book.SameQuery state.book

/-- The keys of all factors of the clauses of a state are there, unless the books are closed. -/
def State.Merged (state : State) : Prop :=
  state.book.isClosed = false → ∀ c ∈ state.clauses, c.MergesInto state.keys

/-- The keys of all resolvents of two clauses are there, unless the books are closed. -/
def State.Resolved (state : State) (c d : Clause) : Prop :=
  state.book.isClosed = false → ∀ r : Clause, r.IsResolvent c d → r.key ∈ state.keys

variable {book : AnswerBook} {state later : State}

theorem State.Grows.keys (grows : state.Grows later) : state.keys ⊆ later.keys :=
  List.map_subset _ grows.clauses

theorem State.Resolved.grows {c d : Clause} (resolved : state.Resolved c d)
    (grows : state.Grows later) : later.Resolved c d :=
  fun isOpen r resolvent => grows.keys (resolved (grows.isOpen isOpen) r resolvent)

theorem State.Resolved.symm {c d : Clause} (resolved : state.Resolved c d) :
    state.Resolved d c :=
  fun isOpen r resolvent => resolved isOpen r resolvent.symm

/-- A session that has used up more indices can take over. -/
theorem State.Keyed.withSession (keyed : state.Keyed book) {session : Session}
    (grows : state.session.supply.next ≤ session.supply.next) :
    State.Keyed ⟨state.book, session, state.known, state.added⟩ book :=
  ⟨keyed.plain, fun c member => (keyed.below c member).mono grows, keyed.ends, keyed.sameQuery⟩

/-! ### Adding clauses -/

/-- The key of a clause that was considered is there, unless the books are closed. -/
theorem keyed_consider (keyed : state.Keyed book) {c : Clause} (plain : c.Plain)
    (below : c.VariablesBelow state.session.supply.next) :
    (consider state c).Keyed book ∧ state.Grows (consider state c) ∧
      ((consider state c).book.isClosed = false → c.key ∈ (consider state c).keys) ∧
      ∀ d ∈ (consider state c).clauses, d ∈ state.clauses ∨ d = c := by
  rw [consider]
  split
  · next left =>
    refine ⟨keyed, .refl state, fun isOpen => ?_, fun d member => Or.inl member⟩
    rw [isOpen, Bool.false_or, Bool.or_eq_true] at left
    rw [State.keys, State.clauses, List.map_append]
    rcases left with known | added
    · exact List.mem_append_left _ (List.mem_map.2 (ClauseSet.contains_iff.1 known))
    · exact List.mem_append_right _ (List.mem_map.2 (ClauseSet.contains_iff.1 added))
  · next new =>
    simp only [Bool.or_eq_true, not_or, Bool.not_eq_true] at new
    have checks := state.book.checks_check state.session c.literals c.origin (.clause c.literals)
    have supply := state.book.supply_checkClause state.session c
    have among : ∀ d ∈ state.known.toList ++ (state.added.insert c).toList,
        d ∈ state.clauses ∨ d = c := by
      intro d member
      rcases List.mem_append.1 member with known | inserted
      · exact Or.inl (List.mem_append_left _ known)
      · exact (ClauseSet.mem_of_mem_insert inserted).imp_left (List.mem_append_right _)
    refine ⟨⟨fun d member => ?_, fun d member => ?_, checks.endsByRefuting keyed.ends,
      keyed.sameQuery.trans checks.sameQuery⟩,
      ⟨rfl, ClauseSet.subset_insert _ _, Nat.le_of_eq (congrArg Supply.next supply.symm),
        fun _ => new.1.1⟩, fun _ => ?_, among⟩
    · rcases among d member with old | rfl
      · exact keyed.plain d old
      · exact plain
    · show d.VariablesBelow (state.book.checkClause state.session c).2.2.supply.next
      rw [supply]
      rcases among d member with old | rfl
      · exact keyed.below d old
      · exact below
    · obtain ⟨member, inside, same⟩ := state.added.exists_key_insert c
      exact List.mem_map.2 ⟨member, List.mem_append_right _ inside, same⟩

/-- The keys of factors that were considered one after the other are all there, and nothing else was
added. -/
theorem keyed_considerAll (keyed : state.Keyed book) {r : Clause} {session : Session}
    {fs : List Clause} (factors : KeyedFactors r session fs)
    (older : session.supply.next ≤ state.session.supply.next) :
    let after := fs.foldl consider state
    after.Keyed book ∧ state.Grows after ∧
      (after.book.isClosed = false → ∀ f ∈ fs, f.key ∈ after.keys) ∧
      ∀ c ∈ after.clauses, c ∈ state.clauses ∨ c ∈ fs := by
  obtain ⟨⟨keyedNow, grows, among⟩, _, considered⟩ := foldl_reaches fs
    (fun later : State => later.Keyed book ∧ state.Grows later ∧
      ∀ c ∈ later.clauses, c ∈ state.clauses ∨ c ∈ fs)
    State.Grows
    (fun (f : Clause) (later : State) => later.book.isClosed = false → f.key ∈ later.keys)
    State.Grows.refl (fun _ _ _ => State.Grows.trans)
    (fun f first second grows key isOpen => grows.keys (key (grows.isOpen isOpen)))
    (fun later f member keeps => by
      obtain ⟨keyedLater, growsLater, key, new⟩ := keyed_consider keeps.1
        (factors.plain f member)
        ((factors.below f member).mono (Nat.le_trans older keeps.2.1.supply))
      refine ⟨⟨keyedLater, keeps.2.1.trans growsLater, fun c inside => ?_⟩, growsLater, key⟩
      rcases new c inside with old | rfl
      · exact keeps.2.2 c old
      · exact Or.inr member)
    ⟨keyed, .refl state, fun c member => Or.inl member⟩
  exact ⟨keyedNow, grows, fun isOpen f member => considered f member isOpen, among⟩

/-- A clause that is added together with its factors has its key there, and so have all factors of
what was added. -/
theorem keyed_considerFactors (keyed : state.Keyed book) (merged : state.Merged) {r : Clause}
    (plain : r.Plain) (below : r.VariablesBelow state.session.supply.next) :
    ((considerFactors state r).Keyed book ∧ (considerFactors state r).Merged) ∧
      state.Grows (considerFactors state r) ∧
      ((considerFactors state r).book.isClosed = false →
        r.key ∈ (considerFactors state r).keys) := by
  rw [considerFactors]
  split
  · next isClosed =>
    refine ⟨⟨keyed, merged⟩, .refl state, fun isOpen => ?_⟩
    rw [isClosed] at isOpen
    exact absurd isOpen.symm Bool.false_ne_true
  · have factors := state.session.keyedFactors_factors plain below
    have supply := state.session.next_le_factors r
    obtain ⟨keyedNow, grows, considered, among⟩ :=
      keyed_considerAll (keyed.withSession supply) factors (Nat.le_refl _)
    have growsState := (State.Grows.withSession supply).trans grows
    refine ⟨⟨keyedNow, fun isOpen c member => ?_⟩, growsState,
      fun isOpen => considered isOpen r factors.self⟩
    rcases among c member with old | new
    · exact (merged (growsState.isOpen isOpen) c old).mono growsState.keys
    · refine (factors.merges c new).mono fun key inside => ?_
      obtain ⟨f, isFactor, rfl⟩ := List.mem_map.1 inside
      exact considered isOpen f isFactor

/-! ### Resolving clauses -/

theorem keyed_resolvePair (keyed : state.Keyed book) (merged : state.Merged)
    {first second : Clause} (here : first ∈ state.clauses) (there : second ∈ state.clauses) :
    ((resolvePair first state second).Keyed book ∧ (resolvePair first state second).Merged) ∧
      state.Grows (resolvePair first state second) ∧
      (resolvePair first state second).Resolved first second := by
  rw [resolvePair]
  split
  · next isClosed =>
    refine ⟨⟨keyed, merged⟩, .refl state, fun isOpen => ?_⟩
    rw [isClosed] at isOpen
    exact absurd isOpen.symm Bool.false_ne_true
  · obtain ⟨made, complete⟩ := state.session.keyed_resolvents (keyed.below first here)
      (keyed.plain first here) (keyed.plain second there)
    have supply := state.session.next_le_resolvents first second
    let between : State := ⟨state.book, (state.session.resolvents first second).2, state.known,
      state.added⟩
    obtain ⟨⟨keyedNow, mergedNow, grows⟩, _, considered⟩ := foldl_reaches
      (state.session.resolvents first second).1
      (fun later : State => later.Keyed book ∧ later.Merged ∧ between.Grows later)
      State.Grows
      (fun (r : Clause) (later : State) => later.book.isClosed = false → r.key ∈ later.keys)
      State.Grows.refl (fun _ _ _ => State.Grows.trans)
      (fun r first second grows key isOpen => grows.keys (key (grows.isOpen isOpen)))
      (fun later r member keeps => by
        obtain ⟨kept, growsLater, key⟩ := keyed_considerFactors keeps.1 keeps.2.1
          (made r member).1 ((made r member).2.mono keeps.2.2.supply)
        exact ⟨⟨kept.1, kept.2, keeps.2.2.trans growsLater⟩, growsLater, key⟩)
      ⟨keyed.withSession supply, merged, .refl between⟩
    refine ⟨⟨keyedNow, mergedNow⟩, (State.Grows.withSession supply).trans grows,
      fun isOpen r resolvent => ?_⟩
    obtain ⟨found, member, same⟩ := List.mem_map.1 (complete r resolvent)
    exact same ▸ considered found member isOpen

theorem keyed_resolveAll {cs : List Clause} (keyed : state.Keyed book) (merged : state.Merged)
    (known : cs ⊆ state.clauses) :
    ((resolveAll cs state).Keyed book ∧ (resolveAll cs state).Merged) ∧
      state.Grows (resolveAll cs state) ∧
      ∀ c ∈ cs, ∀ d ∈ cs, (resolveAll cs state).Resolved c d := by
  induction cs generalizing state with
  | nil => exact ⟨⟨keyed, merged⟩, .refl state, fun _ none => absurd none List.not_mem_nil⟩
  | cons first rest inductionHypothesis =>
    obtain ⟨⟨keyedNow, mergedNow, grows⟩, _, resolved⟩ := foldl_reaches (first :: rest)
      (fun later : State => later.Keyed book ∧ later.Merged ∧ state.Grows later)
      State.Grows (fun (second : Clause) (later : State) => later.Resolved first second)
      State.Grows.refl (fun _ _ _ => State.Grows.trans)
      (fun second _ _ grows resolved => resolved.grows grows)
      (fun later second member keeps => by
        obtain ⟨kept, growsLater, resolved⟩ := keyed_resolvePair keeps.1 keeps.2.1
          (keeps.2.2.clauses (known List.mem_cons_self)) (keeps.2.2.clauses (known member))
        exact ⟨⟨kept.1, kept.2, keeps.2.2.trans growsLater⟩, growsLater, resolved⟩)
      ⟨keyed, merged, .refl state⟩
    have knownLater : rest ⊆ _ := List.Subset.trans
      (List.Subset.trans (List.subset_cons_self first rest) known) grows.clauses
    obtain ⟨kept, growsLater, resolvedLater⟩ := inductionHypothesis keyedNow mergedNow knownLater
    have withFirst : ∀ d ∈ first :: rest, (resolveAll (first :: rest) state).Resolved first d :=
      fun d member => (resolved d member).grows growsLater
    refine ⟨kept, grows.trans growsLater, fun c here d there => ?_⟩
    rcases List.mem_cons.1 here with rfl | hereLater
    · exact withFirst d there
    · rcases List.mem_cons.1 there with rfl | thereLater
      · exact (withFirst c here).symm
      · exact resolvedLater c hereLater d thereLater

/-! ### Passes -/

/-- What is known after a pass has the keys of what was known or added in it. -/
theorem keys_grown (passed : State) : passed.keys ⊆ passed.grown.known.toList.map Clause.key := by
  intro key member
  obtain ⟨c, inside, rfl⟩ := List.mem_map.1 member
  rcases List.mem_append.1 inside with known | added
  · exact List.mem_map_of_mem (ClauseSet.subset_insertAll passed.known passed.added.toList known)
  · exact List.mem_map.2 (passed.known.exists_key_insertAll added)

theorem State.Keyed.grown {passed : State} (keyed : passed.Keyed book) :
    passed.grown.Keyed book where
  plain c member := keyed.plain c (mem_clauses_of_mem_grown (clauses_grown passed ▸ member))
  below c member := keyed.below c (mem_clauses_of_mem_grown (clauses_grown passed ▸ member))
  ends := keyed.ends
  sameQuery := keyed.sameQuery

theorem State.Merged.grown {passed : State} (merged : passed.Merged) : passed.grown.Merged := by
  intro isOpen c member
  rw [State.keys, clauses_grown]
  rw [clauses_grown] at member
  exact (merged isOpen c (mem_clauses_of_mem_grown member)).mono (keys_grown passed)

/-- What a saturation knew in the beginning has its keys in the end, and if the books were not closed
so have all factors and resolvents of the final clauses. -/
structure KeyedFrom (book : AnswerBook) (state last : State) : Prop where
  keyed : last.Keyed book
  merged : last.Merged
  begun : state.known.toList.map Clause.key ⊆ last.known.toList.map Clause.key
  settled : last.added.toList = []
  resolved : ∀ c ∈ last.known.toList, ∀ d ∈ last.known.toList, last.Resolved c d

theorem keyedFrom_of_saturate {fuel : Nat} {last : State} (keyed : state.Keyed book)
    (merged : state.Merged) (run : saturate fuel state = some last) :
    KeyedFrom book state last := by
  induction fuel generalizing state with
  | zero => exact absurd run nofun
  | succ fuel inductionHypothesis =>
    have all : state.known.toList ⊆ state.clauses := List.subset_append_left _ _
    obtain ⟨⟨keyedPass, mergedPass⟩, grows, resolved⟩ :
        ((pass state).Keyed book ∧ (pass state).Merged) ∧ state.Grows (pass state) ∧
          ∀ c ∈ state.known.toList, ∀ d ∈ state.known.toList, (pass state).Resolved c d :=
      keyed_resolveAll keyed merged all
    have begun : state.known.toList.map Clause.key ⊆
        (pass state).grown.known.toList.map Clause.key :=
      List.Subset.trans (List.map_subset _ (List.Subset.trans all grows.clauses))
        (keys_grown (pass state))
    rw [saturate_succ] at run
    split at run
    · next ends =>
      obtain rfl := Option.some.inj run
      refine ⟨keyedPass.grown, mergedPass.grown, begun, rfl, fun c here d there isOpen r resolvent => ?_⟩
      -- nothing was added, so the clauses that are known now are those that were resolved
      have isOpen : (pass state).book.isClosed = false := isOpen
      rw [isOpen, Bool.false_or] at ends
      have nothing : (pass state).added.toList = [] :=
        List.isEmpty_iff.1 (Array.isEmpty_toList.trans ends)
      have wasKnown : ∀ c ∈ (pass state).grown.known.toList, c ∈ state.known.toList := by
        intro c member
        rcases List.mem_append.1 (mem_clauses_of_mem_grown member) with known | added
        · exact grows.known ▸ known
        · exact absurd (nothing ▸ added) List.not_mem_nil
      rw [State.keys, clauses_grown]
      exact keys_grown _ (resolved c (wasKnown c here) d (wasKnown d there) isOpen r resolvent)
    · have later := inductionHypothesis keyedPass.grown mergedPass.grown run
      exact { later with begun := List.Subset.trans begun later.begun }

end Saturation

/-! ### The start of a saturation -/

/-- Clauses that are factored one after the other have their keys among those of their factors, and
so have the factors of these. -/
theorem Session.keyed_factorsApart (session : Session) {cs : List Clause}
    (plain : ∀ c ∈ cs, c.Plain) :
    let factors := session.factorsApart cs
    (∀ f ∈ factors.1, f.Plain ∧ f.VariablesBelow factors.2.supply.next ∧
        f.MergesInto (factors.1.map Clause.key)) ∧
      ∀ c ∈ cs, c.key ∈ factors.1.map Clause.key := by
  induction cs generalizing session with
  | nil => exact ⟨fun f none => absurd none List.not_mem_nil,
      fun c none => absurd none List.not_mem_nil⟩
  | cons c cs inductionHypothesis =>
    obtain ⟨plainHere, plainLater⟩ := List.forall_mem_cons.1 plain
    obtain ⟨isCopy, _, below⟩ := session.copyOf_standardizeApart c
    let own := (session.standardizeApart c).2.factors (session.standardizeApart c).1
    have factors : KeyedFactors _ own.2 own.1 :=
      (session.standardizeApart c).2.keyedFactors_factors (isCopy.plain plainHere) below
    obtain ⟨good, keys⟩ := inductionHypothesis own.2 plainLater
    have unfolded : session.factorsApart (c :: cs) =
        (own.1 ++ (own.2.factorsApart cs).1, (own.2.factorsApart cs).2) := rfl
    rw [unfolded]
    dsimp only
    rw [List.map_append]
    refine ⟨fun f member => ?_, List.forall_mem_cons.2 ⟨?_, fun d member => ?_⟩⟩
    · rcases List.mem_append.1 member with here | later
      · exact ⟨factors.plain f here,
          (factors.below f here).mono (own.2.next_le_factorsApart cs),
          (factors.merges f here).mono (List.subset_append_left _ _)⟩
      · obtain ⟨plainNow, belowNow, mergesNow⟩ := good f later
        exact ⟨plainNow, belowNow, mergesNow.mono (List.subset_append_right _ _)⟩
    · exact List.mem_append_left _ (isCopy.key_eq ▸ List.mem_map_of_mem factors.self)
    · exact List.mem_append_right _ (keys d member)

namespace Saturation

/-- The first state has the keys of the stored clauses and of the goals. -/
theorem keyed_start {refutation : Refutation} {cs : List Clause}
    (clauses : cs = refutation.kb.clauses.toList ++ refutation.goals)
    (plain : ∀ c ∈ cs, c.Plain) (book : refutation.book.EndsByRefuting) :
    (start refutation).Keyed refutation.book ∧ (start refutation).Merged ∧
      ∀ c ∈ cs, c.key ∈ (start refutation).known.toList.map Clause.key := by
  obtain ⟨good, keys⟩ := refutation.session.keyed_factorsApart plain
  have known : (start refutation).known =
      ClauseSet.insertAll ∅ (refutation.session.factorsApart cs).1 := by
    rw [clauses]
    rfl
  have supply : (start refutation).session = (refutation.session.factorsApart cs).2 := by
    rw [clauses]
    rfl
  have same : (start refutation).clauses = (start refutation).known.toList := List.append_nil _
  have among : ∀ c ∈ (start refutation).clauses,
      c ∈ (refutation.session.factorsApart cs).1 := by
    intro c member
    rw [same, known] at member
    exact (ClauseSet.mem_of_mem_insertAll member).resolve_left List.not_mem_nil
  have kept : (refutation.session.factorsApart cs).1.map Clause.key ⊆
      (start refutation).known.toList.map Clause.key := by
    intro key member
    obtain ⟨c, inside, rfl⟩ := List.mem_map.1 member
    rw [known]
    exact List.mem_map.2 (ClauseSet.exists_key_insertAll ∅ inside)
  refine ⟨⟨fun c member => (good c (among c member)).1, fun c member => ?_, book, .refl _⟩,
    fun _ c member => ?_, fun c member => kept (keys c member)⟩
  · rw [supply]
    exact (good c (among c member)).2.1
  · rw [State.keys, same]
    exact (good c (among c member)).2.2.mono kept

end Saturation

/-! ### Saturation up to keys -/

/-- Clauses that contain, by its key, every resolvent of two of them and what unifying two literals
of one polarity makes of any of them. -/
structure KeySaturated (cs : List Clause) : Prop where
  resolvent : ∀ c ∈ cs, ∀ d ∈ cs, ∀ r : Clause, r.IsResolvent c d → r.key ∈ cs.map Clause.key
  merged : ∀ c ∈ cs, ∀ l ∈ c.literals, ∀ m ∈ c.literals, l.polarity = m.polarity →
    ∀ θ, l.atom.unify m.atom = some θ → (c.substitute θ).key ∈ cs.map Clause.key

namespace KnowledgeBase

variable {kb last : KnowledgeBase} {query : Sentence} {fuel : Nat} {answer : Answer}

/-- **Saturation closes its clauses under resolution and factoring.** When a reachable knowledge base
saturates without a time limit and does not come upon a refutation, which a query with variables to
report never ends by, the final clauses have the keys of all stored clauses and goals, of every
resolvent of two of them, and of every result of unifying two of their literals. -/
theorem Reachable.keySaturated_of_ask (reachable : kb.Reachable)
    (procedure : kb.procedure = .saturation none)
    (asked : kb.ask fuel query = some (.ok answer, last))
    (unrefuted : (kb.refutationOf query).book.predicate = none → answer.proofs = []) :
    (∀ c ∈ kb.clauses.toList ++ (kb.refutationOf query).goals,
        c.key ∈ (Saturation.finalClauses fuel (kb.refutationOf query)).map Clause.key) ∧
      KeySaturated (Saturation.finalClauses fuel (kb.refutationOf query)) := by
  obtain ⟨found, ran, proofs⟩ := exists_answer_of_ask asked
  rw [procedure, Procedure.ask, Saturation.ask_eq] at ran
  have stored : ∀ c ∈ kb.clauses.toList, c.Plain := reachable.regular.plain
  have goals : ∀ c ∈ (kb.refutationOf query).goals, c.Plain :=
    (kb.atQuery query).plain_of_mem_goals (kb.freshQuery query) none
  have book : (kb.refutationOf query).book.EndsByRefuting := by
    rw [refutationOf, refute_eq]
    exact ⟨⟨rfl, fun complete => absurd complete Bool.false_ne_true⟩,
      fun complete => absurd complete Bool.false_ne_true⟩
  have same : (kb.refutationOf query).kb.clauses = kb.clauses := by
    rw [refutationOf, refute_eq]
    rfl
  obtain ⟨state, run, outcome⟩ := Option.map_eq_some_iff.1 ran
  obtain ⟨keyed, merged, begun⟩ := Saturation.keyed_start
    (congrArg (·.toList ++ (kb.refutationOf query).goals) same.symm)
    (List.forall_mem_append.2 ⟨stored, goals⟩) book
  have ends := Saturation.keyedFrom_of_saturate keyed merged run
  have isOpen : state.book.isClosed = false := by
    refine ends.keyed.ends.isClosed_eq_false (congrArg Prod.fst outcome) fun none => ?_
    rw [ends.keyed.sameQuery.predicate] at none
    exact List.map_eq_nil_iff.1 (proofs.symm.trans (unrefuted none))
  have final : Saturation.finalClauses fuel (kb.refutationOf query) = state.known.toList := by
    rw [Saturation.finalClauses, refutationOf, run]
  have clauses : state.clauses = state.known.toList := by
    rw [Saturation.State.clauses, ends.settled, List.append_nil]
  have merges := ends.merged isOpen
  have resolved := fun c here d there => ends.resolved c here d there isOpen
  rw [Saturation.State.keys, clauses] at merges
  rw [Saturation.State.keys, clauses] at resolved
  rw [final]
  refine ⟨fun c member => ends.begun (begun c member), ⟨resolved,
    fun c member l left m right polarity θ unified => ?_⟩⟩
  exact (merges c member).key_substitute (List.mem_map_of_mem member) left right polarity unified

/-! ### Telling and the procedure -/

theorem procedure_store (kb : KnowledgeBase) (c : Clause) :
    (kb.store c).procedure = kb.procedure := by
  rw [store]
  split <;> rfl

/-- Telling does not change the procedure. -/
theorem procedure_telling (kb : KnowledgeBase) (s : Sentence) :
    (kb.telling s).procedure = kb.procedure := by
  have stores : ∀ (premise : StepNumber) (cs : List Clause) (start : KnowledgeBase),
      (cs.foldl (storeClausified premise) start).procedure = start.procedure := by
    intro premise cs start
    refine foldl_invariant (fun after : KnowledgeBase => after.procedure = start.procedure)
      (fun after c _ same => ?_) rfl
    rw [storeClausified]
    dsimp only
    split
    · exact same
    · exact (procedure_store _ _).trans same
  exact @tell_preserves (fun told => told.procedure = kb.procedure) kb rfl s fun _ => stores _ _ _

/-! ### Neighbours on a street -/

/-- `Near(A, y) ∨ Near(z, B)` for all `y` and `z`. -/
def nearOneEnd : Sentence :=
  .quantified .universal [⟨"y", none⟩, ⟨"z", none⟩]
    (.or (.atom (.predicate "Near" [.constant "A", .var ⟨"y", none⟩]))
      (.atom (.predicate "Near" [.var ⟨"z", none⟩, .constant "B"])))

/-- The knowledge base that saturates without a time limit and was told that `A` is near
everything or everything near `B`. -/
def street : KnowledgeBase :=
  saturating.telling nearOneEnd

/-- `Near(A, A)`. -/
def nearItself : Sentence :=
  .atom (.predicate "Near" [.constant "A", .constant "A"])

set_option maxRecDepth 10000 in
theorem isUnproved_street : street.isUnproved 4 nearItself := by cbv

/-- The told clause has the factor `Near(A, B)` and resolves with the goal to `Near(z, B)`. -/
theorem keySaturated_street :
    street.isUnproved 4 nearItself ∧
      (∀ c ∈ street.clauses.toList ++ (street.refutationOf nearItself).goals,
        c.key ∈ (Saturation.finalClauses 4 (street.refutationOf nearItself)).map Clause.key) ∧
      KeySaturated (Saturation.finalClauses 4 (street.refutationOf nearItself)) := by
  obtain ⟨answer, last, asked, noProofs⟩ := exists_of_isUnproved isUnproved_street
  have reachable : street.Reachable := (Reachable.initial _).telling nearOneEnd
  have procedure : street.procedure = .saturation none := procedure_telling _ _
  exact ⟨isUnproved_street, reachable.keySaturated_of_ask procedure asked fun _ => noProofs⟩

end KnowledgeBase

end ClausalReasoner

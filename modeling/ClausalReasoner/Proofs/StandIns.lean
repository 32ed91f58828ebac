/-
This file is about the clauses that are left out or taken out in the given clause procedure because
of others. A clause gives way to one that has its key or subsumes it, and a clause from which a
member of the state can be reached in such steps has a stand-in there. No part of the search loses a
stand-in: a clause that is added to the support stands in for all that it pushes out, and one that
is turned away gives way to what subsumes it.
-/

import ClausalReasoner.Proofs.GivenClauseEvents
import ClausalReasoner.Proofs.SaturatedKeys

namespace ClausalReasoner

/-! ### Giving way -/

namespace Clause

/-- The second clause has the key of the first one or subsumes it. -/
def GivesWayTo (c d : Clause) : Prop :=
  d.key = c.key ∨ d.subsumes c

/-- A clause of the list is reached from the given one by finitely many steps to a clause that has
the key of the one before or subsumes it. -/
def HasStandIn (cs : List Clause) (c : Clause) : Prop :=
  ∃ d ∈ cs, Relation.ReflTransGen GivesWayTo c d

namespace HasStandIn

variable {cs ds : List Clause} {c d : Clause}

theorem of_mem (member : c ∈ cs) : c.HasStandIn cs :=
  ⟨c, member, .refl⟩

theorem of_givesWay (gives : c.GivesWayTo d) (standIn : d.HasStandIn cs) : c.HasStandIn cs := by
  obtain ⟨e, member, reached⟩ := standIn
  exact ⟨e, member, reached.head gives⟩

theorem of_key_mem (known : c.key ∈ cs.map Clause.key) : c.HasStandIn cs := by
  obtain ⟨d, member, same⟩ := List.mem_map.1 known
  exact (of_mem member).of_givesWay (Or.inl same)

/-- Stand-ins of stand-ins are stand-ins. -/
theorem trans (standIn : c.HasStandIn cs) (each : ∀ d ∈ cs, d.HasStandIn ds) :
    c.HasStandIn ds := by
  obtain ⟨d, member, reached⟩ := standIn
  obtain ⟨e, inside, further⟩ := each d member
  exact ⟨e, inside, reached.trans further⟩

end HasStandIn

end Clause

/-! ### The queue -/

namespace ClauseQueue

variable {q : ClauseQueue} {c d : Clause}

theorem contains_iff : q.contains c = true ↔ c.key ∈ q.toList.map Clause.key := by
  simp [contains, toList]

/-- A clause whose key is not there is taken in, and no other is lost. -/
theorem mem_push (new : q.contains c = false) : d ∈ (q.push c).toList ↔ d = c ∨ d ∈ q.toList := by
  rw [push, new, if_neg Bool.false_ne_true, toList, toList, List.mem_map, List.mem_map]
  constructor
  · rintro ⟨entry, placed, rfl⟩
    rcases mem_place.1 placed with rfl | old
    · exact Or.inl rfl
    · exact Or.inr ⟨entry, old, rfl⟩
  · rintro (rfl | ⟨entry, old, rfl⟩)
    · exact ⟨_, mem_place.2 (Or.inl rfl), rfl⟩
    · exact ⟨entry, mem_place.2 (Or.inr old), rfl⟩

theorem mem_erase : d ∈ (q.erase c).toList ↔ d ∈ q.toList ∧ d.key ≠ c.key := by
  rw [erase, toList, toList, List.mem_map, List.mem_map]
  constructor
  · rintro ⟨entry, kept, rfl⟩
    obtain ⟨inside, different⟩ := List.mem_filter.1 kept
    exact ⟨⟨entry, inside, rfl⟩, of_decide_eq_true different⟩
  · rintro ⟨⟨entry, inside, rfl⟩, different⟩
    exact ⟨entry, List.mem_filter.2 ⟨inside, decide_eq_true different⟩, rfl⟩

end ClauseQueue

theorem ClauseSet.mem_erase {s : ClauseSet} {c d : Clause} :
    d ∈ (s.erase c).toList ↔ d ∈ s.toList ∧ d.key ≠ c.key := by
  rw [toList, erase, Array.toList_filter, List.mem_filter, bne_iff_ne]
  rfl

/-! ### Books that stay open -/

namespace AnswerBook

variable {book after : AnswerBook} {ls : List Literal}

/-- Looking at derived literals does not open closed books. -/
theorem Checks.isOpen (checks : book.Checks ls after) (limit : book.limit = none)
    (isOpen : after.isClosed = false) : book.isClosed = false := by
  cases checks with
  | refuted _ _ session last =>
    have closed : (AnswerBook.poll { book.enter session last ∅ with complete := true }).isClosed :=
      rfl
    rw [closed] at isOpen
    exact absurd isOpen.symm Bool.false_ne_true
  | contradictory => rw [isClosed, Bool.or_true] at isOpen; cases isOpen
  | @answered _ l _ _ session last =>
    have unlimited : (book.enter session last (book.bindings l)).limit = none := limit
    rw [poll_of_noLimit unlimited] at isOpen
    exact isOpen
  | _ =>
    rw [poll_of_noLimit limit] at isOpen
    exact isOpen

/-- What is found to be an answer is one, unless it closes the books. -/
theorem exists_answer_of_check {session : Session} {origin : Option StepNumber}
    {conclusion : Conclusion} (answers : (book.check session ls origin conclusion).1 = true)
    (isOpen : (book.check session ls origin conclusion).2.1.isClosed = false) :
    ∃ predicate l, book.predicate = some predicate ∧ answerLiteral? predicate ls = some l := by
  unfold check at answers isOpen
  split at answers
  · next noPredicate =>
    rw [noPredicate] at isOpen
    dsimp only at isOpen
    split at answers
    · next none =>
      rw [if_pos none] at isOpen
      exact absurd isOpen nofun
    · exact absurd answers Bool.false_ne_true
  · next predicate isPredicate =>
    split at answers
    · exact absurd answers Bool.false_ne_true
    · split at answers
      · exact absurd answers Bool.false_ne_true
      · next l isAnswer => exact ⟨predicate, l, isPredicate, isAnswer⟩

end AnswerBook

namespace GivenClause

/-! ### Parts of the search -/

variable {book : AnswerBook} {state later : State}

theorem isKnown_iff {c : Clause} :
    state.isKnown c = true ↔ c.key ∈ state.clauses.map Clause.key := by
  rw [State.isKnown, Bool.or_eq_true, ClauseQueue.contains_iff, ClauseSet.contains_iff,
    State.clauses, List.map_append, List.mem_append, List.mem_map, List.mem_map]

/-- The clauses of a state are plain and older than the supply, and its books, which are those of a
given refutation, end by refuting. -/
structure State.Proper (state : State) (book : AnswerBook) : Prop where
  plain : ∀ c ∈ state.clauses, c.Plain
  below : ∀ c ∈ state.clauses, c.VariablesBelow state.session.supply.next
  ends : state.book.EndsByRefuting
  sameQuery : book.SameQuery state.book

/-- Every clause of a state has a stand-in in a later one, no clause has become usable, and indices
were used up and the books at most closed. -/
structure State.Upholds (state later : State) : Prop where
  standIns : ∀ c ∈ state.clauses, c.HasStandIn later.clauses
  usable : later.usable.toList ⊆ state.usable.toList
  supply : state.session.supply.next ≤ later.session.supply.next
  sameQuery : state.book.SameQuery later.book
  isOpen : later.book.isClosed = false → state.book.isClosed = false

namespace State.Upholds

variable {first second third : State}

/-- Changing nothing but the session and the books. -/
theorem of_same (usable : later.usable = state.usable) (support : later.support = state.support)
    (supply : state.session.supply.next ≤ later.session.supply.next)
    (sameQuery : state.book.SameQuery later.book)
    (isOpen : later.book.isClosed = false → state.book.isClosed = false) :
    state.Upholds later := by
  refine ⟨fun c member => .of_mem ?_, fun c member => usable ▸ member, supply, sameQuery, isOpen⟩
  rw [State.clauses, usable, support]
  exact member

theorem refl (state : State) : state.Upholds state :=
  of_same rfl rfl (Nat.le_refl _) (.refl _) id

theorem trans (here : first.Upholds second) (there : second.Upholds third) :
    first.Upholds third where
  standIns c member := (here.standIns c member).trans there.standIns
  usable := List.Subset.trans there.usable here.usable
  supply := Nat.le_trans here.supply there.supply
  sameQuery := here.sameQuery.trans there.sameQuery
  isOpen := here.isOpen ∘ there.isOpen

end State.Upholds

/-- A session that has used up more indices can take over. -/
theorem State.Proper.withSession (proper : state.Proper book) {session : Session}
    (grows : state.session.supply.next ≤ session.supply.next) :
    State.Proper { state with session := session } book :=
  ⟨proper.plain, fun c member => (proper.below c member).mono grows, proper.ends, proper.sameQuery⟩

theorem State.Upholds.withSession {session : Session}
    (grows : state.session.supply.next ≤ session.supply.next) :
    state.Upholds { state with session := session } :=
  .of_same rfl rfl grows (.refl _) id

/-! ### Adding to the support -/

/-- Taking clauses out that have not the key of a given one leaves that one and all whose keys are
not taken out. -/
theorem mem_clauses_discard {c d : Clause} (member : d ∈ state.clauses) :
    d ∈ (state.discard c).clauses ∨ d.key = c.key := by
  rw [State.discard]
  rcases List.mem_append.1 member with supported | usable
  · split
    · by_cases same : d.key = c.key
      · exact Or.inr same
      · exact Or.inl (List.mem_append_left _ (ClauseQueue.mem_erase.2 ⟨supported, same⟩))
    · exact Or.inl (List.mem_append_left _ supported)
  · split
    · exact Or.inl (List.mem_append_right _ usable)
    · by_cases same : d.key = c.key
      · exact Or.inr same
      · exact Or.inl (List.mem_append_right _ (ClauseSet.mem_erase.2 ⟨usable, same⟩))

theorem usable_discard (state : State) (c : Clause) :
    (state.discard c).usable.toList ⊆ state.usable.toList := by
  rw [State.discard]
  split
  · exact List.Subset.refl _
  · exact fun member => ClauseSet.mem_of_mem_erase

theorem clauses_discard (state : State) (c : Clause) :
    (state.discard c).clauses ⊆ state.clauses := by
  rw [State.discard]
  split
  · exact List.append_subset.2 ⟨fun member inside =>
      List.mem_append_left _ (ClauseQueue.mem_of_mem_erase inside), List.subset_append_right _ _⟩
  · exact List.append_subset.2 ⟨List.subset_append_left _ _, fun member inside =>
      List.mem_append_right _ (ClauseSet.mem_of_mem_erase inside)⟩

/-- A clause that was pushed stands in for the clauses that it subsumes when these are taken out. -/
theorem standIns_discards {c : Clause} (subsumed : List Clause)
    (each : ∀ d ∈ subsumed, c.subsumes d ∧ d.key ≠ c.key) (member : c ∈ state.clauses) :
    let after := subsumed.foldl State.discard state
    c ∈ after.clauses ∧ (∀ d ∈ state.clauses, d.HasStandIn after.clauses) ∧
      after.clauses ⊆ state.clauses ∧ after.usable.toList ⊆ state.usable.toList := by
  let keeps : State → Prop := fun after => c ∈ after.clauses ∧
    (∀ d ∈ state.clauses, d ∈ after.clauses ∨ ∃ e, e.key = d.key ∧ c.subsumes e) ∧
    after.clauses ⊆ state.clauses ∧ after.usable.toList ⊆ state.usable.toList
  have kept : keeps (subsumed.foldl State.discard state) := by
    refine foldl_invariant keeps (fun after d among kept => ?_)
      ⟨member, fun d inside => Or.inl inside, List.Subset.refl _, List.Subset.refl _⟩
    obtain ⟨self, others, within, usable⟩ := kept
    obtain ⟨subsumes, different⟩ := each d among
    refine ⟨(mem_clauses_discard self).resolve_right (Ne.symm different), fun e inside => ?_,
      List.Subset.trans (clauses_discard after d) within,
      List.Subset.trans (usable_discard after d) usable⟩
    rcases others e inside with here | gone
    · exact (mem_clauses_discard here).imp_right fun same => ⟨d, same.symm, subsumes⟩
    · exact Or.inr gone
  obtain ⟨self, others, within, usable⟩ := kept
  refine ⟨self, fun d inside => ?_, within, usable⟩
  rcases others d inside with here | ⟨e, same, subsumes⟩
  · exact .of_mem here
  · exact ((Clause.HasStandIn.of_mem self).of_givesWay (Or.inr subsumes)).of_givesWay (Or.inl same)

/-- Adding an unknown clause to the support loses no stand-in and makes one for the clause. -/
theorem upholds_addToSupport (proper : state.Proper book) {c : Clause}
    (unknown : state.isKnown c = false) (plain : c.Plain)
    (below : c.VariablesBelow state.session.supply.next) :
    (state.addToSupport c).Proper book ∧ state.Upholds (state.addToSupport c) ∧
      c.HasStandIn (state.addToSupport c).clauses := by
  have sameBook := book_addToSupport state c
  have sameSupply := supply_addToSupport state c
  suffices changed : c.HasStandIn (state.addToSupport c).clauses ∧
      (∀ d ∈ state.clauses, d.HasStandIn (state.addToSupport c).clauses) ∧
      (∀ d ∈ (state.addToSupport c).clauses, d ∈ state.clauses ∨ d = c) ∧
      (state.addToSupport c).usable.toList ⊆ state.usable.toList by
    obtain ⟨self, standIns, among, usable⟩ := changed
    refine ⟨⟨fun d member => ?_, fun d member => ?_, sameBook ▸ proper.ends,
      sameBook ▸ proper.sameQuery⟩, ⟨standIns, usable, Nat.le_of_eq (congrArg _ sameSupply).symm,
        sameBook ▸ .refl _, fun isOpen => sameBook ▸ isOpen⟩, self⟩
    · rcases among d member with old | rfl
      · exact proper.plain d old
      · exact plain
    · rw [sameSupply]
      rcases among d member with old | rfl
      · exact proper.below d old
      · exact below
  have differs : ∀ d ∈ state.clauses, d.key ≠ c.key := by
    intro d member same
    rw [← Bool.not_eq_true, isKnown_iff] at unknown
    exact unknown (same ▸ List.mem_map_of_mem member)
  have notQueued : state.support.contains c = false :=
    (Bool.or_eq_false_iff.1 unknown).1
  rw [State.addToSupport]
  dsimp only
  split
  · next turnedAway =>
    obtain ⟨other, member, subsumes⟩ := List.any_eq_true.1 turnedAway
    exact ⟨(Clause.HasStandIn.of_mem member).of_givesWay (Or.inr subsumes),
      fun d inside => .of_mem inside, fun d inside => Or.inl inside, List.Subset.refl _⟩
  · let pushed : State := { state with support := state.support.push c }
    have inPushed : ∀ d, d ∈ pushed.clauses ↔ d = c ∨ d ∈ state.clauses := by
      intro d
      rw [State.clauses, State.clauses, List.mem_append, List.mem_append,
        ClauseQueue.mem_push notQueued, or_assoc]
    obtain ⟨self, standIns, within, usable⟩ := standIns_discards
      (state.clauses.filter fun other => c.subsumes other)
      (fun d among => ⟨(List.mem_filter.1 among).2, differs d (List.mem_filter.1 among).1⟩)
      ((inPushed c).2 (Or.inl rfl))
    exact ⟨.of_mem self, fun d member => standIns d ((inPushed d).2 (Or.inr member)),
      fun d member => ((inPushed d).1 (within member)).symm, usable⟩

/-! ### Looking at clauses -/

section

variable {options : GivenClauseOptions}

/-- Looking at a clause loses nothing. Without demodulators what comes back is the clause, as one
that is not known, and if nothing comes back it is a tautology, the books are closed, or it is an
answer or known. -/
theorem upholds_examine (noDemodulators : options.demodulators = []) (proper : state.Proper book)
    (c : Clause) :
    (examine options state c).2.Proper book ∧ state.Upholds (examine options state c).2 ∧
      match (examine options state c).1 with
      | none => c.isTautology
      | some (some new) => new = c ∧ (examine options state c).2.isKnown c = false
      | some none => (examine options state c).2.book.isClosed = false →
          (∃ predicate l, (examine options state c).2.book.predicate = some predicate ∧
            AnswerBook.answerLiteral? predicate c.literals = some l) ∨
          (examine options state c).2.isKnown c = true := by
  have simplified : state.session.simplify options.demodulators c = (c, state.session) := by
    rw [noDemodulators]
    rfl
  rw [examine]
  dsimp only
  rw [simplified]
  dsimp only
  split
  · next tautology => exact ⟨proper, .refl state, tautology⟩
  · have checks := state.book.checks_check state.session c.literals c.origin (.clause c.literals)
    have supply := state.book.supply_checkClause state.session c
    have isOpen := checks.isOpen proper.ends.limit
    refine ⟨⟨proper.plain, fun d member => ?_, checks.endsByRefuting proper.ends,
      proper.sameQuery.trans checks.sameQuery⟩,
      .of_same rfl rfl (Nat.le_of_eq (congrArg _ supply).symm) checks.sameQuery isOpen, ?_⟩
    · show d.VariablesBelow (state.book.checkClause state.session c).2.2.supply.next
      rw [supply]
      exact proper.below d member
    · split
      · next returned => cases returned
      · next new returned =>
        have returned := Option.some.inj returned
        split at returned
        · cases returned
        · next unknown =>
          rw [Bool.not_eq_true, Bool.or_eq_false_iff] at unknown
          exact ⟨(Option.some.inj returned).symm, unknown.2⟩
      · next returned =>
        intro isOpen
        have returned := Option.some.inj returned
        split at returned
        · next found =>
          rw [Bool.or_eq_true, Bool.or_eq_true] at found
          rcases found with (answers | inconsistent) | known
          · obtain ⟨predicate, l, isPredicate, isAnswer⟩ :=
              AnswerBook.exists_answer_of_check answers isOpen
            exact Or.inl ⟨predicate, l, checks.sameQuery.predicate.trans isPredicate, isAnswer⟩
          · have closed : (state.book.checkClause state.session c).2.1.isClosed = false := isOpen
            rw [AnswerBook.isClosed, inconsistent, Bool.or_true] at closed
            cases closed
          · exact Or.inr known
        · cases returned

/-- Without paramodulation inferring finds the keys of all resolvents. -/
theorem keyed_infer (noParamodulation : options.paramodulation = false) (session : Session)
    {c : Clause} (plain : c.Plain) (below : c.VariablesBelow session.supply.next)
    {others : List Clause} (plainOthers : ∀ d ∈ others, d.Plain) :
    let found := infer options session c others
    session.supply.next ≤ found.2.supply.next ∧
      (∀ k ∈ found.1, k.Plain ∧ k.VariablesBelow found.2.supply.next) ∧
      ∀ d ∈ others, ∀ r : Clause, r.IsResolvent c d → r.key ∈ found.1.map Clause.key := by
  have pair : ∀ (found : ClauseSet × Session) (d : Clause),
      inferPair options.paramodulation c found d =
        (found.1.insertAll (found.2.resolvents c d).1, (found.2.resolvents c d).2) := by
    intro found d
    rw [inferPair, noParamodulation]
    rfl
  let keeps : ClauseSet × Session → Prop := fun found =>
    session.supply.next ≤ found.2.supply.next ∧
      ∀ k ∈ found.1.toList, k.Plain ∧ k.VariablesBelow found.2.supply.next
  let done : Clause → ClauseSet × Session → Prop := fun d found =>
    ∀ r : Clause, r.IsResolvent c d → r.key ∈ found.1.toList.map Clause.key
  have each : ∀ found, ∀ d ∈ others, keeps found →
      keeps (inferPair options.paramodulation c found d) ∧
        found.1.toList ⊆ (inferPair options.paramodulation c found d).1.toList ∧
        done d (inferPair options.paramodulation c found d) := by
    intro found d member kept
    obtain ⟨made, complete⟩ :=
      found.2.keyed_resolvents (below.mono kept.1) plain (plainOthers d member)
    have supply := found.2.next_le_resolvents c d
    rw [pair]
    refine ⟨⟨Nat.le_trans kept.1 supply, fun k inside => ?_⟩, ClauseSet.subset_insertAll _ _,
      fun r resolvent => ?_⟩
    · rcases ClauseSet.mem_of_mem_insertAll inside with old | new
      · exact ⟨(kept.2 k old).1, (kept.2 k old).2.mono supply⟩
      · exact made k new
    · obtain ⟨found, inside, same⟩ := List.mem_map.1 (complete r resolvent)
      exact same ▸ List.mem_map.2 (ClauseSet.exists_key_insertAll _ inside)
  have start : keeps (∅, session) :=
    ⟨Nat.le_refl _, fun k none => absurd none List.not_mem_nil⟩
  obtain ⟨⟨supply, kept⟩, _, achieved⟩ := foldl_reaches others keeps
    (fun before after => before.1.toList ⊆ after.1.toList) done
    (fun _ => List.Subset.refl _) (fun _ _ _ => List.Subset.trans)
    (fun d before after grows keys r resolvent => List.map_subset _ grows (keys r resolvent))
    each start
  exact ⟨supply, kept, achieved⟩

theorem upholds_processUnits (noDemodulators : options.demodulators = [])
    (proper : state.Proper book) {cs : List Clause} (plain : ∀ c ∈ cs, c.Plain)
    (below : ∀ c ∈ cs, c.VariablesBelow state.session.supply.next) :
    (processUnits options cs state).Proper book ∧
      state.Upholds (processUnits options cs state) := by
  induction cs generalizing state with
  | nil => exact ⟨proper, .refl state⟩
  | cons c rest inductionHypothesis =>
    obtain ⟨plainHere, plainLater⟩ := List.forall_mem_cons.1 plain
    obtain ⟨belowHere, belowLater⟩ := List.forall_mem_cons.1 below
    obtain ⟨examined, upholds, returned⟩ := upholds_examine noDemodulators proper c
    have goesOn : ∀ added : State, added.Proper book → state.Upholds added →
        (processUnits options rest added).Proper book ∧
          state.Upholds (processUnits options rest added) := by
      intro added proper upholds
      obtain ⟨properLater, upholdsLater⟩ := inductionHypothesis proper plainLater
        fun d member => (belowLater d member).mono upholds.supply
      exact ⟨properLater, upholds.trans upholdsLater⟩
    have stops : ∀ added : State, added.Proper book → state.Upholds added →
        (if added.book.isClosed then added else processUnits options rest added).Proper book ∧
          state.Upholds
            (if added.book.isClosed then added else processUnits options rest added) := by
      intro added proper upholds
      split
      · exact ⟨proper, upholds⟩
      · exact goesOn added proper upholds
    rw [processUnits]
    generalize examine options state c = found at examined upholds returned
    obtain ⟨_ | _ | new, after⟩ := found
    · exact goesOn after examined upholds
    · exact stops after examined upholds
    · obtain ⟨rfl, unknown⟩ := returned
      obtain ⟨properAdded, upholdsAdded, _⟩ := upholds_addToSupport examined unknown plainHere
        (belowHere.mono upholds.supply)
      exact stops _ properAdded (upholds.trans upholdsAdded)

variable (noParamodulation : options.paramodulation = false)
  (noDemodulators : options.demodulators = [])

include noParamodulation noDemodulators

theorem upholds_tryUnits (proper : state.Proper book) {c : Clause} (plain : c.Plain)
    (below : c.VariablesBelow state.session.supply.next) :
    (tryUnits options state c).Proper book ∧ state.Upholds (tryUnits options state c) := by
  rw [tryUnits]
  split
  · have plainUnits : ∀ d ∈ state.clauses.filter Clause.isUnit, d.Plain :=
      fun d member => proper.plain d (List.mem_of_mem_filter member)
    obtain ⟨supply, made, _⟩ := keyed_infer noParamodulation state.session plain below plainUnits
    obtain ⟨properNow, upholds⟩ := upholds_processUnits noDemodulators (proper.withSession supply)
      (fun k member => (made k member).1) fun k member => (made k member).2
    exact ⟨properNow, (State.Upholds.withSession supply).trans upholds⟩
  · exact ⟨proper, .refl state⟩

/-- A factor that was added has a stand-in, unless the books are closed. -/
theorem upholds_addFactor (proper : state.Proper book) {factor : Clause} (plain : factor.Plain)
    (below : factor.VariablesBelow state.session.supply.next) :
    (addFactor options state factor).Proper book ∧
      state.Upholds (addFactor options state factor) ∧
      ((addFactor options state factor).book.isClosed = false →
        factor.HasStandIn (addFactor options state factor).clauses) := by
  rw [addFactor]
  split
  · next leftOut =>
    refine ⟨proper, .refl state, fun isOpen => ?_⟩
    have consistent := (Bool.or_eq_false_iff.1 isOpen).2
    rw [consistent, Bool.false_or] at leftOut
    exact .of_key_mem (isKnown_iff.1 leftOut)
  · next added =>
    rw [Bool.not_eq_true, Bool.or_eq_false_iff] at added
    obtain ⟨properAdded, upholdsAdded, standIn⟩ :=
      upholds_addToSupport proper added.2 plain below
    obtain ⟨properTried, upholdsTried⟩ := upholds_tryUnits noParamodulation noDemodulators
      properAdded plain (below.mono upholdsAdded.supply)
    exact ⟨properTried, upholdsAdded.trans upholdsTried,
      fun _ => standIn.trans upholdsTried.standIns⟩

/-- A new clause that was taken in with its factors has a stand-in, unless the books are closed. -/
theorem upholds_takeIn (proper : state.Proper book) {c : Clause} (plain : c.Plain)
    (below : c.VariablesBelow state.session.supply.next) :
    (takeIn options (some c) state).Proper book ∧ state.Upholds (takeIn options (some c) state) ∧
      ((takeIn options (some c) state).book.isClosed = false →
        c.HasStandIn (takeIn options (some c) state).clauses) := by
  have factors := state.session.keyedFactors_factors plain below
  have supply := state.session.next_le_factors c
  let begun : State := { state with session := (state.session.factors c).2 }
  obtain ⟨⟨properNow, upholds⟩, _, added⟩ := foldl_reaches (state.session.factors c).1
    (fun later : State => later.Proper book ∧ begun.Upholds later) State.Upholds
    (fun (factor : Clause) (later : State) => later.book.isClosed = false →
      factor.HasStandIn later.clauses)
    State.Upholds.refl (fun _ _ _ => State.Upholds.trans)
    (fun factor before after upholds standIn isOpen =>
      (standIn (upholds.isOpen isOpen)).trans upholds.standIns)
    (fun later factor member kept => by
      obtain ⟨properLater, upholdsLater, standIn⟩ := upholds_addFactor noParamodulation
        noDemodulators kept.1 (factors.plain factor member)
        ((factors.below factor member).mono kept.2.supply)
      exact ⟨⟨properLater, kept.2.trans upholdsLater⟩, upholdsLater, standIn⟩)
    ⟨proper.withSession supply, .refl begun⟩
  exact ⟨properNow, (State.Upholds.withSession supply).trans upholds, added c factors.self⟩

end

end GivenClause

end ClausalReasoner

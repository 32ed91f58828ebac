/-
This file says what stands behind the proofs in the books of a refutation. Without an answer
predicate a proof is entered when the empty list of literals was derived; with one it is entered
when the answer literal alone was derived, and the bindings are read off its arguments. Whatever
property the derived literals have, the literals behind the entered proofs have it too.

Saturation keeps such a property for all clauses it knows, and so the proofs it reports are backed
by literals that have it.
-/

import ClausalReasoner.Proofs.StepInvariants

namespace ClausalReasoner

variable {holds : List Literal → Prop}

/-! ### The books -/

namespace AnswerBook

/-- Literals with the property were derived that account for some bindings: none at all if there is
no answer predicate, and otherwise one answer literal with the bindings as its arguments. -/
inductive Backs (book : AnswerBook) (holds : List Literal → Prop) : Substitution → Prop
  | refuted {bindings : Substitution} (noPredicate : book.predicate = none) (given : holds []) :
      Backs book holds bindings
  | answered {predicate : String} {arguments : List Term} {l : Literal}
      (isPredicate : book.predicate = some predicate) (given : holds [l])
      (positive : l.polarity = .positive) (atom : l.atom = .predicate predicate arguments) :
      Backs book holds (book.bindings l)

/-- Every proof in the books is backed. So is the verdict that the premises contradict each other:
there is an answer predicate, and the empty list of literals was derived all the same. -/
structure Backed (book : AnswerBook) (holds : List Literal → Prop) : Prop where
  proofs : ∀ proof ∈ book.proofs, book.Backs holds proof.bindings
  contradiction : book.inconsistent = true → book.predicate ≠ none ∧ holds []

/-- Books in which nothing has been entered. -/
structure IsNew (book : AnswerBook) : Prop where
  proofs : book.proofs = []
  consistent : book.inconsistent = false

/-- Whether books are those of the same refutation: only what was found may differ. -/
structure SameQuery (book other : AnswerBook) : Prop where
  predicate : other.predicate = book.predicate
  vars : other.vars = book.vars

theorem SameQuery.refl (book : AnswerBook) : book.SameQuery book :=
  ⟨rfl, rfl⟩

theorem SameQuery.trans {first second third : AnswerBook} (here : first.SameQuery second)
    (there : second.SameQuery third) : first.SameQuery third :=
  ⟨there.predicate.trans here.predicate, there.vars.trans here.vars⟩

theorem SameQuery.symm {book other : AnswerBook} (same : book.SameQuery other) :
    other.SameQuery book :=
  ⟨same.predicate.symm, same.vars.symm⟩

theorem SameQuery.backs {book other : AnswerBook} (same : book.SameQuery other)
    {bindings : Substitution} (backs : book.Backs holds bindings) :
    other.Backs holds bindings := by
  cases backs with
  | refuted noPredicate given => exact .refuted (same.predicate.trans noPredicate) given
  | answered isPredicate given positive atom =>
    rw [AnswerBook.bindings, ← same.vars]
    exact .answered (same.predicate.trans isPredicate) given positive atom

theorem SameQuery.backs_iff {book other : AnswerBook} (same : book.SameQuery other)
    (bindings : Substitution) : other.Backs holds bindings ↔ book.Backs holds bindings :=
  ⟨same.symm.backs, same.backs⟩

theorem sameQuery_poll (book : AnswerBook) : book.SameQuery book.poll := by
  rw [poll]
  split
  · exact .refl book
  · split <;> exact ⟨rfl, rfl⟩

@[simp]
theorem proofs_poll (book : AnswerBook) : book.poll.proofs = book.proofs := by
  rw [poll]
  split
  · rfl
  · split <;> rfl

@[simp]
theorem inconsistent_poll (book : AnswerBook) : book.poll.inconsistent = book.inconsistent := by
  rw [poll]
  split
  · rfl
  · split <;> rfl

/-- Without a time limit nothing comes of looking at the clock. -/
theorem poll_of_noLimit {book : AnswerBook} (limit : book.limit = none) : book.poll = book := by
  rw [poll]
  split
  · rfl
  · rw [limit]

/-- Books of the same refutation in which the same was found are backed alike. -/
theorem SameQuery.backed {book other : AnswerBook} (same : book.SameQuery other)
    (proofs : other.proofs = book.proofs) (inconsistent : other.inconsistent = book.inconsistent)
    (backed : book.Backed holds) : other.Backed holds where
  proofs proof member := same.backs (backed.proofs proof (proofs ▸ member))
  contradiction closed := same.predicate.symm ▸ backed.contradiction (inconsistent ▸ closed)

theorem Backed.poll {book : AnswerBook} (backed : book.Backed holds) : book.poll.Backed holds :=
  (sameQuery_poll book).backed (proofs_poll book) (inconsistent_poll book) backed

theorem IsNew.backed {book : AnswerBook} (isNew : book.IsNew) : book.Backed holds where
  proofs _ member := absurd (isNew.proofs ▸ member) List.not_mem_nil
  contradiction closed := absurd (isNew.consistent.symm.trans closed) Bool.false_ne_true

theorem sameQuery_enter (book : AnswerBook) (session : Session) (last : StepNumber)
    (bindings : Substitution) : book.SameQuery (book.enter session last bindings) :=
  ⟨rfl, rfl⟩

/-- A proof may be entered when its bindings are accounted for. -/
theorem Backed.enter {book : AnswerBook} (backed : book.Backed holds) {bindings : Substitution}
    (backs : book.Backs holds bindings) (session : Session) (last : StepNumber) :
    (book.enter session last bindings).Backed holds := by
  refine ⟨fun proof member => ?_, backed.contradiction⟩
  rcases List.mem_append.1 member with old | new
  · exact (sameQuery_enter book session last bindings).backs (backed.proofs proof old)
  · rw [List.mem_singleton.1 new]
    exact (sameQuery_enter book session last bindings).backs backs

theorem proofs_of_outcome {book : AnswerBook} {answer : Answer}
    (outcome : book.outcome = .ok answer) : answer.proofs = book.proofs := by
  unfold AnswerBook.outcome at outcome
  split at outcome
  · exact absurd outcome nofun
  · rw [← Except.ok.inj outcome]

/-- The search fails only by a contradiction. -/
theorem inconsistent_of_outcome {book : AnswerBook} {failure : Failure}
    (outcome : book.outcome = .error failure) : book.inconsistent = true := by
  unfold AnswerBook.outcome at outcome
  split at outcome
  · next inconsistent => exact inconsistent
  · exact absurd outcome nofun

/-- An answer means that no contradiction was found. -/
theorem consistent_of_outcome {book : AnswerBook} {answer : Answer}
    (outcome : book.outcome = .ok answer) : book.inconsistent = false := by
  unfold AnswerBook.outcome at outcome
  split at outcome
  · exact absurd outcome nofun
  · next consistent => exact Bool.not_eq_true _ ▸ consistent

theorem of_answerLiteral? {predicate : String} {ls : List Literal} {l : Literal}
    (found : answerLiteral? predicate ls = some l) :
    ls = [l] ∧ l.polarity = .positive ∧ ∃ arguments, l.atom = .predicate predicate arguments := by
  unfold answerLiteral? at found
  split at found
  · next other =>
    split at found
    · next name arguments positive atom =>
      split at found
      · next same =>
        obtain rfl := Option.some.inj found
        exact ⟨rfl, positive, arguments, same ▸ atom⟩
      · exact absurd found nofun
    · exact absurd found nofun
  · exact absurd found nofun

/-- What looking at derived literals can do to the books. -/
inductive Checks (book : AnswerBook) (ls : List Literal) : AnswerBook → Prop
  /-- Without an answer predicate only the empty list counts. -/
  | unrefuted (noPredicate : book.predicate = none) (some : ls ≠ []) : Checks book ls book.poll
  | refuted (noPredicate : book.predicate = none) (none : ls = []) (session : Session)
      (last : StepNumber) :
      Checks book ls (AnswerBook.poll { book.enter session last ∅ with complete := true })
  | contradictory {predicate : String} (isPredicate : book.predicate = some predicate)
      (none : ls = []) : Checks book ls { book with inconsistent := true }
  | unanswered {predicate : String} (isPredicate : book.predicate = some predicate)
      (some : ls ≠ []) (other : answerLiteral? predicate ls = none) : Checks book ls book.poll
  /-- The same values were entered before. -/
  | repeated {predicate : String} {l : Literal} (isPredicate : book.predicate = some predicate)
      (answers : answerLiteral? predicate ls = some l) {proof : Proof}
      (entered : proof ∈ book.proofs) (same : proof.bindings = book.bindings l) :
      Checks book ls book.poll
  | answered {predicate : String} {l : Literal} (isPredicate : book.predicate = some predicate)
      (answers : answerLiteral? predicate ls = some l) (session : Session) (last : StepNumber) :
      Checks book ls (book.enter session last (book.bindings l)).poll

theorem checks_check (book : AnswerBook) (session : Session) (ls : List Literal)
    (origin : Option StepNumber) (conclusion : Conclusion) :
    book.Checks ls (book.check session ls origin conclusion).2.1 := by
  unfold check
  split
  · next isPredicate =>
    split
    · next none => exact .refuted isPredicate (List.isEmpty_iff.1 none) _ _
    · next some => exact .unrefuted isPredicate fun none => some (List.isEmpty_iff.2 none)
  · next predicate isPredicate =>
    split
    · next none => exact .contradictory isPredicate (List.isEmpty_iff.1 none)
    · next some =>
      have some : ls ≠ [] := fun none => some (List.isEmpty_iff.2 none)
      split
      · next answers => exact .unanswered isPredicate some answers
      · next l answers =>
        dsimp only
        split
        · next before =>
          obtain ⟨proof, entered, same⟩ := List.any_eq_true.1 before
          exact .repeated isPredicate answers entered (of_decide_eq_true same)
        · exact .answered isPredicate answers _ _

theorem Checks.sameQuery {book after : AnswerBook} {ls : List Literal}
    (checks : book.Checks ls after) : book.SameQuery after := by
  cases checks with
  | refuted _ _ session last =>
    have entered : book.SameQuery { book.enter session last ∅ with complete := true } := ⟨rfl, rfl⟩
    exact entered.trans (sameQuery_poll _)
  | contradictory => exact ⟨rfl, rfl⟩
  | answered _ _ session last =>
    exact (sameQuery_enter book session last _).trans (sameQuery_poll _)
  | _ => exact sameQuery_poll book

/-- Looking at derived literals keeps the books backed. -/
theorem Checks.backed {book after : AnswerBook} {ls : List Literal}
    (checks : book.Checks ls after) (backed : book.Backed holds) (given : holds ls) :
    after.Backed holds := by
  cases checks with
  | refuted noPredicate none session last =>
    have backs : book.Backs holds ∅ := .refuted noPredicate (none ▸ given)
    have closed : (book.enter session last ∅).SameQuery
        { book.enter session last ∅ with complete := true } := ⟨rfl, rfl⟩
    exact (closed.backed rfl rfl (backed.enter backs session last)).poll
  | contradictory isPredicate none =>
    have closed : book.SameQuery { book with inconsistent := true } := ⟨rfl, rfl⟩
    refine ⟨fun proof member => closed.backs (backed.proofs proof member), fun _ => ⟨?_, none ▸ given⟩⟩
    exact fun absent => absurd (isPredicate.symm.trans absent) nofun
  | answered isPredicate answers session last =>
    obtain ⟨alone, positive, arguments, atom⟩ := of_answerLiteral? answers
    exact (backed.enter (.answered isPredicate (alone ▸ given) positive atom) session last).poll
  | _ => exact backed.poll

end AnswerBook

/-! ### Sets of clauses -/

namespace ClauseSet

theorem mem_of_mem_insert {s : ClauseSet} {c member : Clause}
    (inside : member ∈ (s.insert c).toList) : member ∈ s.toList ∨ member = c := by
  unfold insert at inside
  split at inside
  · exact Or.inl inside
  · rw [toList, Array.toList_push, List.mem_append, List.mem_singleton] at inside
    exact inside

theorem mem_of_mem_insertAll {cs : List Clause} {s : ClauseSet} {member : Clause}
    (inside : member ∈ (s.insertAll cs).toList) : member ∈ s.toList ∨ member ∈ cs := by
  induction cs generalizing s with
  | nil => exact Or.inl inside
  | cons c cs inductionHypothesis =>
    rcases inductionHypothesis inside with old | later
    · exact (mem_of_mem_insert old).imp_right fun same =>
      List.mem_cons.2 (Or.inl same)
    · exact Or.inr (List.mem_cons_of_mem _ later)

theorem mem_of_mem_ofList {cs : List Clause} {member : Clause}
    (inside : member ∈ (ofList cs).toList) : member ∈ cs := by
  refine (mem_of_mem_insertAll inside).resolve_left fun absent => ?_
  exact absurd absent List.not_mem_nil

theorem mem_of_mem_erase {s : ClauseSet} {c member : Clause}
    (inside : member ∈ (s.erase c).toList) : member ∈ s.toList := by
  rw [toList, erase, Array.toList_filter] at inside
  exact List.mem_of_mem_filter inside

end ClauseSet

namespace AllHold

theorem insert {s : ClauseSet} (all : AllHold holds s.toList) {c : Clause}
    (given : holds c.literals) : AllHold holds (s.insert c).toList := by
  intro member inside
  rcases ClauseSet.mem_of_mem_insert inside with old | rfl
  · exact all member old
  · exact given

theorem insertAll {s : ClauseSet} (all : AllHold holds s.toList) {cs : List Clause}
    (given : AllHold holds cs) : AllHold holds (s.insertAll cs).toList :=
  fun member inside => (ClauseSet.mem_of_mem_insertAll inside).elim (all member) (given member)

theorem ofList {cs : List Clause} (given : AllHold holds cs) :
    AllHold holds (ClauseSet.ofList cs).toList :=
  fun member inside => given member (ClauseSet.mem_of_mem_ofList inside)

end AllHold

/-! ### Saturation -/

namespace Saturation

/-- The clauses that are known and those that were added have the property, and the books, which
are those of a given refutation, are backed. -/
structure State.Keeps (state : State) (holds : List Literal → Prop) (book : AnswerBook) :
    Prop where
  known : AllHold holds state.known.toList
  added : AllHold holds state.added.toList
  backed : state.book.Backed holds
  sameQuery : book.SameQuery state.book

variable {book : AnswerBook} {state : State}

theorem keeps_consider (keeps : state.Keeps holds book) {c : Clause} (given : holds c.literals) :
    (consider state c).Keeps holds book := by
  rw [consider]
  split
  · exact keeps
  · have checks := state.book.checks_check state.session c.literals c.origin (.clause c.literals)
    exact ⟨keeps.known, keeps.added.insert given, checks.backed keeps.backed given,
      keeps.sameQuery.trans checks.sameQuery⟩

/-- Every step of saturation keeps the property. -/
theorem stepInvariant_keeps (invariant : ResolutionInvariant holds) :
    StepInvariant (fun state => state.Keeps holds book) fun c => holds c.literals where
  resolve kept first second :=
    ⟨⟨kept.known, kept.added, kept.backed, kept.sameQuery⟩,
      invariant.resolvents (kept.known _ first) (kept.known _ second) _⟩
  factor kept given :=
    ⟨⟨kept.known, kept.added, kept.backed, kept.sameQuery⟩, invariant.factors given _⟩
  consider kept given := keeps_consider kept given
  grow kept :=
    ⟨kept.known.insertAll kept.added, AllHold.nil, kept.backed, kept.sameQuery⟩

theorem keeps_saturate (invariant : ResolutionInvariant holds) {fuel : Nat} {last : State}
    (keeps : state.Keeps holds book) (run : saturate fuel state = some last) :
    last.Keeps holds book :=
  (stepInvariant_keeps invariant).saturate keeps run

/-- The state in which saturation begins. -/
def start (refutation : Refutation) : State :=
  let initial := refutation.session.factorsApart
    (refutation.kb.clauses.toList ++ refutation.goals)
  ⟨refutation.book, initial.2, ClauseSet.ofList initial.1, ∅⟩

theorem ask_eq (fuel : Nat) (limit : TimeLimit) (kb : KnowledgeBase) (query : Sentence) :
    ask fuel limit kb query =
      (saturate fuel (start (kb.refute query limit))).map fun state =>
        (state.book.outcome, (kb.refute query limit).kb.afterSession state.session) := by
  unfold ask
  generalize kb.refute query limit = refutation
  obtain ⟨book, goals, session, refuted⟩ := refutation
  rfl

theorem keeps_start (invariant : ResolutionInvariant holds) {refutation : Refutation}
    (stored : AllHold holds refutation.kb.clauses.toList)
    (goals : AllHold holds refutation.goals) (isNew : refutation.book.IsNew) :
    (start refutation).Keeps holds refutation.book where
  known := (invariant.factorsApart (stored.append goals) refutation.session).ofList
  added := AllHold.nil
  backed := isNew.backed
  sameQuery := .refl refutation.book

/-- Every proof that saturation reports is backed by literals with the property, if the stored
clauses and the goals have it. -/
theorem backs_of_ask (invariant : ResolutionInvariant holds) {fuel : Nat} {limit : TimeLimit}
    {kb last : KnowledgeBase} {query : Sentence} {answer : Answer}
    (stored : AllHold holds (kb.refute query limit).kb.clauses.toList)
    (goals : AllHold holds (kb.refute query limit).goals)
    (isNew : (kb.refute query limit).book.IsNew)
    (asked : ask fuel limit kb query = some (.ok answer, last)) :
    ∀ proof ∈ answer.proofs, (kb.refute query limit).book.Backs holds proof.bindings := by
  rw [ask_eq] at asked
  generalize kb.refute query limit = refutation at stored goals isNew asked ⊢
  obtain ⟨state, run, outcome⟩ := Option.map_eq_some_iff.1 asked
  have keeps := keeps_saturate invariant (keeps_start invariant stored goals isNew) run
  rw [AnswerBook.proofs_of_outcome (congrArg Prod.fst outcome)]
  exact fun proof member =>
    (keeps.sameQuery.backs_iff proof.bindings).1 (keeps.backed.proofs proof member)

/-- If saturation fails, there is an answer predicate, and the empty list of literals has the
property. -/
theorem holds_nil_of_ask (invariant : ResolutionInvariant holds) {fuel : Nat} {limit : TimeLimit}
    {kb last : KnowledgeBase} {query : Sentence} {failure : Failure}
    (stored : AllHold holds (kb.refute query limit).kb.clauses.toList)
    (goals : AllHold holds (kb.refute query limit).goals)
    (isNew : (kb.refute query limit).book.IsNew)
    (asked : ask fuel limit kb query = some (.error failure, last)) :
    (kb.refute query limit).book.predicate ≠ none ∧ holds [] := by
  rw [ask_eq] at asked
  generalize kb.refute query limit = refutation at stored goals isNew asked ⊢
  obtain ⟨state, run, outcome⟩ := Option.map_eq_some_iff.1 asked
  have keeps := keeps_saturate invariant (keeps_start invariant stored goals isNew) run
  exact keeps.sameQuery.predicate ▸
    keeps.backed.contradiction (AnswerBook.inconsistent_of_outcome (congrArg Prod.fst outcome))

end Saturation

end ClausalReasoner

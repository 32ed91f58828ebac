/-
This file shows that a saturation which ends without closing the books has saturated its clauses.
Through all passes, whatever is merged in a clause that was added stays represented, since a
resolvent is added together with all of its factors; and in the last pass, which adds nothing, every
resolvent of two known clauses was found to be represented by the known clauses alone. Clauses only
come to stand in for others that they cover, as long as no clause that is formed exceeds the limit
on ties, so the final clauses cover the stored clauses, the goals and everything inferred from them.
-/

import ClausalReasoner.Proofs.FactorClosure

namespace ClausalReasoner

/-! ### Sets of clauses keep the keys that were put in -/

namespace ClauseSet

theorem subset_insert (s : ClauseSet) (c : Clause) : s.toList ⊆ (s.insert c).toList := by
  intro member inside
  rw [insert]
  split
  · exact inside
  · rw [toList, Array.toList_push]
    exact List.mem_append_left _ inside

theorem exists_key_insert (s : ClauseSet) (c : Clause) :
    ∃ member ∈ (s.insert c).toList, member.key = c.key := by
  rw [insert]
  split
  · next known => exact contains_iff.1 known
  · rw [toList, Array.toList_push]
    exact ⟨c, List.mem_append_right _ (List.mem_singleton.2 rfl), rfl⟩

theorem subset_insertAll (s : ClauseSet) (cs : List Clause) :
    s.toList ⊆ (s.insertAll cs).toList := by
  induction cs generalizing s with
  | nil => exact List.Subset.refl _
  | cons c cs inductionHypothesis =>
    exact List.Subset.trans (s.subset_insert c) (inductionHypothesis (s.insert c))

theorem exists_key_insertAll (s : ClauseSet) {cs : List Clause} {c : Clause} (member : c ∈ cs) :
    ∃ kept ∈ (s.insertAll cs).toList, kept.key = c.key := by
  induction cs generalizing s with
  | nil => exact absurd member List.not_mem_nil
  | cons first rest inductionHypothesis =>
    rcases List.mem_cons.1 member with rfl | later
    · obtain ⟨kept, inside, same⟩ := s.exists_key_insert c
      exact ⟨kept, subset_insertAll (s.insert c) rest inside, same⟩
    · exact inductionHypothesis (s.insert first) later

/-- Clauses within the limit are represented by the set that they were put into. -/
theorem represented_insertAll (s : ClauseSet) {cs : List Clause}
    (withinSet : ∀ c ∈ s.toList, WithinTieLimit c.literals)
    (within : ∀ c ∈ cs, WithinTieLimit c.literals) :
    ∀ c ∈ s.toList ++ cs, Represented (s.insertAll cs).toList c.literals := by
  intro c member
  rcases List.mem_append.1 member with old | new
  · exact .of_mem (subset_insertAll s cs old)
  · obtain ⟨kept, inside, same⟩ := s.exists_key_insertAll new
    rw [Clause.key_eq, Clause.key_eq] at same
    have withinKept : WithinTieLimit kept.literals :=
      (mem_of_mem_insertAll inside).elim (withinSet kept) (within kept)
    exact ⟨kept, inside, covers_of_canonicalKey_eq withinKept (within c new) same⟩

end ClauseSet

/-! ### Books without a time limit -/

namespace AnswerBook

/-- There is no time limit, and the search is complete only if there is a proof. -/
structure Unlimited (book : AnswerBook) : Prop where
  limit : book.limit = none
  proved : book.complete = true → book.proofs ≠ []

theorem Unlimited.poll {book : AnswerBook} (unlimited : book.Unlimited) :
    book.poll.Unlimited := by
  rw [poll_of_noLimit unlimited.limit]
  exact unlimited

theorem Checks.unlimited {book after : AnswerBook} {ls : List Literal}
    (checks : book.Checks ls after) (unlimited : book.Unlimited) : after.Unlimited := by
  have appended : ∀ (proofs : List Proof) (proof : Proof), proofs ++ [proof] ≠ [] :=
    fun proofs proof => List.append_ne_nil_of_right_ne_nil _ (List.cons_ne_nil _ _)
  cases checks with
  | refuted _ _ session last => exact Unlimited.poll ⟨unlimited.limit, fun _ => appended _ _⟩
  | contradictory => exact ⟨unlimited.limit, unlimited.proved⟩
  | answered _ _ session last => exact Unlimited.poll ⟨unlimited.limit, fun _ => appended _ _⟩
  | _ => exact unlimited.poll

/-- Books that are closed without a proof stand for premises that contradict each other. -/
theorem Unlimited.isClosed_eq_false {book : AnswerBook} (unlimited : book.Unlimited)
    {answer : Answer} (outcome : book.outcome = .ok answer) (noProofs : answer.proofs = []) :
    book.isClosed = false := by
  have proofs := proofs_of_outcome outcome
  have incomplete : book.complete = false := by
    cases complete : book.complete with
    | false => rfl
    | true => exact absurd (proofs.symm.trans noProofs) (unlimited.proved complete)
  rw [isClosed, incomplete, consistent_of_outcome outcome]
  rfl

/-- Looking at derived literals records steps but uses no indices. -/
theorem supply_check (book : AnswerBook) (session : Session) (ls : List Literal)
    (origin : Option StepNumber) (conclusion : Conclusion) :
    (book.check session ls origin conclusion).2.2.supply = session.supply := by
  have recorded : (finalStep session origin conclusion).2.supply = session.supply := by
    cases origin <;> rfl
  unfold check
  split
  · split
    · exact recorded
    · rfl
  · split
    · rfl
    · split
      · rfl
      · dsimp only
        split
        · rfl
        · exact recorded

theorem supply_checkClause (book : AnswerBook) (session : Session) (c : Clause) :
    (book.checkClause session c).2.2.supply = session.supply :=
  book.supply_check session c.literals c.origin (.clause c.literals)

end AnswerBook

namespace Saturation

/-! ### What every state keeps -/

/-- The clauses that are known and those that were added. -/
def State.clauses (state : State) : List Clause :=
  state.known.toList ++ state.added.toList

/-- The clauses of a state are within the limit on ties, plain, and older than the supply, and the
books have no time limit. As long as the books are open, all factors are represented. -/
structure State.Sound (state : State) : Prop where
  within : ∀ c ∈ state.clauses, WithinTieLimit c.literals
  plain : ∀ c ∈ state.clauses, c.Plain
  below : ∀ c ∈ state.clauses, c.VariablesBelow state.session.supply.next
  book : state.book.Unlimited

/-- All factors of the clauses of a state are represented, unless the books are closed. -/
def State.FactorsClosed (state : State) : Prop :=
  state.book.isClosed = false → ∀ c ∈ state.clauses, c.FactorsIn state.clauses

/-- Within a pass clauses are added, indices used up and the books at most closed. -/
structure State.Grows (state later : State) : Prop where
  known : later.known = state.known
  added : state.added.toList ⊆ later.added.toList
  supply : state.session.supply.next ≤ later.session.supply.next
  isOpen : later.book.isClosed = false → state.book.isClosed = false

namespace State.Grows

variable {first second third : State}

theorem refl (state : State) : state.Grows state :=
  ⟨rfl, List.Subset.refl _, Nat.le_refl _, id⟩

theorem trans (here : first.Grows second) (there : second.Grows third) : first.Grows third :=
  ⟨there.known.trans here.known, List.Subset.trans here.added there.added,
    Nat.le_trans here.supply there.supply, fun isOpen => here.isOpen (there.isOpen isOpen)⟩

theorem clauses (grows : first.Grows second) : first.clauses ⊆ second.clauses := by
  rw [State.clauses, State.clauses, grows.known]
  exact List.append_subset.2 ⟨List.subset_append_left _ _,
    List.subset_append_of_subset_right _ grows.added⟩

end State.Grows

variable {state : State}

theorem State.Grows.withSession {session : Session}
    (grows : state.session.supply.next ≤ session.supply.next) :
    state.Grows ⟨state.book, session, state.known, state.added⟩ :=
  ⟨rfl, List.Subset.refl _, grows, id⟩

/-- A session that has used up more indices can take over. -/
theorem State.Sound.withSession (sound : state.Sound) {session : Session}
    (grows : state.session.supply.next ≤ session.supply.next) :
    State.Sound ⟨state.book, session, state.known, state.added⟩ :=
  ⟨sound.within, sound.plain, fun c member => (sound.below c member).mono grows, sound.book⟩

/-! ### Adding clauses -/

/-- A clause that was considered is represented, unless the books are closed. -/
theorem sound_consider (sound : state.Sound) {c : Clause} (within : WithinTieLimit c.literals)
    (plain : c.Plain) (below : c.VariablesBelow state.session.supply.next) :
    (consider state c).Sound ∧ state.Grows (consider state c) ∧
      ((consider state c).book.isClosed = false →
        Represented (consider state c).clauses c.literals) ∧
      ∀ d ∈ (consider state c).clauses, d ∈ state.clauses ∨ d = c := by
  rw [consider]
  split
  · next left =>
    refine ⟨sound, .refl state, fun isOpen => ?_, fun d member => Or.inl member⟩
    rw [isOpen, Bool.false_or, Bool.or_eq_true] at left
    have found : ∃ member ∈ state.clauses, member.key = c.key := by
      rcases left with known | added
      · obtain ⟨member, inside, same⟩ := ClauseSet.contains_iff.1 known
        exact ⟨member, List.mem_append_left _ inside, same⟩
      · obtain ⟨member, inside, same⟩ := ClauseSet.contains_iff.1 added
        exact ⟨member, List.mem_append_right _ inside, same⟩
    obtain ⟨member, inside, same⟩ := found
    rw [Clause.key_eq, Clause.key_eq] at same
    exact ⟨member, inside, covers_of_canonicalKey_eq (sound.within member inside) within same⟩
  · next new =>
    simp only [Bool.or_eq_true, not_or, Bool.not_eq_true] at new
    have checks := state.book.checks_check state.session c.literals c.origin (.clause c.literals)
    have supply := state.book.supply_checkClause state.session c
    have among : ∀ d ∈ state.known.toList ++ (state.added.insert c).toList,
        d ∈ state.clauses ∨ d = c := by
      intro d member
      rcases List.mem_append.1 member with known | inserted
      · exact Or.inl (List.mem_append_left _ known)
      · exact (ClauseSet.mem_of_mem_insert inserted).imp_left (List.mem_append_right _)
    refine ⟨⟨fun d member => ?_, fun d member => ?_, fun d member => ?_,
      checks.unlimited sound.book⟩, ⟨rfl, ClauseSet.subset_insert _ _, ?_, fun _ => new.1.1⟩,
      fun _ => ?_, among⟩
    · rcases among d member with old | rfl
      · exact sound.within d old
      · exact within
    · rcases among d member with old | rfl
      · exact sound.plain d old
      · exact plain
    · show d.VariablesBelow (state.book.checkClause state.session c).2.2.supply.next
      rw [supply]
      rcases among d member with old | rfl
      · exact sound.below d old
      · exact below
    · exact Nat.le_of_eq (congrArg Supply.next supply.symm)
    · obtain ⟨member, inside, same⟩ := state.added.exists_key_insert c
      rw [Clause.key_eq, Clause.key_eq] at same
      have isIn : member ∈ state.known.toList ++ (state.added.insert c).toList :=
        List.mem_append_right _ inside
      have withinMember : WithinTieLimit member.literals := by
        rcases among member isIn with old | rfl
        · exact sound.within member old
        · exact within
      exact ⟨member, isIn, covers_of_canonicalKey_eq withinMember within same⟩

/-- The factors of a clause that were considered one after the other are all represented, and
nothing else was added. -/
theorem sound_considerAll (sound : state.Sound) {r : Clause} {session : Session}
    {fs : List Clause} (factors : FactorsOf r session fs)
    (older : session.supply.next ≤ state.session.supply.next) :
    let after := fs.foldl consider state
    after.Sound ∧ state.Grows after ∧
      (after.book.isClosed = false → ∀ f ∈ fs, Represented after.clauses f.literals) ∧
      ∀ c ∈ after.clauses, c ∈ state.clauses ∨ c ∈ fs := by
  have start : state.Sound ∧ state.Grows state ∧
      ∀ c ∈ state.clauses, c ∈ state.clauses ∨ c ∈ fs :=
    ⟨sound, .refl state, fun c member => Or.inl member⟩
  have noneFormed : ∀ c ∈ foldFormed consider (fun _ _ => []) state fs, True :=
    fun _ _ => trivial
  obtain ⟨⟨soundNow, grows, among⟩, _, considered⟩ := foldl_achieves
    (fun later : State => later.Sound ∧ state.Grows later ∧
      ∀ c ∈ later.clauses, c ∈ state.clauses ∨ c ∈ fs)
    State.Grows
    (fun (f : Clause) (later : State) => later.book.isClosed = false →
      Represented later.clauses f.literals)
    State.Grows.refl (fun _ _ _ => State.Grows.trans)
    (fun f first second grows represented isOpen =>
      (represented (grows.isOpen isOpen)).mono grows.clauses)
    (fun later f member keeps _ => by
      obtain ⟨soundLater, growsLater, represented, new⟩ := sound_consider keeps.1
        (factors.within f member) (factors.plain f member)
        ((factors.below f member).mono (Nat.le_trans older keeps.2.1.supply))
      refine ⟨⟨soundLater, keeps.2.1.trans growsLater, fun c inside => ?_⟩, growsLater,
        represented⟩
      rcases new c inside with old | rfl
      · exact keeps.2.2 c old
      · exact Or.inr member)
    start noneFormed
  exact ⟨soundNow, grows, fun isOpen f member => considered f member isOpen, among⟩

/-- A clause that is added together with its factors is represented, and so are all factors of what
was added. -/
theorem sound_considerFactors (sound : state.Sound) (closed : state.FactorsClosed) {r : Clause}
    (plain : r.Plain) (below : r.VariablesBelow state.session.supply.next)
    (within : ∀ c ∈ formedByResolvent state r, WithinTieLimit c.literals) :
    ((considerFactors state r).Sound ∧ (considerFactors state r).FactorsClosed) ∧
      state.Grows (considerFactors state r) ∧
      ((considerFactors state r).book.isClosed = false →
        Represented (considerFactors state r).clauses r.literals) := by
  rw [formedByResolvent] at within
  rw [considerFactors]
  split
  · next isClosed =>
    refine ⟨⟨sound, closed⟩, .refl state, fun isOpen => ?_⟩
    rw [isClosed] at isOpen
    exact absurd isOpen.symm Bool.false_ne_true
  · next isOpen =>
    rw [if_neg isOpen] at within
    obtain ⟨factors, supply⟩ := state.session.factorsOf_factors plain below within
    obtain ⟨soundNow, grows, considered, among⟩ :=
      sound_considerAll (sound.withSession supply) factors (Nat.le_refl _)
    have growsState := (State.Grows.withSession supply).trans grows
    refine ⟨⟨soundNow, fun isOpenNow c member => ?_⟩, growsState, fun isOpenNow => ?_⟩
    · rcases among c member with old | new
      · exact (closed (growsState.isOpen isOpenNow) c old).mono growsState.clauses
      · exact (factors.closed c new).trans (considered isOpenNow)
    · exact considered isOpenNow r factors.self

/-! ### Resolving clauses -/

/-- Two clauses are resolved in both ways by the clauses of a state, unless the books are closed. -/
def ResolvedIn (state : State) (c d : Clause) : Prop :=
  state.book.isClosed = false →
    ResolvesIn state.clauses c d ∧ ResolvesIn state.clauses d c

theorem ResolvedIn.grows {c d : Clause} {later : State} (grows : state.Grows later)
    (resolved : ResolvedIn state c d) : ResolvedIn later c d :=
  fun isOpen => (resolved (grows.isOpen isOpen)).imp
    (fun resolves => resolves.mono grows.clauses) fun resolves => resolves.mono grows.clauses

/-- Two clauses of a state are resolved with each other, unless the books are closed. -/
theorem sound_resolvePair (sound : state.Sound) (closed : state.FactorsClosed)
    {first second : Clause} (here : first ∈ state.clauses) (there : second ∈ state.clauses)
    (within : ∀ c ∈ formedByPair first state second, WithinTieLimit c.literals) :
    ((resolvePair first state second).Sound ∧ (resolvePair first state second).FactorsClosed) ∧
      state.Grows (resolvePair first state second) ∧
      ResolvedIn (resolvePair first state second) first second := by
  rw [formedByPair] at within
  rw [resolvePair]
  split
  · next isClosed =>
    refine ⟨⟨sound, closed⟩, .refl state, fun isOpen => ?_⟩
    rw [isClosed] at isOpen
    exact absurd isOpen.symm Bool.false_ne_true
  · next isOpen =>
    rw [if_neg isOpen] at within
    obtain ⟨withinResolvents, withinFactors⟩ := List.forall_mem_append.1 within
    obtain ⟨supply, made, forth, back⟩ := state.session.resolvesIn_resolvents
      (sound.below first here) (sound.plain first here) (sound.plain second there) withinResolvents
    have start : State.Sound ⟨state.book, (state.session.resolvents first second).2, state.known,
          state.added⟩ ∧
        State.FactorsClosed ⟨state.book, (state.session.resolvents first second).2, state.known,
          state.added⟩ ∧
        (state.session.resolvents first second).2.supply.next ≤
          (state.session.resolvents first second).2.supply.next :=
      ⟨sound.withSession supply, closed, Nat.le_refl _⟩
    obtain ⟨⟨soundNow, closedNow, _⟩, grows, considered⟩ := foldl_achieves
      (fun later : State => later.Sound ∧ later.FactorsClosed ∧
        (state.session.resolvents first second).2.supply.next ≤ later.session.supply.next)
      State.Grows
      (fun (r : Clause) (later : State) => later.book.isClosed = false →
        Represented later.clauses r.literals)
      State.Grows.refl (fun _ _ _ => State.Grows.trans)
      (fun r first second grows represented isOpen =>
        (represented (grows.isOpen isOpen)).mono grows.clauses)
      (fun later r member keeps within => by
        obtain ⟨kept, growsLater, represented⟩ := sound_considerFactors keeps.1 keeps.2.1
          (made r member).1 ((made r member).2.mono keeps.2.2) within
        exact ⟨⟨kept.1, kept.2, Nat.le_trans keeps.2.2 growsLater.supply⟩, growsLater,
          represented⟩)
      start withinFactors
    have growsState := (State.Grows.withSession supply).trans grows
    refine ⟨⟨soundNow, closedNow⟩, growsState, fun isOpenNow => ?_⟩
    have represented := fun r member => considered r member isOpenNow
    exact ⟨forth.trans represented, back.trans represented⟩

/-- All clauses of a list of known ones are resolved with each other, unless the books are
closed. -/
theorem sound_resolveAll {cs : List Clause} (sound : state.Sound) (closed : state.FactorsClosed)
    (known : cs ⊆ state.clauses)
    (within : ∀ c ∈ formedByAll cs state, WithinTieLimit c.literals) :
    ((resolveAll cs state).Sound ∧ (resolveAll cs state).FactorsClosed) ∧
      state.Grows (resolveAll cs state) ∧
      ∀ c ∈ cs, ∀ d ∈ cs, ResolvedIn (resolveAll cs state) c d := by
  induction cs generalizing state with
  | nil => exact ⟨⟨sound, closed⟩, .refl state, fun _ none => absurd none List.not_mem_nil⟩
  | cons first rest inductionHypothesis =>
    obtain ⟨withinHere, withinLater⟩ := List.forall_mem_append.1 within
    have start : state.Sound ∧ state.FactorsClosed ∧ state.Grows state :=
      ⟨sound, closed, .refl state⟩
    obtain ⟨⟨soundNow, closedNow, _⟩, grows, resolved⟩ := foldl_achieves
      (fun later : State => later.Sound ∧ later.FactorsClosed ∧ state.Grows later)
      State.Grows
      (fun (second : Clause) (later : State) => ResolvedIn later first second)
      State.Grows.refl (fun _ _ _ => State.Grows.trans)
      (fun second _ _ grows resolved => resolved.grows grows)
      (fun later second member keeps within => by
        obtain ⟨kept, growsLater, resolved⟩ := sound_resolvePair keeps.1 keeps.2.1
          (keeps.2.2.clauses (known List.mem_cons_self)) (keeps.2.2.clauses (known member)) within
        exact ⟨⟨kept.1, kept.2, keeps.2.2.trans growsLater⟩, growsLater, resolved⟩)
      start withinHere
    have knownLater : rest ⊆ _ := List.Subset.trans
      (List.Subset.trans (List.subset_cons_self first rest) known) grows.clauses
    obtain ⟨kept, growsLater, resolvedLater⟩ :=
      inductionHypothesis soundNow closedNow knownLater withinLater
    have withFirst : ∀ d ∈ first :: rest, ResolvedIn (resolveAll (first :: rest) state) first d :=
      fun d member => (resolved d member).grows growsLater
    refine ⟨kept, grows.trans growsLater, fun c here d there => ?_⟩
    rcases List.mem_cons.1 here with rfl | hereLater
    · exact withFirst d there
    · rcases List.mem_cons.1 there with rfl | thereLater
      · exact fun isOpen => (withFirst c here isOpen).symm
      · exact resolvedLater c hereLater d thereLater

/-! ### Passes -/

theorem formedBySaturating_succ (fuel : Nat) (state : State) :
    formedBySaturating (fuel + 1) state = formedByAll state.known.toList state ++
      if (pass state).book.isClosed || (pass state).added.isEmpty then []
      else formedBySaturating fuel (pass state).grown := rfl

theorem mem_clauses_of_mem_grown {passed : State} {c : Clause}
    (member : c ∈ passed.grown.known.toList) : c ∈ passed.clauses :=
  List.mem_append.2 (ClauseSet.mem_of_mem_insertAll member)

/-- What was known or added is represented by what is known after the pass. -/
theorem State.Sound.represented_grown {passed : State} (sound : passed.Sound) :
    ∀ c ∈ passed.clauses, Represented passed.grown.known.toList c.literals :=
  passed.known.represented_insertAll
    (fun c member => sound.within c (List.mem_append_left _ member))
    (fun c member => sound.within c (List.mem_append_right _ member))

theorem clauses_grown (passed : State) : passed.grown.clauses = passed.grown.known.toList :=
  List.append_nil _

theorem State.Sound.grown {passed : State} (sound : passed.Sound) : passed.grown.Sound where
  within c member := sound.within c (mem_clauses_of_mem_grown (clauses_grown passed ▸ member))
  plain c member := sound.plain c (mem_clauses_of_mem_grown (clauses_grown passed ▸ member))
  below c member := sound.below c (mem_clauses_of_mem_grown (clauses_grown passed ▸ member))
  book := sound.book

theorem State.FactorsClosed.grown {passed : State} (closed : passed.FactorsClosed)
    (sound : passed.Sound) : passed.grown.FactorsClosed := by
  intro isOpen
  rw [clauses_grown]
  exact fun c member =>
    (closed isOpen c (mem_clauses_of_mem_grown member)).trans sound.represented_grown

/-- What a saturation starts from is represented in the end, and if the books were not closed all
factors and resolvents of the final clauses are. -/
structure ClosedFrom (state last : State) : Prop where
  book : last.book.Unlimited
  represented : ∀ c ∈ state.known.toList, Represented last.known.toList c.literals
  plain : ∀ c ∈ last.known.toList, c.Plain
  factors : last.book.isClosed = false → ∀ c ∈ last.known.toList, c.FactorsIn last.known.toList
  resolvents : last.book.isClosed = false →
    ∀ c ∈ last.known.toList, ∀ d ∈ last.known.toList, ResolvesIn last.known.toList c d

theorem closedFrom_of_saturate {fuel : Nat} {last : State} (sound : state.Sound)
    (closed : state.FactorsClosed) (run : saturate fuel state = some last)
    (within : ∀ c ∈ formedBySaturating fuel state, WithinTieLimit c.literals) :
    ClosedFrom state last := by
  induction fuel generalizing state with
  | zero => exact absurd run nofun
  | succ fuel inductionHypothesis =>
    rw [formedBySaturating_succ] at within
    obtain ⟨withinPass, withinLater⟩ := List.forall_mem_append.1 within
    have all : state.known.toList ⊆ state.clauses := List.subset_append_left _ _
    obtain ⟨⟨soundPass, closedPass⟩, grows, resolved⟩ :
        ((pass state).Sound ∧ (pass state).FactorsClosed) ∧ state.Grows (pass state) ∧
          ∀ c ∈ state.known.toList, ∀ d ∈ state.known.toList, ResolvedIn (pass state) c d :=
      sound_resolveAll sound closed all withinPass
    have kept : state.known.toList ⊆ (pass state).grown.known.toList :=
      grows.known ▸ ClauseSet.subset_insertAll (pass state).known (pass state).added.toList
    rw [saturate_succ] at run
    split at run
    · next ends =>
      obtain rfl := Option.some.inj run
      have closedNow := closedPass.grown soundPass
      rw [State.FactorsClosed, clauses_grown] at closedNow
      refine ⟨soundPass.book, fun c member => .of_mem (kept member),
        fun c member => soundPass.plain c (mem_clauses_of_mem_grown member), closedNow,
        fun isOpen c here d there => ?_⟩
      -- nothing was added, so the clauses that are known now are those that were resolved
      have isOpen : (pass state).book.isClosed = false := isOpen
      rw [isOpen, Bool.false_or] at ends
      have nothing : (pass state).added.toList = [] :=
        List.isEmpty_iff.1 (Array.isEmpty_toList.trans ends)
      have wasKnown : ∀ c ∈ (pass state).grown.known.toList, c ∈ state.known.toList := by
        intro c member
        rcases List.mem_append.1 (mem_clauses_of_mem_grown member) with known | added
        · exact grows.known ▸ known
        · exact absurd (nothing ▸ added) List.not_mem_nil
      exact (resolved c (wasKnown c here) d (wasKnown d there) isOpen).1.trans
        soundPass.represented_grown
    · next goesOn =>
      rw [if_neg goesOn] at withinLater
      have later := inductionHypothesis soundPass.grown (closedPass.grown soundPass) run withinLater
      exact ⟨later.book, fun c member => later.represented c (kept member), later.plain,
        later.factors, later.resolvents⟩

end Saturation

/-! ### The start of a saturation -/

/-- Clauses that are factored one after the other are represented by their factors, whose factors
are represented too. -/
theorem Session.represented_factorsApart (session : Session) {cs : List Clause}
    (plain : ∀ c ∈ cs, c.Plain)
    (within : ∀ c ∈ session.formedFactorsApart cs, WithinTieLimit c.literals) :
    let factors := session.factorsApart cs
    session.supply.next ≤ factors.2.supply.next ∧
      (∀ f ∈ factors.1, WithinTieLimit f.literals ∧ f.Plain ∧
        f.VariablesBelow factors.2.supply.next ∧ f.FactorsIn factors.1) ∧
      ∀ c ∈ cs, Represented factors.1 c.literals := by
  induction cs generalizing session with
  | nil => exact ⟨Nat.le_refl _, fun f none => absurd none List.not_mem_nil,
      fun c none => absurd none List.not_mem_nil⟩
  | cons c cs inductionHypothesis =>
    obtain ⟨plainHere, plainLater⟩ := List.forall_mem_cons.1 plain
    obtain ⟨withinHere, withinLater⟩ := List.forall_mem_append.1 within
    obtain ⟨isCopy, supply, below⟩ := session.copyOf_standardizeApart c
    obtain ⟨factors, supplyFactors⟩ := (session.standardizeApart c).2.factorsOf_factors
      (isCopy.plain plainHere) below withinHere
    obtain ⟨supplyLater, good, represented⟩ := inductionHypothesis
      ((session.standardizeApart c).2.factors (session.standardizeApart c).1).2 plainLater
      withinLater
    have unfolded : session.factorsApart (c :: cs) =
        (((session.standardizeApart c).2.factors (session.standardizeApart c).1).1 ++
          (((session.standardizeApart c).2.factors (session.standardizeApart c).1).2.factorsApart
            cs).1,
          (((session.standardizeApart c).2.factors (session.standardizeApart c).1).2.factorsApart
            cs).2) := rfl
    rw [unfolded]
    refine ⟨Nat.le_trans supply (Nat.le_trans supplyFactors supplyLater), fun f member => ?_,
      List.forall_mem_cons.2 ⟨?_, fun d member => ?_⟩⟩
    · rcases List.mem_append.1 member with here | later
      · exact ⟨factors.within f here, factors.plain f here,
          (factors.below f here).mono supplyLater,
          (factors.closed f here).mono (List.subset_append_left _ _)⟩
      · obtain ⟨withinNow, plainNow, belowNow, closedNow⟩ := good f later
        exact ⟨withinNow, plainNow, belowNow, closedNow.mono (List.subset_append_right _ _)⟩
    · exact ⟨_, List.mem_append_left _ factors.self, isCopy.covers.2⟩
    · exact (represented d member).mono (List.subset_append_right _ _)

namespace Saturation

/-- The first state is sound, and the stored clauses and the goals are represented in it. -/
theorem sound_start {refutation : Refutation} {cs : List Clause}
    (clauses : cs = refutation.kb.clauses.toList ++ refutation.goals)
    (plain : ∀ c ∈ cs, c.Plain) (unlimited : refutation.book.Unlimited)
    (within : ∀ c ∈ refutation.session.formedFactorsApart cs, WithinTieLimit c.literals) :
    (start refutation).Sound ∧ (start refutation).FactorsClosed ∧
      ∀ c ∈ cs, Represented (start refutation).known.toList c.literals := by
  obtain ⟨_, good, represented⟩ := refutation.session.represented_factorsApart plain within
  have known : (start refutation).known =
      ClauseSet.insertAll ∅ (refutation.session.factorsApart cs).1 := by
    rw [clauses]
    rfl
  have same : (start refutation).clauses = (start refutation).known.toList := List.append_nil _
  have supply : (start refutation).session = (refutation.session.factorsApart cs).2 := by
    rw [clauses]
    rfl
  have among : ∀ c ∈ (start refutation).clauses,
      c ∈ (refutation.session.factorsApart cs).1 := by
    intro c member
    rw [same, known] at member
    exact (ClauseSet.mem_of_mem_insertAll member).resolve_left List.not_mem_nil
  have all : ∀ c ∈ (refutation.session.factorsApart cs).1,
      Represented (start refutation).known.toList c.literals := by
    intro c member
    rw [known]
    exact ClauseSet.represented_insertAll ∅ (fun _ none => absurd none List.not_mem_nil)
      (fun c inside => (good c inside).1) c (List.mem_append_right _ member)
  refine ⟨⟨fun c member => (good c (among c member)).1,
    fun c member => (good c (among c member)).2.1, fun c member => ?_, unlimited⟩,
    fun _ c member => ?_, fun c member => (represented c member).trans all⟩
  · rw [supply]
    exact (good c (among c member)).2.2.1
  · rw [same]
    exact (good c (among c member)).2.2.2.trans all

end Saturation

end ClausalReasoner

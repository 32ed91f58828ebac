/-
This file shows that model elimination exhausts its search tree when it gives up. The search under a
bound tries every far parent at every chain that it comes to, until the books are closed, and notes
the greatest depth that it has reached. So if there is a way from a chain to the empty one, the
search from any variant of the chain either closes the books or gets down to the bound. Searching
under greater and greater bounds ends with open books only when no branch was as long as the bound,
and hence only when no way leads from a chain of the negated query to the empty chain, however long.

The steps of the tree are those of the rules, with any fresh variables for the far parent, while the
search has given it particular ones, other ones in every pass; that is why chains are compared up to
the names of their variables. The search looks far parents up by the symbol and the polarity of
their heads, which leaves out only such as cannot be used.
-/

import ClausalReasoner.Proofs.ChainVariants
import ClausalReasoner.Proofs.ChainSoundness
import ClausalReasoner.Proofs.NegativeVerdict

namespace ClausalReasoner

open Relation

/-! ### The chains of a clause -/

/-- The literals of the chain of a clause and of its contrapositives, in which one literal is moved to
the front. -/
def Clause.HasChain (c : Clause) (ls : List Literal) : Prop :=
  ls = c.literals ∨
    ∃ front l back, c.literals = front ++ l :: back ∧ ls = l :: (front ++ back)

namespace Clause.HasChain

variable {c : Clause} {ls : List Literal}

theorem perm (has : c.HasChain ls) : ls.Perm c.literals := by
  rcases has with rfl | ⟨front, l, back, literals, rfl⟩
  · exact .refl _
  · exact literals ▸ List.perm_middle.symm

theorem subset (has : c.HasChain ls) : ls ⊆ c.literals :=
  has.perm.subset

theorem ne_nil (has : c.HasChain ls) (nonempty : c.literals ≠ []) : ls ≠ [] := by
  rintro rfl
  exact nonempty (List.nil_perm.1 has.perm)

end Clause.HasChain

namespace Session

theorem mem_rotations {Element : Type} {before front back : List Element} {element : Element} :
    element :: (before ++ front ++ back) ∈ rotations before (front ++ element :: back) := by
  induction front generalizing before with
  | nil =>
    rw [List.append_nil]
    exact List.mem_cons_self
  | cons first front inductionHypothesis =>
    have later : element :: (before ++ [first] ++ front ++ back) ∈
        rotations (before ++ [first]) (front ++ element :: back) := inductionHypothesis
    rw [List.append_assoc before] at later
    exact List.mem_cons_of_mem _ later

theorem map_literals_contrapositives (session : Session) (chain : Chain) :
    (session.contrapositives chain).1.map Chain.literals = (rotations [] chain.literals).tail := by
  have collects : ∀ (moved : List (List Literal)) (made : List Chain) (session : Session),
      (moved.foldl (fun (found : List Chain × Session) ls =>
        ((found.2.concludeChain .contrapositive ls .none chain.sources).1 :: found.1,
          (found.2.concludeChain .contrapositive ls .none chain.sources).2))
        (made, session)).1.map Chain.literals = moved.reverse ++ made.map Chain.literals := by
    intro moved
    induction moved with
    | nil => exact fun made session => rfl
    | cons ls moved inductionHypothesis =>
      intro made session
      rw [List.foldl_cons, inductionHypothesis, List.reverse_cons, List.append_assoc]
      rfl
  have all := collects (rotations [] chain.literals).tail [] session
  rw [List.map_nil, List.append_nil] at all
  rw [contrapositives, List.map_reverse]
  exact (congrArg List.reverse all).trans (List.reverse_reverse _)

/-- Every input has an output. -/
theorem exists_mem_mapList {Input Output : Type} {step : Session → Input → Output × Session}
    (made : Input → Output → Prop) (each : ∀ session input, made input (step session input).1)
    (session : Session) {inputs : List Input} {input : Input} (member : input ∈ inputs) :
    ∃ output ∈ (session.mapList step inputs).1, made input output := by
  induction inputs generalizing session with
  | nil => exact absurd member List.not_mem_nil
  | cons first rest inductionHypothesis =>
    rcases List.mem_cons.1 member with rfl | later
    · exact ⟨_, List.mem_cons_self, each session input⟩
    · obtain ⟨output, inside, holds⟩ := inductionHypothesis (step session first).2 later
      exact ⟨output, List.mem_cons_of_mem _ inside, holds⟩

end Session

namespace ModelElimination

/-- A clause is turned into all its chains. -/
theorem exists_mem_chainsOf (session : Session) {cs : List Clause} {c : Clause} (member : c ∈ cs)
    {ls : List Literal} (has : c.HasChain ls) :
    ∃ chain ∈ (chainsOf session cs).1, chain.literals = ls := by
  let step : Session → Clause → List Chain × Session := fun session c =>
    let asChain := session.chainOfClause c
    let others := asChain.2.contrapositives asChain.1
    (asChain.1 :: others.1, others.2)
  have each : ∀ (session : Session) (c : Clause) (ls : List Literal), c.HasChain ls →
      ∃ chain ∈ (step session c).1, chain.literals = ls := by
    rintro session c _ (rfl | ⟨front, l, back, literals, rfl⟩)
    · exact ⟨_, List.mem_cons_self, rfl⟩
    · cases front with
      | nil => exact ⟨_, List.mem_cons_self, literals⟩
      | cons first front =>
        have rotated : l :: (first :: front ++ back) ∈ (Session.rotations [] c.literals).tail := by
          rw [literals]
          exact Session.mem_rotations
        have contrapositives := (session.chainOfClause c).2.map_literals_contrapositives
          (session.chainOfClause c).1
        obtain ⟨chain, inside, same⟩ := List.mem_map.1 (contrapositives ▸ rotated)
        exact ⟨chain, List.mem_cons_of_mem _ inside, same⟩
  obtain ⟨group, inside, all⟩ := Session.exists_mem_mapList
    (fun (c : Clause) (group : List Chain) =>
      ∀ ls, c.HasChain ls → ∃ chain ∈ group, chain.literals = ls) each session member
  obtain ⟨chain, among, literals⟩ := all ls has
  exact ⟨chain, List.mem_flatten.2 ⟨group, inside, among⟩, literals⟩

end ModelElimination

/-- A clause does not subsume itself, since it is not shorter. -/
theorem Clause.not_subsumes_self (c : Clause) : ¬ c.subsumes c := by
  simp [Clause.subsumes]

/-! ### The steps of the search -/

namespace Refutation

/-- The literals of the chains that a refutation offers as far parents: those of the goals and those
of the stored clauses that no other stored clause subsumes. -/
def Offers (refutation : Refutation) (ls : List Literal) : Prop :=
  (∃ c ∈ refutation.goals, c.HasChain ls) ∨
    ∃ c ∈ refutation.kb.clauses.toList,
      (∀ d ∈ refutation.kb.clauses.toList, d ≠ c → ¬ d.subsumes c) ∧ c.HasChain ls

/-- A step of the search: a chain is reduced with one that the refutation offers, and the heads of
the result are cancelled and dropped as long as possible. Indices that the far parent is given are
fresh when the chain is older than the supply. -/
inductive Step (refutation : Refutation) (near : Chain) : Chain → Prop
  | made {session : Session} {far reduced later : Chain} (offered : refutation.Offers far.literals)
      (older : Literal.VariablesBelow session.supply.next near.literals)
      (found : (session.reduceChains near far).1 = some reduced)
      (settles : reduced.SettlesTo later) : Step refutation near later

/-- So many steps lead from a chain to the empty one. -/
def EmptiesIn (refutation : Refutation) : Nat → Chain → Prop
  | 0, near => near.literals = []
  | steps + 1, near => ∃ later, refutation.Step near later ∧ refutation.EmptiesIn steps later

theorem exists_emptiesIn {refutation : Refutation} {start last : Chain}
    (steps : ReflTransGen refutation.Step start last) (empty : last.literals = []) :
    ∃ number, refutation.EmptiesIn number start := by
  induction steps using ReflTransGen.head_induction_on with
  | refl => exact ⟨0, empty⟩
  | head step _ inductionHypothesis =>
    obtain ⟨number, empties⟩ := inductionHypothesis
    exact ⟨number + 1, _, step, empties⟩

end Refutation

namespace ModelElimination

/-- The chains that a search begins with include all that the refutation offers. -/
theorem exists_mem_chainsFor {refutation : Refutation} {ls : List Literal}
    (offers : refutation.Offers ls) : ∃ chain ∈ chainsFor refutation, chain.literals = ls := by
  rcases offers with ⟨c, goal, has⟩ | ⟨c, stored, unsubsumed, has⟩
  · obtain ⟨chain, inside, literals⟩ := exists_mem_chainsOf _ goal has
    exact ⟨chain, List.mem_append_left _ inside, literals⟩
  · have background : c ∈ backgroundClauses refutation.kb.clauses.toList := by
      refine List.mem_filter.2 ⟨stored, ?_⟩
      rw [Bool.not_eq_true', Bool.eq_false_iff]
      intro listed
      obtain ⟨target, subsumed, same⟩ := List.mem_map.1 (List.contains_iff_mem.1 listed)
      obtain ⟨member, some⟩ := List.mem_filter.1 subsumed
      obtain ⟨d, inside, subsumes⟩ := List.any_eq_true.1 some
      rw [List.inj_on_of_nodup_map refutation.kb.clauses.distinct member stored same] at subsumes
      refine unsubsumed d inside (fun itself => ?_) subsumes
      rw [itself] at subsumes
      exact Clause.not_subsumes_self c subsumes
    obtain ⟨chain, inside, literals⟩ := exists_mem_chainsOf _ background has
    exact ⟨chain, List.mem_append_right _ inside, literals⟩

/-! ### How a search goes on -/

/-- What a search does to its state: the query stays the same, closed books stay closed, books
without a time limit are complete only with a proof, and neither an index nor a depth is taken
back. -/
structure State.Continues (state later : State) : Prop where
  predicate : later.book.predicate = state.book.predicate
  closed : state.book.isClosed = true → later.book.isClosed = true
  unlimited : state.book.Unlimited → later.book.Unlimited
  supply : state.session.supply.next ≤ later.session.supply.next
  deepest : state.deepest ≤ later.deepest

namespace State.Continues

variable {state later last : State}

theorem refl (state : State) : state.Continues state :=
  ⟨rfl, id, id, Nat.le_refl _, Nat.le_refl _⟩

theorem trans (first : state.Continues later) (second : later.Continues last) :
    state.Continues last where
  predicate := second.predicate.trans first.predicate
  closed := second.closed ∘ first.closed
  unlimited := second.unlimited ∘ first.unlimited
  supply := Nat.le_trans first.supply second.supply
  deepest := Nat.le_trans first.deepest second.deepest

/-- Books that are open in the end were open all the time. -/
theorem isOpen (continues : state.Continues later) (isOpen : later.book.isClosed = false) :
    state.book.isClosed = false :=
  Bool.eq_false_iff.2 fun closed => Bool.eq_false_iff.1 isOpen (continues.closed closed)

theorem foldl {Element : Type} {step : State → Element → State}
    (each : ∀ state element, State.Continues state (step state element)) (list : List Element)
    (state : State) : state.Continues (list.foldl step state) :=
  foldl_invariant (fun later => state.Continues later)
    (fun later element _ continues => continues.trans (each later element)) (.refl state)

/-- Going through a list comes to every element of it, and goes on from there. -/
theorem exists_reached {Element : Type} {step : State → Element → State}
    (each : ∀ state element, State.Continues state (step state element)) {list : List Element}
    {element : Element} (member : element ∈ list) (state : State) :
    ∃ reached, state.Continues reached ∧
      (step reached element).Continues (list.foldl step state) := by
  obtain ⟨front, back, rfl⟩ := List.append_of_mem member
  rw [List.foldl_append, List.foldl_cons]
  exact ⟨_, .foldl each front state, .foldl each back _⟩

end State.Continues

/-- One far parent is tried at a chain. -/
def tryFar (chains : List Chain) (remaining depth : Nat) (near : Chain) (state : State)
    (far : Chain) : State :=
  if state.book.isClosed then state
  else
    match state.session.reduceChains near far with
    | (none, session) => ⟨state.book, session, state.deepest⟩
    | (some reduced, session) =>
      let (settled, session) := session.settle reduced
      let (answers, book, session) := state.book.checkChain session settled
      if answers || book.inconsistent then ⟨book, session, state.deepest⟩
      else search chains remaining (depth + 1) ⟨book, session, state.deepest⟩ settled

variable {chains : List Chain} {state : State} {near far : Chain}

theorem search_succ (chains : List Chain) (remaining depth : Nat) (state : State) {near : Chain}
    {head : Literal} (first : near.head? = some head) :
    search chains (remaining + 1) depth state near =
      (farParents chains head).foldl (tryFar chains remaining depth near)
        { state with deepest := max state.deepest depth } := by
  rw [search]
  dsimp only
  rw [first]
  rfl

theorem State.continues_deepest (state : State) {depth : Nat} (le : state.deepest ≤ depth) :
    state.Continues { state with deepest := depth } :=
  ⟨rfl, id, id, Nat.le_refl _, le⟩

/-- Looking at a chain takes nothing back. -/
theorem State.continues_check (state : State) (isOpen : state.book.isClosed = false)
    {session : Session} (le : state.session.supply.next ≤ session.supply.next) (chain : Chain) :
    state.Continues ⟨(state.book.checkChain session chain).2.1,
      (state.book.checkChain session chain).2.2, state.deepest⟩ := by
  have checks := state.book.checks_check session chain.literals chain.origin (.chain chain.literals)
  refine ⟨checks.sameQuery.predicate, fun closed => ?_, checks.unlimited, ?_, Nat.le_refl _⟩
  · exact absurd (isOpen.symm.trans closed) Bool.false_ne_true
  · rw [AnswerBook.checkChain, AnswerBook.supply_check]
    exact le

theorem continues_tryFar {remaining depth : Nat}
    (deeper : ∀ state near, State.Continues state (search chains remaining (depth + 1) state near))
    (state : State) (near far : Chain) :
    state.Continues (tryFar chains remaining depth near state far) := by
  have reduces := state.session.next_le_reduceChains near far
  rw [tryFar]
  split
  · exact .refl state
  · next isOpen =>
    split
    · next session found =>
      rw [found] at reduces
      exact ⟨rfl, id, id, reduces, Nat.le_refl _⟩
    · next reduced session found =>
      rw [found, ← session.supply_settleChain reduced.size reduced] at reduces
      have checked := state.continues_check (Bool.not_eq_true _ ▸ isOpen) reduces
        (session.settle reduced).1
      dsimp only
      split
      · exact checked
      · exact checked.trans (deeper _ _)

theorem continues_search (chains : List Chain) (remaining depth : Nat) (state : State)
    (near : Chain) : state.Continues (search chains remaining depth state near) := by
  induction remaining generalizing depth state near with
  | zero => exact state.continues_deepest (Nat.le_max_left _ _)
  | succ remaining inductionHypothesis =>
    have deepened := state.continues_deepest (Nat.le_max_left state.deepest depth)
    cases first : near.head? with
    | none =>
      rw [search]
      dsimp only
      rw [first]
      exact deepened
    | some head =>
      rw [search_succ chains remaining depth state first]
      exact deepened.trans (.foldl (fun state far =>
        continues_tryFar (inductionHypothesis (depth + 1)) state near far) _ _)

/-! ### Ways to the empty chain -/

theorem eq_flip_of_ne {polarity other : Polarity} (different : polarity ≠ other) :
    other = polarity.flip := by
  cases polarity <;> cases other <;> first | rfl | exact absurd rfl different

theorem symbol_replace (value : Variable → Term) (a : Atom) :
    (a.replace value).symbol = a.symbol := by
  cases a <;> rfl

/-- Chains that can be reduced are found by the symbol and the polarity of their heads. -/
theorem mem_farParents {session : Session} {head : Literal} {reduced : Chain}
    (member : far ∈ chains) (first : near.head? = some head) (found : (session.reduceChains near far).1 = some reduced) :
    far ∈ farParents chains head := by
  have reduces := session.reduceChains_fst near far
  rw [found, Option.map_some] at reduces
  obtain ⟨⟨θ, ls⟩, isReduction, _⟩ := Option.map_eq_some_iff.1 reduces.symm
  obtain ⟨_, firstToo, rest⟩ := Option.bind_eq_some_iff.1 isReduction
  obtain ⟨renamed, farFirst, attempt⟩ := Option.bind_eq_some_iff.1 rest
  obtain rfl := Option.some.inj (first.symm.trans firstToo)
  obtain ⟨⟨forward, _, images, _⟩, _⟩ := session.areVariants_renameChain far
  rw [Chain.head?, images, List.head?_map] at farFirst
  obtain ⟨other, isHead, rfl⟩ := Option.map_eq_some_iff.1 farFirst
  split at attempt
  · cases attempt
  · next different =>
    obtain ⟨_, unified, _⟩ := Option.map_eq_some_iff.1 attempt
    refine List.mem_filter.2 ⟨member, ?_⟩
    rw [Chain.head?, isHead]
    have symbol : head.atom.symbol = (other.replace forward).atom.symbol :=
      Atom.symbol_eq_of_unify unified
    have opposite : other.polarity = head.polarity.flip := eq_flip_of_ne different
    refine Bool.and_eq_true_iff.2 ⟨decide_eq_true opposite, decide_eq_true ?_⟩
    exact (symbol_replace forward other.atom).symm.trans symbol.symm

/-- Books without an answer predicate that are still open after a look at a chain have not found it
empty, and the search goes on. -/
theorem goesOn_of_check {book : AnswerBook} (noPredicate : book.predicate = none)
    {session : Session} {chain : Chain} (isOpen : (book.checkChain session chain).2.1.isClosed = false) :
    chain.literals ≠ [] ∧ ((book.checkChain session chain).1 ||
      (book.checkChain session chain).2.1.inconsistent) = false := by
  have consistent := (Bool.or_eq_false_iff.1 isOpen).2
  rw [consistent, Bool.or_false]
  rw [AnswerBook.checkChain, AnswerBook.check, noPredicate] at isOpen ⊢
  dsimp only at isOpen ⊢
  split at isOpen
  · exact absurd isOpen (by simp [AnswerBook.poll, AnswerBook.isClosed])
  · next some =>
    refine ⟨fun none => some (List.isEmpty_iff.2 none), ?_⟩
    rw [if_neg some]

theorem exists_of_tryFar {remaining depth : Nat} {reduced : Chain}
    (noPredicate : state.book.predicate = none)
    (found : (state.session.reduceChains near far).1 = some reduced)
    (isOpen : (tryFar chains remaining depth near state far).book.isClosed = false) :
    ∃ checked : State, state.Continues checked ∧
      (state.session.reduceChains near far).2.supply.next ≤ checked.session.supply.next ∧
      ((state.session.reduceChains near far).2.settle reduced).1.literals ≠ [] ∧
      tryFar chains remaining depth near state far = search chains remaining (depth + 1) checked
        ((state.session.reduceChains near far).2.settle reduced).1 := by
  have reduces := state.session.next_le_reduceChains near far
  have isOpenBefore := (continues_tryFar (continues_search chains remaining (depth + 1)) state near
    far).isOpen isOpen
  rw [tryFar, if_neg (Bool.not_eq_true _ ▸ isOpenBefore)] at isOpen ⊢
  generalize state.session.reduceChains near far = outcome at found isOpen reduces ⊢
  obtain ⟨made, session⟩ := outcome
  obtain rfl := found
  dsimp only at isOpen reduces ⊢
  have supply := session.supply_settleChain reduced.size reduced
  rw [← supply] at reduces
  have continues := state.continues_check isOpenBefore reduces (session.settle reduced).1
  split at isOpen
  · next stops =>
    exact absurd ((goesOn_of_check noPredicate isOpen).2.symm.trans stops) Bool.false_ne_true
  · next goesOn =>
    have openAfter := (continues_search _ _ _ _ _).isOpen isOpen
    rw [if_neg goesOn]
    refine ⟨_, continues, ?_, (goesOn_of_check noPredicate openAfter).1, rfl⟩
    rw [AnswerBook.checkChain, AnswerBook.supply_check]
    exact Nat.le_of_eq (congrArg Supply.next supply).symm

/-- **The search under a bound is complete.** If some steps lead from a chain to the empty one, the
search from a variant of it closes the books or gets down to the bound. -/
theorem le_deepest_of_emptiesIn {refutation : Refutation}
    (offered : ∀ {ls}, refutation.Offers ls → ∃ far ∈ chains, far.literals = ls) {start : Chain}
    {number remaining depth : Nat} (empties : refutation.EmptiesIn number start)
    (nonempty : start.literals ≠ [])
    (variants : Literal.AreVariants start.literals near.literals)
    (older : Literal.VariablesBelow state.session.supply.next near.literals)
    (noPredicate : state.book.predicate = none)
    (isOpen : (search chains remaining depth state near).book.isClosed = false) :
    depth + remaining ≤ (search chains remaining depth state near).deepest := by
  induction remaining generalizing number depth state start near with
  | zero => exact Nat.le_max_right _ _
  | succ remaining inductionHypothesis =>
    cases number with
    | zero => exact absurd empties nonempty
    | succ number =>
      obtain ⟨later, ⟨isOffered, olderStart, found, settles⟩, rest⟩ := empties
      obtain ⟨far, inside, same⟩ := offered isOffered
      -- the far parent of the step can be used at the variant whenever the search comes to it
      have reduces : ∀ reached : State, state.Continues reached → ∃ reduced,
          (reached.session.reduceChains near far).1 = some reduced ∧
            Literal.AreVariants later.literals
              ((reached.session.reduceChains near far).2.settle reduced).1.literals := by
        intro reached continues
        obtain ⟨reduced, foundHere, variantsHere⟩ := Session.exists_reduceChains_of_variants
          variants same.symm olderStart (older.mono continues.supply) found
        exact ⟨reduced, foundHere, settles.areVariants_settle variantsHere _⟩
      obtain ⟨_, foundAtFirst, _⟩ := reduces state (.refl state)
      obtain ⟨head, first⟩ : ∃ head, near.head? = some head :=
        Option.ne_none_iff_exists'.1 fun none =>
          nonempty (variants.eq_nil (List.head?_eq_none_iff.1 none))
      rw [search_succ chains remaining depth state first] at isOpen ⊢
      have deepened := state.continues_deepest (Nat.le_max_left state.deepest depth)
      have each : ∀ state far, State.Continues state (tryFar chains remaining depth near state far) :=
        fun state => continues_tryFar (continues_search chains remaining (depth + 1)) state near
      obtain ⟨reached, between, afterwards⟩ := State.Continues.exists_reached each
        (mem_farParents inside first foundAtFirst) { state with deepest := max state.deepest depth }
      have before := deepened.trans between
      obtain ⟨reduced, foundHere, variantsHere⟩ := reduces reached before
      obtain ⟨checked, continues, supply, some, goesOn⟩ := exists_of_tryFar
        (before.predicate.trans noPredicate) foundHere (afterwards.isOpen isOpen)
      refine Nat.le_trans ?_ afterwards.deepest
      have isOpenBelow := afterwards.isOpen isOpen
      rw [goesOn] at isOpenBelow ⊢
      have olderBelow : Literal.VariablesBelow checked.session.supply.next
          ((reached.session.reduceChains near far).2.settle reduced).1.literals :=
        Session.allUse_settleChain _ _
          ((Session.below_reduceChains (older.mono before.supply) foundHere).mono supply)
      have below := inductionHypothesis rest (fun none => some (variantsHere.symm.eq_nil none))
        variantsHere olderBelow (continues.predicate.trans (before.predicate.trans noPredicate))
        isOpenBelow
      exact Nat.le_trans (Nat.le_of_eq (by omega)) below

/-! ### Greater and greater bounds -/

variable {starts : List Chain}

/-- One of the chains that a search begins with is tried. -/
def tryStart (chains : List Chain) (bound : Nat) (state : State) (near : Chain) : State :=
  if state.book.isClosed then state else search chains bound 0 state near

theorem continues_tryStart (chains : List Chain) (bound : Nat) (state : State) (near : Chain) :
    state.Continues (tryStart chains bound state near) := by
  rw [tryStart]
  split
  · exact .refl state
  · exact continues_search chains bound 0 state near

theorem continues_searchAll (chains starts : List Chain) (bound : Nat) (state : State) :
    State.Continues { state with deepest := 0 } (searchAll chains starts bound state) :=
  .foldl (continues_tryStart chains bound) starts _

/-- A search under a bound that leaves the books open gets down to the bound if a way leads from a
chain that it begins with to the empty one. -/
theorem le_deepest_searchAll {refutation : Refutation}
    (offered : ∀ {ls}, refutation.Offers ls → ∃ far ∈ chains, far.literals = ls) {start : Chain}
    {number bound : Nat} (empties : refutation.EmptiesIn number start)
    (nonempty : start.literals ≠ []) (member : near ∈ starts)
    (variants : Literal.AreVariants start.literals near.literals)
    (older : Literal.VariablesBelow state.session.supply.next near.literals)
    (noPredicate : state.book.predicate = none)
    (isOpen : (searchAll chains starts bound state).book.isClosed = false) :
    bound ≤ (searchAll chains starts bound state).deepest := by
  obtain ⟨reached, before, afterwards⟩ := State.Continues.exists_reached
    (continues_tryStart chains bound) member { state with deepest := 0 }
  have isOpenHere := afterwards.isOpen isOpen
  have openBefore := (continues_tryStart chains bound reached near).isOpen isOpenHere
  refine Nat.le_trans ?_ afterwards.deepest
  rw [tryStart, if_neg (Bool.eq_false_iff.1 openBefore)] at isOpenHere ⊢
  have reaches := le_deepest_of_emptiesIn offered empties nonempty variants
    (older.mono before.supply) (before.predicate.trans noPredicate) isOpenHere
  rwa [Nat.zero_add] at reaches

/-- Greater and greater bounds end with closed books, or with a bound that was not reached. -/
theorem exists_last_bound (holds : State → Prop) {fuel bound : Nat} {last : State}
    (keeps : ∀ state bound, holds state → holds (searchAll chains starts bound state))
    (given : holds state) (ran : deepen chains starts fuel bound state = some last) :
    ∃ before bound, holds before ∧ last = searchAll chains starts bound before ∧
      (last.book.isClosed ∨ last.deepest < bound) := by
  induction fuel generalizing bound state with
  | zero => exact absurd ran nofun
  | succ fuel inductionHypothesis =>
    rw [deepen] at ran
    split at ran
    · next ends =>
      obtain rfl := Option.some.inj ran
      exact ⟨state, bound, given, rfl, by simpa using ends⟩
    · exact inductionHypothesis (keeps state bound given) ran

theorem unlimited_of_deepen {fuel bound : Nat} {last : State} (unlimited : state.book.Unlimited)
    (ran : deepen chains starts fuel bound state = some last) : last.book.Unlimited := by
  have keeps : ∀ (state : State) bound, state.book.Unlimited →
      (searchAll chains starts bound state).book.Unlimited :=
    fun state bound => (continues_searchAll chains starts bound state).unlimited
  obtain ⟨before, bound, given, rfl, _⟩ := exists_last_bound _ keeps unlimited ran
  exact keeps before bound given

/-- Model elimination that gives up has exhausted its search: no way leads from a chain that it has
begun with to the empty one. -/
theorem not_emptiesIn_of_deepen {refutation : Refutation} {fuel bound : Nat} {last : State}
    (offered : ∀ {ls}, refutation.Offers ls → ∃ far ∈ chains, far.literals = ls)
    (noPredicate : state.book.predicate = none)
    (older : Literal.VariablesBelow state.session.supply.next near.literals)
    (member : near ∈ starts) {start : Chain}
    (variants : Literal.AreVariants start.literals near.literals) (nonempty : start.literals ≠ [])
    (ran : deepen chains starts fuel bound state = some last)
    (isOpen : last.book.isClosed = false) (number : Nat) :
    ¬ refutation.EmptiesIn number start := by
  intro empties
  obtain ⟨before, bound, ⟨predicate, supply⟩, rfl, ends⟩ := exists_last_bound
    (fun reached => reached.book.predicate = none ∧
      state.session.supply.next ≤ reached.session.supply.next)
    (fun reached bound ⟨predicate, supply⟩ =>
      have continues := continues_searchAll chains starts bound reached
      ⟨continues.predicate.trans predicate, Nat.le_trans supply continues.supply⟩)
    ⟨noPredicate, Nat.le_refl _⟩ ran
  have reaches := le_deepest_searchAll offered empties nonempty member variants
    (older.mono supply) predicate isOpen
  exact ends.elim (Bool.eq_false_iff.1 isOpen) (Nat.not_lt.2 reaches)

end ModelElimination

/-! ### Asking -/

namespace KnowledgeBase

variable {kb last : KnowledgeBase} {query : Sentence} {fuel : Nat}

/-- No goal is the empty clause. -/
theorem nonempty_of_mem_goals (kb : KnowledgeBase) (query : Sentence) (limit : TimeLimit) :
    ∀ c ∈ (kb.refute query limit).goals, c.literals ≠ [] := by
  rw [refute_eq]
  refine Session.forall_mem_mapList (fun c : Clause => c.literals ≠ []) _
    (fun session c nonempty => ?_) kb.session _ fun c member => ?_
  · obtain ⟨_, _, literals, _⟩ := (c.copyOf_renamed session.supply).1
    exact fun none => nonempty (List.map_eq_nil_iff.1 (literals.symm.trans none))
  · obtain ⟨ls, conjunct, rfl, _⟩ := Sentence.mem_clauses.1 member
    obtain ⟨l, inside⟩ := List.exists_mem_of_ne_nil _ (Sentence.ne_nil_of_mem_conjuncts conjunct)
    exact List.ne_nil_of_mem (mem_firstOccurrences.2 inside)

end KnowledgeBase

/-- Model elimination without a time limit that gives no proof of a query without an answer literal
has exhausted its search. -/
theorem ModelElimination.not_emptiesIn_of_ask {kb last : KnowledgeBase} {query : Sentence}
    {fuel : Nat} {answer : Answer} (noPredicate : (kb.refute query none).book.predicate = none)
    (asked : ask fuel none kb query = some (.ok answer, last)) (noProofs : answer.proofs = [])
    {c : Clause} (goal : c ∈ (kb.refute query none).goals) {start : Chain}
    (has : c.HasChain start.literals) (number : Nat) :
    ¬ (kb.refute query none).EmptiesIn number start := by
  have unlimited : (kb.refute query none).book.Unlimited := by
    rw [KnowledgeBase.refute_eq]
    exact ⟨rfl, fun complete => absurd complete Bool.false_ne_true⟩
  have below := kb.below_of_mem_goals query none c goal
  have nonempty := kb.nonempty_of_mem_goals query none c goal
  rw [ask_eq] at asked
  generalize kb.refute query none = refutation at *
  obtain ⟨state, ran, outcome⟩ := Option.map_eq_some_iff.1 asked
  have isOpen := (unlimited_of_deepen unlimited ran).isClosed_eq_false
    (congrArg Prod.fst outcome) noProofs
  obtain ⟨near, member, literals⟩ := exists_mem_chainsOf
    (chainsOf refutation.session (backgroundClauses refutation.kb.clauses.toList)).2 goal has
  have older : Literal.VariablesBelow (initialChains refutation).2.2.supply.next near.literals := by
    rw [literals]
    exact Literal.VariablesBelow.mono (Literal.AllUse.subset below has.subset)
      (next_le_initialChains refutation)
  exact not_emptiesIn_of_deepen exists_mem_chainsFor noPredicate older member
    (literals.symm ▸ .refl _) (has.ne_nil nonempty) ran isOpen number

namespace KnowledgeBase

variable {kb last : KnowledgeBase} {query : Sentence} {fuel : Nat}

/-- **Iterative deepening exhausts the search tree.** When model elimination without a time limit
gives no proof of a query without an answer literal, no sequence of steps, of whatever length, leads
from a chain of the negated query to the empty chain. A step reduces the current chain with a chain
or contrapositive of a goal or of a stored clause that no other stored clause subsumes, and then
cancels and drops heads, cancelling first, as long as possible. -/
theorem literals_ne_nil_of_steps (procedure : kb.procedure = .modelElimination none)
    (noAnswerLiteral : (kb.refutationOf query).book.predicate = none)
    {outcome : Except Failure Answer} (asked : kb.ask fuel query = some (outcome, last))
    (noProof : ∀ answer, outcome = .ok answer → answer.proofs = []) {start later : Chain}
    (isGoal : ∃ c ∈ (kb.refutationOf query).goals, c.HasChain start.literals)
    (steps : ReflTransGen (kb.refutationOf query).Step start later) : later.literals ≠ [] := by
  intro empty
  obtain ⟨number, empties⟩ := Refutation.exists_emptiesIn steps empty
  obtain ⟨c, goal, has⟩ := isGoal
  obtain ⟨found, ran, same⟩ := exists_of_ask asked
  rw [procedure, Procedure.ask] at ran
  rw [refutationOf] at noAnswerLiteral goal empties
  cases found with
  | error failure =>
    exact (ModelElimination.derivedFrom_nil_of_ask (isNew_refute _ _ none) ran).1 noAnswerLiteral
  | ok answer =>
    have noProofs : answer.proofs = [] := List.map_eq_nil_iff.1 (noProof _ same)
    exact ModelElimination.not_emptiesIn_of_ask noAnswerLiteral ran noProofs goal has number empties

/-- The knowledge base that eliminates models and was told that one side leads to the other. -/
def leadingAcross : KnowledgeBase :=
  KnowledgeBase.telling { procedure := .modelElimination none } sidesMeet

set_option maxRecDepth 10000 in
/-- That one side leads to the other does not prove the other. A step leads from its negation to the
negation of the first side, but no steps lead to the empty chain. -/
theorem literals_ne_nil_of_steps_otherSide :
    leadingAcross.isUnproved 3 otherSide ∧
      (∃ start later, (∃ c ∈ (leadingAcross.refutationOf otherSide).goals, c.HasChain start.literals) ∧
        (leadingAcross.refutationOf otherSide).Step start later) ∧
      ∀ start later, (∃ c ∈ (leadingAcross.refutationOf otherSide).goals, c.HasChain start.literals) →
        ReflTransGen (leadingAcross.refutationOf otherSide).Step start later → later.literals ≠ [] := by
  let first : Atom := .predicate "P" []
  let second : Atom := .predicate "Q" []
  have unproved : leadingAcross.isUnproved 3 otherSide := by cbv
  have procedure : leadingAcross.procedure = .modelElimination none := by cbv
  have noAnswerLiteral : (leadingAcross.refutationOf otherSide).book.predicate = none := by cbv
  obtain ⟨answer, last, asked, noProofs⟩ := exists_of_isUnproved unproved
  refine ⟨unproved, ?_, fun start later isGoal steps =>
    literals_ne_nil_of_steps procedure noAnswerLiteral asked
      (fun _ same => Except.ok.inj same ▸ noProofs) isGoal steps⟩
  have goals : (leadingAcross.refutationOf otherSide).goals.map Clause.literals =
      [[.negative second]] := by cbv
  have stored : (leadingAcross.refutationOf otherSide).kb.clauses.toList.map Clause.literals =
      [[.negative first, .positive second]] := by cbv
  obtain ⟨goal, isGoal, goalLiterals⟩ := List.map_eq_singleton_iff.1 goals
  obtain ⟨rule, isStored, ruleLiterals⟩ := List.map_eq_singleton_iff.1 stored
  let far : Chain := ⟨[.positive second, .negative first], none⟩
  have offered : (leadingAcross.refutationOf otherSide).Offers far.literals := by
    refine Or.inr ⟨rule, isStored ▸ List.mem_singleton_self _, fun d member different => ?_,
      Or.inr ⟨[.negative first], .positive second, [], ruleLiterals, rfl⟩⟩
    exact absurd (List.mem_singleton.1 (isStored ▸ member)) different
  have reduced : (({} : Session).reduceChains ⟨[.negative second], none⟩ far).1.isSome := by cbv
  obtain ⟨chain, found⟩ := Option.isSome_iff_exists.1 reduced
  exact ⟨⟨[.negative second], none⟩, _,
    ⟨goal, isGoal ▸ List.mem_singleton_self _, Or.inl goalLiterals.symm⟩,
    .made offered (fun v occurs => absurd occurs List.not_mem_nil) found
      (Session.settlesTo_settle {} chain)⟩

end KnowledgeBase

end ClausalReasoner

/-
This file shows that the names of variables make no difference to model elimination. Chains whose
literals are variants of each other are reduced, with far parents that are variants too, to chains
that are variants again, provided that near and far parent share no variables on either side; and
heads are cancelled and dropped at the same places. A far parent is given fresh variables before it
is used, so it shares none with a near parent whose variables are older than the supply. What comes
out of a step is older than the supply that is left, and hence may be the near parent of another.
-/

import ClausalReasoner.Proofs.ChainInvariant
import ClausalReasoner.Proofs.SupplyGrowth
import ClausalReasoner.Proofs.VariantResolvents

namespace ClausalReasoner

/-! ### Lists of variants -/

/-- The variables of literals are among the given ones. -/
def Literal.AllUse (allowed : Variable → Prop) (ls : List Literal) : Prop :=
  ∀ v ∈ occurrencesList ls, allowed v

/-- The variables of literals carry no index from a bound on. -/
def Literal.VariablesBelow (bound : Nat) (ls : List Literal) : Prop :=
  ∀ v ∈ occurrencesList ls, ∀ index, v.index = some index → index < bound

namespace Literal

variable {ls ms ls' ms' : List Literal} {allowed : Variable → Prop}

theorem AllUse.subset (uses : AllUse allowed ls) (among : ms ⊆ ls) : AllUse allowed ms := by
  intro v occurs
  obtain ⟨m, member, here⟩ := List.mem_flatMap.1 occurs
  exact uses v (mem_occurrencesList (among member) here)

theorem AllUse.append (first : AllUse allowed ls) (second : AllUse allowed ms) :
    AllUse allowed (ls ++ ms) := by
  intro v occurs
  rw [occurrencesList, List.flatMap_append, List.mem_append] at occurs
  exact occurs.elim (first v) (second v)

/-- A unifier of two literals introduces no variable. -/
theorem AllUse.substituteList (uses : AllUse allowed ls) {l m : Literal} (left : l ∈ ls)
    (right : m ∈ ls) {θ : Substitution} (found : l.atom.unify m.atom = some θ) :
    AllUse allowed (substituteList θ ls) := by
  have arguments : ∀ l ∈ ls, ∀ t ∈ l.atom.arguments, t.BuiltFrom allowed fun _ => True :=
    fun l member t inside => ⟨fun v occurs => uses v (mem_occurrencesList member
      (Term.mem_occurrencesList.2 ⟨t, inside, occurs⟩)), fun _ _ => trivial⟩
  have built := Atom.builtFrom_of_unify (arguments l left) (arguments m right) found
  intro v occurs
  obtain ⟨_, image, here⟩ := List.mem_flatMap.1 occurs
  obtain ⟨k, member, rfl⟩ := List.mem_map.1 image
  obtain ⟨w, there, inside⟩ := Atom.mem_occurrences_replace.1 here
  exact (built.value (uses w (mem_occurrencesList member there))).1 v inside

theorem VariablesBelow.mono {bound other : Nat} (below : VariablesBelow bound ls)
    (le : bound ≤ other) : VariablesBelow other ls :=
  fun v occurs index same => Nat.lt_of_lt_of_le (below v occurs index same) le

theorem AreVariants.eq_nil (variants : AreVariants ls ms) (none : ms = []) : ls = [] := by
  obtain ⟨_, _, images, _⟩ := variants
  exact List.map_eq_nil_iff.1 (images.symm.trans none)

/-- Variants of two lists that share no variables are made by one change of variables, if they share
none either. -/
theorem AreVariants.exists_joint (first : AreVariants ls ls') (second : AreVariants ms ms')
    (apart : ∀ v ∈ occurrencesList ls, v ∉ occurrencesList ms)
    (apartToo : ∀ v ∈ occurrencesList ls', v ∉ occurrencesList ms') :
    ∃ forth back : Variable → Term, ls' = ls.map (replace forth) ∧ ms' = ms.map (replace forth) ∧
      ∀ l ∈ ls ++ ms, (l.replace forth).replace back = l := by
  obtain ⟨forwardFirst, backFirst, imagesFirst, undoneFirst⟩ := first
  obtain ⟨forwardSecond, backSecond, imagesSecond, undoneSecond⟩ := second
  obtain ⟨forth, forthFirst, forthSecond⟩ := Literal.exists_joint apart forwardFirst forwardSecond
  obtain ⟨back, isBackFirst, isBackSecond⟩ := Literal.exists_joint apartToo backFirst backSecond
  rw [← List.map_congr_left forthFirst] at imagesFirst
  rw [← List.map_congr_left forthSecond] at imagesSecond
  refine ⟨forth, back, imagesFirst, imagesSecond, fun l member => ?_⟩
  rcases List.mem_append.1 member with here | there
  · rw [isBackFirst _ (imagesFirst ▸ List.mem_map_of_mem here), forthFirst l here,
      undoneFirst l here]
  · rw [isBackSecond _ (imagesSecond ▸ List.mem_map_of_mem there), forthSecond l there,
      undoneSecond l there]

end Literal

/-! ### Steps from variants -/

namespace Session

variable {near near' far far' chain chain' : Chain}

theorem relates_findSome? {Element Left Right : Type} {related : Left → Right → Prop}
    {attempt : Element → Option Left} {other : Element → Option Right}
    {change : Element → Element} {list : List Element}
    (each : ∀ element ∈ list, Option.Rel related (attempt element) (other (change element))) :
    Option.Rel related (list.findSome? attempt) ((list.map change).findSome? other) := by
  induction list with
  | nil => exact .none
  | cons element rest inductionHypothesis =>
    obtain ⟨first, later⟩ := List.forall_mem_cons.1 each
    rw [List.map_cons, List.findSome?_cons, List.findSome?_cons]
    generalize attempt element = left at first
    generalize other (change element) = right at first
    cases first with
    | some holds => exact .some holds
    | none => exact inductionHypothesis later

/-- A head is cancelled against corresponding literals on both sides. -/
theorem cancellation_correspond {head : Literal} {ls : List Literal} {forth back : Variable → Term}
    (undone : ∀ l ∈ head :: ls, (l.replace forth).replace back = l) :
    Option.Rel (Substitution.Correspond forth back) (cancellation head ls)
      (cancellation (head.replace forth) (ls.map (Literal.replace forth))) := by
  obtain ⟨undoneHead, undoneRest⟩ := List.forall_mem_cons.1 undone
  refine relates_findSome? fun l member => ?_
  change Option.Rel _ _ (if l.reduced && l.polarity ≠ head.polarity then _ else none)
  split
  · exact Atom.unify_correspond (congrArg Literal.atom undoneHead)
      (congrArg Literal.atom (undoneRest l member))
  · exact .none

/-- A chain and a session that an attempt comes to, compared with those of another attempt. -/
def SameUpToNames (found other : Chain × Session) : Prop :=
  Literal.AreVariants found.1.literals other.1.literals

theorem sameUpToNames_cancelHead (variants : Literal.AreVariants chain.literals chain'.literals)
    (session session' : Session) :
    Option.Rel SameUpToNames (session.cancelHead chain) (session'.cancelHead chain') := by
  obtain ⟨forth, back, images, undone⟩ := variants
  obtain ⟨literals, origin⟩ := chain
  obtain ⟨_, origin'⟩ := chain'
  obtain rfl := images
  cases literals with
  | nil => exact .none
  | cons head rest =>
    have cancels := cancellation_correspond undone
    change Option.Rel SameUpToNames ((cancellation head rest).map _)
      ((cancellation (head.replace forth) (rest.map (Literal.replace forth))).map _)
    generalize cancellation head rest = left at cancels
    generalize cancellation (head.replace forth) (rest.map (Literal.replace forth)) = right
      at cancels
    cases cancels with
    | none => exact .none
    | some correspond => exact .some (correspond.areVariants (List.forall_mem_cons.1 undone).2)

theorem sameUpToNames_dropHead (variants : Literal.AreVariants chain.literals chain'.literals)
    (session session' : Session) :
    Option.Rel SameUpToNames (session.dropHead chain) (session'.dropHead chain') := by
  obtain ⟨forth, back, images, undone⟩ := variants
  obtain ⟨literals, origin⟩ := chain
  obtain ⟨_, origin'⟩ := chain'
  obtain rfl := images
  cases literals with
  | nil => exact .none
  | cons head rest =>
    change Option.Rel SameUpToNames (if head.reduced then _ else none)
      (if head.reduced then _ else none)
    split
    · exact .some ⟨forth, back, rfl, (List.forall_mem_cons.1 undone).2⟩
    · exact .none

/-- Variants that share no variables are reduced to variants. -/
theorem reduction_sameUpToNames (nearVariants : Literal.AreVariants near.literals near'.literals)
    (farVariants : Literal.AreVariants far.literals far'.literals)
    (apart : ∀ v ∈ Literal.occurrencesList near.literals, v ∉ Literal.occurrencesList far.literals)
    (apartToo : ∀ v ∈ Literal.occurrencesList near'.literals,
      v ∉ Literal.occurrencesList far'.literals) :
    Option.Rel (fun found other => Literal.AreVariants found.2 other.2) (reduction near far)
      (reduction near' far') := by
  obtain ⟨forth, back, nearImages, farImages, undone⟩ :=
    nearVariants.exists_joint farVariants apart apartToo
  obtain ⟨nearLiterals, nearOrigin⟩ := near
  obtain ⟨farLiterals, farOrigin⟩ := far
  obtain ⟨_, nearOrigin'⟩ := near'
  obtain ⟨_, farOrigin'⟩ := far'
  obtain rfl := nearImages
  obtain rfl := farImages
  cases nearLiterals with
  | nil => exact .none
  | cons head rest =>
    cases farLiterals with
    | nil => exact .none
    | cons other others =>
      have undoneHead := undone head List.mem_cons_self
      have undoneOther := undone other (List.mem_append_right _ List.mem_cons_self)
      have unified := Atom.unify_correspond (congrArg Literal.atom undoneHead)
        (congrArg Literal.atom undoneOther)
      have undoneRest : ∀ l ∈ others ++ head.reduce :: rest,
          (l.replace forth).replace back = l := by
        intro l member
        rcases List.mem_append.1 member with there | here
        · exact undone l (List.mem_append_right _ (List.mem_cons_of_mem _ there))
        · rcases List.mem_cons.1 here with rfl | here
          · exact congrArg Literal.reduce undoneHead
          · exact undone l (List.mem_append_left _ (List.mem_cons_of_mem _ here))
      have images : (others ++ head.reduce :: rest).map (Literal.replace forth) =
          others.map (Literal.replace forth) ++
            (head.replace forth).reduce :: rest.map (Literal.replace forth) := by
        rw [List.map_append, List.map_cons]
        rfl
      change Option.Rel _ (if head.polarity = other.polarity then none
          else (head.atom.unify other.atom).map fun θ =>
            (θ, Literal.substituteList θ (others ++ head.reduce :: rest)))
        (if head.polarity = other.polarity then none
          else ((head.atom.replace forth).unify (other.atom.replace forth)).map fun θ =>
            (θ, Literal.substituteList θ (others.map (Literal.replace forth) ++
              (head.replace forth).reduce :: rest.map (Literal.replace forth))))
      rw [← images]
      split
      · exact .none
      · generalize head.atom.unify other.atom = left at unified
        generalize (head.atom.replace forth).unify (other.atom.replace forth) = right at unified
        cases unified with
        | none => exact .none
        | some correspond => exact .some (correspond.areVariants undoneRest)

/-- What is known of a chain that was given fresh variables. -/
theorem areVariants_renameChain (session : Session) (chain : Chain) :
    Literal.AreVariants chain.literals (session.renameChain chain).1.literals ∧
      ∀ v ∈ Literal.occurrencesList (session.renameChain chain).1.literals,
        ∃ index, v.index = some index ∧ session.supply.next ≤ index ∧
          index < (session.renameChain chain).2.supply.next := by
  change Literal.AreVariants chain.literals (chain.renamed session.supply).1.literals ∧
    ∀ v ∈ Literal.occurrencesList (chain.renamed session.supply).1.literals,
      ∃ index, v.index = some index ∧ session.supply.next ≤ index ∧
        index < (chain.renamed session.supply).2.next
  rw [Chain.renamed]
  split
  · next none =>
    refine ⟨.refl _, fun v occurs => ?_⟩
    have member : v ∈ chain.vars := mem_firstOccurrences.2 occurs
    rw [none] at member
    exact absurd member List.not_mem_nil
  · exact Literal.areVariants_freshRenaming session.supply chain.literals

/-- A near parent that is older than the supply shares no variable with a renamed far parent. -/
theorem apart_renameChain {session : Session}
    (below : Literal.VariablesBelow session.supply.next near.literals) (far : Chain) :
    ∀ v ∈ Literal.occurrencesList near.literals,
      v ∉ Literal.occurrencesList (session.renameChain far).1.literals := by
  intro v here there
  obtain ⟨index, indexed, above, _⟩ := (session.areVariants_renameChain far).2 v there
  exact Nat.not_lt.2 above (below v here index indexed)

/-- What a reduction comes to, if the near parent is not empty. -/
theorem reduceChains_fst (session : Session) (near far : Chain) :
    (session.reduceChains near far).1.map Chain.literals =
      (reduction near (session.renameChain far).1).map Prod.snd := by
  rw [reduceChains]
  split
  · next none => rw [reduction, none, Option.bind_none]; rfl
  · dsimp only
    split
    · next failed => rw [failed]; rfl
    · next found => rw [found]; rfl

/-- Variants of a near parent are reduced to variants, whichever fresh variables the far parent is
given, if they are older than the supplies. -/
theorem exists_reduceChains_of_variants {session session' : Session} {reduced : Chain}
    (variants : Literal.AreVariants near.literals near'.literals)
    (same : far.literals = far'.literals)
    (below : Literal.VariablesBelow session.supply.next near.literals)
    (below' : Literal.VariablesBelow session'.supply.next near'.literals)
    (found : (session.reduceChains near far).1 = some reduced) :
    ∃ reduced', (session'.reduceChains near' far').1 = some reduced' ∧
      Literal.AreVariants reduced.literals reduced'.literals := by
  have farVariants := (session.areVariants_renameChain far).1.symm.trans
    (same ▸ (session'.areVariants_renameChain far').1)
  have relates := reduction_sameUpToNames variants farVariants (apart_renameChain below far)
    (apart_renameChain below' far')
  have here := session.reduceChains_fst near far
  have there := session'.reduceChains_fst near' far'
  rw [found, Option.map_some] at here
  obtain ⟨⟨θ, ls⟩, isReduction, literals⟩ := Option.map_eq_some_iff.1 here.symm
  rw [isReduction] at relates
  obtain ⟨⟨later, ms⟩, isLater, variantsLater⟩ := exists_some_of_rel relates
  rw [isLater] at there
  obtain ⟨reduced', foundLater, literalsLater⟩ := Option.map_eq_some_iff.1 there
  exact ⟨reduced', foundLater, literals ▸ literalsLater ▸ variantsLater⟩

/-! ### Variables of reduced chains -/

theorem allUse_reduction {allowed : Variable → Prop} (usesNear : Literal.AllUse allowed near.literals)
    (usesFar : Literal.AllUse allowed far.literals) {θ : Substitution} {ls : List Literal}
    (found : reduction near far = some (θ, ls)) : Literal.AllUse allowed ls := by
  obtain ⟨head, nearHead, rest⟩ := Option.bind_eq_some_iff.1 found
  obtain ⟨other, farHead, reduced⟩ := Option.bind_eq_some_iff.1 rest
  split at reduced
  · exact absurd reduced nofun
  · obtain ⟨unifier, unified, same⟩ := Option.map_eq_some_iff.1 reduced
    obtain ⟨rfl, rfl⟩ := Prod.mk.inj same
    obtain ⟨nearTail, nearLiterals⟩ := List.head?_eq_some_iff.1 nearHead
    obtain ⟨farTail, farLiterals⟩ := List.head?_eq_some_iff.1 farHead
    rw [nearLiterals] at usesNear
    rw [farLiterals] at usesFar
    have all : Literal.AllUse allowed (other :: (farTail ++ head.reduce :: nearTail)) :=
      usesFar.append usesNear
    rw [Chain.tail, Chain.tail, nearLiterals, farLiterals]
    exact (all.substituteList (List.mem_cons_of_mem _ (List.mem_append_right _ List.mem_cons_self))
      List.mem_cons_self unified).subset (List.subset_cons_self _ _)

/-- A reduced chain is older than the supply that is left. -/
theorem below_reduceChains {session : Session} {reduced : Chain}
    (below : Literal.VariablesBelow session.supply.next near.literals)
    (found : (session.reduceChains near far).1 = some reduced) :
    Literal.VariablesBelow (session.reduceChains near far).2.supply.next reduced.literals := by
  have grows := session.next_le_renameChain far
  have belowFar : Literal.VariablesBelow (session.renameChain far).2.supply.next
      (session.renameChain far).1.literals := by
    intro v occurs index same
    obtain ⟨_, indexed, _, below⟩ := (session.areVariants_renameChain far).2 v occurs
    obtain rfl := Option.some.inj (same.symm.trans indexed)
    exact below
  rw [reduceChains] at found ⊢
  split at found
  · cases found
  · dsimp only at found ⊢
    split at found
    · cases found
    · next θ ls isReduction =>
      rw [← Option.some.inj found]
      exact allUse_reduction (below.mono grows) belowFar isReduction

/-- Cancelling and dropping introduce no variables. -/
theorem allUse_settleChain {allowed : Variable → Prop} (times : Nat) (session : Session)
    (uses : Literal.AllUse allowed chain.literals) :
    Literal.AllUse allowed (session.settleChain times chain).1.literals := by
  induction times generalizing session chain with
  | zero => exact uses
  | succ times inductionHypothesis =>
    rw [settleChain]
    split
    · next cancelled recorded found =>
      refine inductionHypothesis recorded ?_
      obtain ⟨head, first, rest⟩ := Option.bind_eq_some_iff.1 found
      obtain ⟨θ, cancels, concluded⟩ := Option.map_eq_some_iff.1 rest
      obtain ⟨tail, literals⟩ := List.head?_eq_some_iff.1 first
      obtain ⟨l, member, attempt⟩ := List.exists_of_findSome?_eq_some cancels
      obtain rfl := congrArg Prod.fst concluded
      rw [Chain.tail, literals, List.tail_cons] at member ⊢
      rw [literals] at uses
      split at attempt
      · exact (uses.substituteList List.mem_cons_self (List.mem_cons_of_mem _ member)
          attempt).subset (List.subset_cons_self _ _)
      · cases attempt
    · split
      · next dropped recorded found =>
        refine inductionHypothesis recorded ?_
        obtain ⟨head, first, rest⟩ := Option.bind_eq_some_iff.1 found
        split at rest
        · obtain rfl := congrArg Prod.fst (Option.some.inj rest)
          exact uses.subset (List.tail_subset _)
        · cases rest
      · exact uses

/-! ### Settled chains -/

/-- Cancelling a head shortens a chain. -/
theorem size_of_cancelHead {session : Session} {found : Chain × Session}
    (cancelled : session.cancelHead chain = some found) : chain.size = found.1.size + 1 := by
  obtain ⟨literals, origin⟩ := chain
  cases literals with
  | nil => exact absurd cancelled nofun
  | cons head rest =>
    obtain ⟨_, first, attempt⟩ := Option.bind_eq_some_iff.1 cancelled
    obtain ⟨θ, _, rfl⟩ := Option.map_eq_some_iff.1 attempt
    exact congrArg Nat.succ (List.length_map _).symm

/-- Dropping a head shortens a chain. -/
theorem size_of_dropHead {session : Session} {found : Chain × Session}
    (dropped : session.dropHead chain = some found) : chain.size = found.1.size + 1 := by
  obtain ⟨literals, origin⟩ := chain
  cases literals with
  | nil => exact absurd dropped nofun
  | cons head rest =>
    obtain ⟨_, first, attempt⟩ := Option.bind_eq_some_iff.1 dropped
    split at attempt
    · rw [← Option.some.inj attempt]
      rfl
    · exact absurd attempt nofun

end Session

/-- Heads are cancelled and dropped as long as possible, and cancelling comes first. -/
inductive Chain.SettlesTo : Chain → Chain → Prop
  | cancelled {chain cancelled last : Chain} {session recorded : Session}
      (found : session.cancelHead chain = some (cancelled, recorded))
      (rest : SettlesTo cancelled last) : SettlesTo chain last
  | dropped {chain dropped last : Chain} {session recorded : Session}
      (uncancelled : session.cancelHead chain = none)
      (found : session.dropHead chain = some (dropped, recorded))
      (rest : SettlesTo dropped last) : SettlesTo chain last
  | settled {chain : Chain} {session : Session} (uncancelled : session.cancelHead chain = none)
      (undropped : session.dropHead chain = none) : SettlesTo chain chain

namespace Session

theorem settlesTo_settleChain (times : Nat) (session : Session) {chain : Chain}
    (enough : chain.size ≤ times) : chain.SettlesTo (session.settleChain times chain).1 := by
  induction times generalizing session chain with
  | zero =>
    obtain ⟨literals, origin⟩ := chain
    obtain rfl := List.eq_nil_of_length_eq_zero (Nat.le_zero.1 enough)
    exact @Chain.SettlesTo.settled _ session rfl rfl
  | succ times inductionHypothesis =>
    rw [settleChain]
    split
    · next cancelled recorded found =>
      rw [size_of_cancelHead found] at enough
      exact .cancelled found (inductionHypothesis recorded (Nat.le_of_succ_le_succ enough))
    · next uncancelled =>
      split
      · next dropped recorded found =>
        rw [size_of_dropHead found] at enough
        exact .dropped uncancelled found
          (inductionHypothesis recorded (Nat.le_of_succ_le_succ enough))
      · next undropped => exact .settled uncancelled undropped

/-- What a session settles is settled: the size of a chain bounds the number of its heads. -/
theorem settlesTo_settle (session : Session) (chain : Chain) :
    chain.SettlesTo (session.settle chain).1 :=
  session.settlesTo_settleChain chain.size (Nat.le_refl _)

end Session

namespace Chain.SettlesTo

variable {chain chain' last : Chain}

theorem areVariants_settleChain (settles : chain.SettlesTo last)
    (variants : Literal.AreVariants chain.literals chain'.literals) {times : Nat}
    (enough : chain'.size ≤ times) (session' : Session) :
    Literal.AreVariants last.literals (session'.settleChain times chain').1.literals := by
  induction settles generalizing chain' times session' with
  | @cancelled _ _ _ session _ found _ inductionHypothesis =>
    have cancels := Session.sameUpToNames_cancelHead variants session session'
    rw [found] at cancels
    obtain ⟨_, foundToo, same⟩ := exists_some_of_rel cancels
    rw [Session.size_of_cancelHead foundToo] at enough
    obtain ⟨times, rfl⟩ := Nat.exists_eq_add_one_of_ne_zero (Nat.ne_zero_of_lt enough)
    rw [Session.settleChain, foundToo]
    exact inductionHypothesis same (Nat.le_of_succ_le_succ enough) _
  | @dropped _ _ _ session _ uncancelled found _ inductionHypothesis =>
    have cancels := Session.sameUpToNames_cancelHead variants session session'
    have drops := Session.sameUpToNames_dropHead variants session session'
    rw [uncancelled] at cancels
    rw [found] at drops
    obtain ⟨_, foundToo, same⟩ := exists_some_of_rel drops
    rw [Session.size_of_dropHead foundToo] at enough
    obtain ⟨times, rfl⟩ := Nat.exists_eq_add_one_of_ne_zero (Nat.ne_zero_of_lt enough)
    rw [Session.settleChain, eq_none_of_rel cancels, foundToo]
    exact inductionHypothesis same (Nat.le_of_succ_le_succ enough) _
  | @settled _ session uncancelled undropped =>
    have cancels := Session.sameUpToNames_cancelHead variants session session'
    have drops := Session.sameUpToNames_dropHead variants session session'
    rw [uncancelled] at cancels
    rw [undropped] at drops
    cases times with
    | zero => exact variants
    | succ times =>
      rw [Session.settleChain, eq_none_of_rel cancels, eq_none_of_rel drops]
      exact variants

/-- Variants settle to variants, and there is but one way to settle. -/
theorem areVariants_settle (settles : chain.SettlesTo last)
    (variants : Literal.AreVariants chain.literals chain'.literals) (session' : Session) :
    Literal.AreVariants last.literals (session'.settle chain').1.literals :=
  settles.areVariants_settleChain variants (Nat.le_refl _) session'

end Chain.SettlesTo

end ClausalReasoner

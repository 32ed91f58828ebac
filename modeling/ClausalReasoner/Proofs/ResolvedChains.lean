/-
This file says what cascading makes of a substitution without a cycle. Every round doubles the number
of applications that have been made, so the rounds that it takes are no more than the binary digits of
the number of bindings, and one round more notices that nothing is left to do. What has come to rest
holds free variables only: a bound variable that an application leaves as it is would lead back to
itself. Nothing of the meaning is lost on the way. A replacement that satisfies the bindings satisfies
whatever they make of a term; and one that satisfies the cascaded bindings gives a variable and the
term that it was bound to the same, because applying the bindings once more to what has come to rest
changes nothing.

Only the bound variables matter for cycles, since from a free variable no binding leads on.
-/

import ClausalReasoner.Proofs.Cascading
import ClausalReasoner.Proofs.UnificationTermination

namespace ClausalReasoner

namespace Substitution

variable {σ : Substitution} {v w : Variable}

/-! ### Cycles of bound variables -/

/-- A variable is bound to a term in which another bound variable stands. -/
def LeadsToBound (σ : Substitution) (v w : Variable) : Prop :=
  σ.LeadsTo v w ∧ σ.binds w

theorem LeadsTo.binds (leads : σ.LeadsTo v w) : σ.binds v := by
  obtain ⟨t, bound, _⟩ := leads
  rw [Substitution.binds, bound]
  rfl

/-- A path that ends at a bound variable passes bound variables only. -/
theorem leadsToBound_of_leadsTo (path : Relation.TransGen σ.LeadsTo v w) (bound : σ.binds w) :
    Relation.TransGen σ.LeadsToBound v w := by
  induction path with
  | single leads => exact .single ⟨leads, bound⟩
  | tail _ leads inductionHypothesis => exact (inductionHypothesis leads.binds).tail ⟨leads, bound⟩

/-- Whether there is a cycle can be told from the bound variables. -/
theorem isAcyclic_iff : σ.IsAcyclic ↔ ∀ v, ¬ Relation.TransGen σ.LeadsToBound v v := by
  refine ⟨fun acyclic v cycle => acyclic v (cycle.lift id fun _ _ leads => leads.1),
    fun none v cycle => none v (leadsToBound_of_leadsTo cycle ?_)⟩
  obtain ⟨u, leads, _⟩ := Relation.TransGen.head'_iff.1 cycle
  exact leads.binds

/-- There is no cycle when every variable only leads to variables of higher rank. -/
theorem isAcyclic_of_rank (rank : Variable → Nat)
    (rises : ∀ entry ∈ σ.bindings, ∀ w ∈ entry.2.occurrences, rank entry.1 < rank w) :
    σ.IsAcyclic := by
  have step : ∀ {v w}, σ.LeadsTo v w → rank v < rank w := by
    rintro v w ⟨t, bound, occurs⟩
    exact rises _ (mem_of_lookup bound) w occurs
  have path : ∀ {v w}, Relation.TransGen σ.LeadsTo v w → rank v < rank w := by
    intro v w path
    induction path with
    | single leads => exact step leads
    | tail _ leads inductionHypothesis => exact inductionHypothesis.trans (step leads)
  exact fun v cycle => Nat.lt_irrefl _ (path cycle)

/-! ### What has come to rest -/

/-- A term that the substitution does not change holds free variables only. -/
theorem IsAcyclic.free_of_substitute_eq_self (acyclic : σ.IsAcyclic) {t : Term}
    (fixed : t.substitute σ = t) (occurs : v ∈ t.occurrences) : σ.get? v = none := by
  have unchanged : σ.value v = .var v :=
    Term.eq_of_replace_eq (fixed.trans t.replace_var.symm) occurs
  cases bound : σ.get? v with
  | none => rfl
  | some u =>
    rw [value_of_get?_some bound] at unchanged
    have loop : σ.LeadsTo v v := ⟨u, bound, unchanged ▸ List.mem_singleton_self v⟩
    exact absurd (.single loop) (acyclic v)

/-- After as many applications as there are bindings a variable has become a term of free
variables. -/
theorem IsAcyclic.free_of_mem_applied (acyclic : σ.IsAcyclic)
    (occurs : w ∈ (σ.applied σ.size v).occurrences) : σ.get? w = none := by
  have fixed : (σ.applied σ.size v).substitute σ = σ.applied σ.size v :=
    acyclic.applied_eq (Nat.le_succ σ.size) v
  exact acyclic.free_of_substitute_eq_self fixed occurs

theorem IsAcyclic.cascade_eq (acyclic : σ.IsAcyclic) : σ.cascade = cascadeRound^[σ.size] σ :=
  cascadeWithin_eq_iterate (Nat.le_succ σ.size)
    (acyclic.iterate_cascadeRound_succ Nat.lt_two_pow_self)

/-- The cascaded substitution has a variable as it is after as many applications as there are
bindings. -/
theorem IsAcyclic.value_cascade (acyclic : σ.IsAcyclic) (v : Variable) :
    σ.cascade.value v = σ.applied σ.size v := by
  rw [acyclic.cascade_eq, value_iterate_cascadeRound]
  exact acyclic.applied_eq (Nat.le_of_lt Nat.lt_two_pow_self) v

/-- Applying the substitution before it is cascaded makes no difference. -/
theorem IsAcyclic.replace_value_cascade (acyclic : σ.IsAcyclic) (v : Variable) :
    (σ.value v).replace σ.cascade.value = σ.cascade.value v := by
  have values : σ.cascade.value = σ.applied σ.size := funext acyclic.value_cascade
  rw [values, ← applied_succ]
  exact acyclic.applied_eq (Nat.le_succ σ.size) v

/-! ### Domain, range and meaning -/

@[simp]
theorem domain_mapRange (σ : Substitution) (change : Term → Term) :
    (σ.mapRange change).domain = σ.domain := by
  rw [domain, mapRange, List.map_map]
  rfl

/-- Cascading binds the variables that were bound. -/
theorem domain_cascadeWithin (rounds : Nat) (σ : Substitution) :
    (cascadeWithin rounds σ).domain = σ.domain := by
  induction rounds generalizing σ with
  | zero => rfl
  | succ rounds inductionHypothesis =>
    rw [cascadeWithin]
    split
    · rfl
    · rw [inductionHypothesis, cascadeRound, domain_mapRange]

theorem get?_eq_none_iff : σ.get? v = none ↔ v ∉ σ.domain := by
  rw [get?, lookup_eq_none_iff, domain, List.mem_map, not_exists]
  exact forall_congr' fun entry => not_and.symm

/-- No bound variable is left in the range. -/
theorem IsAcyclic.isSolved_cascade (acyclic : σ.IsAcyclic) : σ.cascade.IsSolved := by
  intro entry member w occurs
  rw [acyclic.cascade_eq, bindings_iterate_cascadeRound] at member
  obtain ⟨before, _, rfl⟩ := List.mem_map.1 member
  obtain ⟨v, _, inside⟩ := Term.mem_occurrences_replace.1 occurs
  rw [acyclic.applied_eq (Nat.le_sub_one_of_lt Nat.lt_two_pow_self)] at inside
  have free := acyclic.free_of_mem_applied inside
  rw [get?_eq_none_iff] at free ⊢
  rwa [cascade, domain_cascadeWithin]

/-- The same replacements satisfy the bindings before cascading and afterwards. -/
theorem IsAcyclic.respects_cascade_iff (acyclic : σ.IsAcyclic) {value : Variable → Term} :
    Respects value σ.cascade ↔ Respects value σ := by
  refine ⟨fun respects v => ?_, fun respects => respects.cascadeWithin _⟩
  have cascaded : ∀ t : Term, (t.replace σ.cascade.value).replace value = t.replace value :=
    fun t => respects.replace_substitute t
  calc (σ.value v).replace value
      = ((σ.value v).replace σ.cascade.value).replace value := (cascaded _).symm
    _ = (σ.cascade.value v).replace value := by rw [acyclic.replace_value_cascade]
    _ = value v := respects v

/-- **Cascading resolves every substitution without a cycle.** If no bound variable leads back to
itself through bound variables, the rounds of cascading end by themselves, after the binary digits of
the number of bindings and one more. The same variables are bound as before, none of them stands in
the range any more, and a replacement, such as that of a substitution, satisfies the bindings
afterwards just in case it satisfied them before. -/
theorem cascading_resolves (acyclic : ∀ v, ¬ Relation.TransGen σ.LeadsToBound v v) :
    (∀ rounds, σ.size < 2 ^ rounds → σ.cascadeToRest (rounds + 1) = some σ.cascade) ∧
    σ.cascade.domain = σ.domain ∧
    (∀ t ∈ σ.cascade.range, ∀ v ∈ t.occurrences, v ∉ σ.domain) ∧
    ∀ value : Variable → Term, Respects value σ.cascade ↔ Respects value σ := by
  have noCycle := isAcyclic_iff.2 acyclic
  have domain : σ.cascade.domain = σ.domain := domain_cascadeWithin _ σ
  refine ⟨fun rounds enough => ?_, domain, fun t inRange v occurs => ?_,
    fun _ => noCycle.respects_cascade_iff⟩
  · have sameRest : σ.cascade = cascadeRound^[rounds] σ := by
      rw [noCycle.cascade_eq]
      rcases Nat.le_total rounds σ.size with fewer | more
      · exact noCycle.iterate_cascadeRound_eq enough fewer
      · exact (noCycle.iterate_cascadeRound_eq Nat.lt_two_pow_self more).symm
    rw [sameRest]
    exact cascadeToRest_eq (Nat.lt_succ_self rounds) (noCycle.iterate_cascadeRound_succ enough)
  · obtain ⟨entry, member, rfl⟩ := List.mem_map.1 inRange
    rw [← domain, ← get?_eq_none_iff]
    exact noCycle.isSolved_cascade entry member v occurs

/-- `{x=House(y, y), y=Wall(z, z), z=Brick}`. -/
def houseOfWalls : Substitution :=
  .ofList [(⟨"x", none⟩, .app "House" [.var ⟨"y", none⟩, .var ⟨"y", none⟩]),
    (⟨"y", none⟩, .app "Wall" [.var ⟨"z", none⟩, .var ⟨"z", none⟩]),
    (⟨"z", none⟩, .constant "Brick")]

/-- `{x=House(Wall(Brick, Brick), Wall(Brick, Brick)), y=Wall(Brick, Brick), z=Brick}`. -/
def houseOfBricks : Substitution :=
  .ofList [(⟨"x", none⟩, .app "House" [.app "Wall" [.constant "Brick", .constant "Brick"],
      .app "Wall" [.constant "Brick", .constant "Brick"]]),
    (⟨"y", none⟩, .app "Wall" [.constant "Brick", .constant "Brick"]),
    (⟨"z", none⟩, .constant "Brick")]

theorem isAcyclic_houseOfWalls : houseOfWalls.IsAcyclic :=
  isAcyclic_of_rank houseOfWalls.domain.idxOf (by decide)

/-- The chain from `x` over `y` to `z` is resolved in two rounds, and the third one notices. -/
theorem cascading_resolves_houseOfWalls :
    (∀ v, ¬ Relation.TransGen houseOfWalls.LeadsToBound v v) ∧ houseOfWalls.size < 2 ^ 2 ∧
      houseOfWalls.cascadeToRest 3 = some houseOfBricks ∧
      ∀ value : Variable → Term, Respects value houseOfBricks ↔ Respects value houseOfWalls := by
  have acyclic := isAcyclic_iff.1 isAcyclic_houseOfWalls
  have cascaded : houseOfWalls.cascade = houseOfBricks := by decide
  obtain ⟨ends, _, _, meaning⟩ := cascading_resolves acyclic
  rw [cascaded] at ends meaning
  exact ⟨acyclic, by decide, ends 2 (by decide), meaning⟩

end Substitution

end ClausalReasoner

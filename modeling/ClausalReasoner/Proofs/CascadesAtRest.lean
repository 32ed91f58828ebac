/-
This file says that cascading is never cut short. If some number of rounds comes to rest at all, then
the bound on the rounds, which is one more than there are bindings, is not met. A substitution may
come to rest although a variable leads back to itself: through nothing but variables, and only if the
length of the cycle is a power of two, since every round doubles the number of applications. Such a
cycle is no longer than there are bindings and has passed by when they are all resolved.
-/

import ClausalReasoner.Proofs.Cascading
import ClausalReasoner.Proofs.UnificationTermination
import Mathlib.Algebra.Order.Group.Nat
import Mathlib.Data.Nat.Find
import Mathlib.Data.Nat.Prime.Basic

namespace ClausalReasoner

namespace Substitution

variable {σ τ : Substitution} {v w : Variable}

/-! ### Variables that come back -/

/-- What a path leads to stands in what some applications make of its start. -/
theorem exists_mem_applied (path : Relation.TransGen σ.LeadsTo v w) :
    ∃ times, 0 < times ∧ w ∈ (σ.applied times v).occurrences := by
  induction path with
  | single leads =>
    obtain ⟨t, bound, occurs⟩ := leads
    refine ⟨1, Nat.one_pos, ?_⟩
    rw [applied_succ, value_of_get?_some bound, applied_zero, Term.replace_var]
    exact occurs
  | tail _ leads inductionHypothesis =>
    obtain ⟨times, _, there⟩ := inductionHypothesis
    obtain ⟨t, bound, occurs⟩ := leads
    refine ⟨times + 1, Nat.succ_pos times, ?_⟩
    rw [applied, Term.substitute]
    exact Term.mem_occurrences_replace.2 ⟨_, there, by rwa [value_of_get?_some bound]⟩

/-- Applications that bring a variable back do so when they are repeated. -/
theorem applied_mul_of_returns {period : Nat} (returns : σ.applied period v = .var v)
    (times : Nat) : σ.applied (period * times) v = .var v := by
  induction times with
  | zero => rfl
  | succ times inductionHypothesis =>
    rw [Nat.mul_succ, applied_add, inductionHypothesis]
    exact returns

section

variable {count : Nat} (atRest : ∀ v, σ.applied (count + count) v = σ.applied count v)

include atRest

/-- Twice as many applications make no difference, nor does any other multiple. -/
theorem applied_add_mul (times : Nat) (v : Variable) :
    σ.applied (count + count * times) v = σ.applied count v := by
  induction times with
  | zero => rfl
  | succ times inductionHypothesis =>
    rw [Nat.mul_succ, ← Nat.add_assoc, applied_add, inductionHypothesis, ← applied_add, atRest]

/-- A variable that leads to itself comes back, or else it would grow. -/
theorem exists_returns (positive : 0 < count) (cycle : Relation.TransGen σ.LeadsTo v v) :
    ∃ period, 0 < period ∧ σ.applied period v = .var v := by
  obtain ⟨period, some, occurs⟩ := exists_mem_applied cycle
  refine ⟨period, some, ?_⟩
  by_contra larger
  have grows : StrictMono fun times => (σ.applied (count + period * times) v).weight := by
    refine strictMono_nat_of_lt_succ fun times => ?_
    have next : count + period * (times + 1) = period + (count + period * times) := by
      rw [Nat.mul_succ]
      omega
    rw [next, σ.applied_add period]
    exact Term.weight_lt_weight_replace occurs larger
  have same : σ.applied (count + period * count) v = σ.applied (count + period * 0) v := by
    rw [Nat.mul_comm, applied_add_mul atRest, Nat.mul_zero, Nat.add_zero]
  exact absurd (grows.injective (congrArg Term.weight same)) positive.ne'

/-- What comes back at all has come back when there is rest. -/
theorem returns_of_atRest {period : Nat} (positive : 0 < period)
    (returns : σ.applied period v = .var v) : σ.applied count v = .var v := by
  obtain ⟨rest, whole⟩ : ∃ rest, count + rest = period * count :=
    ⟨period * count - count, by
      have : count ≤ period * count := Nat.le_mul_of_pos_left count positive
      omega⟩
  have back : σ.applied (count + rest) v = .var v :=
    whole ▸ applied_mul_of_returns returns count
  have twice : σ.applied (count + rest + count) v = .var v := by
    rw [Nat.add_right_comm, applied_add, atRest, ← applied_add, back]
  rw [applied_add, back] at twice
  exact twice

end

/-! ### The first return -/

/-- The least number of applications, but for none, that brings a variable back. -/
structure FirstReturn (σ : Substitution) (v : Variable) (period : Nat) : Prop where
  positive : 0 < period
  returns : σ.applied period v = .var v
  least : ∀ times, 0 < times → times < period → σ.applied times v ≠ .var v

theorem exists_firstReturn {period : Nat} (positive : 0 < period)
    (returns : σ.applied period v = .var v) : ∃ first, σ.FirstReturn v first := by
  classical
  have some : ∃ times, 0 < times ∧ σ.applied times v = .var v := ⟨period, positive, returns⟩
  refine ⟨Nat.find some, (Nat.find_spec some).1, (Nat.find_spec some).2, fun times here less => ?_⟩
  exact fun back => Nat.find_min some less ⟨here, back⟩

namespace FirstReturn

variable {period : Nat} (first : σ.FirstReturn v period)

include first

/-- Every return takes a multiple of the first one. -/
theorem dvd_of_returns {times : Nat} (returns : σ.applied times v = .var v) : period ∣ times := by
  have rest : σ.applied (times % period) v = .var v := by
    rw [← Nat.div_add_mod times period, applied_add, applied_mul_of_returns first.returns] at returns
    exact returns
  by_contra other
  exact first.least _ (Nat.pos_of_ne_zero fun none => other (Nat.dvd_of_mod_eq_zero none))
    (Nat.mod_lt _ first.positive) rest

/-- On its way the variable is a bound variable at every time. -/
theorem exists_bound (bound : σ.binds v) {times : Nat} (less : times < period) :
    ∃ w ∈ σ.domain, σ.applied times v = .var w := by
  have onward : (σ.applied times v).replace (σ.applied (period - times)) = .var v := by
    rw [← applied_add, Nat.add_sub_cancel' less.le]
    exact first.returns
  cases reached : σ.applied times v with
  | constant name => rw [reached] at onward; cases onward
  | app function ts => rw [reached] at onward; cases onward
  | var w =>
    rw [reached] at onward
    refine ⟨w, ?_, rfl⟩
    cases free : σ.get? w with
    | some t => exact List.mem_map_of_mem (mem_of_lookup free)
    | none =>
      have same : Term.var w = .var v := (applied_of_get?_none free _).symm.trans onward
      rw [Term.var.inj same] at free
      rw [binds, free] at bound
      exact absurd bound Bool.false_ne_true

/-- The variable is a different one at every time until it comes back. -/
theorem applied_ne {times later : Nat} (before : times < later) (less : later < period) :
    σ.applied times v ≠ σ.applied later v := by
  intro same
  refine first.least (times + (period - later)) (by omega) (by omega) ?_
  rw [applied_add, same, ← applied_add, Nat.add_sub_cancel' less.le]
  exact first.returns

/-- So it comes back before there have been more applications than bindings. -/
theorem le_size (bound : σ.binds v) : period ≤ σ.size := by
  choose! reached inside applied using fun times (less : times < period) =>
    first.exists_bound bound less
  have distinct : Set.InjOn reached (Finset.range period) := by
    intro times here later there same
    have beforeHere := Finset.mem_range.1 (Finset.mem_coe.1 here)
    have beforeThere := Finset.mem_range.1 (Finset.mem_coe.1 there)
    have together : σ.applied times v = σ.applied later v := by
      rw [applied times beforeHere, applied later beforeThere, same]
    rcases Nat.lt_trichotomy times later with less | equal | greater
    · exact absurd together (first.applied_ne less beforeThere)
    · exact equal
    · exact absurd together.symm (first.applied_ne greater beforeHere)
  calc period = (Finset.range period).card := (Finset.card_range period).symm
    _ ≤ σ.domain.toFinset.card := Finset.card_le_card_of_injOn reached
        (fun times here => List.mem_toFinset.2 (inside times (Finset.mem_range.1 here))) distinct
    _ ≤ σ.domain.length := List.toFinset_card_le _
    _ = σ.size := List.length_map _

end FirstReturn

/-! ### Rest -/

/-- Where rounds come to rest, a variable that leads to itself comes back after a power of two that
is no more than there are bindings. -/
theorem ComesToRest.returns (atRest : σ.ComesToRest) (cycle : Relation.TransGen σ.LeadsTo v v) :
    σ.applied (2 ^ σ.size) v = .var v := by
  obtain ⟨rounds, fixed⟩ := atRest
  have same : ∀ v, σ.applied (2 ^ rounds + 2 ^ rounds) v = σ.applied (2 ^ rounds) v := by
    intro v
    rw [← Nat.mul_two, ← Nat.pow_succ, ← value_iterate_cascadeRound, ← value_iterate_cascadeRound,
      Function.iterate_succ_apply', fixed]
  have positive : 0 < 2 ^ rounds := Nat.two_pow_pos rounds
  obtain ⟨period, some, back⟩ := exists_returns same positive cycle
  obtain ⟨least, first⟩ := exists_firstReturn some back
  have bound : σ.binds v := by
    obtain ⟨u, ⟨t, found, _⟩, _⟩ := Relation.TransGen.head'_iff.1 cycle
    rw [binds, found]
    rfl
  obtain ⟨exponent, _, rfl⟩ := (Nat.dvd_prime_pow Nat.prime_two).1
    (first.dvd_of_returns (returns_of_atRest same some back))
  have few : exponent ≤ σ.size := Nat.lt_two_pow_self.le.trans (first.le_size bound)
  obtain ⟨times, whole⟩ := Nat.pow_dvd_pow 2 few
  rw [whole]
  exact applied_mul_of_returns first.returns times

/-- Where rounds come to rest, they do so in as many rounds as there are bindings. -/
theorem ComesToRest.iterate_cascadeRound_succ (atRest : σ.ComesToRest) :
    (cascadeRound^[σ.size] σ).cascadeRound = cascadeRound^[σ.size] σ := by
  have enough : σ.size ≤ 2 ^ σ.size - 1 := Nat.le_sub_one_of_lt Nat.lt_two_pow_self
  have doubled : 2 ^ (σ.size + 1) - 1 = (2 ^ σ.size - 1) + 2 ^ σ.size := by
    have positive : 0 < 2 ^ σ.size := Nat.two_pow_pos σ.size
    omega
  have same : (cascadeRound^[σ.size + 1] σ).bindings = (cascadeRound^[σ.size] σ).bindings := by
    rw [bindings_iterate_cascadeRound, bindings_iterate_cascadeRound]
    refine List.map_congr_left fun entry _ => Prod.ext rfl (Term.replace_congr fun v _ => ?_)
    rw [doubled]
    exact applied_add_of_size_le (fun w => atRest.returns) enough v
  rw [← Function.iterate_succ_apply' cascadeRound]
  exact congrArg Substitution.mk same

theorem ComesToRest.cascade_eq (atRest : σ.ComesToRest) :
    σ.cascade = cascadeRound^[σ.size] σ :=
  cascadeWithin_eq_iterate (Nat.le_succ σ.size) atRest.iterate_cascadeRound_succ

/-- Cascading without a bound on the rounds then ends, given one round more than there are bindings. -/
theorem ComesToRest.cascadeToRest_eq (atRest : σ.ComesToRest) {rounds : Nat}
    (enough : σ.size < rounds) : σ.cascadeToRest rounds = some σ.cascade := by
  rw [atRest.cascade_eq]
  exact Substitution.cascadeToRest_eq enough atRest.iterate_cascadeRound_succ

/-- What comes out of cascading without a bound on the rounds was come to by rounds. -/
theorem exists_iterate_of_cascadeToRest {rounds : Nat} (ended : σ.cascadeToRest rounds = some τ) :
    ∃ needed < rounds, τ = cascadeRound^[needed] σ ∧ τ.cascadeRound = τ := by
  induction rounds generalizing σ with
  | zero => cases ended
  | succ rounds inductionHypothesis =>
    rw [cascadeToRest] at ended
    split at ended
    · next fixed =>
      obtain rfl := Option.some.inj ended
      exact ⟨0, Nat.succ_pos rounds, rfl, fixed⟩
    · obtain ⟨needed, less, same, fixed⟩ := inductionHypothesis ended
      exact ⟨needed + 1, Nat.succ_lt_succ less, same, fixed⟩

/-- **Cascading is never cut short.** If cascading without a bound on the rounds comes to an end,
then it ends in what cascading within the bound does. -/
theorem cascade_eq_of_cascadeToRest {rounds : Nat} (ended : σ.cascadeToRest rounds = some τ) :
    σ.cascade = τ := by
  obtain ⟨needed, _, rfl, fixed⟩ := exists_iterate_of_cascadeToRest ended
  have atRest : σ.ComesToRest := ⟨needed, fixed⟩
  have later : ∀ {first : Nat},
      (cascadeRound^[first] σ).cascadeRound = cascadeRound^[first] σ → ∀ second,
      first ≤ second → cascadeRound^[second] σ = cascadeRound^[first] σ := by
    intro first still second le
    obtain ⟨more, rfl⟩ := Nat.exists_eq_add_of_le' le
    rw [Function.iterate_add_apply]
    exact Function.iterate_fixed still more
  rw [atRest.cascade_eq]
  rcases Nat.le_total σ.size needed with less | more
  · exact (later atRest.iterate_cascadeRound_succ needed less).symm
  · exact later fixed σ.size more

end Substitution

end ClausalReasoner

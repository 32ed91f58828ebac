/-
This file says for which literals the limit on ties does its work. The product of the numbers of
orders is checked, and the largest word stands for a product that is none. But the number of orders of
a single group is counted without a check, modulo the number of words. It is right for at most 20
literals that tie, and up to 65 of them it is wrong but still above the limit. From 66 on it is zero,
as the factorial of 66 is a multiple of the number of words. Then the whole product is zero, unless
the groups before have overflown already, and all orders are tried as if there were few.
-/

import ClausalReasoner.Proofs.KeyDiscrimination
import Mathlib.Logic.Equiv.Basic

namespace ClausalReasoner

/-! ### Counting the orders of a group -/

theorem toNat_orderCount_le (n : Nat) : (orderCount n).toNat ≤ n.factorial := by
  rw [toNat_orderCount]
  exact Nat.mod_le _ _

/-- A group of 66 or more members counts as having no order at all. -/
theorem toNat_orderCount_of_ge {n : Nat} (many : 66 ≤ n) : (orderCount n).toNat = 0 := by
  have divides : UInt64.size ∣ n.factorial :=
    Nat.dvd_trans (by decide +kernel : UInt64.size ∣ Nat.factorial 66) (Nat.factorial_dvd_factorial many)
  rw [toNat_orderCount, Nat.eq_zero_of_dvd_of_lt ((Nat.dvd_mod_iff (dvd_refl _)).2 divides)
    (Nat.mod_lt _ (by decide))]

/-- In between the count is wrong, but past the limit. -/
theorem limit_lt_toNat_orderCount {n : Nat} (wrong : 20 < n) (few : n ≤ 65) :
    720 < (orderCount n).toNat := by
  have each : ∀ n ∈ List.range 66, 20 < n → 720 < n.factorial % UInt64.size := by decide +kernel
  rw [toNat_orderCount]
  exact each n (List.mem_range.2 (Nat.lt_succ_of_le few)) wrong

theorem toNat_orderCount_pos {n : Nat} (few : n ≤ 65) : 0 < (orderCount n).toNat := by
  by_cases right : n ≤ 20
  · rw [toNat_orderCount_eq_factorial_iff.2 right]
    exact n.factorial_pos
  · exact Nat.zero_lt_of_lt (limit_lt_toNat_orderCount (Nat.lt_of_not_le right) few)

/-! ### Counting the orders of all groups -/

section Sizes

variable {sizes : List Nat}

/-- What the number of orders of all groups should be counted as. -/
def rightCount (sizes : List Nat) : Nat :=
  let product := (sizes.map Nat.factorial).prod
  if product < UInt64.size then product else UInt64.size - 1

theorem countedProduct_le (sizes : List Nat) :
    countedProduct sizes ≤ (sizes.map Nat.factorial).prod := by
  induction sizes with
  | nil => exact Nat.le_refl _
  | cons size rest inductionHypothesis =>
    rw [countedProduct_cons, List.map_cons, List.prod_cons]
    exact Nat.mul_le_mul (toNat_orderCount_le size) inductionHypothesis

/-- Where the check of the product fails, there are more orders than words. -/
theorem size_le_of_overflows (overflows : Overflows sizes) :
    UInt64.size ≤ (sizes.map Nat.factorial).prod := by
  obtain ⟨front, isFront, large⟩ := overflows
  exact large.trans ((countedProduct_le front).trans (prod_factorial_le_of_isPrefix isFront))

theorem toNat_tiedOrders_eq_rightCount_iff :
    (tiedOrders sizes).toNat = rightCount sizes ↔
      (∀ size ∈ sizes, size ≤ 20) ∨ Overflows sizes := by
  by_cases overflows : Overflows sizes
  · rw [tiedOrders_of_overflows overflows, rightCount,
      if_neg (Nat.not_lt.2 (size_le_of_overflows overflows))]
    exact iff_of_true rfl (Or.inr overflows)
  rw [toNat_tiedOrders_of_not_overflows overflows, or_iff_left overflows]
  constructor
  · -- Past 20 members the count is even, and the largest word is odd.
    intro right size member
    by_contra large
    obtain ⟨more, rfl⟩ : ∃ more, size = more + 2 := ⟨size - 2, by omega⟩
    have past : ¬ (sizes.map Nat.factorial).prod < UInt64.size := fun small =>
      large (factorial_lt_size_iff.1 ((factorial_le_prod member).trans_lt small))
    rw [rightCount, if_neg past] at right
    have divides : (orderCount (more + 2)).toNat ∣ countedProduct sizes :=
      List.dvd_prod (List.mem_map_of_mem member)
    have even := (Nat.dvd_of_mod_eq_zero (toNat_orderCount_even more)).trans divides
    rw [right] at even
    exact absurd even (by decide)
  · intro few
    have counted : countedProduct sizes = (sizes.map Nat.factorial).prod :=
      countedProduct_eq fun size member => toNat_orderCount_eq_factorial_iff.2 (few size member)
    have small : countedProduct sizes < UInt64.size :=
      Nat.lt_of_not_le fun large => overflows ⟨sizes, List.prefix_rfl, large⟩
    rw [rightCount, if_pos (counted ▸ small), counted]

/-- A group that counts as having no order leaves none for all groups together. -/
theorem countedProduct_eq_zero {size : Nat} (member : size ∈ sizes) (many : 66 ≤ size) :
    countedProduct sizes = 0 :=
  List.prod_eq_zero (List.mem_map.2 ⟨size, member, toNat_orderCount_of_ge many⟩)

theorem countedProduct_pos (few : ∀ size ∈ sizes, size ≤ 65) : 0 < countedProduct sizes :=
  List.prod_pos fun count listed => by
    obtain ⟨size, member, rfl⟩ := List.mem_map.1 listed
    exact toNat_orderCount_pos (few size member)

/-- Of groups that each count as having some order, all are counted right if the product is low. -/
theorem countedProduct_eq_of_le_limit (few : ∀ size ∈ sizes, size ≤ 65)
    (small : countedProduct sizes ≤ 720) :
    countedProduct sizes = (sizes.map Nat.factorial).prod := by
  refine countedProduct_eq fun size member => toNat_orderCount_eq_factorial_iff.2 ?_
  by_contra wrong
  have divides : (orderCount size).toNat ∣ countedProduct sizes :=
    List.dvd_prod (List.mem_map_of_mem member)
  have le := Nat.le_of_dvd (countedProduct_pos few) divides
  exact absurd (limit_lt_toNat_orderCount (Nat.lt_of_not_le wrong) (few size member))
    (Nat.not_lt.2 (le.trans small))

/-- What counts as few orders are few, unless 66 literals tie and nothing overflows before. -/
theorem few_of_tiedOrders_iff :
    ((tiedOrders sizes ≠ 1 ∧ tiedOrders sizes ≤ maxTriedOrders) →
      (sizes.map Nat.factorial).prod ≤ 720) ↔ (∀ size ∈ sizes, size ≤ 65) ∨ Overflows sizes := by
  by_cases overflows : Overflows sizes
  · rw [tiedOrders_of_overflows overflows]
    exact iff_of_true (fun ⟨_, few⟩ => absurd few (by decide)) (Or.inr overflows)
  have counted := toNat_tiedOrders_of_not_overflows overflows
  have limit : tiedOrders sizes ≤ maxTriedOrders ↔ countedProduct sizes ≤ 720 := by
    rw [UInt64.le_iff_toNat_le, counted]
    rfl
  rw [or_iff_left overflows, limit]
  constructor
  · intro few size member
    by_contra many
    have zero := countedProduct_eq_zero member (Nat.lt_of_not_le many)
    have notOne : tiedOrders sizes ≠ 1 := by
      intro one
      rw [one, zero] at counted
      exact absurd counted (by decide)
    have all := few ⟨notOne, zero ▸ Nat.zero_le _⟩
    have more : Nat.factorial 66 ≤ size.factorial := Nat.factorial_le (Nat.lt_of_not_le many)
    exact absurd (more.trans ((factorial_le_prod member).trans all)) (by decide +kernel)
  · rintro few ⟨_, small⟩
    exact countedProduct_eq_of_le_limit few small ▸ small

end Sizes

/-! ### The orders that are tried -/

theorem length_insertEverywhere {Element : Type} (element : Element) (list : List Element) :
    (insertEverywhere element list).length = list.length + 1 := by
  induction list with
  | nil => rfl
  | cons first rest inductionHypothesis =>
    rw [insertEverywhere, List.length_cons, List.length_map, inductionHypothesis, List.length_cons]

theorem length_allOrders {Element : Type} (list : List Element) :
    (allOrders list).length = list.length.factorial := by
  induction list with
  | nil => rfl
  | cons first rest inductionHypothesis =>
    have each : ∀ order ∈ allOrders rest, (insertEverywhere first order).length = rest.length + 1 :=
      fun order tried => by
        rw [length_insertEverywhere, (mem_allOrders_iff.1 tried).length_eq]
    rw [allOrders, List.length_flatMap, List.map_congr_left each, List.map_const', List.sum_replicate,
      inductionHypothesis, List.length_cons, Nat.factorial_succ, smul_eq_mul, Nat.mul_comm]

/-- All orders of the groups are as many as the product of the factorials. -/
theorem length_groupOrders {Element : Type} (groups : List (List Element)) :
    (groupOrders groups).length = ((groups.map List.length).map Nat.factorial).prod := by
  induction groups with
  | nil => rfl
  | cons group rest inductionHypothesis =>
    have each : ∀ front ∈ allOrders group,
        ((groupOrders rest).map (front ++ ·)).length = (groupOrders rest).length :=
      fun _ _ => List.length_map _
    rw [groupOrders, List.length_flatMap, List.map_congr_left each, List.map_const',
      List.sum_replicate, inductionHypothesis, length_allOrders, smul_eq_mul]
    rfl

/-- All orders of the literals that tie are tried: there is more than one, and they count as few. -/
def TriesAllOrders (ls : List Literal) : Prop :=
  tieOrders ls ≠ 1 ∧ tieOrders ls ≤ maxTriedOrders

/-- The key is then the least text over all of these orders, and they are as many as there are. -/
theorem TriesAllOrders.canonicalKey_eq {ls : List Literal} (tries : TriesAllOrders ls) :
    canonicalKey ls = leastText ((groupOrders (tieGroups ls)).map keyInOrder) ∧
      (groupOrders (tieGroups ls)).length = tieProduct ls := by
  refine ⟨?_, (length_groupOrders _).trans (tieProduct_eq ls).symm⟩
  rw [ClausalReasoner.canonicalKey_eq, if_neg (UInt64.not_lt.2 tries.2)]
  rfl

/-- **The limit on ties holds for groups of up to 65 literals.** The number of orders of a group of
literals that tie is counted without overflow just if they are at most 20. The number that is
compared with the limit is the product of the factorials, or the largest word where that is no word,
just if all groups are that small or the product overflows all the same. All orders are tried only
where there are at most 720 of them just if no group has more than 65 members or the product
overflows. Otherwise there are groups that count as having no order, and the key is the least text
over all orders, however many they are. -/
theorem tieLimit_holds_iff (ls : List Literal) :
    (∀ size ∈ tieSizes ls, (orderCount size).toNat = size.factorial ↔ size ≤ 20) ∧
    ((tieOrders ls).toNat = rightCount (tieSizes ls) ↔
      (∀ size ∈ tieSizes ls, size ≤ 20) ∨ Overflows (tieSizes ls)) ∧
    ((TriesAllOrders ls → tieProduct ls ≤ 720) ↔
      (∀ size ∈ tieSizes ls, size ≤ 65) ∨ Overflows (tieSizes ls)) ∧
    (TriesAllOrders ls →
      canonicalKey ls = leastText ((groupOrders (tieGroups ls)).map keyInOrder) ∧
        (groupOrders (tieGroups ls)).length = tieProduct ls) :=
  ⟨fun _ _ => toNat_orderCount_eq_factorial_iff, toNat_tiedOrders_eq_rightCount_iff,
    tieProduct_eq ls ▸ few_of_tiedOrders_iff, TriesAllOrders.canonicalKey_eq⟩

/-! ### Interchangeable literals -/

/-- The variable `x` with an index. -/
def indexed (i : Nat) : Variable :=
  ⟨"x", some i⟩

/-- `Able(x)` for the variable with an index. -/
def indexedAble (i : Nat) : Literal :=
  .positive (.predicate "Able" [.var (indexed i)])

/-- `Able(x0)`, `Able(x1)` and so on. -/
def ableOnes (count : Nat) : List Literal :=
  (List.range count).map indexedAble

/-- To exchange two of the variables is to exchange two of the literals. -/
theorem indexedAble_swap (i j k : Nat) :
    (indexedAble k).replace (renamingBy (Equiv.swap (indexed i) (indexed j))) =
      indexedAble (Equiv.swap i j k) := by
  have injective : Function.Injective indexed := fun i j same => by simpa [indexed] using same
  show Literal.positive (.predicate "Able"
    [.var (Equiv.swap (indexed i) (indexed j) (indexed k))]) = _
  rw [injective.swap_apply]
  rfl

/-- Exchanging two of the variables makes the literals into themselves. -/
theorem variant_ableOnes {count i j : Nat} (first : i < count) (second : j < count) :
    Variant (Equiv.swap (indexed i) (indexed j)) (ableOnes count) (ableOnes count) := by
  refine ⟨fun v _ w _ same => (Equiv.swap _ _).injective same, ?_⟩
  have images : (ableOnes count).map (Literal.replace
      (renamingBy (Equiv.swap (indexed i) (indexed j)))) =
        ((List.range count).map (Equiv.swap i j)).map indexedAble := by
    rw [ableOnes, List.map_map, List.map_map]
    exact List.map_congr_left fun k _ => indexedAble_swap i j k
  have within : ∀ k, k < count → Equiv.swap i j k < count := by
    intro k below
    rw [Equiv.swap_apply_def]
    split_ifs <;> assumption
  have same : ∀ k, k ∈ List.range count ↔ k ∈ (List.range count).map (Equiv.swap i j) := by
    intro k
    simp only [List.mem_map, List.mem_range]
    constructor
    · exact fun below => ⟨_, within k below, Equiv.swap_apply_self i j k⟩
    · rintro ⟨m, below, rfl⟩
      exact within m below
  rw [images]
  exact ((List.perm_ext_iff_of_nodup List.nodup_range
    (List.nodup_range.map (Equiv.swap i j).injective)).2 same).map indexedAble

/-- All of the literals tie. -/
theorem tieSizes_ableOnes (count : Nat) : tieSizes (ableOnes (count + 1)) = [count + 1] := by
  let colors := Coloring.refined ((ableOnes (count + 1)).map ShapedLiteral.ofLiteral)
  have equal : ∀ l ∈ ableOnes (count + 1), l.rank colors = (indexedAble 0).rank colors := by
    intro l member
    obtain ⟨i, below, rfl⟩ := List.mem_map.1 member
    have ranks := (variant_ableOnes (List.mem_range.1 below) (Nat.succ_pos count)).rank_eq member
    rw [indexedAble_swap, Equiv.swap_apply_left] at ranks
    exact ranks.symm
  have ranks : (ableOnes (count + 1)).map (Literal.rank colors) =
      List.replicate (count + 1) ((indexedAble 0).rank colors) := by
    rw [List.map_congr_left equal, List.map_const', ableOnes, List.length_map, List.length_range]
  have sorted : sortedBy LiteralRank.order ((ableOnes (count + 1)).map (Literal.rank colors)) =
      List.replicate (count + 1) ((indexedAble 0).rank colors) := by
    rw [ranks]
    exact List.perm_replicate.1 (List.mergeSort_perm _ _)
  have together : (List.replicate (count + 1) ((indexedAble 0).rank colors)).splitBy
      (fun rank other => rank = other) = [List.replicate (count + 1) ((indexedAble 0).rank colors)] :=
    List.splitBy_of_isChain (List.cons_ne_nil _ _)
      (List.isChain_replicate_of_rel _ (decide_eq_true rfl))
  rw [tieSizes, tieGroups, map_length_tiedGroups, sorted, together, List.map_singleton,
    List.length_replicate]

/-- Three literals that tie have six orders. They are counted right, and all of them are tried. -/
theorem tieLimit_holds_ableOnes :
    TriesAllOrders (ableOnes 3) ∧
      (tieOrders (ableOnes 3)).toNat = rightCount (tieSizes (ableOnes 3)) ∧
      tieProduct (ableOnes 3) ≤ 720 ∧
      canonicalKey (ableOnes 3) = leastText ((groupOrders (tieGroups (ableOnes 3))).map keyInOrder) ∧
      (groupOrders (tieGroups (ableOnes 3))).length = tieProduct (ableOnes 3) := by
  have sizes : tieSizes (ableOnes 3) = [3] := tieSizes_ableOnes 2
  have six : tieOrders (ableOnes 3) = 6 := by
    show tiedOrders (tieSizes (ableOnes 3)) = 6
    rw [sizes]
    rfl
  have tries : TriesAllOrders (ableOnes 3) := ⟨by rw [six]; decide, by rw [six]; decide⟩
  have few : ∀ bound, 3 ≤ bound → ∀ size ∈ tieSizes (ableOnes 3), size ≤ bound := by
    rw [sizes]
    exact fun bound le => List.forall_mem_singleton.2 le
  obtain ⟨_, counted, limited, least⟩ := tieLimit_holds_iff (ableOnes 3)
  exact ⟨tries, counted.2 (Or.inl (few 20 (by decide))),
    limited.2 (Or.inl (few 65 (by decide))) tries, least tries⟩

/-- The limit does not hold for 66 literals that tie. They count as having no order, and the least of
the texts in all of their orders is looked for. -/
theorem not_tieLimit_ableOnes :
    tieOrders (ableOnes 66) = 0 ∧
      (tieOrders (ableOnes 66)).toNat ≠ rightCount (tieSizes (ableOnes 66)) ∧
      TriesAllOrders (ableOnes 66) ∧ tieProduct (ableOnes 66) = Nat.factorial 66 ∧
      ¬ tieProduct (ableOnes 66) ≤ 720 := by
  have sizes : tieSizes (ableOnes 66) = [66] := tieSizes_ableOnes 65
  have zero : tieOrders (ableOnes 66) = 0 := by
    show tiedOrders (tieSizes (ableOnes 66)) = 0
    rw [sizes]
    decide +kernel
  have product : tieProduct (ableOnes 66) = Nat.factorial 66 := by
    rw [tieProduct_eq, sizes]
    rfl
  refine ⟨zero, ?_, ⟨by rw [zero]; decide, by rw [zero]; decide⟩, product, ?_⟩
  · rw [zero, sizes]
    decide +kernel
  · rw [product]
    decide +kernel

end ClausalReasoner

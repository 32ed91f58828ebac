/-
This file shows that deduplication drops nothing but variants. If the literals that tie in a list
can be ordered in at most 720 ways, as counted without any bound on the numbers, all of these orders
are tried, and the key can be read back: each of two lists with one key is made from the other by a
replacement of variables, so that the replacements undo each other and rename the variables one to
one. A clause that a set or a queue refuses has the key of one that is there, and so does a clause
that is taken out in place of another one.
-/

import ClausalReasoner.Proofs.AlikeCollections
import Mathlib.Data.Nat.Factorial.Basic

namespace ClausalReasoner

/-! ### Counting orders -/

/-- The number of ways to order the literals that tie, group by group. -/
def tieProduct (ls : List Literal) : Nat :=
  let shaped := ls.map ShapedLiteral.ofLiteral
  ((tiedGroups (rankedLiterals (Coloring.refined shaped) shaped)).map
    fun group => group.length.factorial).prod

/-- The literals of a list that tie, group by group. -/
def tieGroups (ls : List Literal) : List (List Literal) :=
  let shaped := ls.map ShapedLiteral.ofLiteral
  tiedGroups (rankedLiterals (Coloring.refined shaped) shaped)

/-- The numbers of literals that tie. -/
def tieSizes (ls : List Literal) : List Nat :=
  (tieGroups ls).map List.length

theorem tieProduct_eq (ls : List Literal) :
    tieProduct ls = ((tieSizes ls).map Nat.factorial).prod := by
  rw [tieSizes, List.map_map]
  rfl

/-- The orders of a group are counted modulo the number of words. -/
theorem toNat_orderCount (n : Nat) : (orderCount n).toNat = n.factorial % UInt64.size := by
  induction n with
  | zero => rfl
  | succ n inductionHypothesis =>
    rw [orderCount_succ, UInt64.toNat_mul, inductionHypothesis, Nat.factorial_succ,
      Nat.mul_comm (n + 1)]
    exact (Nat.mul_mod _ _ _).symm

theorem factorial_lt_size_iff {n : Nat} : n.factorial < UInt64.size ↔ n ≤ 20 := by
  constructor
  · intro small
    by_contra large
    have more : Nat.factorial 21 ≤ n.factorial := Nat.factorial_le (Nat.lt_of_not_le large)
    exact absurd (more.trans_lt small) (by decide)
  · exact fun few => (Nat.factorial_le few).trans_lt (by decide)

/-- The orders of a group are counted right just if it has at most 20 members. -/
theorem toNat_orderCount_eq_factorial_iff {n : Nat} :
    (orderCount n).toNat = n.factorial ↔ n ≤ 20 := by
  rw [toNat_orderCount, Nat.mod_eq_iff_lt (by decide), factorial_lt_size_iff]

/-- Where the orders of each group are counted right, so is the product. -/
theorem countedProduct_eq {sizes : List Nat}
    (right : ∀ size ∈ sizes, (orderCount size).toNat = size.factorial) :
    countedProduct sizes = (sizes.map Nat.factorial).prod := by
  rw [countedProduct, List.map_congr_left right]

theorem prod_factorial_pos (sizes : List Nat) : 0 < (sizes.map Nat.factorial).prod :=
  List.prod_pos fun n member => by
    obtain ⟨size, _, rfl⟩ := List.mem_map.1 member
    exact size.factorial_pos

/-- A group has no more orders than all groups together. -/
theorem factorial_le_prod {sizes : List Nat} {size : Nat} (member : size ∈ sizes) :
    size.factorial ≤ (sizes.map Nat.factorial).prod :=
  Nat.le_of_dvd (prod_factorial_pos sizes) (List.dvd_prod (List.mem_map_of_mem member))

/-- The groups up to some place have no more orders than all groups together. -/
theorem prod_factorial_le_of_isPrefix {front sizes : List Nat} (isFront : front <+: sizes) :
    (front.map Nat.factorial).prod ≤ (sizes.map Nat.factorial).prod := by
  obtain ⟨rest, rfl⟩ := isFront
  rw [List.map_append, List.prod_append]
  exact Nat.le_mul_of_pos_right _ (prod_factorial_pos rest)

/-- A product of few orders is counted right in words. -/
theorem toNat_tiedOrders {sizes : List Nat} (few : (sizes.map Nat.factorial).prod ≤ 720) :
    (tiedOrders sizes).toNat = (sizes.map Nat.factorial).prod := by
  have right : ∀ size ∈ sizes, (orderCount size).toNat = size.factorial := fun size member =>
    toNat_orderCount_eq_factorial_iff.2
      (factorial_lt_size_iff.1 (((factorial_le_prod member).trans few).trans_lt (by decide)))
  have fits : ¬ Overflows sizes := by
    rintro ⟨front, isFront, large⟩
    rw [countedProduct_eq fun size member => right size (isFront.subset member)] at large
    exact absurd (large.trans ((prod_factorial_le_of_isPrefix isFront).trans few)) (by decide)
  rw [toNat_tiedOrders_of_not_overflows fits, countedProduct_eq right]

/-- All orders are tried when there are at most 720 of them. -/
theorem withinTieLimit_of_tieProduct_le {ls : List Literal} (few : tieProduct ls ≤ 720) :
    WithinTieLimit ls := by
  rw [tieProduct_eq] at few
  rw [WithinTieLimit, UInt64.le_iff_toNat_le]
  exact (toNat_tiedOrders few).trans_le few

/-! ### Lists with one key -/

section Lists

variable {rename : Variable → Variable} {ls ms : List Literal}

/-- The variables of a variant are the renamed ones, each from one variable only. -/
theorem Variant.bijOn (variant : Variant rename ls ms) :
    Set.BijOn rename {v | v ∈ Literal.occurrencesList ls} {v | v ∈ Literal.occurrencesList ms} := by
  have occurs : ∀ w, w ∈ Literal.occurrencesList ms ↔
      ∃ v ∈ Literal.occurrencesList ls, rename v = w := by
    intro w
    have renamed := (variant.perm.flatMap_right Literal.occurrences).mem_iff (a := w)
    rw [← List.mem_map, ← Literal.occurrencesList_renamingBy]
    exact renamed
  exact ⟨fun v here => (occurs _).2 ⟨v, here, rfl⟩,
    fun v here w there => variant.injective v here w there, fun w here => (occurs w).1 here⟩

/-- Lists of literals that are written alike are made from each other by renaming variables. -/
theorem exists_variant_of_keyInOrder_eq (same : keyInOrder ls = keyInOrder ms) :
    ∃ rename, Variant rename ls ms := by
  obtain ⟨forward, images⟩ := exists_replace_of_keyInOrder_eq same
  obtain ⟨back, returned⟩ := exists_replace_of_keyInOrder_eq same.symm
  have undone : ∀ l ∈ ls, (l.replace forward).replace back = l := by
    rw [← images, List.map_map] at returned
    exact List.map_inj_left.1 (returned.trans (List.map_id ls).symm)
  obtain ⟨rename, renames, injective⟩ := exists_rename_of_undone undone
  refine ⟨rename, injective, List.Perm.of_eq (images.symm.trans ?_)⟩
  exact List.map_congr_left fun l member => Literal.replace_congr fun v occurs =>
    renames v (Literal.mem_occurrencesList member occurs)

theorem exists_variant_of_canonicalKey_eq (few : tieProduct ls ≤ 720) (fewToo : tieProduct ms ≤ 720)
    (same : canonicalKey ls = canonicalKey ms) : ∃ rename, Variant rename ls ms := by
  obtain ⟨left, isLeft, leftText⟩ :=
    exists_perm_of_withinTieLimit (withinTieLimit_of_tieProduct_le few)
  obtain ⟨right, isRight, rightText⟩ :=
    exists_perm_of_withinTieLimit (withinTieLimit_of_tieProduct_le fewToo)
  obtain ⟨rename, injective, perm⟩ :=
    exists_variant_of_keyInOrder_eq (leftText.symm.trans (same.trans rightText))
  have occurs : ∀ {v}, v ∈ Literal.occurrencesList ls → v ∈ Literal.occurrencesList left :=
    (isLeft.symm.flatMap_right Literal.occurrences).mem_iff.1
  exact ⟨rename, fun v here w there => injective v (occurs here) w (occurs there),
    isRight.symm.trans (perm.trans (isLeft.map _))⟩

end Lists

/-! ### What deduplication drops -/

namespace Clause

/-- No more than 720 orders of the literals that tie are to be compared. -/
def HasFewOrders (c : Clause) : Prop :=
  tieProduct c.literals ≤ 720

theorem alike_of_key_eq {c d : Clause} (few : c.HasFewOrders) (fewToo : d.HasFewOrders)
    (same : c.key = d.key) : c.Alike d := by
  rw [key_eq, key_eq] at same
  exact exists_variant_of_canonicalKey_eq few fewToo same

end Clause

namespace ClauseQueue

variable {q : ClauseQueue} {c d : Clause}

theorem exists_key_push (q : ClauseQueue) (c : Clause) :
    c.key ∈ (q.push c).toList.map Clause.key := by
  cases known : q.contains c with
  | true =>
    rw [push, known, if_pos rfl]
    exact contains_iff.1 known
  | false => exact List.mem_map_of_mem ((mem_push known).2 (Or.inl rfl))

/-- No clause is lost when others are pushed. -/
theorem subset_push (q : ClauseQueue) (c : Clause) : q.toList ⊆ (q.push c).toList := by
  intro d member
  cases known : q.contains c with
  | true =>
    rw [push, known, if_pos rfl]
    exact member
  | false => exact (mem_push known).2 (Or.inr member)

theorem mem_of_mem_pushAll {cs : List Clause} (member : d ∈ (cs.foldl push q).toList) :
    d ∈ q.toList ∨ d ∈ cs := by
  induction cs generalizing q with
  | nil => exact Or.inl member
  | cons c rest inductionHypothesis =>
    rcases inductionHypothesis member with old | later
    · exact (mem_of_mem_push old).imp_right fun same => List.mem_cons.2 (Or.inl same)
    · exact Or.inr (List.mem_cons_of_mem c later)

/-- Of all clauses that are pushed the keys are there in the end. -/
theorem exists_key_pushAll {cs : List Clause} (member : c ∈ cs) :
    ∃ kept ∈ (cs.foldl push q).toList, kept.key = c.key := by
  induction cs generalizing q with
  | nil => exact absurd member List.not_mem_nil
  | cons d rest inductionHypothesis =>
    rcases List.mem_cons.1 member with rfl | later
    · obtain ⟨kept, inside, same⟩ := List.mem_map.1 (q.exists_key_push c)
      have stays : (q.push c).toList ⊆ (rest.foldl push (q.push c)).toList :=
        foldl_invariant (fun later : ClauseQueue => (q.push c).toList ⊆ later.toList)
          (fun later e _ kept => List.Subset.trans kept (later.subset_push e)) (List.Subset.refl _)
      exact ⟨kept, stays inside, same⟩
    · exact inductionHypothesis later

end ClauseQueue

/-- **Within the limit only variants have one key.** If the literals that tie can be ordered in at
most 720 ways on either side, lists of literals with one key are permutations of each other up to a
bijective renaming of variables. Of clauses with so few orders that are put into a set or a queue
each has a variant there in the end, and only variants are taken out in place of a clause. -/
theorem renaming_of_canonicalKey_eq {ls ms : List Literal} (few : tieProduct ls ≤ 720)
    (fewToo : tieProduct ms ≤ 720) (same : canonicalKey ls = canonicalKey ms)
    {s : ClauseSet} {q : ClauseQueue} {cs : List Clause}
    (allFew : ∀ c ∈ s.toList ++ q.toList ++ cs, c.HasFewOrders) :
    (∃ rename : Variable → Variable,
      Set.BijOn rename {v | v ∈ Literal.occurrencesList ls} {v | v ∈ Literal.occurrencesList ms} ∧
        ms.Perm (ls.map (Literal.replace (renamingBy rename)))) ∧
    (∀ c ∈ cs, ∃ kept ∈ (s.insertAll cs).toList, kept.Alike c) ∧
    (∀ c ∈ cs, ∃ kept ∈ (cs.foldl ClauseQueue.push q).toList, kept.Alike c) ∧
    (∀ c ∈ cs, ∀ d ∈ s.toList, d ∉ (s.erase c).toList → d.Alike c) ∧
    ∀ c ∈ cs, ∀ d ∈ q.toList, d ∉ (q.erase c).toList → d.Alike c := by
  have inSet : ∀ {c}, c ∈ s.toList → c.HasFewOrders := fun member =>
    allFew _ (List.mem_append_left _ (List.mem_append_left _ member))
  have inQueue : ∀ {c}, c ∈ q.toList → c.HasFewOrders := fun member =>
    allFew _ (List.mem_append_left _ (List.mem_append_right _ member))
  have given : ∀ {c}, c ∈ cs → c.HasFewOrders := fun member =>
    allFew _ (List.mem_append_right _ member)
  refine ⟨?_, fun c member => ?_, fun c member => ?_, fun c member d inside gone => ?_,
    fun c member d inside gone => ?_⟩
  · obtain ⟨rename, variant⟩ := exists_variant_of_canonicalKey_eq few fewToo same
    exact ⟨rename, variant.bijOn, variant.perm⟩
  · obtain ⟨kept, inside, sameKey⟩ := s.exists_key_insertAll member
    exact ⟨kept, inside, Clause.alike_of_key_eq
      ((ClauseSet.mem_of_mem_insertAll inside).elim inSet given) (given member) sameKey⟩
  · obtain ⟨kept, inside, sameKey⟩ := ClauseQueue.exists_key_pushAll member
    exact ⟨kept, inside, Clause.alike_of_key_eq
      ((ClauseQueue.mem_of_mem_pushAll inside).elim inQueue given) (given member) sameKey⟩
  · refine Clause.alike_of_key_eq (inSet inside) (given member)
      (not_not.1 fun different => gone ?_)
    exact ClauseSet.mem_erase.2 ⟨inside, different⟩
  · refine Clause.alike_of_key_eq (inQueue inside) (given member)
      (not_not.1 fun different => gone ?_)
    exact ClauseQueue.mem_erase.2 ⟨inside, different⟩

/-! ### The triangle again -/

theorem tieProduct_triangle : tieProduct triangle ≤ 720 ∧ tieProduct turnedTriangle ≤ 720 := by
  constructor <;> cbv

/-- The triangle and the turned one are the same up to renaming, and only one of them is kept. -/
theorem renaming_of_triangle :
    (∃ rename : Variable → Variable,
      Set.BijOn rename {v | v ∈ Literal.occurrencesList triangle}
        {v | v ∈ Literal.occurrencesList turnedTriangle} ∧
        turnedTriangle.Perm (triangle.map (Literal.replace (renamingBy rename)))) ∧
    ∀ c ∈ [Clause.ofLiterals triangle, Clause.ofLiterals turnedTriangle],
      ∃ kept ∈ ((∅ : ClauseSet).insertAll
        [Clause.ofLiterals triangle, Clause.ofLiterals turnedTriangle]).toList, kept.Alike c := by
  let queue : ClauseQueue := { heuristic := .fewestLiterals }
  have few : ∀ c ∈ (∅ : ClauseSet).toList ++ queue.toList ++
      [Clause.ofLiterals triangle, Clause.ofLiterals turnedTriangle], c.HasFewOrders :=
    List.forall_mem_cons.2 ⟨tieProduct_triangle.1,
      List.forall_mem_singleton.2 tieProduct_triangle.2⟩
  obtain ⟨renamed, kept, _⟩ := renaming_of_canonicalKey_eq tieProduct_triangle.1
    tieProduct_triangle.2 (canonicalKey_eq_of_variant variant_triangle).symm few
  exact ⟨renamed, kept⟩

end ClausalReasoner

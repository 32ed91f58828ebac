/-
This file shows that the key of a list of literals depends neither on the order of the literals nor
on the names of their variables. Colors are given to variables by looking at the places where they
stand, and the places of a renamed variable in reordered literals are those of the variable, in some
order; sorting takes the order away, so every round of refinement does the same on both sides. The
literals are then sorted by ranks that agree, and the orders that are tried are just those in which
the ranks stand in their sorted order. Hence the same texts are compared on both sides, with no limit
on how many these are: past the limit the texts are written with colors, which agree.
-/

import ClausalReasoner.Proofs.KeyOrders

namespace ClausalReasoner

/-! ### The orders that are tried -/

section Orders

variable {Element Kind : Type}

theorem mem_insertEverywhere (element : Element) (front back : List Element) :
    front ++ element :: back ∈ insertEverywhere element (front ++ back) := by
  induction front with
  | nil => cases back <;> exact List.mem_cons_self
  | cons first front inductionHypothesis =>
    exact List.mem_cons_of_mem _ (List.mem_map_of_mem inductionHypothesis)

/-- All orders of a list are tried. -/
theorem mem_allOrders_iff {list order : List Element} :
    order ∈ allOrders list ↔ order.Perm list := by
  refine ⟨perm_of_mem_allOrders, fun perm => ?_⟩
  induction list generalizing order with
  | nil => exact List.mem_singleton.2 perm.eq_nil
  | cons first rest inductionHypothesis =>
    obtain ⟨front, back, rfl⟩ := List.append_of_mem (perm.mem_iff.2 List.mem_cons_self)
    have others : (front ++ back).Perm rest :=
      List.Perm.cons_inv (List.perm_middle.symm.trans perm)
    exact List.mem_flatMap.2 ⟨_, inductionHypothesis others, mem_insertEverywhere first front back⟩

/-- A list of the kinds of two lists that have no kind in common consists of reorderings of the
two. -/
theorem exists_append_of_map_eq {kind : Element → Kind} {order group rest : List Element}
    (apart : ∀ a ∈ group, ∀ b ∈ rest, kind a ≠ kind b) (perm : order.Perm (group ++ rest))
    (same : order.map kind = (group ++ rest).map kind) :
    ∃ front back, order = front ++ back ∧ front.Perm group ∧ back.Perm rest ∧
      back.map kind = rest.map kind := by
  classical
  let front := order.take group.length
  let back := order.drop group.length
  have whole : front ++ back = order := List.take_append_drop _ _
  have sameFront : front.map kind = group.map kind := by
    rw [List.map_take, same, List.map_append]
    exact List.take_left' (List.length_map _)
  have sameBack : back.map kind = rest.map kind := by
    rw [List.map_drop, same, List.map_append]
    exact List.drop_left' (List.length_map _)
  -- The group takes up just the elements of its kinds, on either side.
  let isFirst : Element → Bool := fun element => decide (kind element ∈ group.map kind)
  have ofGroup : ∀ {list : List Element}, list.map kind = group.map kind →
      list.filter isFirst = list := fun equal =>
    List.filter_eq_self.2 fun _ member => decide_eq_true (equal ▸ List.mem_map_of_mem member)
  have ofRest : ∀ {list : List Element}, list.map kind = rest.map kind →
      list.filter isFirst = [] := by
    intro list equal
    refine List.filter_eq_nil_iff.2 fun element member isKind => ?_
    obtain ⟨a, inGroup, ofKind⟩ := List.mem_map.1 (of_decide_eq_true isKind)
    have inside : kind element ∈ rest.map kind := equal ▸ List.mem_map_of_mem member
    obtain ⟨b, inRest, sameKind⟩ := List.mem_map.1 inside
    exact apart a inGroup b inRest (ofKind.trans sameKind.symm)
  have permFront : front.Perm group := by
    have filtered := perm.filter isFirst
    rwa [← whole, List.filter_append, List.filter_append, ofGroup sameFront, ofRest sameBack,
      ofGroup rfl, ofRest rfl, List.append_nil, List.append_nil] at filtered
  refine ⟨front, back, whole.symm, permFront, ?_, sameBack⟩
  exact (List.perm_append_left_iff group).1
    ((permFront.symm.append_right back).trans (whole ▸ perm))

/-- When the groups are the classes of a function, the orders that are tried are those that leave the
values of the function as they are. -/
theorem mem_groupOrders_iff (kind : Element → Kind) {groups : List (List Element)}
    (alike : ∀ group ∈ groups, ∀ a ∈ group, ∀ b ∈ group, kind a = kind b)
    (different : groups.Pairwise fun group other => ∀ a ∈ group, ∀ b ∈ other, kind a ≠ kind b)
    {order : List Element} :
    order ∈ groupOrders groups ↔
      order.Perm groups.flatten ∧ order.map kind = groups.flatten.map kind := by
  induction groups generalizing order with
  | nil =>
    rw [groupOrders, List.mem_singleton, List.flatten_nil]
    exact ⟨fun none => none ▸ ⟨.refl _, rfl⟩, fun both => both.1.eq_nil⟩
  | cons group rest inductionHypothesis =>
    obtain ⟨here, later⟩ := List.forall_mem_cons.1 alike
    obtain ⟨apart, further⟩ := List.pairwise_cons.1 different
    rw [groupOrders, List.mem_flatMap, List.flatten_cons]
    constructor
    · rintro ⟨front, ordered, member⟩
      obtain ⟨back, inside, rfl⟩ := List.mem_map.1 member
      obtain ⟨perm, same⟩ := (inductionHypothesis later further).1 inside
      have permFront := perm_of_mem_allOrders ordered
      have sameFront : front.map kind = group.map kind := by
        refine List.ext_getElem (by simp [permFront.length_eq]) fun place first second => ?_
        rw [List.getElem_map, List.getElem_map]
        exact here _ (permFront.mem_iff.1 (List.getElem_mem _)) _ (List.getElem_mem _)
      refine ⟨permFront.append perm, ?_⟩
      rw [List.map_append, List.map_append, same, sameFront]
    · rintro ⟨perm, same⟩
      obtain ⟨front, back, rfl, permFront, permBack, sameBack⟩ := exists_append_of_map_eq
        (fun a inside b among =>
          let ⟨other, isGroup, inOther⟩ := List.mem_flatten.1 among
          apart other isGroup a inside b inOther) perm same
      exact ⟨front, mem_allOrders_iff.2 permFront, List.mem_map_of_mem
        ((inductionHypothesis later further).2 ⟨permBack, sameBack⟩)⟩

/-- Every order of the images of a list comes from an order of the list. -/
theorem exists_perm_of_perm_map {image : Element → Kind} {list : List Element} {order : List Kind}
    (perm : order.Perm (list.map image)) :
    ∃ original : List Element, original.Perm list ∧ original.map image = order := by
  induction list generalizing order with
  | nil => exact ⟨[], .refl _, perm.eq_nil.symm⟩
  | cons first rest inductionHypothesis =>
    obtain ⟨front, back, rfl⟩ := List.append_of_mem (perm.mem_iff.2 List.mem_cons_self)
    obtain ⟨others, permOthers, images⟩ :=
      inductionHypothesis (List.Perm.cons_inv (List.perm_middle.symm.trans perm))
    obtain ⟨before, after, rfl, rfl, rfl⟩ := List.map_eq_append_iff.1 images
    exact ⟨before ++ first :: after, List.perm_middle.trans (permOthers.cons first),
      by rw [List.map_append, List.map_cons]⟩

theorem groupOrders_of_length_le_one {groups : List (List Element)}
    (short : ∀ group ∈ groups, group.length ≤ 1) : groupOrders groups = [groups.flatten] := by
  induction groups with
  | nil => rfl
  | cons group rest inductionHypothesis =>
    obtain ⟨first, later⟩ := List.forall_mem_cons.1 short
    rw [groupOrders, inductionHypothesis later, List.flatten_cons]
    match group, first with
    | [], _ => rfl
    | [_], _ => rfl

theorem alike_of_mem_splitBy [DecidableEq Kind] (kind : Element → Kind) {list group : List Element}
    (member : group ∈ list.splitBy fun a b => kind a = kind b) :
    ∀ a ∈ group, ∀ b ∈ group, kind a = kind b := by
  have chained := List.isChain_of_mem_splitBy member
  have allEqual : group.Pairwise fun a b => kind a = kind b := by
    have : IsTrans Element fun a b => kind a = kind b := ⟨fun _ _ _ => Eq.trans⟩
    exact List.isChain_iff_pairwise.1 (chained.imp fun _ _ => of_decide_eq_true)
  have : Std.Symm fun a b => kind a = kind b := ⟨fun _ _ => Eq.symm⟩
  intro a inside b among
  exact allEqual.forall_of_forall (fun _ _ => rfl : ∀ x ∈ group, kind x = kind x) inside among

/-- Going over to images commutes with forming groups. -/
theorem map_splitBy {Other : Type} (image : Element → Other) (same : Other → Other → Bool)
    (list : List Element) : (list.map image).splitBy same =
      (list.splitBy fun a b => same (image a) (image b)).map (List.map image) := by
  refine List.splitBy_eq_iff.2 ⟨?_, ?_, ?_, ?_⟩
  · rw [← List.map_flatten, List.flatten_splitBy]
  · intro member
    obtain ⟨group, inside, isNil⟩ := List.mem_map.1 member
    rw [List.map_eq_nil_iff.1 isNil] at inside
    exact List.nil_notMem_splitBy _ _ inside
  · intro group member
    obtain ⟨group, inside, rfl⟩ := List.mem_map.1 member
    exact (List.isChain_map image).2 (List.isChain_of_mem_splitBy inside)
  · refine (List.isChain_map _).2 ((List.isChain_getLast_head_splitBy _ list).imp ?_)
    rintro group other ⟨nonempty, otherNonempty, different⟩
    refine ⟨fun none => nonempty (List.map_eq_nil_iff.1 none),
      fun none => otherNonempty (List.map_eq_nil_iff.1 none), ?_⟩
    rw [List.getLast_map, List.head_map]
    exact different

/-- In a sorted list the groups of neighbors of one kind are the classes of the kinds. -/
theorem pairwise_splitBy_of_sorted [DecidableEq Kind] (kind : Element → Kind)
    {order : Kind → Kind → Ordering} [Std.TransCmp order]
    (apart : ∀ a b, order (kind a) (kind b) = .eq → kind a = kind b) {list : List Element}
    (sorted : list.Pairwise fun a b => (order (kind a) (kind b)).isLE) :
    (list.splitBy fun a b => kind a = kind b).Pairwise fun group other =>
      ∀ a ∈ group, ∀ b ∈ other, kind a ≠ kind b := by
  have alike := fun group (member : group ∈ list.splitBy fun a b => kind a = kind b) =>
    alike_of_mem_splitBy kind member
  have nonempty := List.nil_notMem_splitBy (fun a b => decide (kind a = kind b)) list
  have neighbors := List.isChain_getLast_head_splitBy (fun a b => decide (kind a = kind b)) list
  have crossing := (List.pairwise_flatten.1
    ((List.flatten_splitBy (fun a b => decide (kind a = kind b)) list).symm ▸ sorted)).2
  generalize (list.splitBy fun a b => kind a = kind b) = groups at *
  induction groups with
  | nil => exact .nil
  | cons group rest inductionHypothesis =>
    obtain ⟨here, later⟩ := List.forall_mem_cons.1 alike
    obtain ⟨before, further⟩ := List.pairwise_cons.1 crossing
    refine List.pairwise_cons.2 ⟨fun other member a inside b among same => ?_,
      inductionHypothesis later (fun absent => nonempty (List.mem_cons_of_mem _ absent))
        neighbors.tail further⟩
    cases rest with
    | nil => exact absurd member List.not_mem_nil
    | cons next others =>
      obtain ⟨_, someNext, differ⟩ := neighbors.rel
      have isNext := List.head_mem someNext
      have notNext : kind a ≠ kind (next.head someNext) := fun equal =>
        of_decide_eq_false differ ((here _ (List.getLast_mem _) a inside).trans equal)
      rcases List.mem_cons.1 member with rfl | late
      · exact notNext (same.trans (later _ List.mem_cons_self b among _ isNext))
      · -- The next group lies between the two, so it would be of their kind.
        have le := before next List.mem_cons_self a inside _ isNext
        have ge := (List.pairwise_cons.1 further).1 other late _ isNext b among
        rw [← same] at ge
        exact notNext (apart _ _ (Std.OrientedCmp.isLE_antisymm le ge))

end Orders

/-! ### The least text -/

theorem leastText_le {texts : List String} {text : String} (member : text ∈ texts) :
    leastText texts ≤ text := by
  cases texts with
  | nil => exact absurd member List.not_mem_nil
  | cons first rest =>
    show rest.foldl _ first ≤ text
    induction rest generalizing first text with
    | nil => exact (List.mem_singleton.1 member) ▸ le_refl text
    | cons second rest inductionHypothesis =>
      rw [List.foldl_cons]
      have least : (if second < first then second else first) ≤ first ∧
          (if second < first then second else first) ≤ second := by
        split
        · next less => exact ⟨le_of_lt less, le_refl _⟩
        · next notLess => exact ⟨le_refl _, not_lt.1 notLess⟩
      have bound := inductionHypothesis (if second < first then second else first)
        List.mem_cons_self
      rcases List.mem_cons.1 member with rfl | later
      · exact le_trans bound least.1
      · rcases List.mem_cons.1 later with rfl | later
        · exact le_trans bound least.2
        · exact inductionHypothesis _ (List.mem_cons_of_mem _ later)

/-- The least text depends only on which texts there are. -/
theorem leastText_eq_of_mem_iff {texts others : List String} (some : texts ≠ [])
    (same : ∀ text, text ∈ texts ↔ text ∈ others) : leastText texts = leastText others := by
  have someOther : others ≠ [] := List.ne_nil_of_mem ((same _).1 (leastText_mem some))
  exact le_antisymm (leastText_le ((same _).2 (leastText_mem someOther)))
    (leastText_le ((same _).1 (leastText_mem some)))

/-! ### The number of orders -/

theorem orderCount_succ (n : Nat) : orderCount (n + 1) = orderCount n * (n + 1).toUInt64 := by
  rw [orderCount, List.range_succ, List.foldl_append]
  rfl

/-- More than one thing can be ordered in an even number of ways, also as counted in words. -/
theorem toNat_orderCount_even (n : Nat) : (orderCount (n + 2)).toNat % 2 = 0 := by
  induction n with
  | zero => decide
  | succ n inductionHypothesis =>
    rw [orderCount_succ, UInt64.toNat_mul, Nat.mod_mod_of_dvd _ (by decide), Nat.mul_mod,
      inductionHypothesis, Nat.zero_mul]

theorem length_le_one_of_orderCount {n : Nat} (one : orderCount n = 1) : n ≤ 1 := by
  match n, one with
  | 0, _ => decide
  | 1, _ => decide
  | n + 2, one =>
    have even := toNat_orderCount_even n
    rw [one] at even
    exact absurd even (by decide)

/-- The product of the numbers of orders, as they are counted in words. -/
def countedProduct (sizes : List Nat) : Nat :=
  (sizes.map fun size => (orderCount size).toNat).prod

@[simp]
theorem countedProduct_cons (size : Nat) (sizes : List Nat) :
    countedProduct (size :: sizes) = (orderCount size).toNat * countedProduct sizes :=
  List.prod_cons

/-- The groups up to some place, as counted, have more orders than there are words. -/
def Overflows (sizes : List Nat) : Prop :=
  ∃ front, front <+: sizes ∧ UInt64.size ≤ countedProduct front

/-- Multiply with the number of orders of one more group, if the product is a word. -/
def checkedTimes (product : Option UInt64) (size : Nat) : Option UInt64 :=
  product.bind fun soFar =>
    let next := soFar.toNat * (orderCount size).toNat
    if next < UInt64.size then some next.toUInt64 else none

theorem foldl_checkedTimes_none (sizes : List Nat) : sizes.foldl checkedTimes none = none := by
  induction sizes with
  | nil => rfl
  | cons size rest inductionHypothesis => exact inductionHypothesis

/-- Multiplying group by group gives up at the first product that is no word, and otherwise makes no
mistake. -/
theorem foldl_checkedTimes (sizes : List Nat) (start : UInt64) :
    ((∃ front, front <+: sizes ∧ UInt64.size ≤ start.toNat * countedProduct front) ∧
      sizes.foldl checkedTimes (some start) = none) ∨
    ((∀ front, front <+: sizes → start.toNat * countedProduct front < UInt64.size) ∧
      ∃ product, sizes.foldl checkedTimes (some start) = some product ∧
        product.toNat = start.toNat * countedProduct sizes) := by
  induction sizes generalizing start with
  | nil =>
    refine Or.inr ⟨fun front isFront => ?_, start, rfl, (Nat.mul_one _).symm⟩
    rw [List.prefix_nil.1 isFront]
    exact (Nat.mul_one _).symm ▸ start.toNat_lt_size
  | cons size rest inductionHypothesis =>
    rw [List.foldl_cons]
    by_cases fits : start.toNat * (orderCount size).toNat < UInt64.size
    · have next : checkedTimes (some start) size =
          some (start.toNat * (orderCount size).toNat).toUInt64 := if_pos fits
      have asNat : (start.toNat * (orderCount size).toNat).toUInt64.toNat =
          start.toNat * (orderCount size).toNat := UInt64.toNat_ofNat_of_lt' fits
      have later := inductionHypothesis (start.toNat * (orderCount size).toNat).toUInt64
      rw [← next, asNat] at later
      rcases later with ⟨⟨front, isFront, large⟩, stopped⟩ | ⟨small, product, folded, equal⟩
      · refine Or.inl ⟨⟨size :: front, List.cons_prefix_cons.2 ⟨rfl, isFront⟩, ?_⟩, stopped⟩
        rwa [countedProduct_cons, ← Nat.mul_assoc]
      · refine Or.inr ⟨fun front isFront => ?_, product, folded, ?_⟩
        · rcases List.prefix_cons_iff.1 isFront with rfl | ⟨others, rfl, inside⟩
          · exact (Nat.mul_one _).symm ▸ start.toNat_lt_size
          · rw [countedProduct_cons, ← Nat.mul_assoc]
            exact small others inside
        · rw [equal, countedProduct_cons, Nat.mul_assoc]
    · have next : checkedTimes (some start) size = none := if_neg fits
      refine Or.inl ⟨⟨[size], List.cons_prefix_cons.2 ⟨rfl, List.nil_prefix⟩, ?_⟩, ?_⟩
      · rw [countedProduct_cons]
        exact (Nat.mul_one (orderCount size).toNat).symm ▸ Nat.le_of_not_lt fits
      · rw [next, foldl_checkedTimes_none]

/-- The largest word stands for more orders than there are words. -/
theorem tiedOrders_of_overflows {sizes : List Nat} (overflows : Overflows sizes) :
    tiedOrders sizes = -1 := by
  have unfolded : tiedOrders sizes = (sizes.foldl checkedTimes (some 1)).getD (-1) := rfl
  obtain ⟨front, isFront, large⟩ := overflows
  obtain ⟨_, stopped⟩ | ⟨small, _⟩ := foldl_checkedTimes sizes 1
  · rw [unfolded, stopped]
    rfl
  · have less := small front isFront
    rw [show (1 : UInt64).toNat = 1 from rfl, Nat.one_mul] at less
    exact absurd large (Nat.not_le.2 less)

/-- Otherwise the number of orders is the product of those of the groups. -/
theorem toNat_tiedOrders_of_not_overflows {sizes : List Nat} (fits : ¬ Overflows sizes) :
    (tiedOrders sizes).toNat = countedProduct sizes := by
  have unfolded : tiedOrders sizes = (sizes.foldl checkedTimes (some 1)).getD (-1) := rfl
  have one : (1 : UInt64).toNat = 1 := rfl
  obtain ⟨⟨front, isFront, large⟩, _⟩ | ⟨_, product, folded, equal⟩ := foldl_checkedTimes sizes 1
  · rw [one, Nat.one_mul] at large
    exact absurd ⟨front, isFront, large⟩ fits
  · rw [unfolded, folded]
    rwa [one, Nat.one_mul] at equal

/-- There is only one order just when no group has more than one member. -/
theorem le_one_of_tiedOrders {sizes : List Nat} (one : tiedOrders sizes = 1) :
    ∀ size ∈ sizes, size ≤ 1 := by
  have fits : ¬ Overflows sizes := fun overflows =>
    absurd ((tiedOrders_of_overflows overflows).symm.trans one) (by decide)
  have product := toNat_tiedOrders_of_not_overflows fits
  rw [one] at product
  intro size member
  have divides : (orderCount size).toNat ∣ countedProduct sizes :=
    List.dvd_prod (List.mem_map_of_mem member)
  rw [← product] at divides
  exact length_le_one_of_orderCount (UInt64.toNat_inj.1 (Nat.dvd_one.1 divides))

/-! ### Renamed literals -/

/-- The replacement of variables by variables. -/
def renamingBy (rename : Variable → Variable) (v : Variable) : Term :=
  .var (rename v)

section Injective

variable {Element Other : Type} [DecidableEq Element] [DecidableEq Other] {image : Element → Other}

theorem idxOf_map_of_injective {list : List Element} {element : Element}
    (injective : ∀ a ∈ list, image a = image element → a = element) :
    (list.map image).idxOf (image element) = list.idxOf element := by
  induction list with
  | nil => rfl
  | cons first rest inductionHypothesis =>
    obtain ⟨here, later⟩ := List.forall_mem_cons.1 injective
    rw [List.map_cons, List.idxOf_cons, List.idxOf_cons, inductionHypothesis later]
    by_cases same : first = element
    · simp [same]
    · have different : image first ≠ image element := fun equal => same (here equal)
      simp [beq_eq_false_iff_ne.2 same, beq_eq_false_iff_ne.2 different]

theorem firstOccurrences_map_of_injective {list : List Element}
    (injective : ∀ a ∈ list, ∀ b ∈ list, image a = image b → a = b) :
    firstOccurrences (list.map image) = (firstOccurrences list).map image := by
  induction list with
  | nil => rfl
  | cons first rest inductionHypothesis =>
    have later := inductionHypothesis fun a here b there =>
      injective a (List.mem_cons_of_mem _ here) b (List.mem_cons_of_mem _ there)
    rw [List.map_cons, firstOccurrences, later, firstOccurrences, List.map_cons, List.filter_map]
    congr 2
    refine List.filter_congr fun a inside => ?_
    have member : a ∈ rest := mem_firstOccurrences.1 inside
    have same : image a = image first ↔ a = first :=
      ⟨injective a (List.mem_cons_of_mem _ member) first List.mem_cons_self, congrArg image⟩
    simp [same]

end Injective

section Renamed

variable {rename : Variable → Variable}

namespace Term

theorem occurrences_renamingBy (t : Term) :
    (t.replace (renamingBy rename)).occurrences = t.occurrences.map rename := by
  induction t with
  | constant name => rfl
  | var v => rfl
  | app function ts inductionHypothesis =>
    rw [replace, occurrences, occurrences, occurrencesList_eq_flatMap, occurrencesList_eq_flatMap,
      replaceList_eq_map, List.flatMap_map, List.map_flatMap]
    exact List.flatMap_congr inductionHypothesis

theorem keyTextList_eq_map (number : Variable → Nat) (ts : List Term) :
    keyTextList number ts = ts.map (keyText number) := by
  induction ts with
  | nil => rfl
  | cons t ts inductionHypothesis => rw [keyTextList, inductionHypothesis, List.map_cons]

theorem keyText_renamingBy {number other : Variable → Nat} {t : Term}
    (agree : ∀ v ∈ t.occurrences, other (rename v) = number v) :
    (t.replace (renamingBy rename)).keyText other = t.keyText number := by
  induction t with
  | constant name => rfl
  | var v =>
    rw [replace, renamingBy, keyText, keyText, agree v (List.mem_singleton_self v)]
  | app function ts inductionHypothesis =>
    rw [replace, keyText, keyText, keyTextList_eq_map, keyTextList_eq_map, replaceList_eq_map,
      List.map_map]
    congr 3
    refine List.map_congr_left fun t member => inductionHypothesis t member fun v occurs => ?_
    exact agree v (mem_occurrencesList.2 ⟨t, member, occurs⟩)

end Term

namespace Literal

variable {l : Literal}

theorem occurrences_renamingBy (l : Literal) :
    (l.replace (renamingBy rename)).occurrences = l.occurrences.map rename := by
  show Term.occurrencesList (l.atom.replace (renamingBy rename)).arguments = _
  rw [Atom.arguments_replace, Term.occurrencesList_eq_flatMap, Term.replaceList_eq_map,
    List.flatMap_map]
  show _ = (Term.occurrencesList l.atom.arguments).map rename
  rw [Term.occurrencesList_eq_flatMap, List.map_flatMap]
  exact List.flatMap_congr fun t _ => t.occurrences_renamingBy

theorem replace_renamingBy_id (l : Literal) : l.replace (renamingBy id) = l :=
  congrArg (mk · l.polarity l.reduced) (Atom.replace_var l.atom)

theorem keyText_renamingBy {number other : Variable → Nat}
    (agree : ∀ v ∈ l.occurrences, other (rename v) = number v) :
    (l.replace (renamingBy rename)).keyText other = l.keyText number := by
  have arguments : Term.keyTextList other (l.replace (renamingBy rename)).atom.arguments =
      Term.keyTextList number l.atom.arguments := by
    show Term.keyTextList other (l.atom.replace (renamingBy rename)).arguments = _
    rw [Atom.arguments_replace, Term.replaceList_eq_map, Term.keyTextList_eq_map,
      Term.keyTextList_eq_map, List.map_map]
    refine List.map_congr_left fun t member => Term.keyText_renamingBy fun v occurs => ?_
    exact agree v (Term.mem_occurrencesList.2 ⟨t, member, occurs⟩)
  rw [keyText, keyText, arguments]
  obtain ⟨a, polarity, reduced⟩ := l
  cases a <;> rfl

theorem shape_renamingBy
    (injective : ∀ v ∈ l.occurrences, ∀ w ∈ l.occurrences, rename v = rename w → v = w) :
    (l.replace (renamingBy rename)).shape = l.shape := by
  have arguments : (l.replace (renamingBy rename)).atom.arguments.map Term.shape =
      l.atom.arguments.map Term.shape := by
    show (l.atom.replace (renamingBy rename)).arguments.map Term.shape = _
    rw [Atom.arguments_replace, Term.replaceList_eq_map, List.map_map]
    exact List.map_congr_left fun t _ => Term.shape_replace (fun _ => rfl) t
  have pattern : (l.replace (renamingBy rename)).shape.pattern = l.shape.pattern := by
    show (l.replace (renamingBy rename)).occurrences.map
      (firstOccurrences (l.replace (renamingBy rename)).occurrences).idxOf =
        l.occurrences.map (firstOccurrences l.occurrences).idxOf
    rw [occurrences_renamingBy, firstOccurrences_map_of_injective injective, List.map_map]
    refine List.map_congr_left fun v occurs => idxOf_map_of_injective fun w inside same => ?_
    exact injective w (mem_firstOccurrences.1 inside) v occurs same
  rw [show l.shape = ⟨l.polarity, l.reduced, l.atom.isEquality, l.atom.symbol, l.atom.arity,
    l.atom.arguments.map Term.shape, l.shape.pattern⟩ from rfl, ← arguments, ← pattern]
  obtain ⟨a, polarity, reduced⟩ := l
  cases a with
  | predicate name ts =>
    show LiteralShape.mk _ _ _ _ (Term.replaceList (renamingBy rename) ts).length _ _ =
      LiteralShape.mk _ _ _ _ ts.length _ _
    rw [Term.length_replaceList]
    rfl
  | equality left right => rfl

theorem mem_occurrencesList {l : Literal} {ls : List Literal} (member : l ∈ ls) {v : Variable}
    (occurs : v ∈ l.occurrences) : v ∈ occurrencesList ls :=
  List.mem_flatMap.2 ⟨l, member, occurs⟩

theorem occurrencesList_renamingBy (ls : List Literal) :
    occurrencesList (ls.map (replace (renamingBy rename))) = (occurrencesList ls).map rename := by
  rw [occurrencesList, occurrencesList, List.flatMap_map, List.map_flatMap]
  exact List.flatMap_congr fun l _ => l.occurrences_renamingBy

end Literal

/-- The text of literals in an order does not depend on the names of their variables. -/
theorem keyInOrder_renamingBy {ls : List Literal}
    (injective : ∀ v ∈ Literal.occurrencesList ls, ∀ w ∈ Literal.occurrencesList ls,
      rename v = rename w → v = w) :
    keyInOrder (ls.map (Literal.replace (renamingBy rename))) = keyInOrder ls := by
  rw [keyInOrder, keyInOrder, Literal.varsList, Literal.varsList, Literal.occurrencesList_renamingBy,
    firstOccurrences_map_of_injective injective, List.map_map]
  refine congrArg _ (List.map_congr_left fun l member => Literal.keyText_renamingBy fun v occurs => ?_)
  have inside := Literal.mem_occurrencesList member occurs
  exact idxOf_map_of_injective fun w listed same =>
    injective w (mem_firstOccurrences.1 listed) v inside same

/-! ### Refining the colors of renamed variables -/

/-- Literals that are others with their variables renamed, in some order. -/
structure Variant (rename : Variable → Variable) (ls ms : List Literal) : Prop where
  injective : ∀ v ∈ Literal.occurrencesList ls, ∀ w ∈ Literal.occurrencesList ls,
    rename v = rename w → v = w
  perm : ms.Perm (ls.map (Literal.replace (renamingBy rename)))

variable {ls ms : List Literal}

/-- Renamed variables have the colors of the variables. -/
def Coloring.Agree (rename : Variable → Variable) (ls : List Literal) (colors others : Coloring) :
    Prop :=
  ∀ v ∈ Literal.occurrencesList ls, others.color (rename v) = colors.color v

namespace Coloring

variable {colors others : Coloring}

/-- The places of a variable in one literal. -/
def placesIn (colors : Coloring) (v : Variable) (l : Literal) : List OccurrencePlace :=
  l.occurrences.zipIdx.filterMap fun (w, position) =>
    if w = v then some ⟨l.shape, l.occurrences.map colors.color, position⟩ else none

theorem places_eq (colors : Coloring) (ls : List Literal) (v : Variable) :
    colors.places (ls.map ShapedLiteral.ofLiteral) v = ls.flatMap (colors.placesIn v) := by
  rw [places, List.flatMap_map]
  rfl

theorem isInLiteral_of_mem_places {ls : List Literal} {v : Variable} {p : OccurrencePlace}
    (member : p ∈ colors.places (ls.map ShapedLiteral.ofLiteral) v) : p.IsInLiteral := by
  rw [places_eq] at member
  obtain ⟨l, _, inside⟩ := List.mem_flatMap.1 member
  obtain ⟨⟨w, position⟩, _, found⟩ := List.mem_filterMap.1 inside
  dsimp only at found
  split at found
  · exact ⟨l, congrArg OccurrencePlace.shape (Option.some.inj found).symm⟩
  · exact absurd found nofun

theorem Agree.map_color (agree : Agree rename ls colors others) {l : Literal} (member : l ∈ ls) :
    (l.replace (renamingBy rename)).occurrences.map others.color =
      l.occurrences.map colors.color := by
  rw [Literal.occurrences_renamingBy, List.map_map]
  exact List.map_congr_left fun v occurs => agree v (Literal.mem_occurrencesList member occurs)

/-- A renamed variable stands in the same places, up to their order. -/
theorem Agree.perm_places (agree : Agree rename ls colors others) (variant : Variant rename ls ms)
    {v : Variable} (occurs : v ∈ Literal.occurrencesList ls) :
    (others.places (ms.map ShapedLiteral.ofLiteral) (rename v)).Perm
      (colors.places (ls.map ShapedLiteral.ofLiteral) v) := by
  rw [places_eq, places_eq]
  refine (variant.perm.flatMap_right _).trans (List.Perm.of_eq ?_)
  rw [List.flatMap_map]
  refine List.flatMap_congr fun l member => ?_
  have inside : ∀ {w}, w ∈ l.occurrences → w ∈ Literal.occurrencesList ls :=
    Literal.mem_occurrencesList member
  rw [placesIn, placesIn, agree.map_color member, Literal.shape_renamingBy
    fun w here u there => variant.injective w (inside here) u (inside there),
    Literal.occurrences_renamingBy, List.zipIdx_map, List.filterMap_map]
  refine List.filterMap_congr fun entry listed => ?_
  obtain ⟨w, position⟩ := entry
  have here : w ∈ l.occurrences := List.fst_mem_of_mem_zipIdx listed
  have same : rename w = rename v ↔ w = v :=
    ⟨variant.injective w (inside here) v occurs, congrArg rename⟩
  simp [same]

theorem Agree.signature_eq (agree : Agree rename ls colors others) (variant : Variant rename ls ms)
    {v : Variable} (occurs : v ∈ Literal.occurrencesList ls) :
    others.signature (ms.map ShapedLiteral.ofLiteral) (rename v) =
      colors.signature (ls.map ShapedLiteral.ofLiteral) v := by
  rw [signature, signature, agree v occurs, sortedBy_eq_of_perm (agree.perm_places variant occurs)
    fun p here q there => OccurrencePlace.eq_of_order (isInLiteral_of_mem_places here)
      (isInLiteral_of_mem_places there)]

theorem color_map (number : Variable → Nat) {vs : List Variable} {v : Variable} (listed : v ∈ vs) :
    color (vs.map fun w => (w, number w)) v = number v := by
  rw [color]
  induction vs with
  | nil => exact absurd listed List.not_mem_nil
  | cons w rest inductionHypothesis =>
    rw [List.map_cons, List.lookup_cons]
    by_cases same : v = w
    · simp [same]
    · rw [beq_eq_false_iff_ne.2 same]
      exact inductionHypothesis ((List.mem_cons.1 listed).resolve_left same)

/-- The refinement of colors that agree goes the same way. -/
theorem Agree.refineWithin (variant : Variant rename ls ms) {vs ws : List Variable}
    (listed : ∀ v, v ∈ vs ↔ v ∈ Literal.occurrencesList ls) (perm : ws.Perm (vs.map rename))
    (rounds classes : Nat) (agree : Agree rename ls colors others) :
    Agree rename ls
      (colors.refineWithin (ls.map ShapedLiteral.ofLiteral) vs rounds classes)
      (others.refineWithin (ms.map ShapedLiteral.ofLiteral) ws rounds classes) := by
  induction rounds generalizing colors others classes with
  | zero => exact agree
  | succ rounds inductionHypothesis =>
    have sorted : sortedBy VariableSignature.order ((vs.map fun v =>
          (v, colors.signature (ls.map ShapedLiteral.ofLiteral) v)).map (·.2)) =
        sortedBy VariableSignature.order ((ws.map fun w =>
          (w, others.signature (ms.map ShapedLiteral.ofLiteral) w)).map (·.2)) := by
      rw [List.map_map, List.map_map]
      refine sortedBy_eq_of_perm (List.Perm.symm ((perm.map _).trans (List.Perm.of_eq ?_)))
        fun first here second there => ?_
      · rw [List.map_map]
        exact List.map_congr_left fun v member => agree.signature_eq variant ((listed v).1 member)
      · obtain ⟨v, _, rfl⟩ := List.mem_map.1 here
        obtain ⟨w, _, rfl⟩ := List.mem_map.1 there
        have inLiteral : ∀ (u : Variable), ∀ p ∈
            (colors.signature (ls.map ShapedLiteral.ofLiteral) u).places, p.IsInLiteral :=
          fun u p inside => isInLiteral_of_mem_places ((perm_sortedBy _).mem_iff.1 inside)
        exact VariableSignature.eq_of_order (inLiteral v) (inLiteral w)
    rw [Coloring.refineWithin, Coloring.refineWithin, ← sorted]
    generalize firstOccurrences (sortedBy VariableSignature.order _) = kinds
    split
    · exact agree
    · refine inductionHypothesis _ fun v occurs => ?_
      have member : v ∈ vs := (listed v).2 occurs
      have image : rename v ∈ ws := perm.mem_iff.2 (List.mem_map_of_mem member)
      rw [List.map_map, List.map_map]
      refine (color_map _ image).trans (Eq.trans ?_ (color_map _ member).symm)
      exact congrArg kinds.idxOf (agree.signature_eq variant occurs)

/-- The refined colors of renamed variables are those of the variables. -/
theorem agree_refined (variant : Variant rename ls ms) :
    Agree rename ls (refined (ls.map ShapedLiteral.ofLiteral))
      (refined (ms.map ShapedLiteral.ofLiteral)) := by
  have occurrences : ∀ ls : List Literal,
      (ls.map ShapedLiteral.ofLiteral).flatMap (·.occurrences) = Literal.occurrencesList ls :=
    fun ls => List.flatMap_map ..
  have permOccurrences : (Literal.occurrencesList ms).Perm
      ((Literal.occurrencesList ls).map rename) :=
    Literal.occurrencesList_renamingBy ls ▸ variant.perm.flatMap_right _
  have perm : (firstOccurrences (Literal.occurrencesList ms)).Perm
      ((firstOccurrences (Literal.occurrencesList ls)).map rename) := by
    rw [← firstOccurrences_map_of_injective variant.injective]
    refine (List.perm_ext_iff_of_nodup (nodup_firstOccurrences _)
      (nodup_firstOccurrences _)).2 fun v => ?_
    rw [mem_firstOccurrences, mem_firstOccurrences, permOccurrences.mem_iff]
  have length := perm.length_eq
  rw [List.length_map] at length
  rw [refined, refined, occurrences, occurrences, length]
  refine Agree.refineWithin variant (fun v => mem_firstOccurrences) perm _ _ fun v occurs => ?_
  have member := mem_firstOccurrences.2 occurs
  rw [color_map (fun _ => 0) member,
    color_map (fun _ => 0) (perm.mem_iff.2 (List.mem_map_of_mem member))]

end Coloring

end Renamed

/-! ### The ranks of literals -/

/-- What a literal is sorted by. -/
def Literal.rank (colors : Coloring) (l : Literal) : LiteralRank :=
  ⟨l.shape, l.occurrences.map colors.color⟩

/-- The literals of a list in the order of their ranks. -/
def literalsByRank (colors : Coloring) (ls : List Literal) : List Literal :=
  (rankedLiterals colors (ls.map ShapedLiteral.ofLiteral)).map (·.2)

section Ranks

variable (colors : Coloring) (ls : List Literal)

theorem rankedLiterals_eq : rankedLiterals colors (ls.map ShapedLiteral.ofLiteral) =
    (literalsByRank colors ls).map fun l => (l.rank colors, l) := by
  rw [literalsByRank, List.map_map]
  refine (List.map_id _).symm.trans (List.map_congr_left fun entry member => ?_)
  rw [rankedLiterals, (perm_sortedBy _).mem_iff, List.map_map] at member
  obtain ⟨l, _, rfl⟩ := List.mem_map.1 member
  rfl

/-- The ranks of the sorted literals are the sorted ranks of the literals. -/
theorem map_rank_literalsByRank : (literalsByRank colors ls).map (Literal.rank colors) =
    sortedBy LiteralRank.order (ls.map (Literal.rank colors)) := by
  have first : (rankedLiterals colors (ls.map ShapedLiteral.ofLiteral)).map (·.1) =
      sortedBy LiteralRank.order (ls.map (Literal.rank colors)) := by
    rw [rankedLiterals, map_sortedBy LiteralRank.order Prod.fst _ fun _ _ => rfl, List.map_map,
      List.map_map]
    rfl
  rw [← first, rankedLiterals_eq, List.map_map]
  rfl

theorem tiedGroups_rankedLiterals :
    tiedGroups (rankedLiterals colors (ls.map ShapedLiteral.ofLiteral)) =
      (literalsByRank colors ls).splitBy fun l m => l.rank colors = m.rank colors := by
  rw [tiedGroups, rankedLiterals_eq, map_splitBy, List.map_map]
  refine (List.map_congr_left fun group _ => ?_).trans (List.map_id _)
  show (group.map fun l => (l.rank colors, l)).map (·.2) = group
  rw [List.map_map]
  exact List.map_id _

/-- The numbers of tied literals can be read off the sorted ranks. -/
theorem map_length_tiedGroups :
    (tiedGroups (rankedLiterals colors (ls.map ShapedLiteral.ofLiteral))).map List.length =
      ((sortedBy LiteralRank.order (ls.map (Literal.rank colors))).splitBy
        fun rank other => rank = other).map List.length := by
  rw [tiedGroups_rankedLiterals, ← map_rank_literalsByRank, map_splitBy, List.map_map]
  exact List.map_congr_left fun group _ => (List.length_map _).symm

/-- The orders of the literals that are tried are those in which the ranks are sorted. -/
theorem mem_groupOrders_tiedGroups {order : List Literal} :
    order ∈ groupOrders (tiedGroups (rankedLiterals colors (ls.map ShapedLiteral.ofLiteral))) ↔
      order.Perm ls ∧ order.map (Literal.rank colors) =
        sortedBy LiteralRank.order (ls.map (Literal.rank colors)) := by
  have sorted : (literalsByRank colors ls).Pairwise fun l m =>
      (LiteralRank.order (l.rank colors) (m.rank colors)).isLE := by
    have ranks : (sortedBy LiteralRank.order (ls.map (Literal.rank colors))).Pairwise
        fun rank other => (rank.order other).isLE := pairwise_sortedBy _
    rwa [← map_rank_literalsByRank, List.pairwise_map] at ranks
  rw [tiedGroups_rankedLiterals, mem_groupOrders_iff (Literal.rank colors)
    (fun group member => alike_of_mem_splitBy _ member)
    (pairwise_splitBy_of_sorted _ (fun _ _ => LiteralRank.eq_of_order) sorted),
    List.flatten_splitBy, map_rank_literalsByRank]
  have perm : (literalsByRank colors ls).Perm ls := perm_rankedLiterals colors ls
  exact and_congr_left fun _ => ⟨fun given => given.trans perm, fun given => given.trans perm.symm⟩

end Ranks

/-! ### Keys of renamed literals -/

/-- The key of literals is the least of the texts that are tried, or past the limit the text with
colors. That a single order is not compared with others makes no difference. -/
theorem canonicalKey_eq (ls : List Literal) :
    canonicalKey ls =
      if tieOrders ls > maxTriedOrders then
        keyByColors (Coloring.refined (ls.map ShapedLiteral.ofLiteral))
          (literalsByRank (Coloring.refined (ls.map ShapedLiteral.ofLiteral)) ls)
      else leastText ((groupOrders (tiedGroups (rankedLiterals
        (Coloring.refined (ls.map ShapedLiteral.ofLiteral))
        (ls.map ShapedLiteral.ofLiteral)))).map keyInOrder) := by
  have unfolded : canonicalKey ls =
      if tieOrders ls = 1 then
        keyInOrder (literalsByRank (Coloring.refined (ls.map ShapedLiteral.ofLiteral)) ls)
      else if tieOrders ls > maxTriedOrders then
        keyByColors (Coloring.refined (ls.map ShapedLiteral.ofLiteral))
          (literalsByRank (Coloring.refined (ls.map ShapedLiteral.ofLiteral)) ls)
      else leastText ((groupOrders (tiedGroups (rankedLiterals
        (Coloring.refined (ls.map ShapedLiteral.ofLiteral))
        (ls.map ShapedLiteral.ofLiteral)))).map keyInOrder) := rfl
  rw [unfolded]
  by_cases one : tieOrders ls = 1
  · have short : ∀ group ∈ tiedGroups (rankedLiterals
        (Coloring.refined (ls.map ShapedLiteral.ofLiteral)) (ls.map ShapedLiteral.ofLiteral)),
        group.length ≤ 1 :=
      fun group member => le_one_of_tiedOrders one _ (List.mem_map_of_mem member)
    rw [if_pos one, one, if_neg (by decide), groupOrders_of_length_le_one short, flatten_tiedGroups]
    rfl
  · rw [if_neg one]

/-- The text with colors sorts the literals anew. -/
theorem keyByColors_literalsByRank (colors : Coloring) (ls : List Literal) :
    keyByColors colors (literalsByRank colors ls) = keyByColors colors ls := by
  have sorted : sortedBy compare ((literalsByRank colors ls).map (Literal.keyText colors.color)) =
      sortedBy compare (ls.map (Literal.keyText colors.color)) :=
    sortedBy_eq_of_perm ((perm_rankedLiterals colors ls).map _)
      fun _ _ _ _ => Std.LawfulEqCmp.compare_eq_iff_eq.1
  rw [keyByColors, keyByColors, sorted]

section Invariance

variable {rename : Variable → Variable} {ls ms : List Literal}

namespace Variant

theorem refl (ls : List Literal) : Variant id ls ls := by
  refine ⟨fun _ _ _ _ same => same, List.Perm.of_eq ?_⟩
  exact ((List.map_congr_left fun l _ => l.replace_renamingBy_id).trans (List.map_id _)).symm

theorem rank_eq (variant : Variant rename ls ms) {l : Literal} (member : l ∈ ls) :
    (l.replace (renamingBy rename)).rank (Coloring.refined (ms.map ShapedLiteral.ofLiteral)) =
      l.rank (Coloring.refined (ls.map ShapedLiteral.ofLiteral)) := by
  rw [Literal.rank, Literal.rank, (Coloring.agree_refined variant).map_color member,
    Literal.shape_renamingBy fun v here w there =>
      variant.injective v (Literal.mem_occurrencesList member here) w
        (Literal.mem_occurrencesList member there)]

theorem sorted_ranks_eq (variant : Variant rename ls ms) :
    sortedBy LiteralRank.order
        (ms.map (Literal.rank (Coloring.refined (ms.map ShapedLiteral.ofLiteral)))) =
      sortedBy LiteralRank.order
        (ls.map (Literal.rank (Coloring.refined (ls.map ShapedLiteral.ofLiteral)))) := by
  refine sortedBy_eq_of_perm ((variant.perm.map _).trans (List.Perm.of_eq ?_))
    fun first here second there => ?_
  · rw [List.map_map]
    exact List.map_congr_left fun l member => variant.rank_eq member
  · obtain ⟨l, _, rfl⟩ := List.mem_map.1 here
    obtain ⟨m, _, rfl⟩ := List.mem_map.1 there
    exact LiteralRank.eq_of_order

theorem tieOrders_eq (variant : Variant rename ls ms) : tieOrders ms = tieOrders ls := by
  rw [tieOrders, tieOrders, map_length_tiedGroups, map_length_tiedGroups, variant.sorted_ranks_eq]

/-- Past the limit the texts with colors are the same. -/
theorem keyByColors_eq (variant : Variant rename ls ms) :
    keyByColors (Coloring.refined (ms.map ShapedLiteral.ofLiteral))
        (literalsByRank (Coloring.refined (ms.map ShapedLiteral.ofLiteral)) ms) =
      keyByColors (Coloring.refined (ls.map ShapedLiteral.ofLiteral))
        (literalsByRank (Coloring.refined (ls.map ShapedLiteral.ofLiteral)) ls) := by
  rw [keyByColors_literalsByRank, keyByColors_literalsByRank, keyByColors, keyByColors]
  congr 1
  refine sortedBy_eq_of_perm ((variant.perm.map _).trans (List.Perm.of_eq ?_))
    fun _ _ _ _ => Std.LawfulEqCmp.compare_eq_iff_eq.1
  rw [List.map_map]
  refine List.map_congr_left fun l member => Literal.keyText_renamingBy fun v occurs => ?_
  exact Coloring.agree_refined variant v (Literal.mem_occurrencesList member occurs)

end Variant

/-- **The key of literals depends neither on their order nor on the names of their variables.** -/
theorem canonicalKey_eq_of_variant (variant : Variant rename ls ms) :
    canonicalKey ms = canonicalKey ls := by
  rw [canonicalKey_eq, canonicalKey_eq, variant.tieOrders_eq]
  split
  · exact variant.keyByColors_eq
  · have renamed : ∀ {order : List Literal}, order.Perm ls →
        keyInOrder (order.map (Literal.replace (renamingBy rename))) = keyInOrder order ∧
          (order.map (Literal.replace (renamingBy rename))).map
              (Literal.rank (Coloring.refined (ms.map ShapedLiteral.ofLiteral))) =
            order.map (Literal.rank (Coloring.refined (ls.map ShapedLiteral.ofLiteral))) := by
      intro order perm
      have occurs : ∀ {v}, v ∈ Literal.occurrencesList order ↔ v ∈ Literal.occurrencesList ls :=
        (perm.flatMap_right _).mem_iff
      refine ⟨keyInOrder_renamingBy fun v here w there =>
        variant.injective v (occurs.1 here) w (occurs.1 there), ?_⟩
      rw [List.map_map]
      exact List.map_congr_left fun l member => variant.rank_eq (perm.mem_iff.1 member)
    refine leastText_eq_of_mem_iff (fun none => groupOrders_ne_nil _ (List.map_eq_nil_iff.1 none))
      fun text => ?_
    rw [List.mem_map, List.mem_map]
    constructor
    · rintro ⟨order, tried, rfl⟩
      rw [mem_groupOrders_tiedGroups, variant.sorted_ranks_eq] at tried
      obtain ⟨original, perm, rfl⟩ := exists_perm_of_perm_map (tried.1.trans variant.perm)
      obtain ⟨text, ranks⟩ := renamed perm
      exact ⟨original, (mem_groupOrders_tiedGroups _ _).2 ⟨perm, ranks ▸ tried.2⟩, text.symm⟩
    · rintro ⟨original, tried, rfl⟩
      rw [mem_groupOrders_tiedGroups] at tried
      obtain ⟨text, ranks⟩ := renamed tried.1
      refine ⟨_, (mem_groupOrders_tiedGroups _ _).2 ⟨?_, ?_⟩, text⟩
      · exact (tried.1.map _).trans variant.perm.symm
      · rw [variant.sorted_ranks_eq, ranks]
        exact tried.2

end Invariance

end ClausalReasoner

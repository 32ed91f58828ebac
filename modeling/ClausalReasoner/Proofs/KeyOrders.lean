/-
This file is about the orders by which keys are computed. Each of them is a total preorder, since it
compares lexicographically; for shapes of terms this is seen by writing a term as a list of symbols.
On the shapes of literals, in which all variables are blank, the orders tell different things apart.
So the sorted list of such things depends on which they are and not on the order they are given in.
-/

import ClausalReasoner.Proofs.KeySeparation

namespace ClausalReasoner

/-! ### Sorting -/

section Sorting

variable {Element Other : Type} {order : Element → Element → Ordering}

theorem perm_sortedBy (list : List Element) : (sortedBy order list).Perm list :=
  List.mergeSort_perm _ _

theorem pairwise_sortedBy [Std.TransCmp order] (list : List Element) :
    (sortedBy order list).Pairwise fun a b => (order a b).isLE := by
  refine List.pairwise_mergeSort (fun _ _ _ => Std.TransCmp.isLE_trans) (fun a b => ?_) list
  have swapped : order b a = (order a b).swap := Std.OrientedCmp.eq_swap
  rw [swapped]
  cases order a b <;> rfl

/-- Lists with the same members are sorted alike when the order tells the members apart. -/
theorem sortedBy_eq_of_perm [Std.TransCmp order] {list other : List Element}
    (perm : list.Perm other) (apart : ∀ a ∈ list, ∀ b ∈ list, order a b = .eq → a = b) :
    sortedBy order list = sortedBy order other := by
  refine List.Perm.eq_of_pairwise (fun a b here there le ge => apart a ?_ b ?_ ?_)
    (pairwise_sortedBy list) (pairwise_sortedBy other)
    ((perm_sortedBy list).trans (perm.trans (perm_sortedBy other).symm))
  · exact (perm_sortedBy list).mem_iff.1 here
  · exact perm.mem_iff.2 ((perm_sortedBy other).mem_iff.1 there)
  · exact Std.OrientedCmp.isLE_antisymm le ge

theorem map_sortedBy (others : Other → Other → Ordering) (image : Element → Other)
    (list : List Element) (same : ∀ a b, order a b = others (image a) (image b)) :
    (sortedBy order list).map image = sortedBy others (list.map image) :=
  List.map_mergeSort fun a _ b _ => congrArg Ordering.isLE (same a b)

/-- An order that compares images is as transitive as the order of the images. -/
theorem transCmp_comap {others : Other → Other → Ordering} [Std.TransCmp others]
    (image : Element → Other) : Std.TransCmp fun a b => others (image a) (image b) where
  eq_swap := Std.OrientedCmp.eq_swap
  isLE_trans := Std.TransCmp.isLE_trans

/-- Lists that count as equal are equal when their members are told apart. -/
theorem eq_of_compareLex {list other : List Element}
    (apart : ∀ a ∈ list, ∀ b ∈ other, order a b = .eq → a = b)
    (equal : List.compareLex order list other = .eq) : list = other := by
  induction list generalizing other with
  | nil =>
    cases other with
    | nil => rfl
    | cons b rest => exact absurd equal nofun
  | cons a list inductionHypothesis =>
    cases other with
    | nil => exact absurd equal nofun
    | cons b rest =>
      rw [List.compareLex_cons_cons, Ordering.then_eq_eq] at equal
      rw [apart a List.mem_cons_self b List.mem_cons_self equal.1,
        inductionHypothesis (fun a here b there =>
          apart a (List.mem_cons_of_mem _ here) b (List.mem_cons_of_mem _ there)) equal.2]

end Sorting

theorem numbersOrder_eq : numbersOrder = List.compareLex compare := by
  funext first second
  induction first generalizing second with
  | nil => cases second <;> rfl
  | cons m ms inductionHypothesis =>
    cases second with
    | nil => rfl
    | cons n ns => rw [numbersOrder, List.compareLex_cons_cons, inductionHypothesis]

instance : Std.TransCmp numbersOrder :=
  numbersOrder_eq ▸ inferInstance

theorem eq_of_numbersOrder {first second : List Nat} (equal : numbersOrder first second = .eq) :
    first = second :=
  eq_of_compareLex (fun _ _ _ _ same => Std.LawfulEqCmp.compare_eq_iff_eq.1 same)
    (numbersOrder_eq ▸ equal)

/-! ### Shapes of terms -/

namespace Term

mutual

/-- The symbols of a term in reading order. A variable is a mark, and the kinds of symbols are
numbered as they are ordered. -/
def shapeCode : Term → List (Nat × String)
  | .var _ => [(1, "")]
  | .app function ts => (2, function) :: shapeCodeList ts
  | .constant name => [(3, name)]

/-- The symbols of a list of terms, with a mark at the end. -/
def shapeCodeList : List Term → List (Nat × String)
  | [] => [(0, "")]
  | t :: ts => shapeCode t ++ shapeCodeList ts

end

/-- Symbols are ordered by kind, then name. -/
def codeOrder : Nat × String → Nat × String → Ordering :=
  compareLex (compareOn Prod.fst) (compareOn Prod.snd)

instance : Std.TransCmp codeOrder :=
  inferInstanceAs (Std.TransCmp (compareLex (compareOn Prod.fst) (compareOn Prod.snd)))

theorem codeOrder_of_kind_lt {m n : Nat} (lt : m < n) (a b : String) :
    codeOrder (m, a) (n, b) = .lt := by
  show (compare m n).then (compare a b) = .lt
  rw [Nat.compare_eq_lt.2 lt]
  rfl

theorem codeOrder_of_kind_gt {m n : Nat} (lt : n < m) (a b : String) :
    codeOrder (m, a) (n, b) = .gt := by
  show (compare m n).then (compare a b) = .gt
  rw [Nat.compare_eq_gt.2 lt]
  rfl

theorem codeOrder_of_kind_eq (n : Nat) (a b : String) : codeOrder (n, a) (n, b) = compare a b := by
  show (compare n n).then (compare a b) = compare a b
  rw [Nat.compare_eq_eq.2 rfl]
  rfl

theorem exists_shapeCode_eq_cons (t : Term) :
    ∃ kind name rest, 0 < kind ∧ t.shapeCode = (kind, name) :: rest := by
  cases t with
  | var v => exact ⟨1, "", [], by decide, by rw [shapeCode]⟩
  | app function ts => exact ⟨2, function, shapeCodeList ts, by decide, by rw [shapeCode]⟩
  | constant name => exact ⟨3, name, [], by decide, by rw [shapeCode]⟩

mutual

/-- Shapes are ordered as the symbols they consist of, whatever comes after them. -/
theorem compareLex_shapeCode (t u : Term) (first second : List (Nat × String)) :
    List.compareLex codeOrder (t.shapeCode ++ first) (u.shapeCode ++ second) =
      (t.shapeOrder u).then (List.compareLex codeOrder first second) := by
  match t, u with
  | .var v, .var w =>
    rw [shapeCode, shapeCode, List.singleton_append, List.singleton_append,
      List.compareLex_cons_cons, codeOrder_of_kind_eq]
    rfl
  | .var v, .app g us =>
    rw [shapeCode, shapeCode, List.singleton_append, List.cons_append,
      List.compareLex_cons_cons, codeOrder_of_kind_lt (by decide)]
    rfl
  | .var v, .constant b =>
    rw [shapeCode, shapeCode, List.singleton_append, List.singleton_append,
      List.compareLex_cons_cons, codeOrder_of_kind_lt (by decide)]
    rfl
  | .app f ts, .var w =>
    rw [shapeCode, shapeCode, List.singleton_append, List.cons_append,
      List.compareLex_cons_cons, codeOrder_of_kind_gt (by decide)]
    rfl
  | .app f ts, .app g us =>
    rw [shapeCode, shapeCode, List.cons_append, List.cons_append, List.compareLex_cons_cons,
      codeOrder_of_kind_eq, compareLex_shapeCodeList ts us first second, shapeOrder,
      Ordering.then_assoc]
  | .app f ts, .constant b =>
    rw [shapeCode, shapeCode, List.singleton_append, List.cons_append,
      List.compareLex_cons_cons, codeOrder_of_kind_lt (by decide)]
    rfl
  | .constant a, .var w =>
    rw [shapeCode, shapeCode, List.singleton_append, List.singleton_append,
      List.compareLex_cons_cons, codeOrder_of_kind_gt (by decide)]
    rfl
  | .constant a, .app g us =>
    rw [shapeCode, shapeCode, List.singleton_append, List.cons_append,
      List.compareLex_cons_cons, codeOrder_of_kind_gt (by decide)]
    rfl
  | .constant a, .constant b =>
    rw [shapeCode, shapeCode, List.singleton_append, List.singleton_append,
      List.compareLex_cons_cons, codeOrder_of_kind_eq, shapeOrder]

theorem compareLex_shapeCodeList (ts us : List Term) (first second : List (Nat × String)) :
    List.compareLex codeOrder (shapeCodeList ts ++ first) (shapeCodeList us ++ second) =
      (shapeOrderList ts us).then (List.compareLex codeOrder first second) := by
  match ts, us with
  | [], [] =>
    rw [shapeCodeList, List.singleton_append, List.singleton_append, List.compareLex_cons_cons,
      codeOrder_of_kind_eq, shapeOrderList]
    rfl
  | [], u :: us =>
    obtain ⟨kind, name, rest, positive, code⟩ := u.exists_shapeCode_eq_cons
    rw [shapeCodeList, shapeCodeList, code, List.singleton_append, List.cons_append,
      List.cons_append, List.compareLex_cons_cons, codeOrder_of_kind_lt positive, shapeOrderList]
    rfl
  | t :: ts, [] =>
    obtain ⟨kind, name, rest, positive, code⟩ := t.exists_shapeCode_eq_cons
    rw [shapeCodeList, shapeCodeList, code, List.singleton_append, List.cons_append,
      List.cons_append, List.compareLex_cons_cons, codeOrder_of_kind_gt positive, shapeOrderList]
    rfl
  | t :: ts, u :: us =>
    rw [shapeCodeList, shapeCodeList, List.append_assoc, List.append_assoc,
      compareLex_shapeCode t u, compareLex_shapeCodeList ts us, shapeOrderList, Ordering.then_assoc]

end

instance : Std.TransCmp shapeOrderList := by
  have same : shapeOrderList = fun ts us =>
      List.compareLex codeOrder (shapeCodeList ts) (shapeCodeList us) := by
    funext ts us
    have whole := compareLex_shapeCodeList ts us [] []
    rw [List.append_nil, List.append_nil] at whole
    rw [whole, List.compareLex_nil_nil, Ordering.then_eq]
  rw [same]
  exact transCmp_comap shapeCodeList

mutual

theorem shape_eq_of_shapeOrder {t u : Term} (equal : t.shapeOrder u = .eq) : t.shape = u.shape := by
  match t, u with
  | .var v, .var w => rfl
  | .var v, .app g us => exact absurd equal nofun
  | .var v, .constant b => exact absurd equal nofun
  | .app f ts, .var w => exact absurd equal nofun
  | .app f ts, .app g us =>
    rw [shapeOrder, Ordering.then_eq_eq] at equal
    rw [shape, shape, replace, replace, replaceList_eq_map, replaceList_eq_map,
      Std.LawfulEqCmp.compare_eq_iff_eq.1 equal.1]
    exact congrArg _ (map_shape_eq_of_shapeOrderList equal.2)
  | .app f ts, .constant b => exact absurd equal nofun
  | .constant a, .var w => exact absurd equal nofun
  | .constant a, .app g us => exact absurd equal nofun
  | .constant a, .constant b =>
    have names : compare a b = .eq := equal
    rw [Std.LawfulEqCmp.compare_eq_iff_eq.1 names]

theorem map_shape_eq_of_shapeOrderList {ts us : List Term} (equal : shapeOrderList ts us = .eq) :
    ts.map shape = us.map shape := by
  match ts, us with
  | [], [] => rfl
  | [], _ :: _ => exact absurd equal nofun
  | _ :: _, [] => exact absurd equal nofun
  | t :: ts, u :: us =>
    rw [shapeOrderList, Ordering.then_eq_eq] at equal
    rw [List.map_cons, List.map_cons, shape_eq_of_shapeOrder equal.1,
      map_shape_eq_of_shapeOrderList equal.2]

end

/-- The shape of a renamed term is that of the term. -/
theorem shape_replace {value : Variable → Term} (renames : ∀ v, (value v).shape = .var blank)
    (t : Term) : (t.replace value).shape = t.shape := by
  rw [shape, replace_replace]
  exact replace_congr fun v _ => renames v

end Term

/-! ### Shapes of literals, places and signatures -/

instance : Std.TransCmp (compare : Polarity → Polarity → Ordering) :=
  have : Std.TransCmp fun left right : Polarity => compare left.rank right.rank :=
    transCmp_comap Polarity.rank
  this

namespace LiteralShape

instance : Std.TransCmp order :=
  have : Std.TransCmp fun left right : LiteralShape => compare left.polarity right.polarity :=
    transCmp_comap polarity
  have : Std.TransCmp fun left right : LiteralShape => compare left.reduced right.reduced :=
    transCmp_comap reduced
  have : Std.TransCmp fun left right : LiteralShape => compare left.isEquality right.isEquality :=
    transCmp_comap isEquality
  have : Std.TransCmp fun left right : LiteralShape => compare left.symbol right.symbol :=
    transCmp_comap symbol
  have : Std.TransCmp fun left right : LiteralShape => compare left.arity right.arity :=
    transCmp_comap arity
  have : Std.TransCmp fun left right : LiteralShape =>
      Term.shapeOrderList left.arguments right.arguments := transCmp_comap arguments
  have : Std.TransCmp fun left right : LiteralShape => numbersOrder left.pattern right.pattern :=
    transCmp_comap pattern
  inferInstanceAs (Std.TransCmp (compareLex _ (compareLex _ (compareLex _ (compareLex _
    (compareLex _ (compareLex _ _)))))))

/-- Shapes of literals that count as equal are equal. -/
theorem eq_of_order {l m : Literal} (equal : l.shape.order m.shape = .eq) : l.shape = m.shape := by
  simp only [order, Ordering.then_eq_eq] at equal
  obtain ⟨polarity, reduced, isEquality, symbol, arity, arguments, pattern⟩ := equal
  have samePolarity : l.shape.polarity = m.shape.polarity := by
    have ranks : compare l.polarity.rank m.polarity.rank = .eq := polarity
    rw [Nat.compare_eq_eq] at ranks
    show l.polarity = m.polarity
    revert ranks
    cases l.polarity <;> cases m.polarity <;> decide
  have sameArguments : l.shape.arguments = m.shape.arguments := by
    have blank : ∀ k : Literal, k.shape.arguments.map Term.shape = k.shape.arguments := by
      intro k
      show (k.atom.arguments.map Term.shape).map Term.shape = k.atom.arguments.map Term.shape
      rw [List.map_map]
      exact List.map_congr_left fun t _ => Term.shape_replace (fun _ => rfl) t
    rw [← blank l, ← blank m, Term.map_shape_eq_of_shapeOrderList arguments]
  rw [show l.shape = ⟨_, _, _, _, _, _, _⟩ from rfl, show m.shape = ⟨_, _, _, _, _, _, _⟩ from rfl]
  congr 1
  · exact Std.LawfulEqCmp.compare_eq_iff_eq.1 reduced
  · exact Std.LawfulEqCmp.compare_eq_iff_eq.1 isEquality
  · exact Std.LawfulEqCmp.compare_eq_iff_eq.1 symbol
  · exact Std.LawfulEqCmp.compare_eq_iff_eq.1 arity
  · exact eq_of_numbersOrder pattern

end LiteralShape

namespace OccurrencePlace

instance : Std.TransCmp order :=
  have : Std.TransCmp fun left right : OccurrencePlace => left.shape.order right.shape :=
    transCmp_comap shape
  have : Std.TransCmp fun left right : OccurrencePlace => numbersOrder left.colors right.colors :=
    transCmp_comap colors
  have : Std.TransCmp fun left right : OccurrencePlace => compare left.position right.position :=
    transCmp_comap position
  inferInstanceAs (Std.TransCmp (compareLex _ (compareLex _ _)))

theorem orderList_eq : orderList = List.compareLex order := by
  funext first second
  induction first generalizing second with
  | nil => cases second <;> rfl
  | cons p ps inductionHypothesis =>
    cases second with
    | nil => rfl
    | cons q qs => rw [orderList, List.compareLex_cons_cons, inductionHypothesis]

instance : Std.TransCmp orderList :=
  orderList_eq ▸ inferInstance

/-- A place in a literal. -/
def IsInLiteral (p : OccurrencePlace) : Prop :=
  ∃ l : Literal, p.shape = l.shape

theorem eq_of_order {p q : OccurrencePlace} (here : p.IsInLiteral) (there : q.IsInLiteral)
    (equal : p.order q = .eq) : p = q := by
  obtain ⟨l, isShape⟩ := here
  obtain ⟨m, isOther⟩ := there
  obtain ⟨first, colors, position⟩ := p
  obtain ⟨second, otherColors, otherPosition⟩ := q
  simp only [order, Ordering.then_eq_eq] at equal isShape isOther
  obtain ⟨shapes, numbers, positions⟩ := equal
  rw [isShape, isOther] at shapes
  rw [isShape, isOther, LiteralShape.eq_of_order shapes, eq_of_numbersOrder numbers,
    Nat.compare_eq_eq.1 positions]

end OccurrencePlace

namespace VariableSignature

instance : Std.TransCmp order :=
  have : Std.TransCmp fun left right : VariableSignature => compare left.color right.color :=
    transCmp_comap color
  have : Std.TransCmp fun left right : VariableSignature =>
      OccurrencePlace.orderList left.places right.places := transCmp_comap places
  inferInstanceAs (Std.TransCmp (compareLex _ _))

theorem eq_of_order {left right : VariableSignature} (here : ∀ p ∈ left.places, p.IsInLiteral)
    (there : ∀ p ∈ right.places, p.IsInLiteral) (equal : left.order right = .eq) :
    left = right := by
  obtain ⟨color, places⟩ := left
  obtain ⟨otherColor, otherPlaces⟩ := right
  simp only [order, Ordering.then_eq_eq, OccurrencePlace.orderList_eq] at equal
  have samePlaces : places = otherPlaces := eq_of_compareLex (fun p inside q among =>
    OccurrencePlace.eq_of_order (here p inside) (there q among)) equal.2
  rw [Nat.compare_eq_eq.1 equal.1, samePlaces]

end VariableSignature

namespace LiteralRank

instance : Std.TransCmp order :=
  have : Std.TransCmp fun left right : LiteralRank => left.shape.order right.shape :=
    transCmp_comap shape
  have : Std.TransCmp fun left right : LiteralRank => numbersOrder left.colors right.colors :=
    transCmp_comap colors
  inferInstanceAs (Std.TransCmp (compareLex _ _))

theorem eq_of_order {l m : Literal} {colors others : List Nat}
    (equal : order ⟨l.shape, colors⟩ ⟨m.shape, others⟩ = .eq) :
    (⟨l.shape, colors⟩ : LiteralRank) = ⟨m.shape, others⟩ := by
  rw [order, Ordering.then_eq_eq] at equal
  have sameColors : colors = others := eq_of_numbersOrder equal.2
  rw [LiteralShape.eq_of_order equal.1, sameColors]

end LiteralRank

end ClausalReasoner

/-
This file shows how far keys tell lists of literals apart. As long as the literals that tie can be
ordered in no more ways than are all tried, the key of a list is the text of its literals in one of
their orders. Since such a text can be read in one way only, two lists with one key are then the
same up to the order of the literals and the names of the variables. Past the limit nothing is said:
variables are then written as colors, which need not tell them apart.
-/

import Mathlib.Data.List.SplitBy
import ClausalReasoner.Proofs.KeyText

namespace ClausalReasoner

/-! ### Every order that is tried is an order of the literals -/

section Orders

variable {Element : Type}

theorem perm_of_mem_insertEverywhere {element : Element} {list order : List Element}
    (member : order ∈ insertEverywhere element list) : order.Perm (element :: list) := by
  induction list generalizing order with
  | nil => rw [List.mem_singleton.1 member]
  | cons first rest inductionHypothesis =>
    rcases List.mem_cons.1 member with rfl | later
    · exact List.Perm.refl _
    · obtain ⟨inner, inside, rfl⟩ := List.mem_map.1 later
      exact ((inductionHypothesis inside).cons first).trans (List.Perm.swap element first rest)

theorem perm_of_mem_allOrders {list order : List Element} (member : order ∈ allOrders list) :
    order.Perm list := by
  induction list generalizing order with
  | nil => rw [List.mem_singleton.1 member]
  | cons first rest inductionHypothesis =>
    obtain ⟨inner, inside, placed⟩ := List.mem_flatMap.1 member
    exact (perm_of_mem_insertEverywhere placed).trans ((inductionHypothesis inside).cons first)

theorem perm_of_mem_groupOrders {groups : List (List Element)} {order : List Element}
    (member : order ∈ groupOrders groups) : order.Perm groups.flatten := by
  induction groups generalizing order with
  | nil => rw [List.mem_singleton.1 member, List.flatten_nil]
  | cons group rest inductionHypothesis =>
    obtain ⟨front, ordered, further⟩ := List.mem_flatMap.1 member
    obtain ⟨back, inside, rfl⟩ := List.mem_map.1 further
    rw [List.flatten_cons]
    exact (perm_of_mem_allOrders ordered).append (inductionHypothesis inside)

theorem insertEverywhere_ne_nil (element : Element) (list : List Element) :
    insertEverywhere element list ≠ [] := by
  cases list <;> exact List.cons_ne_nil _ _

theorem allOrders_ne_nil (list : List Element) : allOrders list ≠ [] := by
  induction list with
  | nil => exact List.cons_ne_nil _ _
  | cons first rest inductionHypothesis =>
    obtain ⟨order, member⟩ := List.exists_mem_of_ne_nil _ inductionHypothesis
    obtain ⟨placed, inside⟩ := List.exists_mem_of_ne_nil _ (insertEverywhere_ne_nil first order)
    exact List.ne_nil_of_mem (List.mem_flatMap.2 ⟨order, member, inside⟩)

theorem groupOrders_ne_nil (groups : List (List Element)) : groupOrders groups ≠ [] := by
  induction groups with
  | nil => exact List.cons_ne_nil _ _
  | cons group rest inductionHypothesis =>
    obtain ⟨front, ordered⟩ := List.exists_mem_of_ne_nil _ (allOrders_ne_nil group)
    obtain ⟨back, inside⟩ := List.exists_mem_of_ne_nil _ inductionHypothesis
    exact List.ne_nil_of_mem (List.mem_flatMap.2 ⟨front, ordered, List.mem_map_of_mem inside⟩)

end Orders

theorem flatten_tiedGroups (ranked : List (LiteralRank × Literal)) :
    (tiedGroups ranked).flatten = ranked.map (·.2) := by
  rw [tiedGroups, ← List.map_flatten, List.flatten_splitBy]

/-- Ranking literals changes their order only. -/
theorem perm_rankedLiterals (colors : Coloring) (ls : List Literal) :
    ((rankedLiterals colors (ls.map ShapedLiteral.ofLiteral)).map (·.2)).Perm ls := by
  rw [rankedLiterals, sortedBy]
  refine ((List.mergeSort_perm _ _).map Prod.snd).trans (List.Perm.of_eq ?_)
  rw [List.map_map, List.map_map]
  exact (List.map_congr_left fun l _ => rfl).trans (List.map_id ls)

theorem leastText_mem {texts : List String} (some : texts ≠ []) : leastText texts ∈ texts := by
  cases texts with
  | nil => exact absurd rfl some
  | cons first rest =>
    show rest.foldl _ first ∈ first :: rest
    clear some
    induction rest generalizing first with
    | nil => exact List.mem_cons_self
    | cons second rest inductionHypothesis =>
      rw [List.foldl_cons]
      split
      · exact List.mem_cons_of_mem _ (inductionHypothesis second)
      · rcases List.mem_cons.1 (inductionHypothesis first) with here | later
        · exact List.mem_cons.2 (Or.inl here)
        · exact List.mem_cons_of_mem _ (List.mem_cons_of_mem _ later)

/-! ### Keys within the limit -/

/-- The number of orders among which the key of literals has to choose. -/
def tieOrders (ls : List Literal) : UInt64 :=
  let shaped := ls.map ShapedLiteral.ofLiteral
  tiedOrders ((tiedGroups (rankedLiterals (Coloring.refined shaped) shaped)).map List.length)

/-- The literals that tie can be ordered in no more ways than are all tried. -/
def WithinTieLimit (ls : List Literal) : Prop :=
  tieOrders ls ≤ maxTriedOrders

instance (ls : List Literal) : Decidable (WithinTieLimit ls) :=
  inferInstanceAs (Decidable (tieOrders ls ≤ maxTriedOrders))

/-- The key of literals is their text in one of their orders, or past the limit the text in which
the variables are written as colors. -/
theorem exists_order_of_canonicalKey (ls : List Literal) :
    ∃ order, order.Perm ls ∧ (canonicalKey ls = keyInOrder order ∨
      ¬ WithinTieLimit ls ∧
        canonicalKey ls = keyByColors (Coloring.refined (ls.map ShapedLiteral.ofLiteral)) order) := by
  let shaped := ls.map ShapedLiteral.ofLiteral
  let ranked := rankedLiterals (Coloring.refined shaped) shaped
  have isRanked : (ranked.map (·.2)).Perm ls := perm_rankedLiterals _ ls
  have unfolded : canonicalKey ls =
      if tieOrders ls = 1 then keyInOrder (ranked.map (·.2))
      else if tieOrders ls > maxTriedOrders then
        keyByColors (Coloring.refined shaped) (ranked.map (·.2))
      else leastText ((groupOrders (tiedGroups ranked)).map keyInOrder) := rfl
  rw [unfolded]
  split
  · exact ⟨_, isRanked, Or.inl rfl⟩
  · split
    · next past => exact ⟨_, isRanked, Or.inr ⟨UInt64.not_le.2 past, rfl⟩⟩
    · have some : (groupOrders (tiedGroups ranked)).map keyInOrder ≠ [] :=
        fun none => groupOrders_ne_nil _ (List.map_eq_nil_iff.1 none)
      obtain ⟨order, member, text⟩ := List.mem_map.1 (leastText_mem some)
      refine ⟨order, (perm_of_mem_groupOrders member).trans ?_, Or.inl text.symm⟩
      rw [flatten_tiedGroups]
      exact isRanked

/-- Within the limit the key of literals is their text in one of their orders. -/
theorem exists_perm_of_withinTieLimit {ls : List Literal} (within : WithinTieLimit ls) :
    ∃ order, order.Perm ls ∧ canonicalKey ls = keyInOrder order := by
  obtain ⟨order, isOrder, text | ⟨past, _⟩⟩ := exists_order_of_canonicalKey ls
  · exact ⟨order, isOrder, text⟩
  · exact absurd within past

/-- Within the limit and past it the key of literals consists of a text for each of them. -/
theorem exists_texts_of_canonicalKey (ls : List Literal) :
    ∃ (number : Variable → Nat) (texts : List String),
      texts.Perm (ls.map (Literal.keyText number)) ∧ canonicalKey ls = String.join texts := by
  obtain ⟨order, isOrder, text | ⟨_, text⟩⟩ := exists_order_of_canonicalKey ls
  · exact ⟨_, _, isOrder.map _, text.trans (intercalate_empty_eq_join _)⟩
  · exact ⟨_, _, (List.mergeSort_perm _ _).trans (isOrder.map _),
      text.trans (intercalate_empty_eq_join _)⟩

/-! ### Literals up to order and names of variables -/

/-- A replacement of variables makes one list of literals into another, up to order. -/
def Covers (ls ms : List Literal) : Prop :=
  ∃ value : Variable → Term, (ls.map (Literal.replace value)).Perm ms

namespace Covers

variable {ls ms ks : List Literal}

theorem refl (ls : List Literal) : Covers ls ls := by
  refine ⟨.var, List.Perm.of_eq ?_⟩
  refine (List.map_congr_left fun l _ => ?_).trans (List.map_id ls)
  rw [Literal.replace, Atom.replace_var]
  rfl

theorem trans (first : Covers ls ms) (second : Covers ms ks) : Covers ls ks := by
  obtain ⟨value, here⟩ := first
  obtain ⟨next, there⟩ := second
  refine ⟨fun v => (value v).replace next, List.Perm.trans ?_ there⟩
  have both := here.map (Literal.replace next)
  rw [List.map_map] at both
  exact (List.Perm.of_eq (List.map_congr_left fun l _ => (l.replace_replace value next).symm)).trans
    both

theorem length_eq (covers : Covers ls ms) : ls.length = ms.length := by
  obtain ⟨value, perm⟩ := covers
  rw [← perm.length_eq, List.length_map]

end Covers

/-- Within the limit lists of literals with one key are the same up to order and names. -/
theorem covers_of_canonicalKey_eq {ls ms : List Literal} (first : WithinTieLimit ls)
    (second : WithinTieLimit ms) (same : canonicalKey ls = canonicalKey ms) : Covers ls ms := by
  obtain ⟨left, isLeft, leftText⟩ := exists_perm_of_withinTieLimit first
  obtain ⟨right, isRight, rightText⟩ := exists_perm_of_withinTieLimit second
  obtain ⟨value, equal⟩ :=
    exists_replace_of_keyInOrder_eq (leftText.symm.trans (same.trans rightText))
  refine ⟨value, (isLeft.map (Literal.replace value)).symm.trans ?_⟩
  rw [equal]
  exact isRight

/-! ### Keys of single literals -/

theorem withinTieLimit_singleton (l : Literal) : WithinTieLimit [l] := by
  have one : tieOrders [l] = 1 := by
    rw [tieOrders, rankedLiterals, List.map_singleton, List.map_singleton, sortedBy,
      List.mergeSort_singleton]
    rfl
  rw [WithinTieLimit, one]
  decide

/-- The key of a single literal is only that of single literals, which are the same when their
variables are numbered. -/
theorem exists_singleton_of_canonicalKey_eq {ls : List Literal} {l : Literal}
    (same : canonicalKey ls = canonicalKey [l]) : ∃ (m : Literal) (number other : Variable → Nat),
      ls = [m] ∧ m.replace (byNumber number) = l.replace (byNumber other) := by
  obtain ⟨number, texts, isTexts, joined⟩ := exists_texts_of_canonicalKey ls
  obtain ⟨other, alone, isAlone, joinedAlone⟩ := exists_texts_of_canonicalKey [l]
  obtain rfl : alone = [l.keyText other] := List.perm_singleton.1 isAlone
  have characters : (String.join texts).toList = (l.keyText other).toList ++ [] := by
    rw [← joined, same, joinedAlone, String.join_cons, String.toList_append]
    rfl
  cases texts with
  | nil => exact absurd characters.symm (l.toList_keyText_append_ne_nil other [])
  | cons first rest =>
    obtain ⟨m, member, rfl⟩ := List.mem_map.1 (isTexts.subset List.mem_cons_self)
    rw [String.join_cons, String.toList_append] at characters
    obtain ⟨equal, nothing⟩ := Literal.keyText_append_inj characters
    have noRest : rest = [] := by
      cases rest with
      | nil => rfl
      | cons second rest =>
        obtain ⟨k, _, rfl⟩ :=
          List.mem_map.1 (isTexts.subset (List.mem_cons_of_mem _ List.mem_cons_self))
        rw [String.join_cons, String.toList_append] at nothing
        exact absurd nothing (k.toList_keyText_append_ne_nil number _)
    rw [noRest] at isTexts
    obtain ⟨k, rfl⟩ := List.length_eq_one_iff.1
      ((List.length_map _).symm.trans isTexts.length_eq.symm)
    obtain rfl := List.mem_singleton.1 member
    exact ⟨m, number, other, rfl, equal⟩

end ClausalReasoner

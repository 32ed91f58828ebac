/-
This file shows that what is inferred from clauses is determined up to the key. Which copies of two
clauses are resolved, and in which order two literals are unified, changes nothing but the names of
the variables in the result: unifiers of equations that correspond to each other are instances of
each other, so each of the results is made from the other by a replacement, and replacements that
undo each other on literals rename their variables. A copy of a clause has the key of the clause for
the same reason. Hence the resolvents of two clauses and the results of merging literals can be
spoken of without the copies and the order in which they are formed.
-/

import ClausalReasoner.Proofs.FactorClosure
import ClausalReasoner.Proofs.KeyInvariance

namespace ClausalReasoner

/-! ### Replacements that can be undone -/

/-- A replacement that keeps a literal keeps its variables. -/
theorem Literal.eq_var_of_replace_eq_self {value : Variable → Term} {l : Literal}
    (kept : l.replace value = l) {v : Variable} (occurs : v ∈ l.occurrences) :
    value v = .var v :=
  Atom.eq_of_replace_eq ((congrArg Literal.atom kept).trans l.atom.replace_var.symm) occurs

section Undone

variable {ls ms : List Literal} {forward back : Variable → Term}

/-- A replacement that can be undone on literals renames their variables. -/
theorem exists_rename_of_undone (undone : ∀ l ∈ ls, (l.replace forward).replace back = l) :
    ∃ rename : Variable → Variable,
      (∀ v ∈ Literal.occurrencesList ls, forward v = renamingBy rename v) ∧
      ∀ v ∈ Literal.occurrencesList ls, ∀ w ∈ Literal.occurrencesList ls,
        rename v = rename w → v = w := by
  have returns : ∀ v ∈ Literal.occurrencesList ls, (forward v).replace back = .var v := by
    intro v occurs
    obtain ⟨l, member, inside⟩ := List.mem_flatMap.1 occurs
    have kept : l.replace (fun v => (forward v).replace back) = l :=
      (l.replace_replace forward back).symm.trans (undone l member)
    exact Literal.eq_var_of_replace_eq_self kept inside
  have renames : ∀ v ∈ Literal.occurrencesList ls,
      forward v = renamingBy (fun v => (forward v).asVariable?.getD v) v := by
    intro v occurs
    have returns := returns v occurs
    rw [renamingBy]
    cases image : forward v with
    | var w => rfl
    | constant name =>
      rw [image] at returns
      cases returns
    | app function ts =>
      rw [image] at returns
      cases returns
  refine ⟨_, renames, fun v here w there same => ?_⟩
  have equal : forward v = forward w := by
    rw [renames v here, renames w there, renamingBy, renamingBy, same]
  have returned := returns v here
  rw [equal, returns w there] at returned
  exact (Term.var.inj returned).symm

/-- Literals that a replacement makes from others have their key if it can be undone, whatever their
order and however often each of them occurs. -/
theorem canonicalKey_eq_of_undone (undone : ∀ l ∈ ls, (l.replace forward).replace back = l)
    (same : ∀ m, m ∈ ms ↔ m ∈ ls.map (Literal.replace forward)) :
    canonicalKey (firstOccurrences ms) = canonicalKey (firstOccurrences ls) := by
  obtain ⟨rename, renames, injective⟩ := exists_rename_of_undone undone
  have onLiterals : ∀ l ∈ ls, ∀ m ∈ ls, l.replace forward = m.replace forward → l = m := by
    intro l here m there equal
    rw [← undone l here, equal, undone m there]
  have occurs : ∀ {v}, v ∈ Literal.occurrencesList (firstOccurrences ls) →
      v ∈ Literal.occurrencesList ls := by
    intro v inside
    obtain ⟨l, member, here⟩ := List.mem_flatMap.1 inside
    exact Literal.mem_occurrencesList (mem_firstOccurrences.1 member) here
  have perm : (firstOccurrences ms).Perm (firstOccurrences (ls.map (Literal.replace forward))) :=
    (List.perm_ext_iff_of_nodup (nodup_firstOccurrences _) (nodup_firstOccurrences _)).2 fun m => by
      rw [mem_firstOccurrences, mem_firstOccurrences, same]
  have images : (firstOccurrences ls).map (Literal.replace forward) =
      (firstOccurrences ls).map (Literal.replace (renamingBy rename)) :=
    List.map_congr_left fun l member => Literal.replace_congr fun v inside =>
      renames v (Literal.mem_occurrencesList (mem_firstOccurrences.1 member) inside)
  rw [firstOccurrences_map_of_injective onLiterals, images] at perm
  have variant : Variant rename (firstOccurrences ls) (firstOccurrences ms) :=
    ⟨fun v here w there => injective v (occurs here) w (occurs there), perm⟩
  exact canonicalKey_eq_of_variant variant

end Undone

namespace Clause

variable {copy c d : Clause}

theorem CopyOf.symm (isCopy : copy.CopyOf c) : c.CopyOf copy :=
  Literal.AreVariants.symm isCopy

theorem CopyOf.trans (first : copy.CopyOf c) (second : c.CopyOf d) : copy.CopyOf d :=
  Literal.AreVariants.trans second first

/-- A copy has the key of the clause. -/
theorem CopyOf.key_eq (isCopy : copy.CopyOf c) : copy.key = c.key := by
  obtain ⟨forward, back, literals, undone⟩ := isCopy
  have same : ∀ m, m ∈ copy.literals ↔ m ∈ c.literals.map (Literal.replace forward) :=
    fun m => by rw [literals]
  have equal := canonicalKey_eq_of_undone undone same
  rwa [firstOccurrences_of_nodup copy.distinct, firstOccurrences_of_nodup c.distinct,
    ← copy.key_eq, ← c.key_eq] at equal

end Clause

/-! ### Unifiers of corresponding equations -/

/-- Substitutions correspond under a change of variables when each is respected by the other after
the change. -/
structure Substitution.Correspond (forth back : Variable → Term) (θ later : Substitution) :
    Prop where
  forward : Respects (fun v => (forth v).replace later.value) θ
  backward : Respects (fun v => (back v).replace θ.value) later

section Corresponding

variable {ks ms : List Literal} {forth back : Variable → Term} {θ later : Substitution}

/-- Corresponding substitutions make variants from literals and what a change of variables makes of
them. -/
theorem Substitution.Correspond.areVariants (correspond : Correspond forth back θ later)
    (undone : ∀ k ∈ ks, (k.replace forth).replace back = k) :
    Literal.AreVariants (Literal.substituteList θ ks)
      (Literal.substituteList later (ks.map (Literal.replace forth))) := by
  have onto : ∀ k : Literal, (k.substitute θ).replace (fun v => (forth v).replace later.value) =
      (k.replace forth).substitute later := fun k =>
    (Literal.replace_substitute correspond.forward k).trans
      (k.replace_replace forth later.value).symm
  refine ⟨fun v => (forth v).replace later.value, fun v => (back v).replace θ.value, ?_,
    fun l member => ?_⟩
  · rw [Literal.substituteList, Literal.substituteList, List.map_map, List.map_map]
    exact List.map_congr_left fun k _ => (onto k).symm
  · obtain ⟨k, source, rfl⟩ := List.mem_map.1 member
    rw [onto, Literal.replace_substitute correspond.backward, ← Literal.replace_replace,
      undone k source]
    rfl

/-- Corresponding substitutions make literals with one key from corresponding literals. -/
theorem canonicalKey_eq_of_correspond (undone : ∀ k ∈ ks, (k.replace forth).replace back = k)
    (same : ∀ m, m ∈ ms ↔ m ∈ ks.map (Literal.replace forth))
    (correspond : Substitution.Correspond forth back θ later) :
    canonicalKey (firstOccurrences (Literal.substituteList later ms)) =
      canonicalKey (firstOccurrences (Literal.substituteList θ ks)) := by
  obtain ⟨_, _, images, undoneInstances⟩ := correspond.areVariants undone
  refine canonicalKey_eq_of_undone undoneInstances fun m => ?_
  rw [← images, Literal.substituteList, Literal.substituteList, List.mem_map, List.mem_map]
  simp only [same]

end Corresponding

/-- What corresponds to something is something. -/
theorem exists_some_of_rel {Left Right : Type} {related : Left → Right → Prop} {left : Left}
    {right : Option Right} (given : Option.Rel related (some left) right) :
    ∃ value, right = some value ∧ related left value := by
  cases given with
  | some holds => exact ⟨_, rfl, holds⟩

/-- Only nothing corresponds to nothing. -/
theorem eq_none_of_rel {Left Right : Type} {related : Left → Right → Prop} {right : Option Right}
    (given : Option.Rel related none right) : right = none := by
  cases given
  rfl

/-- A change of variables that can be undone on two atoms leaves them as they were to a unification:
it fails on both sides, or the unifiers correspond. -/
theorem Atom.unify_correspond {a b : Atom} {forth back : Variable → Term}
    (undoneLeft : (a.replace forth).replace back = a)
    (undoneRight : (b.replace forth).replace back = b) :
    Option.Rel (Substitution.Correspond forth back) (a.unify b)
      ((a.replace forth).unify (b.replace forth)) := by
  cases found : a.unify b with
  | some θ =>
    have backOf : ∀ {c : Atom}, (c.replace forth).replace back = c →
        (c.replace forth).replace (fun v => (back v).replace θ.value) = c.substitute θ := by
      intro c undone
      rw [← Atom.replace_replace, undone]
      rfl
    have equal := Atom.substitute_eq_of_unify found
    rw [← backOf undoneLeft, ← backOf undoneRight] at equal
    obtain ⟨later, foundLater, backward⟩ := Atom.exists_unify equal
    have equalLater := Atom.substitute_eq_of_unify foundLater
    rw [Atom.substitute, Atom.substitute, Atom.replace_replace, Atom.replace_replace] at equalLater
    obtain ⟨_, same, forward⟩ := Atom.exists_unify equalLater
    obtain rfl := Option.some.inj (same.symm.trans found)
    rw [foundLater]
    exact .some ⟨forward, backward⟩
  | none =>
    cases foundLater : (a.replace forth).unify (b.replace forth) with
    | none => exact .none
    | some later =>
      have equalLater := Atom.substitute_eq_of_unify foundLater
      rw [Atom.substitute, Atom.substitute, Atom.replace_replace, Atom.replace_replace]
        at equalLater
      obtain ⟨_, unified, _⟩ := Atom.exists_unify equalLater
      exact absurd (unified.symm.trans found) (Option.some_ne_none _)

/-- Literals keep their key under the unifier of an atom with itself. -/
theorem canonicalKey_substitute_of_unify_self {a : Atom} {θ : Substitution}
    (found : a.unify a = some θ) (ls : List Literal) :
    canonicalKey (firstOccurrences (Literal.substituteList θ ls)) =
      canonicalKey (firstOccurrences ls) := by
  obtain ⟨_, same, respects⟩ := Atom.exists_unify (Eq.refl (a.replace .var))
  rw [Option.some.inj (same.symm.trans found)] at respects
  have kept : ∀ l : Literal, l.substitute θ = l := by
    intro l
    refine (congrArg (Literal.mk · l.polarity l.reduced) (Atom.replace_eq_self fun v _ => ?_))
    have fixed := respects v
    rwa [Term.replace_var] at fixed
  rw [Literal.substituteList, List.map_congr_left fun l _ => kept l, List.map_id']

/-- It does not matter in which order two atoms are unified. -/
theorem canonicalKey_substitute_unify_comm {a b : Atom} {θ : Substitution}
    (found : a.unify b = some θ) (ls : List Literal) :
    ∃ later, b.unify a = some later ∧
      canonicalKey (firstOccurrences (Literal.substituteList later ls)) =
        canonicalKey (firstOccurrences (Literal.substituteList θ ls)) := by
  obtain ⟨later, swapped, respectsLater⟩ :=
    Atom.exists_unify (Atom.substitute_eq_of_unify found).symm
  obtain ⟨_, same, respects⟩ := Atom.exists_unify (Atom.substitute_eq_of_unify swapped).symm
  obtain rfl := Option.some.inj (same.symm.trans found)
  have itself : ∀ l : Literal, l.replace .var = l := fun l =>
    congrArg (Literal.mk · l.polarity l.reduced) l.atom.replace_var
  have undone : ∀ l ∈ ls, (l.replace .var).replace .var = l := fun l _ => by rw [itself, itself]
  refine ⟨later, swapped,
    canonicalKey_eq_of_correspond undone (fun l => ?_) ⟨respects, respectsLater⟩⟩
  rw [List.map_congr_left fun l _ => itself l, List.map_id']

/-! ### Resolvents -/

namespace Clause

/-- A clause is what is left, under the unifier found, when a positive literal of the first clause
is resolved with a negative one of the second. The clauses are resolved in copies that share no
variables. -/
def ResolvesTo (c d r : Clause) : Prop :=
  ∃ left right : Clause, left.CopyOf c ∧ right.CopyOf d ∧ left.Apart right ∧
    ∃ l ∈ left.positives, ∃ m ∈ right.negatives, ∃ θ, l.atom.unify m.atom = some θ ∧
      r.literals =
        firstOccurrences (Literal.substituteList θ (left.literals.erase l ++ right.literals.erase m))

/-- A binary resolvent of two clauses, whichever of them the positive literal comes from. -/
def IsResolvent (r c d : Clause) : Prop :=
  c.ResolvesTo d r ∨ d.ResolvesTo c r

theorem IsResolvent.symm {r c d : Clause} (resolvent : r.IsResolvent c d) : r.IsResolvent d c :=
  Or.symm resolvent

/-- Copies of two clauses have the resolvents of the clauses. -/
theorem IsResolvent.of_copies {r copy another c d : Clause} (resolvent : r.IsResolvent copy another)
    (isCopy : copy.CopyOf c) (isAnother : another.CopyOf d) : r.IsResolvent c d := by
  refine resolvent.imp ?_ ?_
  · rintro ⟨left, right, isLeft, isRight, resolved⟩
    exact ⟨left, right, isLeft.trans isCopy, isRight.trans isAnother, resolved⟩
  · rintro ⟨left, right, isLeft, isRight, resolved⟩
    exact ⟨left, right, isLeft.trans isAnother, isRight.trans isCopy, resolved⟩

/-- Whichever copies of two clauses are resolved upon corresponding literals, the key of the result
is the same. -/
theorem exists_unify_of_copies {left right other another : Clause} (isLeft : other.CopyOf left)
    (isRight : another.CopyOf right) (apart : left.Apart right) (apartToo : other.Apart another)
    {l m : Literal} (positive : l ∈ left.positives) (negative : m ∈ right.negatives)
    {θ : Substitution} (found : l.atom.unify m.atom = some θ) :
    ∃ l' ∈ other.positives, ∃ m' ∈ another.negatives, ∃ later,
      l'.atom.unify m'.atom = some later ∧
        canonicalKey (firstOccurrences (Literal.substituteList later
            (other.literals.erase l' ++ another.literals.erase m'))) =
          canonicalKey (firstOccurrences (Literal.substituteList θ
            (left.literals.erase l ++ right.literals.erase m))) := by
  obtain ⟨forwardLeft, backLeft, literalsLeft, undoneLeft⟩ := isLeft
  obtain ⟨forwardRight, backRight, literalsRight, undoneRight⟩ := isRight
  obtain ⟨inLeft, isPositive⟩ := List.mem_filter.1 positive
  obtain ⟨inRight, isNegative⟩ := List.mem_filter.1 negative
  -- both copies are changed at once, in either direction
  obtain ⟨forth, forthLeft, forthRight⟩ := apart.exists_joint forwardLeft forwardRight
  obtain ⟨back, isBackLeft, isBackRight⟩ := apartToo.exists_joint backLeft backRight
  rw [← List.map_congr_left forthLeft] at literalsLeft
  rw [← List.map_congr_left forthRight] at literalsRight
  have undoneOnLeft : ∀ k ∈ left.literals, (k.replace forth).replace back = k := by
    intro k inside
    rw [isBackLeft _ (literalsLeft ▸ List.mem_map_of_mem inside), forthLeft k inside,
      undoneLeft k inside]
  have undoneOnRight : ∀ k ∈ right.literals, (k.replace forth).replace back = k := by
    intro k inside
    rw [isBackRight _ (literalsRight ▸ List.mem_map_of_mem inside), forthRight k inside,
      undoneRight k inside]
  have unified := Atom.unify_correspond (congrArg Literal.atom (undoneOnLeft l inLeft))
    (congrArg Literal.atom (undoneOnRight m inRight))
  rw [found] at unified
  obtain ⟨later, foundLater, correspond⟩ := exists_some_of_rel unified
  refine ⟨l.replace forth, List.mem_filter.2 ⟨literalsLeft ▸ List.mem_map_of_mem inLeft, isPositive⟩,
    m.replace forth, List.mem_filter.2 ⟨literalsRight ▸ List.mem_map_of_mem inRight, isNegative⟩,
    later, foundLater, canonicalKey_eq_of_correspond (fun k inside => ?_) (fun k => ?_) correspond⟩
  · exact (List.mem_append.1 inside).elim
      (fun here => undoneOnLeft k (List.mem_of_mem_erase here))
      fun there => undoneOnRight k (List.mem_of_mem_erase there)
  · rw [List.mem_append, List.map_append, List.mem_append,
      mem_erase_image literalsLeft undoneOnLeft inLeft,
      mem_erase_image literalsRight undoneOnRight inRight]

/-- All resolvents of two clauses are found, up to their keys, in any two copies that are apart. -/
theorem ResolvesTo.exists_unify {c d r left right : Clause} (resolves : c.ResolvesTo d r)
    (isLeft : left.CopyOf c) (isRight : right.CopyOf d) (apart : left.Apart right) :
    ∃ l ∈ left.positives, ∃ m ∈ right.negatives, ∃ θ, l.atom.unify m.atom = some θ ∧
      canonicalKey (firstOccurrences (Literal.substituteList θ
        (left.literals.erase l ++ right.literals.erase m))) = r.key := by
  obtain ⟨first, second, isFirst, isSecond, apartToo, l, positive, m, negative, θ, found, literals⟩ :=
    resolves
  rw [key_eq, literals]
  exact exists_unify_of_copies (isLeft.trans isFirst.symm) (isRight.trans isSecond.symm) apartToo
    apart positive negative found

end Clause

end ClausalReasoner

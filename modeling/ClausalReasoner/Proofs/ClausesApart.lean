/-
This file is about clauses that are given fresh variables. A renamed clause is a copy: a change of
variables makes the one into the other and can be undone, so a copy has the same instances. Its
variables carry indices that the supply has just handed out, hence it shares none with a clause
whose variables are older. Instances of two such clauses are instances under one replacement, and
literals of them that become equal have a unifier through which this replacement goes. That is how
what is left of two instances resolved upon a literal is an instance of a resolvent.
-/

import ClausalReasoner.Resolution
import ClausalReasoner.Proofs.KeySeparation
import ClausalReasoner.Proofs.QueryVariables
import ClausalReasoner.Proofs.UnificationDepth

namespace ClausalReasoner

/-! ### Variants -/

namespace Literal

/-- A change of variables makes some literals into others, one by one, and can be undone. -/
def AreVariants (ls ms : List Literal) : Prop :=
  ∃ forward back : Variable → Term, ms = ls.map (replace forward) ∧
    ∀ l ∈ ls, (l.replace forward).replace back = l

namespace AreVariants

variable {ls ms ks : List Literal}

theorem refl (ls : List Literal) : AreVariants ls ls := by
  have itself : ∀ l : Literal, l.replace .var = l := by
    intro l
    rw [Literal.replace, Atom.replace_var]
  refine ⟨.var, .var, ?_, fun l _ => by rw [itself, itself]⟩
  exact ((List.map_congr_left fun l _ => itself l).trans (List.map_id _)).symm

theorem symm (variants : AreVariants ls ms) : AreVariants ms ls := by
  obtain ⟨forward, back, literals, undone⟩ := variants
  refine ⟨back, forward, ?_, fun l member => ?_⟩
  · rw [literals, List.map_map]
    exact ((List.map_congr_left undone).trans (List.map_id _)).symm
  · rw [literals] at member
    obtain ⟨source, origin, rfl⟩ := List.mem_map.1 member
    rw [undone source origin]

theorem trans (first : AreVariants ls ms) (second : AreVariants ms ks) : AreVariants ls ks := by
  obtain ⟨forward, back, literals, undone⟩ := first
  obtain ⟨forwardLater, backLater, literalsLater, undoneLater⟩ := second
  refine ⟨fun v => (forward v).replace forwardLater, fun v => (backLater v).replace back, ?_,
    fun l member => ?_⟩
  · rw [literalsLater, literals, List.map_map]
    exact List.map_congr_left fun l _ => l.replace_replace forward forwardLater
  · have between : l.replace forward ∈ ms := literals ▸ List.mem_map_of_mem member
    rw [← Literal.replace_replace, ← Literal.replace_replace, undoneLater _ between,
      undone l member]

end AreVariants

end Literal

/-! ### Copies and the indices of their variables -/

/-- A change of variables makes one clause into the other, literal by literal, and can be undone. -/
def Clause.CopyOf (copy c : Clause) : Prop :=
  ∃ forward back : Variable → Term, copy.literals = c.literals.map (Literal.replace forward) ∧
    ∀ l ∈ c.literals, (l.replace forward).replace back = l

/-- The variables of a clause carry no index from a bound on. -/
def Clause.VariablesBelow (bound : Nat) (c : Clause) : Prop :=
  ∀ v ∈ Literal.occurrencesList c.literals, ∀ index, v.index = some index → index < bound

/-- No variable stands in both clauses. -/
def Clause.Apart (c d : Clause) : Prop :=
  ∀ v ∈ Literal.occurrencesList c.literals, v ∉ Literal.occurrencesList d.literals

namespace Clause

theorem mem_occurrencesList {c : Clause} {l : Literal} (member : l ∈ c.literals) {v : Variable}
    (occurs : v ∈ l.occurrences) : v ∈ Literal.occurrencesList c.literals :=
  List.mem_flatMap.2 ⟨l, member, occurs⟩

theorem mem_vars {c : Clause} {v : Variable} :
    v ∈ c.vars ↔ v ∈ Literal.occurrencesList c.literals :=
  mem_firstOccurrences

theorem Apart.symm {c d : Clause} (apart : c.Apart d) : d.Apart c :=
  fun v here there => apart v there here

theorem VariablesBelow.mono {c : Clause} {bound other : Nat} (below : c.VariablesBelow bound)
    (le : bound ≤ other) : c.VariablesBelow other :=
  fun v occurs index same => Nat.lt_of_lt_of_le (below v occurs index same) le

theorem CopyOf.refl (c : Clause) : c.CopyOf c :=
  Literal.AreVariants.refl c.literals

/-- A copy and its original cover each other. -/
theorem CopyOf.covers {copy c : Clause} (isCopy : copy.CopyOf c) :
    Covers c.literals copy.literals ∧ Covers copy.literals c.literals := by
  obtain ⟨forward, back, literals, undone⟩ := isCopy
  refine ⟨⟨forward, List.Perm.of_eq literals.symm⟩, ⟨back, List.Perm.of_eq ?_⟩⟩
  rw [literals, List.map_map]
  exact (List.map_congr_left undone).trans (List.map_id _)

/-- The variables of a list that is freshly renamed carry indices that the supply has handed
out. -/
theorem index_of_renamesVariables {supply : Supply} {vs : List Variable}
    {rename : Variable → Variable}
    (renames : RenamesVariables (supply.freshRenaming vs).1 vs rename) {v : Variable}
    (member : v ∈ vs) : ∃ index, (rename v).index = some index ∧ supply.next ≤ index ∧
      index < (supply.freshRenaming vs).2.next := by
  have entry := Substitution.mem_of_get?_ofList (renames.reverse v member)
  obtain ⟨⟨source, target⟩, bound, inverted⟩ := List.mem_filterMap.1 entry
  obtain ⟨found, isVariable, same⟩ := Option.map_eq_some_iff.1 inverted
  obtain ⟨⟨w, fresh⟩, inside, isEntry⟩ :=
    List.mem_map.1 (Substitution.mem_of_mem_bindings_ofList bound)
  obtain ⟨rfl, rfl⟩ := Prod.mk.inj isEntry
  obtain rfl := Option.some.inj isVariable
  rw [← (Prod.mk.inj same).1]
  exact Supply.index_of_mem_freshen inside

end Clause

/-- Literals whose variables are freshly renamed are variants, and their variables carry indices
that the supply has handed out. -/
theorem Literal.areVariants_freshRenaming (supply : Supply) (ls : List Literal) :
    AreVariants ls (substituteList (supply.freshRenaming (varsList ls)).1 ls) ∧
      ∀ v ∈ occurrencesList (substituteList (supply.freshRenaming (varsList ls)).1 ls),
        ∃ index, v.index = some index ∧ supply.next ≤ index ∧
          index < (supply.freshRenaming (varsList ls)).2.next := by
  have distinct : (varsList ls).Nodup := nodup_firstOccurrences _
  obtain ⟨rename, renames⟩ := supply.exists_renamesVariables distinct
  have listed : ∀ l ∈ ls, ∀ v ∈ l.occurrences, v ∈ varsList ls := fun l member v occurs =>
    mem_firstOccurrences.2 (List.mem_flatMap.2 ⟨l, member, occurs⟩)
  refine ⟨⟨_, (supply.freshRenaming (varsList ls)).1.inverse.value, rfl, fun l member => ?_⟩,
    fun v occurs => ?_⟩
  · have itself : l.atom.replace (fun v => ((supply.freshRenaming (varsList ls)).1.value v).replace
        (supply.freshRenaming (varsList ls)).1.inverse.value) = l.atom := by
      refine Atom.replace_eq_self fun v occurs => ?_
      rw [renames.value v]
      exact Substitution.value_of_get?_some (renames.reverse v (listed l member v occurs))
    rw [Literal.replace_replace, Literal.replace, itself]
  · obtain ⟨_, image, here⟩ := List.mem_flatMap.1 occurs
    obtain ⟨l, member, rfl⟩ := List.mem_map.1 image
    obtain ⟨w, there, isRenamed⟩ := Atom.mem_occurrences_replace.1 here
    rw [renames.value w] at isRenamed
    rw [List.mem_singleton.1 isRenamed]
    exact Clause.index_of_renamesVariables renames (listed l member w there)

namespace Clause

/-- What is known of a clause that was given fresh variables. -/
theorem copyOf_renamed (c : Clause) (supply : Supply) :
    (c.renamed supply).1.CopyOf c ∧ supply.next ≤ (c.renamed supply).2.next ∧
      ∀ v ∈ Literal.occurrencesList (c.renamed supply).1.literals,
        ∃ index, v.index = some index ∧ supply.next ≤ index ∧
          index < (c.renamed supply).2.next := by
  rw [renamed]
  split
  · next none =>
    refine ⟨.refl c, Nat.le_refl _, fun v occurs => ?_⟩
    have member : v ∈ c.vars := mem_vars.2 occurs
    rw [none] at member
    exact absurd member List.not_mem_nil
  · obtain ⟨⟨forward, back, images, undone⟩, fresh⟩ :=
      Literal.areVariants_freshRenaming supply c.literals
    have distinct : (c.literals.map (Literal.replace forward)).Nodup := by
      refine List.Nodup.map_on (fun l here m there same => ?_) c.distinct
      rw [← undone l here, same, undone m there]
    have literals : (c.substitute (supply.freshRenaming c.vars).1).literals =
        Literal.substituteList (supply.freshRenaming c.vars).1 c.literals :=
      firstOccurrences_of_nodup (images ▸ distinct)
    refine ⟨⟨forward, back, literals.trans images, undone⟩, Supply.next_le_freshen supply c.vars,
      fun v occurs => fresh v ?_⟩
    change v ∈ Literal.occurrencesList (c.substitute (supply.freshRenaming c.vars).1).literals
      at occurs
    rwa [literals] at occurs

end Clause

namespace Session

/-- A clause that was given fresh variables by a session. -/
theorem copyOf_rename (session : Session) (c : Clause) :
    (session.rename c).1.CopyOf c ∧ session.supply.next ≤ (session.rename c).2.supply.next ∧
      (session.rename c).1.VariablesBelow (session.rename c).2.supply.next := by
  obtain ⟨isCopy, grows, fresh⟩ := c.copyOf_renamed session.supply
  refine ⟨isCopy, grows, fun v occurs index same => ?_⟩
  obtain ⟨_, indexed, _, below⟩ := fresh v occurs
  obtain rfl := Option.some.inj (same.symm.trans indexed)
  exact below

/-- A session whose clause was standardized apart has nothing but fresh variables in it. -/
theorem copyOf_standardizeApart (session : Session) (c : Clause) :
    (session.standardizeApart c).1.CopyOf c ∧
      session.supply.next ≤ (session.standardizeApart c).2.supply.next ∧
      (session.standardizeApart c).1.VariablesBelow (session.standardizeApart c).2.supply.next := by
  rw [standardizeApart]
  split
  · next none =>
    refine ⟨.refl c, Nat.le_refl _, fun v occurs => ?_⟩
    have member : v ∈ c.vars := Clause.mem_vars.2 occurs
    rw [none] at member
    exact absurd member List.not_mem_nil
  · exact session.copyOf_rename c

/-- The second of two clauses becomes a copy that is apart from the first, if the variables of the
first are older than the supply. -/
theorem copyOf_apartFrom (session : Session) {first : Clause}
    (below : first.VariablesBelow session.supply.next) (second : Clause) :
    (session.apartFrom first second).1.CopyOf second ∧
      first.Apart (session.apartFrom first second).1 ∧
      session.supply.next ≤ (session.apartFrom first second).2.supply.next := by
  rw [apartFrom]
  split
  · obtain ⟨isCopy, grows, fresh⟩ := second.copyOf_renamed session.supply
    refine ⟨isCopy, fun v here there => ?_, grows⟩
    obtain ⟨index, indexed, above, _⟩ := fresh v there
    exact Nat.not_lt.2 above (below v here index indexed)
  · next none =>
    refine ⟨.refl second, fun v here there => none ?_, Nat.le_refl _⟩
    refine List.any_eq_true.2 ⟨v, Clause.mem_vars.2 there, ?_⟩
    exact List.contains_iff_mem.2 (Clause.mem_vars.2 here)

end Session

/-! ### Instances of clauses without common variables -/

/-- Two lists of literals without common variables are instantiated by one replacement. -/
theorem Literal.exists_joint {ls ms : List Literal}
    (apart : ∀ v ∈ occurrencesList ls, v ∉ occurrencesList ms) (first second : Variable → Term) :
    ∃ value : Variable → Term, (∀ l ∈ ls, l.replace value = l.replace first) ∧
      ∀ m ∈ ms, m.replace value = m.replace second := by
  refine ⟨fun v => if v ∈ occurrencesList ls then first v else second v,
    fun l member => ?_, fun m member => ?_⟩
  · refine replace_congr fun v occurs => if_pos ?_
    exact List.mem_flatMap.2 ⟨l, member, occurs⟩
  · refine replace_congr fun v occurs => if_neg fun here => ?_
    exact apart v here (List.mem_flatMap.2 ⟨m, member, occurs⟩)

/-- Two clauses that are apart are instantiated by one replacement. -/
theorem Clause.Apart.exists_joint {c d : Clause} (apart : c.Apart d)
    (first second : Variable → Term) :
    ∃ value : Variable → Term, (∀ l ∈ c.literals, l.replace value = l.replace first) ∧
      ∀ m ∈ d.literals, m.replace value = m.replace second :=
  Literal.exists_joint apart first second

/-- What is left of a copy without the image of a literal is the image of what is left of the
clause. -/
theorem Clause.mem_erase_image {copy c : Clause} {change back : Variable → Term}
    (literals : copy.literals = c.literals.map (Literal.replace change))
    (undone : ∀ l ∈ c.literals, (l.replace change).replace back = l) {l : Literal}
    (member : l ∈ c.literals) (m : Literal) :
    m ∈ copy.literals.erase (l.replace change) ↔
      m ∈ (c.literals.erase l).map (Literal.replace change) := by
  rw [List.Nodup.mem_erase_iff copy.distinct, literals, List.mem_map, List.mem_map]
  constructor
  · rintro ⟨different, k, inside, rfl⟩
    exact ⟨k, (List.Nodup.mem_erase_iff c.distinct).2 ⟨fun same => different (same ▸ rfl), inside⟩,
      rfl⟩
  · rintro ⟨k, left, rfl⟩
    obtain ⟨different, inside⟩ := (List.Nodup.mem_erase_iff c.distinct).1 left
    refine ⟨fun same => different ?_, k, inside, rfl⟩
    rw [← undone k inside, same, undone l member]

/-- Instances of what is left of a copy are instances of what is left of the clause. -/
theorem Clause.mem_map_erase_image {copy c : Clause} {change back value other : Variable → Term}
    (literals : copy.literals = c.literals.map (Literal.replace change))
    (undone : ∀ l ∈ c.literals, (l.replace change).replace back = l) {l : Literal}
    (member : l ∈ c.literals)
    (instances : ∀ k ∈ c.literals, (k.replace change).replace value = k.replace other)
    (m : Literal) :
    m ∈ (copy.literals.erase (l.replace change)).map (Literal.replace value) ↔
      m ∈ (c.literals.erase l).map (Literal.replace other) := by
  have images : (c.literals.erase l).map (Literal.replace other) =
      ((c.literals.erase l).map (Literal.replace change)).map (Literal.replace value) := by
    rw [List.map_map]
    exact List.map_congr_left fun k left => (instances k (List.mem_of_mem_erase left)).symm
  rw [images, List.mem_map, List.mem_map]
  simp only [mem_erase_image literals undone member]

/-- A replacement that respects a substitution makes no difference between a literal and what the
substitution makes of it. -/
theorem Literal.replace_substitute {value : Variable → Term} {θ : Substitution}
    (respects : Substitution.Respects value θ) (l : Literal) :
    (l.substitute θ).replace value = l.replace value :=
  (l.replace_replace θ.value value).trans (Literal.replace_congr fun v _ => respects v)

/-- Instances of two clauses that can be resolved upon a literal are instances of copies of the
clauses that can be resolved, and what is left of the instances is an instance of what is left of
the copies under the unifier. -/
theorem exists_unified_pair {c d : Clause} {left right : Clause} (isLeft : left.CopyOf c)
    (isRight : right.CopyOf d) (apart : left.Apart right) {l m : Literal}
    (positive : l ∈ c.positives) (negative : m ∈ d.negatives) {first second : Variable → Term}
    (equal : l.atom.replace first = m.atom.replace second) :
    ∃ l' ∈ left.positives, ∃ m' ∈ right.negatives, ∃ θ, l'.atom.unify m'.atom = some θ ∧
      ∃ into : Variable → Term, ∀ k,
        k ∈ (Literal.substituteList θ (left.literals.erase l' ++ right.literals.erase m')).map
            (Literal.replace into) ↔
          k ∈ (c.literals.erase l).map (Literal.replace first) ++
            (d.literals.erase m).map (Literal.replace second) := by
  obtain ⟨forwardLeft, backLeft, literalsLeft, undoneLeft⟩ := isLeft
  obtain ⟨forwardRight, backRight, literalsRight, undoneRight⟩ := isRight
  obtain ⟨inLeft, isPositive⟩ := List.mem_filter.1 positive
  obtain ⟨inRight, isNegative⟩ := List.mem_filter.1 negative
  obtain ⟨value, onLeft, onRight⟩ := apart.exists_joint
    (fun v => (backLeft v).replace first) (fun v => (backRight v).replace second)
  have imageLeft : ∀ k ∈ c.literals, (k.replace forwardLeft).replace value = k.replace first := by
    intro k inside
    rw [onLeft _ (literalsLeft ▸ List.mem_map_of_mem inside), ← Literal.replace_replace,
      undoneLeft k inside]
  have imageRight : ∀ k ∈ d.literals, (k.replace forwardRight).replace value = k.replace second := by
    intro k inside
    rw [onRight _ (literalsRight ▸ List.mem_map_of_mem inside), ← Literal.replace_replace,
      undoneRight k inside]
  have unifiable : (l.replace forwardLeft).atom.replace value =
      (m.replace forwardRight).atom.replace value :=
    (congrArg Literal.atom (imageLeft l inLeft)).trans
      (equal.trans (congrArg Literal.atom (imageRight m inRight)).symm)
  obtain ⟨θ, found, respects⟩ := Atom.exists_unify unifiable
  have memberLeft : l.replace forwardLeft ∈ left.literals :=
    literalsLeft ▸ List.mem_map_of_mem inLeft
  have memberRight : m.replace forwardRight ∈ right.literals :=
    literalsRight ▸ List.mem_map_of_mem inRight
  refine ⟨_, List.mem_filter.2 ⟨memberLeft, isPositive⟩, _,
    List.mem_filter.2 ⟨memberRight, isNegative⟩, θ, found, value, fun k => ?_⟩
  have throughUnifier : ∀ ks : List Literal,
      (Literal.substituteList θ ks).map (Literal.replace value) = ks.map (Literal.replace value) := by
    intro ks
    rw [Literal.substituteList, List.map_map]
    exact List.map_congr_left fun k _ => Literal.replace_substitute respects k
  rw [throughUnifier, List.map_append, List.mem_append, List.mem_append,
    Clause.mem_map_erase_image literalsLeft undoneLeft inLeft imageLeft,
    Clause.mem_map_erase_image literalsRight undoneRight inRight imageRight]

end ClausalReasoner

/-
This file says which solutions of a conjunction are found among the facts. A solution makes each
literal an instance of a stored unit clause, and it is found if the instances that it needs of the
facts can be had under one replacement: what is found then goes through it. Facts that are apart
never get into each other's way, so it is enough that no fact is used for two instances.
-/

import ClausalReasoner.Proofs.FiledClauses

namespace ClausalReasoner

instance : Std.Symm Clause.Apart := ⟨fun _ _ => Clause.Apart.symm⟩

/-- A literal under a replacement is an instance of a literal of its polarity. -/
structure Literal.IsSolvedBy (l : Literal) (value : Variable → Term) (k : Literal) : Prop where
  polarity : k.polarity = l.polarity
  common : ∃ change : Variable → Term, l.atom.replace value = k.atom.replace change

namespace KnowledgeBase

variable {kb : KnowledgeBase} {ls : List Literal} {value : Variable → Term}

/-- No variable of the literals stands in a stored clause. -/
def IsApartFrom (kb : KnowledgeBase) (ls : List Literal) : Prop :=
  ∀ c ∈ kb.clauses.toList, ∀ v ∈ Literal.occurrencesList ls, v ∉ Literal.occurrencesList c.literals

/-- Unit clauses that share a variable are one clause. -/
theorem KeepsApart.eq_of_mem_occurrences (keeps : kb.KeepsApart) {k m : Literal}
    (stored : kb.StoresUnit k) (other : kb.StoresUnit m) {v : Variable} (here : v ∈ k.occurrences)
    (there : v ∈ m.occurrences) : k = m := by
  obtain ⟨c, inside, literals⟩ := stored
  obtain ⟨d, among, others⟩ := other
  by_contra different
  have distinct : c ≠ d := fun same =>
    different (List.singleton_inj.1 (literals.symm.trans (same ▸ others)))
  exact keeps.apart.forall inside among distinct v
    (Clause.mem_occurrencesList (literals ▸ List.mem_singleton_self k) here)
    (Clause.mem_occurrencesList (others ▸ List.mem_singleton_self m) there)

/-- Stored variables carry an index, so literals whose variables carry none are apart from them. -/
theorem KeepsApart.isApartFrom (keeps : kb.KeepsApart)
    (plain : ∀ v ∈ Literal.occurrencesList ls, v.index = none) : kb.IsApartFrom ls := by
  intro c member v listed occurs
  obtain ⟨index, indexed, _⟩ := keeps.indexed c member v occurs
  exact absurd (indexed.symm.trans (plain v listed)) nofun

/-- The instances that a solution needs of stored clauses that are apart are made by one replacement
which also is the solution, if no clause is needed for two instances. -/
theorem KeepsApart.exists_joint (keeps : kb.KeepsApart) (apart : kb.IsApartFrom ls)
    {fact : Literal → Literal} (stored : ∀ l ∈ ls, kb.StoresUnit (fact l))
    (solved : ∀ l ∈ ls, l.IsSolvedBy value (fact l))
    (once : ∀ l ∈ ls, ∀ m ∈ ls, fact l = fact m → l.atom.replace value = m.atom.replace value) :
    ∃ joint : Variable → Term, (∀ v ∈ Literal.occurrencesList ls, joint v = value v) ∧
      ∀ l ∈ ls, l.atom.replace joint = (fact l).atom.replace joint := by
  classical
  choose! change equal using fun l member => (solved l member).common
  let joint : Variable → Term := fun v =>
    if used : ∃ l ∈ ls, v ∈ (fact l).occurrences then change used.choose v else value v
  have onFacts : ∀ l ∈ ls, ∀ v ∈ (fact l).occurrences, joint v = change l v := by
    intro l member v here
    have used : ∃ m ∈ ls, v ∈ (fact m).occurrences := ⟨l, member, here⟩
    obtain ⟨other, there⟩ := used.choose_spec
    have same : fact l = fact used.choose :=
      keeps.eq_of_mem_occurrences (stored l member) (stored _ other) here there
    have oneInstance : (fact l).atom.replace (change used.choose) =
        (fact l).atom.replace (change l) := by
      rw [← equal l member, once l member _ other same, equal _ other, same]
    exact (dif_pos used).trans (Atom.eq_of_replace_eq oneInstance here)
  have onLiterals : ∀ v ∈ Literal.occurrencesList ls, joint v = value v := by
    intro v listed
    refine dif_neg fun ⟨l, member, here⟩ => ?_
    obtain ⟨c, inside, literals⟩ := stored l member
    exact apart c inside v listed
      (Clause.mem_occurrencesList (literals ▸ List.mem_singleton_self _) here)
  refine ⟨joint, onLiterals, fun l member => ?_⟩
  calc l.atom.replace joint
      = l.atom.replace value := Atom.replace_congr fun v here =>
        onLiterals v (List.mem_flatMap.2 ⟨l, member, here⟩)
    _ = (fact l).atom.replace (change l) := equal l member
    _ = (fact l).atom.replace joint := (Atom.replace_congr (onFacts l member)).symm

/-- A replacement does to the variables of literals what one of the substitutions does, followed by
something else. -/
def IsFoundAmong (value : Variable → Term) (ls : List Literal) (found : List Substitution) : Prop :=
  ∃ σ ∈ found, ∃ change : Variable → Term,
    ∀ v ∈ Literal.occurrencesList ls, value v = (σ.value v).replace change

/-- Let a replacement make each of some literals, which have no variable of a stored clause, an
instance of a stored unit clause of its polarity, and let it use no clause for two different
instances. Then the replacement goes through one of the substitutions that are found for the
literals. -/
theorem KeepsApart.isFoundAmong_fetchAll (keeps : kb.KeepsApart) (filed : kb.Filed)
    (apart : kb.IsApartFrom ls) {fact : Literal → Literal}
    (stored : ∀ l ∈ ls, kb.StoresUnit (fact l)) (solved : ∀ l ∈ ls, l.IsSolvedBy value (fact l))
    (once : ∀ l ∈ ls, ∀ m ∈ ls, fact l = fact m → l.atom.replace value = m.atom.replace value) :
    IsFoundAmong value ls (kb.fetchAll ls) := by
  obtain ⟨joint, agrees, equal⟩ := keeps.exists_joint apart stored solved once
  obtain ⟨found, member, respects⟩ : ∃ found ∈ kb.fetchAllFacts ls,
      Substitution.Respects joint found.1 :=
    joinFacts_complete filed
      (fun l inside => ⟨fact l, stored l inside, (solved l inside).1, equal l inside⟩)
      (Substitution.respects_empty joint)
  exact ⟨found.1, List.mem_map_of_mem member, joint,
    fun v listed => (agrees v listed).symm.trans (respects v).symm⟩

/-! ### Facts for examples -/

/-- The knowledge base that was told that everyone visits the agora and that Plato visits the
lyceum. -/
def visitors : KnowledgeBase :=
  (KnowledgeBase.tellAll {} [.atom (.predicate "Visits" [.var ⟨"y", none⟩, .constant "Agora"]),
    .atom (.predicate "Visits" [.constant "Plato", .constant "Lyceum"])]).1

/-- `Visits(y, Agora)` as it is stored. -/
def everyoneVisitsAgora : Literal :=
  .positive (.predicate "Visits" [.var ⟨"y", some 0⟩, .constant "Agora"])

/-- `Visits(Plato, Lyceum)`. -/
def platoVisitsLyceum : Literal :=
  .positive (.predicate "Visits" [.constant "Plato", .constant "Lyceum"])

/-- `Visits(u, Agora)`. -/
def visitsAgora : Literal :=
  .positive (.predicate "Visits" [.var ⟨"u", none⟩, .constant "Agora"])

/-- `Visits(u, w)`. -/
def visitsSomething : Literal :=
  .positive (.predicate "Visits" [.var ⟨"u", none⟩, .var ⟨"w", none⟩])

/-- The knowledge base that was told `P(y)` and `Q(B)`. -/
def universalFact : KnowledgeBase :=
  (KnowledgeBase.tellAll {} [.atom (.predicate "P" [.var ⟨"y", none⟩]),
    .atom (.predicate "Q" [.constant "B"])]).1

end KnowledgeBase

end ClausalReasoner

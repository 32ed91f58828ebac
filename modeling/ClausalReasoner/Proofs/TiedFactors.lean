/-
This file shows that factoring can lose a factor although the factors that it finds have different
keys. What merging two literals makes is left out if its key was seen, and past the limit on ties the
key of a clause may be that of another one.

Five guests sit at a round table, which the clause says five times, beginning with each of them. Each
guest likes somebody, and those five sit at a table in the same order. Merging the second table with
the first makes each guest like the one who sits so many places further on. Nothing tells one guest
from another, so the variables of what is made keep the first color, and with colors in the place of
guests it cannot be told whether everybody likes himself or his neighbor. Factors for both would have
one key, hence for one of the two there is none.
-/

import ClausalReasoner.Proofs.CompleteFactors
import ClausalReasoner.Proofs.StableColors
import Mathlib

namespace ClausalReasoner

/-! ### Variables that are interchangeable -/

/-- Variables with one signature are of one kind. -/
theorem Coloring.length_kinds_of_alike {coloring : Coloring} {ls : List ShapedLiteral}
    {vs : List Variable}
    (alike : ∀ v ∈ vs, ∀ w ∈ vs, coloring.signature ls v = coloring.signature ls w) :
    (coloring.kinds ls vs).length = min 1 vs.length := by
  rw [length_kinds]
  cases vs with
  | nil => rfl
  | cons first rest =>
    have same : (first :: rest).toFinset.image (coloring.signature ls) =
        (first :: rest).toFinset.image fun _ => coloring.signature ls first :=
      Finset.image_congr fun v member => alike v (List.mem_toFinset.1 member) first
        List.mem_cons_self
    have some : (first :: rest).toFinset.Nonempty := ⟨first, by simp⟩
    rw [same, Finset.image_const some, Finset.card_singleton, List.length_cons]
    omega

/-- Any variable of the literals can be renamed to any other one such that the literals stay the
same, but for their order. -/
def Interchangeable (ls : List Literal) : Prop :=
  ∀ v ∈ Literal.occurrencesList ls, ∀ w ∈ Literal.occurrencesList ls,
    ∃ rename, Variant rename ls ls ∧ rename v = w

section

variable {ls : List Literal}

/-- Interchangeable variables keep the color that all variables begin with. -/
theorem Interchangeable.color_refined (interchangeable : Interchangeable ls) {v : Variable}
    (occurs : v ∈ Literal.occurrencesList ls) :
    (Coloring.refined (ls.map ShapedLiteral.ofLiteral)).color v = 0 := by
  let start : Coloring := (Literal.varsList ls).map fun v => (v, 0)
  have zero : ∀ v ∈ Literal.occurrencesList ls, start.color v = 0 := fun v occurs =>
    Coloring.color_map (fun _ => 0) (mem_firstOccurrences.2 occurs)
  have alike : ∀ v ∈ Literal.varsList ls, ∀ w ∈ Literal.varsList ls,
      start.signature (ls.map ShapedLiteral.ofLiteral) v =
        start.signature (ls.map ShapedLiteral.ofLiteral) w := by
    intro v here w there
    have occurs := mem_firstOccurrences.1 here
    obtain ⟨rename, variant, rfl⟩ := interchangeable v occurs w (mem_firstOccurrences.1 there)
    have images : (Literal.occurrencesList ls).Perm ((Literal.occurrencesList ls).map rename) :=
      Literal.occurrencesList_renamingBy ls ▸ variant.perm.flatMap_right _
    have agree : Coloring.Agree rename ls start start := fun u inside =>
      (zero _ (images.mem_iff.2 (List.mem_map_of_mem inside))).trans (zero u inside).symm
    exact (agree.signature_eq variant occurs).symm
  have refined : Coloring.refined (ls.map ShapedLiteral.ofLiteral) = start := by
    have occurrences : (ls.map ShapedLiteral.ofLiteral).flatMap (·.occurrences) =
        Literal.occurrencesList ls := List.flatMap_map ..
    rw [Coloring.refined, occurrences]
    exact (Coloring.refineWithin_succ _ _ _ _ _).trans (if_pos (Coloring.length_kinds_of_alike alike))
  rw [refined, zero v occurs]

/-- The ranks of literals whose variables are interchangeable show nothing but shapes. -/
theorem Interchangeable.map_rank (interchangeable : Interchangeable ls) :
    ls.map (Literal.rank (Coloring.refined (ls.map ShapedLiteral.ofLiteral))) =
      ls.map fun l => ⟨l.shape, l.occurrences.map fun _ => 0⟩ :=
  List.map_congr_left fun _ member => congrArg _ (List.map_congr_left fun _ occurs =>
    interchangeable.color_refined (Literal.mem_occurrencesList member occurs))

/-- The key of too many literals that tie does not show which of the interchangeable variables stands
where. -/
theorem Interchangeable.canonicalKey_eq (interchangeable : Interchangeable ls)
    (many : tieOrders ls > maxTriedOrders) :
    canonicalKey ls = "".intercalate (sortedBy compare (ls.map (Literal.keyText fun _ => 0))) := by
  have texts : ls.map (Literal.keyText
      (Coloring.refined (ls.map ShapedLiteral.ofLiteral)).color) =
        ls.map (Literal.keyText fun _ => 0) := by
    refine List.map_congr_left fun l member => ?_
    conv_lhs => rw [← l.replace_renamingBy_id]
    exact Literal.keyText_renamingBy fun v occurs =>
      interchangeable.color_refined (Literal.mem_occurrencesList member occurs)
  rw [ClausalReasoner.canonicalKey_eq, if_pos many, keyByColors_literalsByRank, keyByColors, texts]

end

/-! ### A round table -/

namespace RoundTable

/-- The guest at a place of the table. -/
def guest (i : Fin 5) : Term :=
  .var ⟨"guest", some i.val⟩

/-- Whom the guest at a place likes. -/
def favorite (i : Fin 5) : Term :=
  .var ⟨"favorite", some i.val⟩

/-- Five people sit at a table in this order. -/
def seated (people : Fin 5 → Term) : Literal :=
  .positive (.predicate "Seated" (List.ofFn people))

/-- Somebody likes somebody. -/
def likes (t u : Term) : Literal :=
  .positive (.predicate "Likes" [t, u])

/-- The order of the guests, beginning with each of them. -/
def table : List Literal :=
  (List.finRange 5).map fun k => seated fun i => guest (i + k)

/-- Each guest likes somebody, and these are seated in the same order. -/
def party : List Literal :=
  seated favorite :: (((List.finRange 5).map fun i => likes (guest i) (favorite i)) ++ table)

/-- Each guest likes the one so many places further on. -/
def settled (places : Fin 5) : List Literal :=
  ((List.finRange 5).map fun i => likes (guest i) (guest (i + places))) ++ table

/-- The substitution that makes each guest like the one so many places further on. -/
def settling (places : Fin 5) : Substitution :=
  .ofList ((List.finRange 5).map fun i => (⟨"favorite", some i.val⟩, guest (i + places)))

/-- The clause of the party. -/
def partyClause : Clause :=
  .ofLiterals party

theorem literals_partyClause : partyClause.literals = party :=
  firstOccurrences_of_nodup (by decide)

theorem nodup_settled : ∀ places, (settled places).Nodup := by
  decide

theorem substituteList_settling : ∀ places, Literal.substituteList (settling places) party =
    (seated fun i => guest (i + places)) :: settled places := by
  decide

theorem mem_table (places : Fin 5) : (seated fun i => guest (i + places)) ∈ table :=
  List.mem_map.2 ⟨places, List.mem_finRange places, rfl⟩

/-! ### Replacing people -/

section

variable {value : Variable → Term} {people : Fin 5 → Term} {places : Fin 5} {t u : Term}

theorem replace_seated : (seated people).replace value = seated fun i => (people i).replace value := by
  simp [seated, Literal.replace, Atom.replace, Term.replaceList_eq_map]

theorem replace_likes : (likes t u).replace value = likes (t.replace value) (u.replace value) := by
  simp [likes, Literal.replace, Atom.replace, Term.replaceList]

theorem seated_injective : Function.Injective seated := by
  intro people others same
  have arguments := congrArg (fun l => l.atom.arguments) same
  exact List.ofFn_injective arguments

theorem likes_inj {t' u' : Term} : likes t u = likes t' u' ↔ t = t' ∧ u = u' := by
  simp [likes, Literal.positive]

theorem seated_ne_likes : seated people ≠ likes t u := by
  simp [seated, likes, Literal.positive]

theorem guest_injective : ∀ i j, guest i = guest j → i = j := by
  decide

/-- If people are seated among the guests, then each of them is the guest so many places further
on. -/
theorem exists_of_seated_mem (member : seated people ∈ settled places) :
    ∃ k, ∀ i, people i = guest (i + k) := by
  rcases List.mem_append.1 member with here | there
  · obtain ⟨i, _, same⟩ := List.mem_map.1 here
    exact absurd same.symm seated_ne_likes
  · obtain ⟨k, _, same⟩ := List.mem_map.1 there
    exact ⟨k, fun i => congrFun (seated_injective same).symm i⟩

theorem exists_of_likes_mem (member : likes t u ∈ settled places) :
    ∃ i, t = guest i ∧ u = guest (i + places) := by
  rcases List.mem_append.1 member with here | there
  · obtain ⟨i, _, same⟩ := List.mem_map.1 here
    exact ⟨i, likes_inj.1 same.symm⟩
  · obtain ⟨k, _, same⟩ := List.mem_map.1 there
    exact absurd same seated_ne_likes

end

/-! ### Keys that do not show who likes whom -/

/-- The guest so many places further on. -/
def turned (places : Fin 5) (v : Variable) : Variable :=
  ⟨v.name, some (Fin.ofNat 5 (v.index.getD 0) + places).val⟩

theorem perm_turned : ∀ places k,
    (settled places).Perm ((settled places).map (Literal.replace (renamingBy (turned k)))) := by
  decide

theorem exists_guest_of_mem : ∀ places, ∀ v ∈ Literal.occurrencesList (settled places),
    ∃ i, guest i = .var v := by
  decide

theorem turned_guest : ∀ i k, (guest i).replace (renamingBy (turned k)) = guest (i + k) := by
  decide

theorem interchangeable_settled (places : Fin 5) : Interchangeable (settled places) := by
  have turns : ∀ {v i} (k : Fin 5), guest i = .var v → Term.var (turned k v) = guest (i + k) := by
    intro v i k same
    rw [← turned_guest, same]
    rfl
  intro v here w there
  obtain ⟨i, isGuest⟩ := exists_guest_of_mem places v here
  obtain ⟨j, isGuestToo⟩ := exists_guest_of_mem places w there
  refine ⟨turned (j - i), ⟨fun u here x there same => ?_, perm_turned places (j - i)⟩, ?_⟩
  · obtain ⟨m, isFirst⟩ := exists_guest_of_mem places u here
    obtain ⟨n, isSecond⟩ := exists_guest_of_mem places x there
    have equal : guest (m + (j - i)) = guest (n + (j - i)) := by
      rw [← turns _ isFirst, ← turns _ isSecond, same]
    have places : m = n := add_right_cancel (guest_injective _ _ equal)
    exact Term.var.inj (isFirst.symm.trans (places ▸ isSecond))
  · refine Term.var.inj ((turns (j - i) isGuest).trans ?_)
    rw [add_sub_cancel, isGuestToo]

/-- The ranks of settled guests, which have one color. -/
def settledRanks (places : Fin 5) : List LiteralRank :=
  List.replicate 5 ⟨(likes (guest 0) (guest places)).shape, [0, 0]⟩ ++
    List.replicate 5 ⟨(seated guest).shape, [0, 0, 0, 0, 0]⟩

theorem map_settled : ∀ places, (settled places).map
    (fun l => LiteralRank.mk l.shape (l.occurrences.map fun _ => 0)) = settledRanks places := by
  decide

theorem sorted_settledRanks : ∀ places,
    (settledRanks places).Pairwise fun rank other => (rank.order other).isLE := by
  decide

theorem splitBy_settledRanks : ∀ places, ((settledRanks places).splitBy
    fun rank other => rank = other).map List.length = [5, 5] := by
  decide

/-- The ten literals of settled guests tie in two groups. -/
theorem tieOrders_settled (places : Fin 5) : tieOrders (settled places) = 14400 := by
  have sorted : sortedBy LiteralRank.order (settledRanks places) = settledRanks places :=
    List.mergeSort_of_pairwise (sorted_settledRanks places)
  rw [tieOrders, map_length_tiedGroups, (interchangeable_settled places).map_rank, map_settled,
    sorted, splitBy_settledRanks]
  decide

/-- Whether everybody likes himself or somebody else makes no difference to the key. -/
theorem canonicalKey_settled (places : Fin 5) :
    canonicalKey (settled places) = canonicalKey (settled 0) := by
  have many : ∀ places, tieOrders (settled places) > maxTriedOrders := fun places =>
    tieOrders_settled places ▸ by decide
  have texts : (settled places).map (Literal.keyText fun _ => 0) =
      (settled 0).map (Literal.keyText fun _ => 0) := by
    rw [settled, settled, List.map_append, List.map_append, List.map_map, List.map_map]
    rfl
  rw [(interchangeable_settled places).canonicalKey_eq (many places),
    (interchangeable_settled 0).canonicalKey_eq (many 0), texts]

/-! ### Factors that become settled -/

section

variable {value : Variable → Term} {places : Fin 5}

/-- What makes the party settled turns the table, and everybody's favorite with it. -/
theorem exists_turn (into : ∀ l ∈ party, l.replace value ∈ settled places) :
    ∃ k, (∀ i, (guest i).replace value = guest (i + k)) ∧
      ∀ i, (favorite i).replace value = guest (i + places + k) := by
  have ofSeated : ∀ people, seated people ∈ party →
      ∃ k, ∀ i, (people i).replace value = guest (i + k) := fun people inside =>
    exists_of_seated_mem (replace_seated ▸ into _ inside)
  obtain ⟨k, turned⟩ := ofSeated guest (by decide)
  obtain ⟨m, turnedToo⟩ := ofSeated favorite List.mem_cons_self
  have liked := into (likes (guest 0) (favorite 0)) (by decide)
  rw [replace_likes, turned, turnedToo] at liked
  obtain ⟨i, first, second⟩ := exists_of_likes_mem liked
  have same : m = places + k := by
    have atFirst := guest_injective _ _ first
    have atSecond := guest_injective _ _ second
    omega
  exact ⟨k, turned, fun i => by rw [turnedToo, same, add_assoc]⟩

theorem guest_turned_back : ∀ i k, (guest (i + k)).replace (renamingBy (turned (-k))) = guest i := by
  decide

/-- What turned the table is undone by turning it back. -/
theorem replace_turned_back {k : Fin 5}
    (turns : ∀ i, (guest i).replace value = guest (i + k)) :
    ∀ l ∈ settled places, (l.replace value).replace (renamingBy (turned (-k))) = l := by
  have returns : ∀ i, ((guest i).replace value).replace (renamingBy (turned (-k))) = guest i := by
    intro i
    rw [turns, guest_turned_back]
  intro l member
  rcases List.mem_append.1 member with here | there
  · obtain ⟨i, _, rfl⟩ := List.mem_map.1 here
    rw [replace_likes, replace_likes, returns, returns]
  · obtain ⟨m, _, rfl⟩ := List.mem_map.1 there
    rw [replace_seated, replace_seated]
    exact congrArg seated (funext fun i => returns (i + m))

section

variable {r : Variable → Term} {f : Clause}
  (images : ∀ m, m ∈ f.literals ↔ m ∈ party.map (Literal.replace value))

include images

/-- Where everybody's favorite gets the place so many places further on and no literal is lost, the
two tables were merged before. -/
theorem replace_favorite (injective : Set.InjOn (Literal.replace r) {l | l ∈ f.literals})
    (together : ∀ i, ((favorite i).replace value).replace r =
      ((guest (i + places)).replace value).replace r) (i : Fin 5) :
    (favorite i).replace value = (guest (i + places)).replace value := by
  have inside : ∀ l ∈ party, l.replace value ∈ f.literals := fun l member =>
    (images _).2 (List.mem_map_of_mem member)
  have merged : (seated favorite).replace value =
      (seated fun i => guest (i + places)).replace value := by
    refine injective (inside _ List.mem_cons_self)
      (inside _ (List.mem_cons_of_mem _ (List.mem_append_right _ (mem_table places)))) ?_
    rw [replace_seated, replace_seated, replace_seated, replace_seated]
    exact congrArg seated (funext together)
  rw [replace_seated, replace_seated] at merged
  exact congrFun (seated_injective merged) i

/-- When the tables are merged, nothing is left of the party but settled guests. -/
theorem mem_literals_iff_settled
    (liked : ∀ i, (favorite i).replace value = (guest (i + places)).replace value) (m : Literal) :
    m ∈ f.literals ↔ m ∈ (settled places).map (Literal.replace value) := by
  have likings : ((List.finRange 5).map fun i => likes (guest i) (favorite i)).map
      (Literal.replace value) = ((List.finRange 5).map fun i =>
        likes (guest i) (guest (i + places))).map (Literal.replace value) := by
    rw [List.map_map, List.map_map]
    refine List.map_congr_left fun i _ => ?_
    rw [Function.comp_apply, Function.comp_apply, replace_likes, replace_likes, liked]
  have merged : (seated favorite).replace value =
      (seated fun i => guest (i + places)).replace value := by
    rw [replace_seated, replace_seated]
    exact congrArg seated (funext liked)
  rw [images, party, settled, List.map_cons, List.map_append, List.map_append, likings,
    List.mem_cons]
  refine or_iff_right_of_imp fun same => List.mem_append_right _ ?_
  rw [same, merged]
  exact List.mem_map_of_mem (mem_table places)

/-- A factor that becomes settled without losing literals says itself who likes whom. -/
theorem exists_settled (onto : ∀ k, k ∈ f.literals.map (Literal.replace r) ↔ k ∈ settled places)
    (injective : Set.InjOn (Literal.replace r) {l | l ∈ f.literals}) :
    (∀ m, m ∈ f.literals ↔ m ∈ (settled places).map (Literal.replace value)) ∧
      f.key = canonicalKey (settled places) := by
  obtain ⟨k, turns, turnsToo⟩ := exists_turn fun l member =>
    (l.replace_replace value r) ▸
      (onto _).1 (List.mem_map_of_mem ((images _).2 (List.mem_map_of_mem member)))
  have settledImages := mem_literals_iff_settled images (replace_favorite images injective fun i => by
    rw [Term.replace_replace, Term.replace_replace, turnsToo, turns])
  refine ⟨settledImages, ?_⟩
  have undone : ∀ l ∈ settled places, (l.replace value).replace
      (fun v => (r v).replace (renamingBy (turned (-k)))) = l := by
    intro l member
    rw [← Literal.replace_replace, Literal.replace_replace value r]
    exact replace_turned_back turns l member
  have same := canonicalKey_eq_of_undone undone settledImages
  rwa [firstOccurrences_of_nodup f.distinct, firstOccurrences_of_nodup (nodup_settled places),
    ← f.key_eq] at same

end

end

/-- A substitution makes the factor into the settled guests and loses no literal. -/
def Settles (f : Clause) (places : Fin 5) : Prop :=
  ∃ r : Substitution, (∀ k, k ∈ Literal.substituteList r f.literals ↔
      k ∈ Literal.substituteList (settling places) partyClause.literals) ∧
    Set.InjOn (Literal.substitute r) {l | l ∈ f.literals}

theorem Settles.exists_value {session : Session} {f : Clause} {places : Fin 5}
    (settles : Settles f places) (member : f ∈ (session.factors partyClause).1) :
    (∃ value, ∀ m, m ∈ f.literals ↔ m ∈ (settled places).map (Literal.replace value)) ∧
      (∃ r, ∀ k, k ∈ f.literals.map (Literal.replace r) ↔ k ∈ settled places) ∧
        f.key = canonicalKey (settled 0) := by
  obtain ⟨r, same, injective⟩ := settles
  have onto : ∀ k, k ∈ f.literals.map (Literal.replace r.value) ↔ k ∈ settled places := by
    intro k
    have absorbed : k ∈ (seated fun i => guest (i + places)) :: settled places ↔
        k ∈ settled places := List.mem_cons.trans (or_iff_right_of_imp fun head =>
      head ▸ List.mem_append_right _ (mem_table places))
    rw [literals_partyClause, substituteList_settling] at same
    exact (same k).trans absorbed
  obtain ⟨value, images⟩ : ∃ value : Variable → Term, ∀ m, m ∈ f.literals ↔
      m ∈ party.map (Literal.replace value) := by
    obtain ⟨merged, factors, merges⟩ := session.exists_factors_eq_cons partyClause
    rw [factors] at member
    rcases List.mem_cons.1 member with rfl | later
    · exact ⟨.var, fun m => by simp [literals_partyClause, Literal.replace, Atom.replace_var]⟩
    · obtain ⟨value, images, _⟩ := merges f later
      exact ⟨value, literals_partyClause ▸ images⟩
  obtain ⟨settledImages, key⟩ := exists_settled images onto injective
  exact ⟨⟨value, settledImages⟩, ⟨r.value, onto⟩, key.trans (canonicalKey_settled places)⟩

/-- Guests who like themselves do not become guests who like their neighbors. -/
theorem not_settled_both {value r : Variable → Term} {ls : List Literal}
    (images : ∀ m, m ∈ ls ↔ m ∈ (settled 0).map (Literal.replace value))
    (onto : ∀ k, k ∈ ls.map (Literal.replace r) ↔ k ∈ settled 1) : False := by
  obtain ⟨m, inside, same⟩ := List.mem_map.1
    ((onto (likes (guest 0) (guest 1))).2 (by decide))
  obtain ⟨l, settledToo, rfl⟩ := List.mem_map.1 ((images m).1 inside)
  rw [Literal.replace_replace] at same
  rcases List.mem_append.1 settledToo with here | there
  · obtain ⟨i, _, rfl⟩ := List.mem_map.1 here
    rw [replace_likes, add_zero] at same
    obtain ⟨first, second⟩ := likes_inj.1 same
    exact absurd (guest_injective _ _ (first.symm.trans second)) (by decide)
  · obtain ⟨k, _, rfl⟩ := List.mem_map.1 there
    rw [replace_seated] at same
    exact seated_ne_likes same

end RoundTable

open RoundTable in
/-- No two factors of the party's clause have one key. All the same, whether each guest is to like
himself or his neighbor, for one of the two no factor becomes settled without losing literals. -/
theorem exists_not_mem_factors_partyClause :
    let session : Session := ⟨⟨5⟩, {}⟩
    partyClause.Plain ∧ partyClause.VariablesBelow session.supply.next ∧
      KeysTellApart (session.factors partyClause).1 ∧
      ∃ s : Substitution, ¬∃ f ∈ (session.factors partyClause).1, ∃ r : Substitution,
        (∀ k, k ∈ Literal.substituteList r f.literals ↔
          k ∈ Literal.substituteList s partyClause.literals) ∧
        Set.InjOn (Literal.substitute r) {l | l ∈ f.literals} := by
  intro session
  have distinct : ∀ f ∈ (session.factors partyClause).1, ∀ g ∈ (session.factors partyClause).1,
      f.key = g.key → f = g := fun f here g there same =>
    List.inj_on_of_nodup_map (session.nodup_key_factors partyClause) here there same
  refine ⟨?_, ?_, fun f here g there same => ?_, ?_⟩
  · rw [Clause.Plain, literals_partyClause]
    decide
  · rw [Clause.VariablesBelow, literals_partyClause]
    decide
  · exact distinct f here g there same ▸ ⟨id, .refl f.literals⟩
  · by_contra all
    push Not at all
    obtain ⟨f, here, settles⟩ : ∃ f ∈ (session.factors partyClause).1, Settles f 0 := all _
    obtain ⟨g, there, settlesToo⟩ : ∃ g ∈ (session.factors partyClause).1, Settles g 1 := all _
    obtain ⟨⟨value, images⟩, _, key⟩ := settles.exists_value here
    obtain ⟨_, ⟨r, onto⟩, keyToo⟩ := settlesToo.exists_value there
    obtain rfl : f = g := distinct f here g there (key.trans keyToo.symm)
    exact not_settled_both images onto

end ClausalReasoner

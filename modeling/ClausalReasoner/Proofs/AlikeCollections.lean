/-
This file shows that collections of clauses do not see in which order the literals of a clause stand
and what its variables are called. Clauses that differ in nothing else are alike. They have one key
and one weight, and nothing but keys and weights decides what a set or a queue does. Two collections
that are used in the same way with clauses that are alike therefore give the same replies, up to
clauses that are alike.
-/

import ClausalReasoner.Proofs.StandIns
import Mathlib.Data.List.Forall2
import Mathlib.Data.Set.Function

namespace ClausalReasoner

/-! ### Lists that are related at each place -/

section Related

variable {Left Right Image : Type} {related : Left → Right → Prop} {ls : List Left}
  {rs : List Right}

/-- What is the same for related elements is the same for the lists. -/
theorem map_eq_of_forall₂ {left : Left → Image} {right : Right → Image}
    (each : ∀ {a b}, related a b → right b = left a) (all : List.Forall₂ related ls rs) :
    rs.map right = ls.map left := by
  induction all with
  | nil => rfl
  | cons first _ inductionHypothesis =>
    rw [List.map_cons, List.map_cons, each first, inductionHypothesis]

theorem getElem?_rel_of_forall₂ (all : List.Forall₂ related ls rs) (place : Nat) :
    Option.Rel related ls[place]? rs[place]? := by
  induction all generalizing place with
  | nil => exact .none
  | cons first _ inductionHypothesis =>
    cases place with
    | zero => exact .some first
    | succ place => exact inductionHypothesis place

end Related

/-! ### Variants -/

namespace Variant

variable {rename : Variable → Variable} {ls ms : List Literal}

/-- A renaming of the variables can be undone. -/
theorem exists_back (variant : Variant rename ls ms) :
    ∃ back : Variable → Term, ∀ l ∈ ls, (l.replace (renamingBy rename)).replace back = l := by
  have injective : Set.InjOn rename {v | v ∈ Literal.occurrencesList ls} :=
    fun v here w there => variant.injective v here w there
  refine ⟨renamingBy (Function.invFunOn rename {v | v ∈ Literal.occurrencesList ls}),
    fun l member => ?_⟩
  have kept : l.replace .var = l := by rw [Literal.replace, Atom.replace_var]
  rw [Literal.replace_replace]
  refine Eq.trans (Literal.replace_congr fun v occurs => ?_) kept
  exact congrArg Term.var (injective.leftInvOn_invFunOn (Literal.mem_occurrencesList member occurs))

/-- Repeated literals are left out in the same way. -/
theorem firstOccurrences (variant : Variant rename ls ms) :
    Variant rename (firstOccurrences ls) (firstOccurrences ms) := by
  obtain ⟨back, undone⟩ := variant.exists_back
  have onLiterals : ∀ l ∈ ls, ∀ m ∈ ls,
      l.replace (renamingBy rename) = m.replace (renamingBy rename) → l = m := by
    intro l here m there equal
    rw [← undone l here, equal, undone m there]
  have occurs : ∀ {v}, v ∈ Literal.occurrencesList (ClausalReasoner.firstOccurrences ls) →
      v ∈ Literal.occurrencesList ls := by
    intro v inside
    obtain ⟨l, member, here⟩ := List.mem_flatMap.1 inside
    exact Literal.mem_occurrencesList (mem_firstOccurrences.1 member) here
  refine ⟨fun v here w there => variant.injective v (occurs here) w (occurs there), ?_⟩
  rw [← firstOccurrences_map_of_injective onLiterals]
  exact (List.perm_ext_iff_of_nodup (nodup_firstOccurrences _) (nodup_firstOccurrences _)).2
    fun m => by rw [mem_firstOccurrences, mem_firstOccurrences, variant.perm.mem_iff]

end Variant

/-! ### Weights of renamed literals -/

section Weights

variable {rename : Variable → Variable}

theorem Term.weightList_eq_sum (ts : List Term) : weightList ts = (ts.map weight).sum := by
  induction ts with
  | nil => rfl
  | cons t ts inductionHypothesis =>
    rw [weightList, inductionHypothesis, List.map_cons, List.sum_cons]

theorem Term.weight_renamingBy (t : Term) : (t.replace (renamingBy rename)).weight = t.weight := by
  induction t with
  | constant name => rfl
  | var v => rfl
  | app function ts inductionHypothesis =>
    rw [replace, weight, weight, weightList_eq_sum, weightList_eq_sum, replaceList_eq_map,
      List.map_map]
    exact congrArg (1 + ·.sum) (List.map_congr_left inductionHypothesis)

theorem Literal.weight_renamingBy (l : Literal) :
    (l.replace (renamingBy rename)).weight = l.weight := by
  show 1 + Term.weightList (l.atom.replace (renamingBy rename)).arguments = _
  rw [Atom.arguments_replace, Term.replaceList_eq_map, Term.weightList_eq_sum, List.map_map]
  show _ = 1 + Term.weightList l.atom.arguments
  rw [Term.weightList_eq_sum]
  exact congrArg (1 + ·.sum) (List.map_congr_left fun t _ => Term.weight_renamingBy t)

end Weights

/-! ### Clauses that are alike -/

namespace Clause

/-- The second clause has the literals of the first one in some order and with other variables, a
different one for each. -/
def Alike (c d : Clause) : Prop :=
  ∃ rename, Variant rename c.literals d.literals

theorem weight_eq_sum (c : Clause) : c.weight = (c.literals.map Literal.weight).sum := by
  rw [weight, List.sum_eq_foldl, List.foldl_map]

namespace Alike

variable {c d : Clause}

theorem key_eq (alike : c.Alike d) : d.key = c.key := by
  obtain ⟨_, variant⟩ := alike
  rw [d.key_eq, c.key_eq]
  exact canonicalKey_eq_of_variant variant

theorem size_eq (alike : c.Alike d) : d.size = c.size := by
  obtain ⟨rename, _, perm⟩ := alike
  exact perm.length_eq.trans (List.length_map _)

theorem weight_eq (alike : c.Alike d) : d.weight = c.weight := by
  obtain ⟨rename, _, perm⟩ := alike
  rw [weight_eq_sum, weight_eq_sum, (perm.map Literal.weight).sum_eq, List.map_map]
  exact congrArg List.sum (List.map_congr_left fun l _ => l.weight_renamingBy)

end Alike

end Clause

/-- A heuristic for which neither the order of the literals nor the names of the variables make a
difference. -/
def Heuristic.IgnoresNames (heuristic : Heuristic) : Prop :=
  ∀ ⦃c d : Clause⦄, c.Alike d → heuristic.weight d = heuristic.weight c

/-! ### Replies -/

/-- What a collection replies. -/
inductive Reply where
  | truth (holds : Bool)
  | number (n : Nat)
  | clause (found : Option Clause)

/-- Replies that are the same up to clauses that are alike. -/
inductive Reply.Alike : Reply → Reply → Prop
  | truth (holds : Bool) : Alike (.truth holds) (.truth holds)
  | number (n : Nat) : Alike (.number n) (.number n)
  | clause {found other : Option Clause} (alike : Option.Rel Clause.Alike found other) :
      Alike (.clause found) (.clause other)

/-! ### Sets -/

namespace ClauseSet

/-- What is asked of a set. -/
inductive Request where
  | insert (c : Clause)
  | erase (c : Clause)
  | contains (c : Clause)
  | get (place : Nat)
  | size

/-- Requests that are the same up to clauses that are alike. -/
inductive Request.Alike : Request → Request → Prop
  | insert {c d : Clause} (alike : c.Alike d) : Alike (.insert c) (.insert d)
  | erase {c d : Clause} (alike : c.Alike d) : Alike (.erase c) (.erase d)
  | contains {c d : Clause} (alike : c.Alike d) : Alike (.contains c) (.contains d)
  | get (place : Nat) : Alike (.get place) (.get place)
  | size : Alike .size .size

/-- Do what is asked. Putting in and taking out reply whether something was put in or taken out. -/
def serve (s : ClauseSet) : Request → Reply × ClauseSet
  | .insert c => (.truth (!s.contains c), s.insert c)
  | .erase c => (.truth (s.contains c), s.erase c)
  | .contains c => (.truth (s.contains c), s)
  | .get place => (.clause (s.get? place), s)
  | .size => (.number s.size, s)

/-- The replies of a set to requests, one after the other. -/
def replies (s : ClauseSet) : List Request → List Reply
  | [] => []
  | request :: rest => (s.serve request).1 :: (s.serve request).2.replies rest

/-- The members of two sets are alike at each place. -/
def Alike (s t : ClauseSet) : Prop :=
  List.Forall₂ Clause.Alike s.toList t.toList

variable {s t : ClauseSet} {c d : Clause}

theorem Alike.map_key_eq (alike : s.Alike t) :
    t.toList.map Clause.key = s.toList.map Clause.key :=
  map_eq_of_forall₂ Clause.Alike.key_eq alike

theorem Alike.contains_eq (alike : s.Alike t) (clauses : c.Alike d) :
    t.contains d = s.contains c := by
  rw [Bool.eq_iff_iff, contains_iff, contains_iff, ← List.mem_map, ← List.mem_map,
    alike.map_key_eq, clauses.key_eq]

theorem Alike.insert (alike : s.Alike t) (clauses : c.Alike d) :
    (s.insert c).Alike (t.insert d) := by
  have same := alike.contains_eq clauses
  cases fresh : s.contains c with
  | true =>
    rw [ClauseSet.insert, ClauseSet.insert, dif_pos fresh, dif_pos (same.trans fresh)]
    exact alike
  | false =>
    rw [Alike, toList_insert fresh, toList_insert (same.trans fresh)]
    exact List.rel_append alike (.cons clauses .nil)

theorem Alike.erase (alike : s.Alike t) (clauses : c.Alike d) :
    (s.erase c).Alike (t.erase d) := by
  rw [Alike, ClauseSet.erase, ClauseSet.erase, toList, toList, Array.toList_filter,
    Array.toList_filter]
  refine List.rel_filter (fun {e f} members => ?_) alike
  show (e.key != c.key) = true ↔ (f.key != d.key) = true
  rw [members.key_eq, clauses.key_eq]

theorem Alike.get?_rel (alike : s.Alike t) (place : Nat) :
    Option.Rel Clause.Alike (s.get? place) (t.get? place) := by
  rw [get?, get?, ← Array.getElem?_toList, ← Array.getElem?_toList]
  exact getElem?_rel_of_forall₂ alike place

theorem Alike.size_eq (alike : s.Alike t) : t.size = s.size :=
  (List.Forall₂.length_eq alike).symm

/-- Sets that are alike reply alike to requests that are, and stay alike. -/
theorem Alike.serve (alike : s.Alike t) {request other : Request} (requests : request.Alike other) :
    (s.serve request).1.Alike (t.serve other).1 ∧ (s.serve request).2.Alike (t.serve other).2 := by
  cases requests with
  | insert clauses =>
    refine ⟨?_, alike.insert clauses⟩
    rw [ClauseSet.serve, ClauseSet.serve, alike.contains_eq clauses]
    exact .truth _
  | erase clauses =>
    refine ⟨?_, alike.erase clauses⟩
    rw [ClauseSet.serve, ClauseSet.serve, alike.contains_eq clauses]
    exact .truth _
  | contains clauses =>
    refine ⟨?_, alike⟩
    rw [ClauseSet.serve, ClauseSet.serve, alike.contains_eq clauses]
    exact .truth _
  | get place => exact ⟨.clause (alike.get?_rel place), alike⟩
  | size =>
    refine ⟨?_, alike⟩
    rw [ClauseSet.serve, ClauseSet.serve, alike.size_eq]
    exact .number _

theorem Alike.replies (alike : s.Alike t) {requests others : List Request}
    (requestsAlike : List.Forall₂ Request.Alike requests others) :
    List.Forall₂ Reply.Alike (s.replies requests) (t.replies others) := by
  induction requestsAlike generalizing s t with
  | nil => exact .nil
  | cons first _ inductionHypothesis =>
    obtain ⟨reply, after⟩ := alike.serve first
    exact .cons reply (inductionHypothesis after)

end ClauseSet

/-! ### Queues -/

/-- Entries of one weight with clauses that are alike. -/
def QueuedClause.Alike (entry other : QueuedClause) : Prop :=
  other.weight = entry.weight ∧ entry.clause.Alike other.clause

namespace ClauseQueue

/-- What is asked of a queue. -/
inductive Request where
  | push (c : Clause)
  | erase (c : Clause)
  | contains (c : Clause)
  | pop
  | size

/-- Requests that are the same up to clauses that are alike. -/
inductive Request.Alike : Request → Request → Prop
  | push {c d : Clause} (alike : c.Alike d) : Alike (.push c) (.push d)
  | erase {c d : Clause} (alike : c.Alike d) : Alike (.erase c) (.erase d)
  | contains {c d : Clause} (alike : c.Alike d) : Alike (.contains c) (.contains d)
  | pop : Alike .pop .pop
  | size : Alike .size .size

/-- Do what is asked. Taking in and taking out reply whether something was taken in or out. -/
def serve (q : ClauseQueue) : Request → Reply × ClauseQueue
  | .push c => (.truth (!q.contains c), q.push c)
  | .erase c => (.truth (q.contains c), q.erase c)
  | .contains c => (.truth (q.contains c), q)
  | .pop =>
    match q.pop with
    | some (c, rest) => (.clause (some c), rest)
    | none => (.clause none, q)
  | .size => (.number q.size, q)

/-- The replies of a queue to requests, one after the other. -/
def replies (q : ClauseQueue) : List Request → List Reply
  | [] => []
  | request :: rest => (q.serve request).1 :: (q.serve request).2.replies rest

/-- Two queues have one heuristic, which ignores names, and their entries are alike at each place. -/
structure Alike (q r : ClauseQueue) : Prop where
  heuristic : r.heuristic = q.heuristic
  ignoresNames : q.heuristic.IgnoresNames
  entries : List.Forall₂ QueuedClause.Alike q.entries r.entries

variable {q r : ClauseQueue} {c d : Clause}

theorem Alike.map_key_eq (alike : q.Alike r) :
    r.toList.map Clause.key = q.toList.map Clause.key := by
  rw [toList, toList, List.map_map, List.map_map]
  exact map_eq_of_forall₂ (fun entries => entries.2.key_eq) alike.entries

theorem Alike.contains_eq (alike : q.Alike r) (clauses : c.Alike d) :
    r.contains d = q.contains c := by
  rw [Bool.eq_iff_iff, contains_iff, contains_iff, alike.map_key_eq, clauses.key_eq]

/-- Entries that are alike are placed alike. -/
theorem place_alike {entry other : QueuedClause} (placed : entry.Alike other)
    {entries others : List QueuedClause} (alike : List.Forall₂ QueuedClause.Alike entries others) :
    List.Forall₂ QueuedClause.Alike (place entry entries) (place other others) := by
  induction alike with
  | nil => exact .cons placed .nil
  | @cons first second rest _ here later inductionHypothesis =>
    have sameOrder : other.order second = entry.order first := by
      rw [QueuedClause.order, QueuedClause.order, placed.1, placed.2.key_eq, here.1, here.2.key_eq]
    rw [place, place, sameOrder]
    split
    · exact .cons placed (.cons here later)
    · exact .cons here inductionHypothesis

theorem Alike.push (alike : q.Alike r) (clauses : c.Alike d) : (q.push c).Alike (r.push d) := by
  rw [ClauseQueue.push, ClauseQueue.push, alike.contains_eq clauses]
  split
  · exact alike
  · refine ⟨alike.heuristic, alike.ignoresNames, place_alike ⟨?_, clauses⟩ alike.entries⟩
    rw [alike.heuristic]
    exact alike.ignoresNames clauses

theorem Alike.erase (alike : q.Alike r) (clauses : c.Alike d) : (q.erase c).Alike (r.erase d) := by
  refine ⟨alike.heuristic, alike.ignoresNames, List.rel_filter (fun {entry other} entries => ?_) alike.entries⟩
  show decide (entry.clause.key ≠ c.key) = true ↔ decide (other.clause.key ≠ d.key) = true
  rw [entries.2.key_eq, clauses.key_eq]

/-- Two queues that are alike are both empty, or the clauses taken out are alike, and so is what is
left. -/
theorem Alike.pop_rel (alike : q.Alike r) :
    Option.Rel (fun popped other => popped.1.Alike other.1 ∧ popped.2.Alike other.2)
      q.pop r.pop := by
  obtain ⟨heuristic, ignoresNames, entries⟩ := alike
  rw [pop, pop]
  generalize q.entries = queued at entries
  generalize r.entries = others at entries
  cases entries with
  | nil => exact .none
  | cons first rest => exact .some ⟨first.2, heuristic, ignoresNames, rest⟩

theorem Alike.size_eq (alike : q.Alike r) : r.size = q.size :=
  alike.entries.length_eq.symm

/-- Queues that are alike reply alike to requests that are, and stay alike. -/
theorem Alike.serve (alike : q.Alike r) {request other : Request} (requests : request.Alike other) :
    (q.serve request).1.Alike (r.serve other).1 ∧ (q.serve request).2.Alike (r.serve other).2 := by
  cases requests with
  | push clauses =>
    refine ⟨?_, alike.push clauses⟩
    rw [ClauseQueue.serve, ClauseQueue.serve, alike.contains_eq clauses]
    exact .truth _
  | erase clauses =>
    refine ⟨?_, alike.erase clauses⟩
    rw [ClauseQueue.serve, ClauseQueue.serve, alike.contains_eq clauses]
    exact .truth _
  | contains clauses =>
    refine ⟨?_, alike⟩
    rw [ClauseQueue.serve, ClauseQueue.serve, alike.contains_eq clauses]
    exact .truth _
  | pop =>
    have popped := alike.pop_rel
    rw [ClauseQueue.serve, ClauseQueue.serve]
    generalize q.pop = first at popped
    generalize r.pop = second at popped
    cases popped with
    | none => exact ⟨.clause .none, alike⟩
    | some related => exact ⟨.clause (.some related.1), related.2⟩
  | size =>
    refine ⟨?_, alike⟩
    rw [ClauseQueue.serve, ClauseQueue.serve, alike.size_eq]
    exact .number _

theorem Alike.replies (alike : q.Alike r) {requests others : List Request}
    (requestsAlike : List.Forall₂ Request.Alike requests others) :
    List.Forall₂ Reply.Alike (q.replies requests) (r.replies others) := by
  induction requestsAlike generalizing q r with
  | nil => exact .nil
  | cons first _ inductionHypothesis =>
    obtain ⟨reply, after⟩ := alike.serve first
    exact .cons reply (inductionHypothesis after)

end ClauseQueue

/-! ### Identity up to order and names -/

/-- **Clauses are identified up to the order of their literals and the names of their variables.**
Literals in another order and with other variables have the same number of orders to be tried and
the same key, and make clauses that count as equal. A set or a queue that is used from the start
with clauses that are alike replies in the same way, up to clauses that are alike. Of a queue this
is said for every heuristic that ignores the order and the names itself, as the number of literals
and the number of symbols do. -/
theorem identity_of_variant {rename : Variable → Variable} {ls ms : List Literal}
    (variant : Variant rename ls ms) {setRequests otherSetRequests : List ClauseSet.Request}
    (setAlike : List.Forall₂ ClauseSet.Request.Alike setRequests otherSetRequests)
    {queueRequests otherQueueRequests : List ClauseQueue.Request}
    (queueAlike : List.Forall₂ ClauseQueue.Request.Alike queueRequests otherQueueRequests) :
    tieOrders ms = tieOrders ls ∧ canonicalKey ms = canonicalKey ls ∧
      (∀ origin other, (Clause.ofLiterals ls origin).Alike (Clause.ofLiterals ms other) ∧
        (Clause.ofLiterals ms other).key = (Clause.ofLiterals ls origin).key) ∧
      List.Forall₂ Reply.Alike ((∅ : ClauseSet).replies setRequests)
        ((∅ : ClauseSet).replies otherSetRequests) ∧
      Heuristic.fewestLiterals.IgnoresNames ∧ Heuristic.fewestSymbols.IgnoresNames ∧
      ∀ heuristic : Heuristic, heuristic.IgnoresNames →
        List.Forall₂ Reply.Alike (ClauseQueue.replies { heuristic := heuristic } queueRequests)
          (ClauseQueue.replies { heuristic := heuristic } otherQueueRequests) := by
  have clauses : ∀ origin other,
      (Clause.ofLiterals ls origin).Alike (Clause.ofLiterals ms other) := fun _ _ =>
    ⟨rename, variant.firstOccurrences⟩
  have emptySets : ClauseSet.Alike ∅ ∅ := List.Forall₂.nil
  refine ⟨variant.tieOrders_eq, canonicalKey_eq_of_variant variant,
    fun origin other => ⟨clauses origin other, (clauses origin other).key_eq⟩,
    emptySets.replies setAlike, fun _ _ => Clause.Alike.size_eq, fun _ _ => Clause.Alike.weight_eq,
    fun heuristic ignoresNames => ?_⟩
  have emptyQueues : ClauseQueue.Alike { heuristic := heuristic } { heuristic := heuristic } :=
    ⟨rfl, ignoresNames, .nil⟩
  exact emptyQueues.replies queueAlike

/-! ### A triangle -/

/-- Some of the sides of a triangle whose corners are `x`, `y` and `z` with an index. -/
def sides (index : Option Nat) (corners : List (String × String)) : List Literal :=
  corners.map fun (first, second) =>
    .positive (.predicate "Near" [.var ⟨first, index⟩, .var ⟨second, index⟩])

/-- The sides of a triangle, which tie with each other. -/
def triangle : List Literal :=
  sides none [("x", "y"), ("y", "z"), ("z", "x")]

/-- The sides in another order and between renamed corners. -/
def turnedTriangle : List Literal :=
  sides (some 7) [("z", "x"), ("x", "y"), ("y", "z")]

theorem variant_triangle : Variant (·.withIndex 7) triangle turnedTriangle :=
  ⟨by decide, by decide⟩

/-- Whether a triangle or the turned one is put in, the turned one is then found in the set, and
what comes first out of the queue is one of the two. -/
theorem identity_of_triangle :
    canonicalKey turnedTriangle = canonicalKey triangle ∧
      List.Forall₂ Reply.Alike
        ((∅ : ClauseSet).replies
          [.insert (.ofLiterals triangle), .contains (.ofLiterals turnedTriangle), .get 0])
        ((∅ : ClauseSet).replies
          [.insert (.ofLiterals turnedTriangle), .contains (.ofLiterals turnedTriangle), .get 0]) ∧
      List.Forall₂ Reply.Alike
        (ClauseQueue.replies { heuristic := .fewestSymbols } [.push (.ofLiterals triangle), .pop])
        (ClauseQueue.replies { heuristic := .fewestSymbols }
          [.push (.ofLiterals turnedTriangle), .pop]) := by
  have alike : (Clause.ofLiterals triangle).Alike (Clause.ofLiterals turnedTriangle) :=
    ⟨_, variant_triangle.firstOccurrences⟩
  have itself : (Clause.ofLiterals turnedTriangle).Alike (Clause.ofLiterals turnedTriangle) :=
    ⟨id, by decide, by decide⟩
  obtain ⟨_, key, _, sets, _, bySymbols, queues⟩ := identity_of_variant variant_triangle
    (.cons (.insert alike) (.cons (.contains itself) (.cons (.get 0) .nil)))
    (.cons (.push alike) (.cons .pop .nil))
  exact ⟨key, sets, queues _ bySymbols⟩

end ClausalReasoner

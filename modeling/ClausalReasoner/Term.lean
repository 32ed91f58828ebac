/-
This file holds the leaves of the logic: variables, terms and atoms. A variable is a name together
with an optional index, and the index is what tells the variables of two clauses apart once they
have been renamed: `x`, `x` with index 3 and a variable whose name is `x3` are three different
variables although the last two are written alike. Terms and atoms are compared structurally, and
they carry a total order in which constants come before variables and variables before
applications, which fixes the order of everything that is listed sorted.
-/

namespace ClausalReasoner

/-! ### Variables are names with an optional index -/

/-- A variable. Two variables are the same exactly when name and index agree. -/
structure Variable where
  /-- The name that the variable is written with. -/
  name : String
  /-- The index given when the variable was renamed, if it ever was. -/
  index : Option Nat := none
  deriving DecidableEq, Hashable, Inhabited, Repr

namespace Variable

/-- The variable of the same name that carries `index`. -/
def withIndex (v : Variable) (index : Nat) : Variable :=
  ⟨v.name, some index⟩

/-- Names decide first; of two variables with one name the one without an index comes first. -/
def order (left right : Variable) : Ordering :=
  (compare left.name right.name).then (compare left.index right.index)

instance : Ord Variable := ⟨order⟩

end Variable

/-- The members of a list in the order in which they are first met. -/
def firstOccurrences {Element : Type} [DecidableEq Element] : List Element → List Element
  | [] => []
  | first :: rest => first :: (firstOccurrences rest).filter (· ≠ first)

@[simp]
theorem mem_firstOccurrences {Element : Type} [DecidableEq Element] {element : Element}
    {list : List Element} : element ∈ firstOccurrences list ↔ element ∈ list := by
  induction list with
  | nil => simp [firstOccurrences]
  | cons first rest inductionHypothesis =>
    by_cases same : element = first <;> simp [firstOccurrences, same, inductionHypothesis]

theorem nodup_firstOccurrences {Element : Type} [DecidableEq Element] (list : List Element) :
    (firstOccurrences list).Nodup := by
  induction list with
  | nil => simp [firstOccurrences]
  | cons first rest inductionHypothesis =>
    simp only [firstOccurrences, List.nodup_cons]
    exact ⟨by simp, inductionHypothesis.filter _⟩

/-! ### Terms -/

/-- A term: a constant, a variable or a function applied to a list of arguments. A function
applied to no arguments is not a constant, even under the same name. -/
inductive Term where
  | constant (name : String)
  | var (v : Variable)
  | app (function : String) (arguments : List Term)
  deriving Inhabited, Repr

namespace Term

mutual

/-- Equality of terms is decided along their structure. -/
def decEq : (left right : Term) → Decidable (left = right)
  | .constant a, .constant b =>
    if same : a = b then isTrue (same ▸ rfl) else isFalse fun h => same (Term.constant.inj h)
  | .var v, .var w =>
    if same : v = w then isTrue (same ▸ rfl) else isFalse fun h => same (Term.var.inj h)
  | .app f ts, .app g us =>
    if same : f = g then
      match decEqList ts us with
      | isTrue equal => isTrue (by rw [same, equal])
      | isFalse differ => isFalse fun h => differ (Term.app.inj h).2
    else isFalse fun h => same (Term.app.inj h).1
  | .constant _, .var _ => isFalse nofun
  | .constant _, .app _ _ => isFalse nofun
  | .var _, .constant _ => isFalse nofun
  | .var _, .app _ _ => isFalse nofun
  | .app _ _, .constant _ => isFalse nofun
  | .app _ _, .var _ => isFalse nofun

/-- Equality of argument lists, decided from the left. -/
def decEqList : (left right : List Term) → Decidable (left = right)
  | [], [] => isTrue rfl
  | [], _ :: _ => isFalse nofun
  | _ :: _, [] => isFalse nofun
  | t :: ts, u :: us =>
    match decEq t u with
    | isTrue heads =>
      match decEqList ts us with
      | isTrue tails => isTrue (by rw [heads, tails])
      | isFalse differ => isFalse fun h => differ (List.cons.inj h).2
    | isFalse differ => isFalse fun h => differ (List.cons.inj h).1

end

instance : DecidableEq Term := decEq

mutual

/-- Constants come before variables and variables before applications; applications are ordered
by their function first and then by their arguments from the left. -/
def order : Term → Term → Ordering
  | .constant a, .constant b => compare a b
  | .constant _, _ => .lt
  | .var _, .constant _ => .gt
  | .var v, .var w => v.order w
  | .var _, .app _ _ => .lt
  | .app f ts, .app g us => (compare f g).then (orderList ts us)
  | .app _ _, _ => .gt

/-- Argument lists are ordered lexicographically. -/
def orderList : List Term → List Term → Ordering
  | [], [] => .eq
  | [], _ :: _ => .lt
  | _ :: _, [] => .gt
  | t :: ts, u :: us => (order t u).then (orderList ts us)

end

instance : Ord Term := ⟨order⟩

/-- The variable that a term is, if it is one. -/
def asVariable? : Term → Option Variable
  | .var v => some v
  | _ => none

/-- Whether a term is a variable. -/
def isVariable (t : Term) : Bool :=
  t.asVariable?.isSome

/-- The constant or function symbol of a term, or the name of the variable that it is. -/
def symbol : Term → String
  | .constant name => name
  | .var v => v.name
  | .app function _ => function

/-- The arguments of an application; every other term has none. -/
def arguments : Term → List Term
  | .app _ ts => ts
  | _ => []

mutual

/-- A term is ground when it holds no variable. -/
def isGround : Term → Bool
  | .constant _ => true
  | .var _ => false
  | .app _ ts => allGround ts

/-- Whether every term of a list is ground. -/
def allGround : List Term → Bool
  | [] => true
  | t :: ts => isGround t && allGround ts

end

mutual

/-- The variables of a term in reading order, one entry for each place where one stands. -/
def occurrences : Term → List Variable
  | .constant _ => []
  | .var v => [v]
  | .app _ ts => occurrencesList ts

/-- The variable occurrences of a list of terms, from the left. -/
def occurrencesList : List Term → List Variable
  | [] => []
  | t :: ts => occurrences t ++ occurrencesList ts

end

/-- The variables of a term, each once, in the order in which they are first met. -/
def vars (t : Term) : List Variable :=
  firstOccurrences t.occurrences

mutual

/-- Whether a variable stands anywhere in a term. -/
def contains (v : Variable) : Term → Bool
  | .constant _ => false
  | .var w => w = v
  | .app _ ts => containsList v ts

/-- Whether a variable stands anywhere in a list of terms. -/
def containsList (v : Variable) : List Term → Bool
  | [] => false
  | t :: ts => contains v t || containsList v ts

end

mutual

/-- The weight of a term is the number of its symbols. -/
def weight : Term → Nat
  | .constant _ => 1
  | .var _ => 1
  | .app _ ts => 1 + weightList ts

/-- The weight of a list of terms is the sum of their weights. -/
def weightList : List Term → Nat
  | [] => 0
  | t :: ts => weight t + weightList ts

end

@[simp]
theorem weightList_append (ts us : List Term) :
    weightList (ts ++ us) = weightList ts + weightList us := by
  induction ts with
  | nil => simp [weightList]
  | cons t ts inductionHypothesis => simp [weightList, inductionHypothesis, Nat.add_assoc]

@[simp]
theorem weightList_reverse (ts : List Term) : weightList ts.reverse = weightList ts := by
  induction ts with
  | nil => rfl
  | cons t ts inductionHypothesis => simp [weightList, inductionHypothesis, Nat.add_comm]

mutual

/-- Put a term in the place of every variable, all places at once. -/
def replace (value : Variable → Term) : Term → Term
  | .constant name => .constant name
  | .var v => value v
  | .app function ts => .app function (replaceList value ts)

/-- Put terms in the place of the variables in each term of a list. -/
def replaceList (value : Variable → Term) : List Term → List Term
  | [] => []
  | t :: ts => replace value t :: replaceList value ts

end

theorem replaceList_eq_map (value : Variable → Term) (ts : List Term) :
    replaceList value ts = ts.map (replace value) := by
  induction ts with
  | nil => rfl
  | cons t ts inductionHypothesis => simp [replaceList, inductionHypothesis]

end Term

/-! ### Atoms -/

/-- An atom: a predicate applied to terms, or an equality between two terms. A predicate that
happens to be called `=` is not an equality. -/
inductive Atom where
  | predicate (name : String) (arguments : List Term)
  | equality (left right : Term)
  deriving DecidableEq, Inhabited, Repr

namespace Atom

/-- Predicates come before equalities; each kind is ordered by its parts from the left. -/
def order : Atom → Atom → Ordering
  | .predicate p ts, .predicate q us => (compare p q).then (Term.orderList ts us)
  | .predicate _ _, .equality _ _ => .lt
  | .equality _ _, .predicate _ _ => .gt
  | .equality a b, .equality c d => (a.order c).then (b.order d)

instance : Ord Atom := ⟨order⟩

/-- The predicate name, or the sign `=` of an equality. -/
def symbol : Atom → String
  | .predicate name _ => name
  | .equality _ _ => "="

/-- The arguments of a predicate, or the two sides of an equality. -/
def arguments : Atom → List Term
  | .predicate _ ts => ts
  | .equality left right => [left, right]

/-- The number of arguments. -/
def arity (a : Atom) : Nat :=
  a.arguments.length

/-- Whether an atom is an equality. -/
def isEquality : Atom → Bool
  | .predicate _ _ => false
  | .equality _ _ => true

/-- The atom over the same symbol with other arguments. An equality takes its two sides from the
front of the list and stays as it is when the list is too short. -/
def withArguments : Atom → List Term → Atom
  | .predicate name _, ts => .predicate name ts
  | .equality _ _, left :: right :: _ => .equality left right
  | a, _ => a

theorem arguments_withArguments {a : Atom} {ts : List Term} (long : ts.length = a.arity) :
    (a.withArguments ts).arguments = ts := by
  cases a with
  | predicate name us => rfl
  | equality left right =>
    match ts, long with
    | [_, _], _ => rfl

/-- An atom is ground when all of its arguments are. -/
def isGround (a : Atom) : Bool :=
  Term.allGround a.arguments

/-- The variable occurrences of an atom in reading order. -/
def occurrences (a : Atom) : List Variable :=
  Term.occurrencesList a.arguments

/-- The variables of an atom, each once, in the order in which they are first met. -/
def vars (a : Atom) : List Variable :=
  firstOccurrences a.occurrences

/-- Put terms in the place of the variables in the arguments of an atom. -/
def replace (value : Variable → Term) : Atom → Atom
  | .predicate name ts => .predicate name (Term.replaceList value ts)
  | .equality left right => .equality (left.replace value) (right.replace value)

/-- The weight of an atom counts its predicate and the symbols of its arguments. -/
def weight (a : Atom) : Nat :=
  1 + Term.weightList a.arguments

end Atom

end ClausalReasoner

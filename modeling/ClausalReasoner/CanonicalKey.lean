/-
This file computes the key by which clauses are identified. The key of a list of literals does not
depend on the order of the literals or on the names of their variables, and up to a limit it is
different for lists that differ in anything else.

The variables are told apart step by step. A literal has a shape, which forgets which variables
stand in it but not where they repeat. Every variable gets a color, at first the same for all, and
the colors are refined by looking at the places where a variable stands: the shape of the literal,
the colors of the variables in it, and which of them it is. When a round tells no further variables
apart the literals are sorted by shape and colors. Literals that still tie are tried in every order
and the least text wins, unless the orders are too many; then the variables are written as their
colors, and lists that the colors do not separate share a key.

In a key a symbol is written with its length in bytes before it and a variable as a question mark
and a number, so that nothing but a variable looks like one.
-/

import ClausalReasoner.Literal

namespace ClausalReasoner

/-! ### Shapes of terms and literals -/

/-- The variable that stands for all variables where only the places of variables matter. -/
def blank : Variable := ⟨"", none⟩

namespace Term

/-- The term with its variables made indistinguishable. -/
def shape (t : Term) : Term :=
  t.replace fun _ => .var blank

mutual

/-- The order of shapes: variables, which all count as equal, come before applications and those
before constants. -/
def shapeOrder : Term → Term → Ordering
  | .var _, .var _ => .eq
  | .var _, _ => .lt
  | .app _ _, .var _ => .gt
  | .app f ts, .app g us => (compare f g).then (shapeOrderList ts us)
  | .app _ _, .constant _ => .lt
  | .constant a, .constant b => compare a b
  | .constant _, _ => .gt

/-- Lists of shapes are ordered lexicographically. -/
def shapeOrderList : List Term → List Term → Ordering
  | [], [] => .eq
  | [], _ :: _ => .lt
  | _ :: _, [] => .gt
  | t :: ts, u :: us => (shapeOrder t u).then (shapeOrderList ts us)

end

end Term

/-- The lexicographic order of lists of numbers. -/
def numbersOrder : List Nat → List Nat → Ordering
  | [], [] => .eq
  | [], _ :: _ => .lt
  | _ :: _, [] => .gt
  | m :: ms, n :: ns => (compare m n).then (numbersOrder ms ns)

/-- What is left of a literal when it is forgotten which variables stand in it. The pattern numbers
the variables of the literal by their first occurrence in it. -/
structure LiteralShape where
  polarity : Polarity
  reduced : Bool
  isEquality : Bool
  symbol : String
  arity : Nat
  arguments : List Term
  pattern : List Nat
  deriving DecidableEq, Inhabited

namespace LiteralShape

/-- Shapes are ordered by their parts, from polarity to pattern. -/
def order (left right : LiteralShape) : Ordering :=
  (compare left.polarity right.polarity).then <|
  (compare left.reduced right.reduced).then <|
  (compare left.isEquality right.isEquality).then <|
  (compare left.symbol right.symbol).then <|
  (compare left.arity right.arity).then <|
  (Term.shapeOrderList left.arguments right.arguments).then <|
  numbersOrder left.pattern right.pattern

end LiteralShape

namespace Literal

/-- The shape of a literal. -/
def shape (l : Literal) : LiteralShape where
  polarity := l.polarity
  reduced := l.reduced
  isEquality := l.atom.isEquality
  symbol := l.atom.symbol
  arity := l.atom.arity
  arguments := l.atom.arguments.map Term.shape
  pattern :=
    let vs := firstOccurrences l.occurrences
    l.occurrences.map vs.idxOf

end Literal

/-! ### Colors of variables -/

/-- A coloring gives a number to each variable of a list of literals. -/
abbrev Coloring := List (Variable × Nat)

/-- The color of a variable. -/
def Coloring.color (colors : Coloring) (v : Variable) : Nat :=
  (colors.lookup v).getD 0

/-- A literal together with its shape and its variable occurrences. -/
structure ShapedLiteral where
  shape : LiteralShape
  occurrences : List Variable
  literal : Literal
  deriving Inhabited

/-- A literal with what the coloring looks at. -/
def ShapedLiteral.ofLiteral (l : Literal) : ShapedLiteral :=
  ⟨l.shape, l.occurrences, l⟩

/-- One place where a variable stands: the shape of the literal, the colors of the variables in it,
and the number of the place among them. -/
structure OccurrencePlace where
  shape : LiteralShape
  colors : List Nat
  position : Nat
  deriving DecidableEq, Inhabited

/-- Places are ordered by shape, then colors, then number. -/
def OccurrencePlace.order (left right : OccurrencePlace) : Ordering :=
  (left.shape.order right.shape).then <|
  (numbersOrder left.colors right.colors).then <|
  compare left.position right.position

/-- The lexicographic order of lists of places. -/
def OccurrencePlace.orderList : List OccurrencePlace → List OccurrencePlace → Ordering
  | [], [] => .eq
  | [], _ :: _ => .lt
  | _ :: _, [] => .gt
  | p :: ps, q :: qs => (p.order q).then (OccurrencePlace.orderList ps qs)

/-- What one round of refinement sees of a variable: its color so far and its places in order. -/
structure VariableSignature where
  color : Nat
  places : List OccurrencePlace
  deriving DecidableEq, Inhabited

/-- Signatures are ordered by color, then places. -/
def VariableSignature.order (left right : VariableSignature) : Ordering :=
  (compare left.color right.color).then (OccurrencePlace.orderList left.places right.places)

/-- The members of a list in increasing order, equal ones keeping their places. -/
def sortedBy {Element : Type} (order : Element → Element → Ordering) (list : List Element) :
    List Element :=
  list.mergeSort fun left right => (order left right).isLE

namespace Coloring

/-- The places of a variable under a coloring. -/
def places (colors : Coloring) (literals : List ShapedLiteral) (v : Variable) :
    List OccurrencePlace :=
  literals.flatMap fun l =>
    let occurrenceColors := l.occurrences.map colors.color
    l.occurrences.zipIdx.filterMap fun (w, position) =>
      if w = v then some ⟨l.shape, occurrenceColors, position⟩ else none

/-- The signature of a variable under a coloring. -/
def signature (colors : Coloring) (literals : List ShapedLiteral) (v : Variable) :
    VariableSignature :=
  ⟨colors.color v, sortedBy OccurrencePlace.order (colors.places literals v)⟩

/-- Refine a coloring for at most so many rounds. A round gives variables with different signatures
different colors, numbered in the order of the signatures. The coloring is returned as soon as a
round would make no more classes of variables than there are. -/
def refineWithin (literals : List ShapedLiteral) (vs : List Variable) :
    (rounds classes : Nat) → Coloring → Coloring
  | 0, _, colors => colors
  | rounds + 1, classes, colors =>
    let signatures := vs.map fun v => (v, colors.signature literals v)
    let kinds := firstOccurrences (sortedBy VariableSignature.order (signatures.map (·.2)))
    if kinds.length = classes then colors
    else refineWithin literals vs rounds kinds.length
      (signatures.map fun entry => (entry.1, kinds.idxOf entry.2))

/-- The refined coloring of a list of literals. All variables begin with one color; every round but
the last adds a class, so there is at most one round more than there are variables. -/
def refined (literals : List ShapedLiteral) : Coloring :=
  let vs := firstOccurrences (literals.flatMap (·.occurrences))
  refineWithin literals vs (vs.length + 1) (min 1 vs.length) (vs.map fun v => (v, 0))

end Coloring

/-! ### Writing keys -/

/-- A symbol with its length in bytes before it. -/
def keySymbol (name : String) : String :=
  toString name.utf8ByteSize ++ ":" ++ name

mutual

/-- A term in a key, its variables written by their numbers. -/
def Term.keyText (number : Variable → Nat) : Term → String
  | .constant name => keySymbol name
  | .var v => "?" ++ toString (number v)
  | .app function ts =>
    keySymbol function ++ "(" ++ ",".intercalate (Term.keyTextList number ts) ++ ")"

/-- The terms of a list in a key. -/
def Term.keyTextList (number : Variable → Nat) : List Term → List String
  | [] => []
  | t :: ts => Term.keyText number t :: Term.keyTextList number ts

end

/-- A literal in a key: the mark of a reduced literal, the sign of a negative one, and the atom,
where the bare sign of equality cannot be confused with a predicate. -/
def Literal.keyText (number : Variable → Nat) (l : Literal) : String :=
  (if l.reduced then "#" else "") ++ (if l.isNegative then "~" else "") ++
    (if l.atom.isEquality then "=(" else keySymbol l.atom.symbol ++ "(") ++
    ",".intercalate (Term.keyTextList number l.atom.arguments) ++ ");"

/-- Literals in the given order, their variables numbered by first occurrence. -/
def keyInOrder (ls : List Literal) : String :=
  let vs := Literal.varsList ls
  "".intercalate (ls.map (Literal.keyText vs.idxOf))

/-- Literals with their variables written as colors, in the order of the resulting texts. -/
def keyByColors (colors : Coloring) (ls : List Literal) : String :=
  "".intercalate (sortedBy compare (ls.map (Literal.keyText colors.color)))

/-! ### Choosing among the orders of tied literals -/

/-- A list with an element put into each of its gaps in turn. -/
def insertEverywhere {Element : Type} (element : Element) : List Element → List (List Element)
  | [] => [[element]]
  | first :: rest =>
    (element :: first :: rest) :: (insertEverywhere element rest).map (first :: ·)

/-- All orders of a list. -/
def allOrders {Element : Type} : List Element → List (List Element)
  | [] => [[]]
  | first :: rest => (allOrders rest).flatMap (insertEverywhere first)

/-- All ways to order every group of a list and to write the groups one after the other. -/
def groupOrders {Element : Type} : List (List Element) → List (List Element)
  | [] => [[]]
  | group :: rest => (allOrders group).flatMap fun front => (groupOrders rest).map (front ++ ·)

/-- The number of orders of so many things, in words of 64 bits. -/
def orderCount (n : Nat) : UInt64 :=
  (List.range n).foldl (fun product i => product * (i + 1).toUInt64) 1

/-- The largest number of orders that are all tried. -/
def maxTriedOrders : UInt64 := 720

/-- The number of ways to order every group, with the largest word standing for every number that
does not fit into one. -/
def tiedOrders (sizes : List Nat) : UInt64 :=
  let product := sizes.foldl (fun product size =>
    product.bind fun soFar =>
      let next := soFar.toNat * (orderCount size).toNat
      if next < UInt64.size then some next.toUInt64 else none) (some 1)
  product.getD (-1)

/-- What literals are sorted by: their shape and the colors of their variables. -/
structure LiteralRank where
  shape : LiteralShape
  colors : List Nat
  deriving DecidableEq, Inhabited

/-- Ranks are ordered by shape, then colors. -/
def LiteralRank.order (left right : LiteralRank) : Ordering :=
  (left.shape.order right.shape).then (numbersOrder left.colors right.colors)

/-- Neighbors with equal ranks form a group. -/
def tiedGroups (ranked : List (LiteralRank × Literal)) : List (List Literal) :=
  (ranked.splitBy fun left right => left.1 = right.1).map fun group => group.map (·.2)

/-- The least of a list of texts, and the empty text when there is none. -/
def leastText : List String → String
  | [] => ""
  | first :: rest => rest.foldl (fun least text => if text < least then text else least) first

/-- The literals of a list in the order of their ranks. -/
def rankedLiterals (colors : Coloring) (literals : List ShapedLiteral) :
    List (LiteralRank × Literal) :=
  sortedBy (fun left right => left.1.order right.1)
    (literals.map fun l => (⟨l.shape, l.occurrences.map colors.color⟩, l.literal))

/-- The key that identifies a list of literals up to order and names of variables. -/
def canonicalKey (ls : List Literal) : String :=
  let shaped := ls.map ShapedLiteral.ofLiteral
  let colors := Coloring.refined shaped
  let ranked := rankedLiterals colors shaped
  let groups := tiedGroups ranked
  let orders := tiedOrders (groups.map List.length)
  if orders = 1 then keyInOrder (ranked.map (·.2))
  else if orders > maxTriedOrders then keyByColors colors (ranked.map (·.2))
  else leastText ((groupOrders groups).map keyInOrder)

end ClausalReasoner

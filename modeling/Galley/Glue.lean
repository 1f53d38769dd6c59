import Galley.Dimension

/-!
Glue: a natural size with a stretch and a shrink, each finite or of one of three infinite orders.
-/

namespace Galley

inductive GlueOrder
  | normal | fil | fill | filll
  deriving DecidableEq, Repr

namespace GlueOrder

def all : List GlueOrder := [normal, fil, fill, filll]

def rank : GlueOrder → Nat
  | normal => 0 | fil => 1 | fill => 2 | filll => 3

def ofRank? (n : Int) : Option GlueOrder := if 0 ≤ n then all[n.toNat]? else none

/-- The next higher order. -/
def next? (o : GlueOrder) : Option GlueOrder := ofRank? (o.rank + 1)

theorem ofRank?_rank (o : GlueOrder) : ofRank? o.rank = some o := by
  cases o <;> rfl

theorem rank_inj {a b : GlueOrder} (h : a.rank = b.rank) : a = b := by
  cases a <;> cases b <;> simp_all [rank]

end GlueOrder

/-- The message for a number that is no rank of an order. -/
def GlueOrder.refusal (n : Int) : String := toString n ++ " is not a valid GlueOrder"

/-- An amount of stretch or shrink. -/
structure Flex where
  amount : Dimension := .zero
  order : GlueOrder := .normal
  deriving DecidableEq, Repr

/-- The lower order vanishes against the higher one. -/
def Flex.add? (a b : Flex) : Option Flex :=
  if a.order = b.order then (a.amount.add? b.amount).map (⟨·, a.order⟩)
  else if b.order.rank < a.order.rank then some a
  else some b

def Flex.text (f : Flex) : List Char :=
  f.amount.pointsText ++
    match f.order with
    | .normal => ['p', 't']
    | o => 'f' :: 'i' :: List.replicate o.rank 'l'

structure Glue where
  natural : Dimension
  stretch : Flex := {}
  shrink : Flex := {}
  deriving DecidableEq, Repr

namespace Glue

def add? (a b : Glue) : Option Glue := do
  let stretch ← a.stretch.add? b.stretch
  let shrink ← a.shrink.add? b.shrink
  let natural ← a.natural.add? b.natural
  return ⟨natural, stretch, shrink⟩

/-- A part of the text that is left out when the amount is zero. -/
def flexText (keyword : String) (f : Flex) : List Char :=
  if f.amount.sp = 0 then [] else ' ' :: keyword.toList ++ ' ' :: f.text

def text (g : Glue) : String :=
  String.ofList (g.natural.pointsText ++ ['p', 't'] ++ flexText "plus" g.stretch ++
    flexText "minus" g.shrink)

end Glue

end Galley

import CanonicalLR.Item.Closure

/-!
# Closing a set of items with a worklist

A worklist holds the items found so far, those of them that are still to be expanded, and
a set of lookaheads that is filled anew for each item that is expanded.  A pass takes a
pending item and adds what it predicts.  `takeFor` takes the item that was found last, and
`Passes` leaves the order open.
-/

set_option autoImplicit false

namespace CanonicalLR

/-- Adds what can begin a sequence of symbols with one symbol after it to a set. -/
def FirstSets.addSequence (sets : FirstSets) (grammar : NumberedGrammar)
    (symbols : List Nat) (after : Nat) (found : SymbolSet) : SymbolSet :=
  let scanned := scanFirst grammar sets.nullable sets.first symbols found
  if scanned.2 then scanned.1.insert after else scanned.1

structure Worklist where
  items : ItemSet
  pending : List Item
  lookaheads : SymbolSet

namespace Worklist

/-- An item that is not in the set yet is inserted and becomes pending. -/
def add (list : Worklist) (item : Item) : Worklist :=
  if item ∈ list.items then list
  else { list with
    items := list.items.insert item
    pending := item :: list.pending }

variable (grammar : NumberedGrammar) (sets : FirstSets)

def ofSeed (seed : List Item) : Worklist :=
  seed.foldl add ⟨.empty, [], .empty grammar.symbolCount⟩

def expand (list : Worklist) (item : Item) : Worklist :=
  match grammar.nextSymbol? item with
  | none => list
  | some symbol =>
      if grammar.isNonterminal symbol then
        let lookaheads := sets.addSequence grammar (grammar.afterNext item) item.lookahead
          list.lookaheads.clear
        (grammar.productionsOf symbol).foldl
          (fun grown production => lookaheads.toList.foldl
            (fun grown lookahead => grown.add ⟨production, 0, lookahead⟩) grown)
          { list with lookaheads := lookaheads }
      else list

/-- Expands the item that was found last, if an item is pending. -/
def takeLast (list : Worklist) : Worklist :=
  match list.pending with
  | [] => list
  | item :: rest => expand grammar sets { list with pending := rest } item

def takeFor (list : Worklist) : Nat → Worklist
  | 0 => list
  | count + 1 => takeLast grammar sets (takeFor list count)

/-- A pass takes one of the pending items and expands it. -/
inductive Pass : Worklist → Worklist → Prop where
  | take {list : Worklist} {item : Item} {rest : List Item} :
      list.pending.Perm (item :: rest) →
        Pass list (expand grammar sets { list with pending := rest } item)

/-- A number of passes, one after another. -/
inductive Passes (first : Worklist) : Nat → Worklist → Prop where
  | none : Passes first 0 first
  | more {count : Nat} {middle last : Worklist} :
      Passes first count middle → Pass grammar sets middle last →
        Passes first (count + 1) last

end Worklist

end CanonicalLR

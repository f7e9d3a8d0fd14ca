/-!
# Alphabets

An alphabet lists the declared symbols of a grammar, each once and with its
kind, in the order in which they were first declared.  The order matters: it
decides how symbols, and later automaton states, are numbered.

`kind?_declare` says what a declaration does to the kinds of all names, and
`names_declare` what it does to their order.
-/

set_option autoImplicit false

namespace CanonicalLR

/-- Whether a symbol can be the left side of rules. -/
inductive SymbolKind where
  | nonterminal
  | terminal
  deriving DecidableEq

/-- Declared symbols with their kinds, no name twice. -/
structure Alphabet where
  entries : List (String × SymbolKind)
  nodup : (entries.map Prod.fst).Nodup
  deriving DecidableEq

namespace Alphabet

def names (alphabet : Alphabet) : List String :=
  alphabet.entries.map Prod.fst

def size (alphabet : Alphabet) : Nat :=
  alphabet.entries.length

/-- The kind of a name, if it is declared. -/
def kind? (alphabet : Alphabet) (name : String) : Option SymbolKind :=
  (alphabet.entries.find? fun entry => entry.1 = name).map Prod.snd

def contains (alphabet : Alphabet) (name : String) : Bool :=
  (alphabet.kind? name).isSome

def ofKind (alphabet : Alphabet) (kind : SymbolKind) : List String :=
  (alphabet.entries.filter fun entry => entry.2 = kind).map Prod.fst

def empty : Alphabet where
  entries := []
  nodup := by simp

/-- Entries after a declaration: a declared name keeps its place and takes the
new kind, a new name goes to the end. -/
def declareIn (name : String) (kind : SymbolKind) :
    List (String × SymbolKind) → List (String × SymbolKind)
  | [] => [(name, kind)]
  | entry :: rest =>
      if entry.1 = name then (name, kind) :: rest
      else entry :: declareIn name kind rest

theorem names_declareIn (name : String) (kind : SymbolKind)
    (entries : List (String × SymbolKind)) :
    (declareIn name kind entries).map Prod.fst =
      if name ∈ entries.map Prod.fst then entries.map Prod.fst
      else entries.map Prod.fst ++ [name] := by
  induction entries with
  | nil => simp [declareIn]
  | cons entry rest induction =>
      by_cases here : entry.1 = name
      · simp [declareIn, here]
      · have there : ¬ name = entry.1 := fun equal => here equal.symm
        simp only [declareIn, here, if_false, List.map_cons, induction,
          List.mem_cons, there, false_or]
        split <;> simp

/-- Gives a name a kind, replacing the kind it had. -/
def declare (alphabet : Alphabet) (name : String) (kind : SymbolKind) :
    Alphabet where
  entries := declareIn name kind alphabet.entries
  nodup := by
    rw [names_declareIn]
    split
    · exact alphabet.nodup
    · next fresh =>
        refine List.nodup_append.mpr ⟨alphabet.nodup, by simp, ?_⟩
        intro other member added memberAdded equal
        rw [List.mem_singleton] at memberAdded
        exact fresh (memberAdded ▸ equal ▸ member)

/-- Gives a name a kind unless it already has one. -/
def declareNew (alphabet : Alphabet) (name : String) (kind : SymbolKind) :
    Alphabet :=
  if alphabet.contains name then alphabet else alphabet.declare name kind

/-- The alphabet of a list of declarations, made from left to right. -/
def ofList (declarations : List (String × SymbolKind)) : Alphabet :=
  declarations.foldl (fun alphabet entry => alphabet.declare entry.1 entry.2)
    empty

theorem names_declare (alphabet : Alphabet) (name : String)
    (kind : SymbolKind) :
    (alphabet.declare name kind).names =
      if name ∈ alphabet.names then alphabet.names
      else alphabet.names ++ [name] :=
  names_declareIn name kind alphabet.entries

theorem kind?_declare (alphabet : Alphabet) (name other : String)
    (kind : SymbolKind) :
    (alphabet.declare name kind).kind? other =
      if other = name then some kind else alphabet.kind? other := by
  unfold kind? declare
  dsimp only
  induction alphabet.entries with
  | nil =>
      by_cases same : other = name
      · simp [declareIn, same]
      · have apart : ¬ name = other := fun equal => same equal.symm
        simp [declareIn, same, apart]
  | cons entry rest induction =>
      by_cases here : entry.1 = name
      · by_cases same : other = name
        · simp [declareIn, here, same]
        · have apart : ¬ name = other := fun equal => same equal.symm
          simp [declareIn, here, same, apart]
      · by_cases found : entry.1 = other
        · have same : ¬ other = name := fun equal => here (found.trans equal)
          simp [declareIn, found, same]
        · simpa [declareIn, here, found] using induction

end Alphabet

end CanonicalLR

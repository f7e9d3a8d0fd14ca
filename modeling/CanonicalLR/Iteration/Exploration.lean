/-!
# Exploring a finite graph

`explore` numbers the nodes of a directed graph with labelled edges in the
order in which a breadth-first walk from a root finds them.  The walk visits
the edges of a node in the order in which the graph lists them, so the numbers
depend on nothing else.  It notes the edge by which it finds each node.

A walk ends because it stays inside a region that holds only so many different
nodes.
-/

set_option autoImplicit false

namespace CanonicalLR

universe u v

/-- A part of a type with at most `limit ()` different elements.  The limit is a
function because only termination arguments need the number. -/
structure FiniteRegion (α : Type u) where
  inside : α → Prop
  limit : Unit → Nat
  length_le : ∀ list : List α, list.Nodup →
    (∀ element ∈ list, inside element) → list.length ≤ limit ()

variable {α : Type u} {β : Type v}

/-- An edge between numbered nodes. -/
structure Edge (β : Type v) where
  source : Nat
  label : β
  target : Nat
  deriving DecidableEq

/-- The nodes found so far.  A node's number is its place. -/
structure FoundNodes (region : FiniteRegion α) where
  nodes : Array α
  nodup : nodes.toList.Nodup
  inside : ∀ node ∈ nodes, region.inside node

namespace FoundNodes

variable {region : FiniteRegion α}

def size (found : FoundNodes region) : Nat :=
  found.nodes.size

def root (node : α) (inside : region.inside node) : FoundNodes region where
  nodes := #[node]
  nodup := by simp
  inside := by simpa using inside

theorem size_le (found : FoundNodes region) : found.size ≤ region.limit () := by
  have bounded := region.length_le found.nodes.toList found.nodup
    fun node member => found.inside node (Array.mem_toList_iff.mp member)
  rwa [Array.length_toList] at bounded

def push (found : FoundNodes region) (node : α) (inside : region.inside node)
    (new : node ∉ found.nodes) : FoundNodes region where
  nodes := found.nodes.push node
  nodup := by
    rw [Array.toList_push]
    refine List.nodup_append.mpr ⟨found.nodup, by simp, ?_⟩
    intro other member added memberAdded equal
    rw [List.mem_singleton] at memberAdded
    exact new (memberAdded ▸ equal ▸ Array.mem_toList_iff.mp member)
  inside := by
    intro other member
    rcases Array.mem_push.mp member with old | rfl
    · exact found.inside other old
    · exact inside

variable [DecidableEq α]

/-- The number of a node, which is found now if it was not found before. -/
def number (found : FoundNodes region) (node : α)
    (inside : region.inside node) : FoundNodes region × Nat :=
  match known : found.nodes.finIdxOf? node with
  | some place => (found, place)
  | none =>
      (found.push node inside (Array.finIdxOf?_eq_none_iff.mp known), found.size)

/-- The edges of a node with the numbers of their targets, and those by which a
node was found. -/
structure Numbering (region : FiniteRegion α) (β : Type v) where
  found : FoundNodes region
  edges : List (β × Nat)
  discoveries : List (Edge β)

def numberTargets (source : Nat) (found : FoundNodes region) :
    (edges : List (β × α)) → (∀ edge ∈ edges, region.inside edge.2) →
      Numbering region β
  | [], _ => ⟨found, [], []⟩
  | edge :: rest, inside =>
      let first := found.number edge.2 (inside edge (by simp))
      let later := numberTargets source first.1 rest fun other member =>
        inside other (List.mem_cons_of_mem edge member)
      ⟨later.found, (edge.1, first.2) :: later.edges,
        if first.2 < found.size then later.discoveries
        else ⟨source, edge.1, first.2⟩ :: later.discoveries⟩

end FoundNodes

/-- A numbered graph: its nodes, for each node the edges that leave it with the
numbers of their targets, and the edges by which the nodes but the root were
found. -/
structure Exploration (α : Type u) (β : Type v) where
  nodes : Array α
  edges : Array (List (β × Nat))
  discoveries : Array (Edge β)
  deriving DecidableEq

namespace Exploration

def size (graph : Exploration α β) : Nat :=
  graph.nodes.size

variable {region : FiniteRegion α} [DecidableEq α]

/-- Walks on from the first node whose edges are not known yet. -/
def continueFrom (successors : α → List (β × α))
    (stays : ∀ node, region.inside node → ∀ edge ∈ successors node,
      region.inside edge.2)
    (found : FoundNodes region) (edges : Array (List (β × Nat)))
    (discoveries : Array (Edge β)) : Exploration α β :=
  if more : edges.size < found.nodes.size then
    let node := found.nodes[edges.size]
    let targets := found.numberTargets edges.size (successors node)
      (stays node (found.inside node (Array.getElem_mem more)))
    have := Nat.lt_of_lt_of_le more found.size_le
    continueFrom successors stays targets.found (edges.push targets.edges)
      (discoveries ++ targets.discoveries)
  else
    ⟨found.nodes, edges, discoveries⟩
termination_by region.limit () - edges.size
decreasing_by
  rw [Array.size_push]
  omega

/-- The part of a graph that can be reached from a root. -/
def explore (successors : α → List (β × α))
    (stays : ∀ node, region.inside node → ∀ edge ∈ successors node,
      region.inside edge.2)
    (root : α) (inside : region.inside root) : Exploration α β :=
  continueFrom successors stays (.root root inside) #[] #[]

end Exploration

end CanonicalLR

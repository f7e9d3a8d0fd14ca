import Mathlib.Data.List.Forall2
import CanonicalLR.Iteration.Exploration

/-!
# What exploration finds

The walk keeps the numbers that it has given (`Extends`), the edges that it records
for a node lead to the numbers of the node's successors, in their order (`Leads`), and
of all edges in the order of the walk the first into a node is noted as the one that
found it (`Arrivals`).  `Walked` collects this for a walk that has not ended,
`Walked.pass` says that visiting one more node keeps it, and `explore_spec` that it
holds of the finished graph, where every node has its edges.
-/

set_option autoImplicit false

namespace CanonicalLR

universe u v

variable {α : Type u} {β : Type v}

/-- Every number of the old nodes stands for the same node among the new ones. -/
def Extends (old new : Array α) : Prop :=
  ∀ (place : Nat) (node : α), old[place]? = some node → new[place]? = some node

theorem Extends.refl (nodes : Array α) : Extends nodes nodes :=
  fun _ _ => id

theorem Extends.trans {first second third : Array α} (left : Extends first second)
    (right : Extends second third) : Extends first third :=
  fun place node found => right place node (left place node found)

theorem extends_push (nodes : Array α) (node : α) : Extends nodes (nodes.push node) := by
  intro place other found
  obtain ⟨inBounds, _⟩ := Array.getElem?_eq_some_iff.mp found
  rwa [Array.getElem?_push, if_neg (Nat.ne_of_lt inBounds)]

theorem Extends.size_le {old new : Array α} (extension : Extends old new) :
    old.size ≤ new.size := by
  by_contra fewer
  have last : new.size < old.size := Nat.lt_of_not_le fewer
  have kept := extension new.size _ (Array.getElem?_eq_getElem last)
  rw [Array.getElem?_size] at kept
  cases kept

/-- Numbered edges lead to the targets with the same labels, one by one. -/
def Leads (nodes : Array α) (edges : List (β × Nat)) (targets : List (β × α)) :
    Prop :=
  List.Forall₂ (fun edge target =>
    edge.1 = target.1 ∧ nodes[edge.2]? = some target.2) edges targets

theorem Leads.extend {old new : Array α} {edges : List (β × Nat)}
    {targets : List (β × α)} (leads : Leads old edges targets)
    (extension : Extends old new) : Leads new edges targets :=
  leads.imp fun _ _ found => ⟨found.1, extension _ _ found.2⟩

/-! ## The order of the walk -/

/-- Edges in the order of the walk and those among them that find a node.  An edge
leads to one of the nodes known before it, or it finds the next node; the numbers say
how many nodes are known before and after the edges. -/
inductive Arrivals : Nat → List (Edge β) → List (Edge β) → Nat → Prop where
  | done (known : Nat) : Arrivals known [] [] known
  | old {edge : Edge β} {rest found : List (Edge β)} {known last : Nat} :
      edge.target < known → Arrivals known rest found last →
        Arrivals known (edge :: rest) found last
  | new {edge : Edge β} {rest found : List (Edge β)} {known last : Nat} :
      edge.source < known → edge.target = known →
        Arrivals (known + 1) rest found last →
          Arrivals known (edge :: rest) (edge :: found) last

namespace Arrivals

theorem append {first second firstFound secondFound : List (Edge β)}
    {known middle last : Nat} (left : Arrivals known first firstFound middle)
    (right : Arrivals middle second secondFound last) :
    Arrivals known (first ++ second) (firstFound ++ secondFound) last := by
  induction left with
  | done known => exact right
  | old isKnown _ induction => exact .old isKnown (induction right)
  | new fromKnown isNext _ induction => exact .new fromKnown isNext (induction right)

variable {edges found : List (Edge β)} {known last : Nat}

theorem sublist (arrivals : Arrivals known edges found last) : found.Sublist edges := by
  induction arrivals with
  | done known => exact .slnil
  | old _ _ induction => exact .cons _ induction
  | new _ _ _ induction => exact .cons_cons _ induction

/-- Nodes get their numbers one after the other. -/
theorem targets (arrivals : Arrivals known edges found last) :
    known ≤ last ∧ found.map Edge.target = List.range' known (last - known) := by
  induction arrivals with
  | done known => simp
  | old _ _ induction => exact induction
  | @new edge rest found known last _ isNext _ induction =>
      obtain ⟨more, areNext⟩ := induction
      have length : last - known = last - (known + 1) + 1 := by omega
      refine ⟨by omega, ?_⟩
      rw [List.map_cons, areNext, isNext, length, List.range'_succ]

theorem known_le_target (arrivals : Arrivals known edges found last) {edge : Edge β}
    (member : edge ∈ found) : known ≤ edge.target := by
  have isTarget : edge.target ∈ found.map Edge.target := List.mem_map_of_mem member
  rw [arrivals.targets.2, List.mem_range'_1] at isTarget
  exact isTarget.1

theorem source_lt_target (arrivals : Arrivals known edges found last) {edge : Edge β}
    (member : edge ∈ found) : edge.source < edge.target := by
  induction arrivals with
  | done known => cases member
  | old _ _ induction => exact induction member
  | new fromKnown isNext _ induction =>
      rcases List.mem_cons.mp member with rfl | inRest
      · exact isNext ▸ fromKnown
      · exact induction inRest

/-- An edge that finds a node comes before all other edges into this node. -/
theorem precedes {order : Edge β → Edge β → Prop}
    (arrivals : Arrivals known edges found last) (ordered : edges.Pairwise order)
    {finding edge : Edge β} (isFinding : finding ∈ found) (isEdge : edge ∈ edges)
    (sameTarget : edge.target = finding.target) :
    edge = finding ∨ order finding edge := by
  induction arrivals with
  | done known => cases isFinding
  | @old head rest found known last isKnown arrivals induction =>
      obtain ⟨_, restOrdered⟩ := List.pairwise_cons.mp ordered
      have unknown := arrivals.known_le_target isFinding
      rcases List.mem_cons.mp isEdge with rfl | inRest
      · omega
      · exact induction restOrdered isFinding inRest
  | @new head rest found known last _ isNext arrivals induction =>
      obtain ⟨headFirst, restOrdered⟩ := List.pairwise_cons.mp ordered
      rcases List.mem_cons.mp isFinding with rfl | inFound
      · rcases List.mem_cons.mp isEdge with rfl | inRest
        · exact Or.inl rfl
        · exact Or.inr (headFirst edge inRest)
      · have unknown := arrivals.known_le_target inFound
        rcases List.mem_cons.mp isEdge with rfl | inRest
        · omega
        · exact induction restOrdered inFound inRest

end Arrivals

/-- The numbered edges of one node. -/
def edgesOf (source : Nat) (targets : List (β × Nat)) : List (Edge β) :=
  targets.map fun edge => ⟨source, edge.1, edge.2⟩

/-- All edges in the order of the walk. -/
def walkedEdges (edges : Array (List (β × Nat))) : List (Edge β) :=
  edges.toList.zipIdx.flatMap fun entry => edgesOf entry.2 entry.1

theorem walkedEdges_push (edges : Array (List (β × Nat))) (targets : List (β × Nat)) :
    walkedEdges (edges.push targets) =
      walkedEdges edges ++ edgesOf edges.size targets := by
  unfold walkedEdges
  rw [Array.toList_push, List.zipIdx_append, List.flatMap_append]
  simp

theorem mem_walkedEdges {edges : Array (List (β × Nat))} {edge : Edge β} :
    edge ∈ walkedEdges edges ↔
      ∃ targets, edges[edge.source]? = some targets ∧
        (edge.label, edge.target) ∈ targets := by
  simp only [walkedEdges, edgesOf, List.mem_flatMap, List.mem_map]
  constructor
  · rintro ⟨⟨targets, source⟩, isEntry, ⟨label, target⟩, member, rfl⟩
    have found := List.mem_zipIdx_iff_getElem?.mp isEntry
    exact ⟨targets, by rwa [Array.getElem?_toList] at found, member⟩
  · rintro ⟨targets, found, member⟩
    refine ⟨(targets, edge.source), ?_, _, member, rfl⟩
    rw [List.mem_zipIdx_iff_getElem?, Array.getElem?_toList]
    exact found

namespace FoundNodes

variable {region : FiniteRegion α} [DecidableEq α]

/-- A node keeps its number, or it gets the next one. -/
theorem number_spec (found : FoundNodes region) (node : α)
    (inside : region.inside node) :
    Extends found.nodes (found.number node inside).1.nodes ∧
      (found.number node inside).1.nodes[(found.number node inside).2]? =
        some node ∧
      ((found.number node inside).2 < found.size ∧
          (found.number node inside).1.size = found.size ∨
        (found.number node inside).2 = found.size ∧
          (found.number node inside).1.size = found.size + 1) := by
  unfold number
  split
  · next place known =>
      have same := (Array.finIdxOf?_eq_some_iff.mp known).1
      refine ⟨.refl _, ?_, Or.inl ⟨place.isLt, rfl⟩⟩
      rw [Array.getElem?_eq_getElem place.isLt]
      exact congrArg some same
  · refine ⟨extends_push found.nodes node, ?_, Or.inr ⟨rfl, Array.size_push _⟩⟩
    simp [push, size]

theorem numberTargets_spec {source : Nat} (found : FoundNodes region)
    (isKnown : source < found.size) (edges : List (β × α))
    (inside : ∀ edge ∈ edges, region.inside edge.2) :
    Extends found.nodes (found.numberTargets source edges inside).found.nodes ∧
      Leads (found.numberTargets source edges inside).found.nodes
        (found.numberTargets source edges inside).edges edges ∧
      Arrivals found.size
        (edgesOf source (found.numberTargets source edges inside).edges)
        (found.numberTargets source edges inside).discoveries
        (found.numberTargets source edges inside).found.size := by
  induction edges generalizing found with
  | nil => exact ⟨.refl _, .nil, .done _⟩
  | cons edge rest induction =>
      obtain ⟨firstExtends, atNumber, place⟩ :=
        found.number_spec edge.2 (inside edge (by simp))
      have stillKnown : source < (found.number edge.2 (inside edge (by simp))).1.size :=
        Nat.lt_of_lt_of_le isKnown firstExtends.size_le
      obtain ⟨laterExtends, leads, arrivals⟩ := induction
        (found.number edge.2 (inside edge (by simp))).1 stillKnown
        fun other member => inside other (List.mem_cons_of_mem edge member)
      refine ⟨firstExtends.trans laterExtends,
        .cons ⟨rfl, laterExtends _ _ atNumber⟩ leads, ?_⟩
      rcases place with ⟨isOld, sameSize⟩ | ⟨isNew, grown⟩
      · rw [sameSize] at arrivals
        simp only [numberTargets, if_pos isOld]
        exact .old isOld arrivals
      · rw [grown] at arrivals
        have notOld : ¬ (found.number edge.2 (inside edge (by simp))).2 < found.size := by
          omega
        simp only [numberTargets, if_neg notOld]
        exact .new isKnown isNew arrivals

end FoundNodes

namespace Exploration

variable {region : FiniteRegion α} {successors : α → List (β × α)}

/-- The edges recorded so far lead to the successors of their nodes. -/
def Recorded (successors : α → List (β × α)) (nodes : Array α)
    (edges : Array (List (β × Nat))) : Prop :=
  ∀ (place : Nat) (targets : List (β × Nat)), edges[place]? = some targets →
    ∃ node, nodes[place]? = some node ∧ Leads nodes targets (successors node)

/-- A walk from a root that has visited as many nodes as there are edge lists. -/
structure Walked (successors : α → List (β × α)) (root : α) (nodes : Array α)
    (edges : Array (List (β × Nat))) (discoveries : Array (Edge β)) : Prop where
  root_found : nodes[0]? = some root
  recorded : Recorded successors nodes edges
  covered : edges.size ≤ nodes.size
  arrivals : Arrivals 1 (walkedEdges edges) discoveries.toList nodes.size

variable {root : α}

theorem walked_root (inside : region.inside root) :
    Walked successors root (FoundNodes.root root inside).nodes #[] #[] where
  root_found := by simp [FoundNodes.root]
  recorded := by
    intro place targets isRecorded
    simp at isRecorded
  covered := Nat.zero_le _
  arrivals := .done 1

variable [DecidableEq α]

/-- Visiting one more node keeps what is known of a walk. -/
theorem Walked.pass {found : FoundNodes region} {edges : Array (List (β × Nat))}
    {discoveries : Array (Edge β)}
    (walked : Walked successors root found.nodes edges discoveries)
    (more : edges.size < found.nodes.size)
    (inside : ∀ edge ∈ successors found.nodes[edges.size], region.inside edge.2) :
    let targets := found.numberTargets edges.size (successors found.nodes[edges.size]) inside
    Walked successors root targets.found.nodes (edges.push targets.edges)
      (discoveries ++ targets.discoveries) := by
  intro targets
  obtain ⟨extension, leads, arrivals⟩ := found.numberTargets_spec more
    (successors found.nodes[edges.size]) inside
  have atNode := extension _ _ (Array.getElem?_eq_getElem more)
  refine ⟨extension _ _ walked.root_found, ?_, ?_, ?_⟩
  · intro place recordedTargets isRecorded
    rw [Array.getElem?_push] at isRecorded
    split at isRecorded
    · next last =>
        cases isRecorded
        rw [last]
        exact ⟨_, atNode, leads⟩
    · obtain ⟨node, isNode, nodeLeads⟩ := walked.recorded place _ isRecorded
      exact ⟨node, extension _ _ isNode, nodeLeads.extend extension⟩
  · rw [Array.size_push]
    exact Nat.lt_of_lt_of_le more extension.size_le
  · rw [walkedEdges_push, Array.toList_appendList]
    exact walked.arrivals.append arrivals

variable {stays : ∀ node, region.inside node → ∀ edge ∈ successors node,
    region.inside edge.2}

theorem continueFrom_spec {found : FoundNodes region}
    {edges : Array (List (β × Nat))} {discoveries : Array (Edge β)}
    (walked : Walked successors root found.nodes edges discoveries) :
    ∃ last : FoundNodes region,
      (continueFrom successors stays found edges discoveries).nodes = last.nodes ∧
      (continueFrom successors stays found edges discoveries).edges.size =
        last.nodes.size ∧
      Walked successors root last.nodes
        (continueFrom successors stays found edges discoveries).edges
        (continueFrom successors stays found edges discoveries).discoveries := by
  fun_induction continueFrom successors stays found edges discoveries with
  | case1 found edges discoveries more node targets _ induction =>
      exact induction (walked.pass more
        (stays node (found.inside node (Array.getElem_mem more))))
  | case2 found edges discoveries finished =>
      have covered := walked.covered
      exact ⟨found, rfl, by dsimp only; omega, walked⟩

/-- The walk ends when every node found has been visited. -/
theorem explore_spec (successors : α → List (β × α))
    (stays : ∀ node, region.inside node → ∀ edge ∈ successors node,
      region.inside edge.2)
    (root : α) (inside : region.inside root) :
    (explore successors stays root inside).nodes.toList.Nodup ∧
      (explore successors stays root inside).size ≤ region.limit () ∧
      (explore successors stays root inside).edges.size =
        (explore successors stays root inside).nodes.size ∧
      Walked successors root (explore successors stays root inside).nodes
        (explore successors stays root inside).edges
        (explore successors stays root inside).discoveries := by
  have started : Walked successors root (FoundNodes.root root inside).nodes #[] #[] :=
    walked_root inside
  obtain ⟨last, sameNodes, sameSize, walked⟩ := continueFrom_spec started
  unfold explore size
  rw [sameNodes]
  exact ⟨last.nodup, last.size_le, sameSize, walked⟩

end Exploration

end CanonicalLR

import ScriptBuild.Digraph.Postorder

namespace ScriptBuild

/-- Disjoint sets of nodes, each with the node that names it. -/
abbrev Groups := Std.ExtTreeMap Nat NodeSet

namespace Digraph

/-- The graph with all edges turned round. -/
def transpose (g : Digraph) : Digraph :=
  g.table.toList.foldl
    (fun h (u, targets) => targets.toList.foldl (fun h v => h.addEdge v u) (h.addNode u)) ∅

/-- The component of a node, where `back` is the graph turned round and `rest` a set of nodes that
    has the component in it: the nodes that `u` reaches by way of nodes that lead to `u`. -/
def componentIn (g back : Digraph) (rest : NodeSet) (u : Nat) : NodeSet :=
  g.reachWithin (back.reachWithin rest u) u

/-- The components of the listed nodes, without those nodes that are no longer in `rest`. The order
    of the list does not matter for what they are. -/
def componentsFrom (g back : Digraph) (rest : NodeSet) : List Nat → List NodeSet
  | [] => []
  | u :: later =>
    if u ∈ rest then
      let component := g.componentIn back rest u
      component :: componentsFrom g back (component.toList.foldl (·.erase ·) rest) later
    else componentsFrom g back rest later

/-- The strongly connected components in the order of their smallest members. Two nodes are in one
    component if each reaches the other. The components are split off last finished first, so that
    what leads to a node among the rest is no more than its component. -/
def components (g : Digraph) : List NodeSet :=
  (g.componentsFrom g.transpose g.nodeSet g.finishingOrder.reverse).mergeSort fun a b =>
    a.min?.getD 0 ≤ b.min?.getD 0

end Digraph

namespace Groups

/-- Names components: a single node by itself, the others by `fresh` at the number of names that
    have been used. -/
def named (fresh : Nat → Nat) (used : Nat) : List NodeSet → List (Nat × NodeSet)
  | [] => []
  | component :: later =>
    match component.toList with
    | [u] => (u, component) :: named fresh used later
    | _ => (fresh used, component) :: named fresh (used + 1) later

/-- The components of a graph that have at least `least` members. Names for the larger ones are
    taken from `fresh` in the order of their smallest members; of two components with one name the
    later one stays. -/
def ofGraph (g : Digraph) (least : Nat) (fresh : Nat → Nat) : Groups :=
  Std.ExtTreeMap.ofList (named fresh 0 (g.components.filter (least ≤ ·.size)))

/-- The group that each grouped node belongs to. A node that several groups hold belongs to the one
    with the largest name. -/
def owners (groups : Groups) : Std.ExtTreeMap Nat Nat :=
  groups.toList.foldl
    (fun owners (root, members) =>
      members.toList.foldl (fun owners u => owners.insert u root) owners)
    ∅

end Groups

end ScriptBuild

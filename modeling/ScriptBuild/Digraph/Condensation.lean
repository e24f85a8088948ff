import ScriptBuild.Digraph.Component

namespace ScriptBuild

/-- A graph whose groups have become single nodes. The edges inside a group vanish, and the edges
    between groups remain as edges between the nodes that stand for them. -/
structure Condensation where
  graph : Digraph
  groups : Groups

namespace Condensation

/-- The node that stands for `u`: the name of its group, or itself outside all groups. -/
def rootOf (c : Condensation) (u : Nat) : Nat := c.groups.owners.getD u u

/-- Whether a node stands for a cycle and is not a member of what it stands for. -/
def isCycle (c : Condensation) (u : Nat) : Bool :=
  c.groups[u]?.any fun members => !members.contains u

/-- Adds the edges of one node between the nodes that stand for its ends. Edges inside a group are
    left out. -/
def addImage (owners : Std.ExtTreeMap Nat Nat) (h : Digraph) (u : Nat) (targets : NodeSet) :
    Digraph :=
  let source := owners.getD u u
  targets.toList.foldl
    (fun h v =>
      let target := owners.getD v v
      if source == target && owners.contains u then h else h.addEdge source target)
    (h.addNode source)

/-- Turns each group into one node. A group none of whose members is in the graph is left out. -/
def ofGroups (g : Digraph) (groups : Groups) : Condensation :=
  let owners := groups.owners
  let images := g.table.toList.foldl (fun h (u, targets) => addImage owners h u targets) ∅
  let graph := groups.toList.foldl
    (fun h (root, members) => if members.toList.any g.hasNode then h.addNode root else h) images
  ⟨graph, groups⟩

end Condensation

end ScriptBuild

import ScriptBuild.BuildUnit.Catalog
import ScriptBuild.Digraph.Condensation
import ScriptBuild.Digraph.Subgraph
import ScriptBuild.Layout

namespace ScriptBuild

/-- What a build does with the units of a kind. -/
inductive Treatment where
  /-- Code is generated, compiled and linked. -/
  | translate
  /-- Code is generated and compiled; it is data only. -/
  | table
  /-- The file is linked as it is. -/
  | linkAsIs
  /-- The runtime has it. -/
  | runtime
  | skip
deriving DecidableEq, Repr

/-- What a build does with the units of a kind. -/
def UnitKind.treatment : UnitKind → Treatment
  | script _ | snippet | classFile _ => .translate
  | globals => .table
  | precompiled _ => .linkAsIs
  | builtins => .runtime
  | unknown => .skip

/-- Whether an object file is made. -/
def Treatment.makesObject : Treatment → Bool
  | translate | table => true
  | _ => false

/-- What a step does with its unit. -/
inductive Action where
  | generate
  | compile
  /-- Link a module of forward declarations, against which the peers in a cycle can be linked. -/
  | forwardLink
  | link
  /-- Link a member of a cycle again, now against the modules of its peers. -/
  | relink
  /-- Make the module of the entry point. -/
  | emit
deriving DecidableEq, Repr

/-- The written form of an action. -/
def Action.text : Action → String
  | generate => "generate"
  | compile => "compile"
  | forwardLink => "forward-link"
  | link => "link"
  | relink => "relink"
  | emit => "emit"

/-- One step of a build. -/
structure Step where
  unit : Nat
  action : Action
deriving DecidableEq, Repr

/-- A place in the order of a build: a unit, or the members of a cycle. -/
inductive PlanNode where
  | unit (id : Nat)
  | cycle (root : Nat) (members : List Nat)
deriving DecidableEq, Repr

/-- The units at a place in the order. -/
def PlanNode.units : PlanNode → List Nat
  | unit id => [id]
  | cycle _ members => members

/-- What is built for an entry point, and in which steps. -/
structure Plan where
  root : Nat
  /-- The units that the entry point needs. -/
  subgraph : Digraph
  condensation : Condensation
  /-- Dependencies first; the place of the entry point is the last one. -/
  order : List PlanNode
  steps : List Step
  warnings : List String

namespace Plan

/-- Every unit in the order of the build. -/
def units (p : Plan) : List Nat := p.order.flatMap PlanNode.units

/-- Whether a unit is in a cycle. -/
def isCyclic (p : Plan) (id : Nat) : Bool := p.condensation.isCycle (p.condensation.rootOf id)

/-- The other members of the cycle of a unit. -/
def peers (p : Plan) (id : Nat) : List Nat :=
  let root := p.condensation.rootOf id
  if p.condensation.isCycle root then
    ((p.condensation.groups.getD root ∅).toList).filter (· != id)
  else []

/-- Whether a plan has a step. -/
def hasStep (p : Plan) (id : Nat) (action : Action) : Bool := p.steps.contains ⟨id, action⟩

end Plan

/-- What a plan is made from: the units, the mode of the build, how fresh the units are, and which
    of their files are there. -/
structure Planning where
  catalog : Catalog
  mode : ArtifactMode
  freshness : Nat → Freshness
  present : FileRole → BuildUnit → Bool

namespace Planning

variable (c : Planning)

/-- Whether a file of a unit is there. -/
def hasFile (role : FileRole) (id : Nat) : Bool := (c.catalog.get? id).any (c.present role)

/-- What is done with a unit. -/
def treatment (id : Nat) : Treatment := ((c.catalog.get? id).map (·.kind.treatment)).getD .skip

/-- Whether an object file is made for a unit. -/
def makesObject (id : Nat) : Bool := (c.treatment id).makesObject

/-- Whether code is generated for a unit: it is not old, or its source is not there, or it has to be
    forward declared and its forward declarations are not there. -/
def generates (forwardDeclared : Bool) (id : Nat) : Bool :=
  (c.freshness id).needsBuild || !c.hasFile .source id ||
    (forwardDeclared && !c.hasFile .forwardSource id)

/-- The steps up to the object file of a unit. -/
def objectSteps (forwardDeclared : Bool) (id : Nat) : List Step :=
  if c.makesObject id then
    let generates := c.generates forwardDeclared id
    (if generates then [⟨id, .generate⟩] else []) ++
      if generates || !c.hasFile .object id then [⟨id, .compile⟩] else []
  else []

/-- The steps of a unit that is in no cycle. -/
def unitSteps (id : Nat) : List Step :=
  c.objectSteps false id ++
    if c.makesObject id && c.mode == .perUnit then [⟨id, .link⟩] else []

/-- The steps of a cycle. If there is anything to do, its members are linked twice. -/
def cycleSteps (members : List Nat) : List Step :=
  let objects := members.flatMap (c.objectSteps (c.mode == .perUnit))
  if c.mode == .perUnit then
    let linked := members.filter c.makesObject
    let dirty := !objects.isEmpty || linked.any fun id => !c.hasFile .artifact id
    let all (action : Action) : List Step := linked.map fun id => ⟨id, action⟩
    objects ++ (if dirty then all .forwardLink else []) ++ all .link ++
      if dirty then all .relink else []
  else objects

/-- The steps of a place in the order. -/
def nodeSteps : PlanNode → List Step
  | .unit id => c.unitSteps id
  | .cycle _ members => c.cycleSteps members

/-- The warning about a unit that is passed over. -/
def skipWarning (id : Nat) : Option String :=
  (c.catalog.get? id).bind fun u =>
    if u.kind.treatment == .skip then some ("skipping `" ++ u.display ++ "`: unknown unit kind")
    else none

/-- The warning about an entry point that makes no module. -/
def entryWarning (id : Nat) : Option String :=
  (c.catalog.get? id).bind fun u =>
    if u.kind.treatment == .translate then none
    else some ("entry point `" ++ u.display ++ "` is a " ++ u.kind.tag.text ++
      " unit and produces no module")

/-- The place of a node of the condensed graph. -/
def place (condensation : Condensation) (node : Nat) : PlanNode :=
  if condensation.isCycle node then
    .cycle node (condensation.groups.getD node ∅).toList
  else .unit node

/-- The plan for an entry point: from the units that it needs to the steps that build them. Every
    unit comes after those that it depends on. Units that depend on each other are built together,
    and with a module for each unit they are linked twice, first against stand-ins and then against
    each other. Cycles are named by numbers that no unit has. -/
def plan (graph : Digraph) (root : Nat) : Plan :=
  let subgraph := (graph.subgraph root).addNode root
  let groups := Groups.ofGraph subgraph 2 fun used => c.catalog.size + used
  let condensation := Condensation.ofGroups subgraph groups
  let order := (condensation.graph.postorder (condensation.rootOf root)).map (place condensation)
  let emits := c.treatment root == .translate
  { root, subgraph, condensation, order
    steps := order.flatMap c.nodeSteps ++ if emits then [⟨root, .emit⟩] else []
    warnings := (order.flatMap PlanNode.units).filterMap c.skipWarning ++
      (c.entryWarning root).toList }

end Planning

end ScriptBuild

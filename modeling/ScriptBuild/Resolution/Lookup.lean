import ScriptBuild.Resolution.Basic
import ScriptBuild.World

namespace ScriptBuild

/-- The names that lead to a directory. -/
def FilePath.key (p : FilePath) : DirectoryKey :=
  p.components.map fun
    | .root => "/"
    | .current => "."
    | .parent => ".."
    | .name name => name

namespace Resolution

/-- The unit of a shared table, which is made if there is none and gets the given slot. A table that
    was old and grew is updated. -/
def tableFor (r : Resolution) (slot : String) (kind : UnitKind) : Resolution × Nat :=
  let (r, id) := match r.program.units.findMatch (tableName kind) kind 0 with
    | some id => (r, id)
    | none =>
      let id := r.program.units.size
      let r := r.modifyProgram (·.insertUnit (tableName kind) kind 0 (some .table))
      (r.setFreshness id .new, id)
  let grows := (r.program.units.get? id).any fun u => !u.hasSlot slot
  let r := r.modifyProgram fun p => { p with units := p.units.modify id (·.addSlot slot) }
  if grows && r.freshness id == .old then (r.setFreshness id .updated, id) else (r, id)

/-- Meets a known unit for the first time in a run. A file that is newer than what is recorded will
    be read again; otherwise what the unit imports will be looked up again. -/
def refresh (r : Resolution) (id : Nat) (d : Definition) : Resolution :=
  let r := r.modifyProgram fun p => { p with graph := p.graph.addNode id }
  if (r.program.units.get? id).any fun u => u.kind.isFile && u.timestamp < d.timestamp then
    let r := r.modifyProgram fun p => { p with
      units := p.units.modify id fun u => { u with timestamp := d.timestamp, body := some d.body } }
    (r.setFreshness id .updated).enqueue (.read id)
  else
    let r := r.modifyProgram fun p => { p with
      units := p.units.modify id fun u => { u with body := u.body.or (some d.body) } }
    (r.setFreshness id .old).enqueue (.recheck id)

/-- The unit that a definition of a name denotes. -/
def unitFor (r : Resolution) (name : String) (d : Definition) : Resolution × Nat :=
  if d.kind.isSharedTable then r.tableFor name d.kind
  else match r.program.units.findMatch name d.kind d.timestamp with
    | none =>
      let id := r.program.units.size
      let r := r.modifyProgram (·.insertUnit name d.kind d.timestamp (some d.body))
      ((r.setFreshness id .new).enqueue (.read id), id)
    | some id => if r.run.freshness.contains id then (r, id) else (r.refresh id d, id)

/-- Whether a name is known everywhere or in a directory. The known names are asked for once in a
    run. -/
def isKnown (w : World) (r : Resolution) (directory : Option FilePath) (name : String) :
    Resolution × Bool :=
  let names := r.run.names.getD w.lookup.names
  let r := { r with run := { r.run with names := some names } }
  if names.contains name then (r, true)
  else match directory with
    | none => (r, false)
    | some directory =>
      let near := (r.run.namesIn[directory.key]?).getD (w.lookup.namesIn directory)
      ({ r with run := { r.run with namesIn := r.run.namesIn.insert directory.key near } },
        near.contains name)

/-- The unit that a name was found to denote from a directory. -/
def foundFrom (r : Resolution) (directory : Option FilePath) (name : String) : Option Nat :=
  (r.run.found[directory.map FilePath.key]?).bind fun names => names[name]?

/-- Remembers which unit a name denotes from a directory. -/
def rememberFound (r : Resolution) (directory : Option FilePath) (name : String) (id : Nat) :
    Resolution :=
  let key := directory.map FilePath.key
  let names := (r.run.found.getD key ∅).insert name id
  { r with run := { r.run with found := r.run.found.insert key names } }

/-- Where a name comes from that a unit does not bind in its scopes: from the unit itself if it
    exports the name, or else from where the lookup finds it for the directory of the unit. A name
    is looked up once for each directory, and only if it is known to be defined at all. -/
def lookupExternal (w : World) (r : Resolution) (id : Nat) (name : String) :
    Resolution × Target :=
  let unit := r.program.units.get? id
  if unit.any (·.hasSlot name) then (r, .unit id)
  else
    let directory := unit.bind BuildUnit.directory?
    match r.foundFrom directory name with
    | some other => (r, .unit other)
    | none =>
      let (r, known) := r.isKnown w directory name
      if known then
        match w.lookup.find name directory with
        | none => (r, .unresolved)
        | some d =>
          let (r, other) := r.unitFor name d
          (r.rememberFound directory name other, .unit other)
      else (r, .unresolved)

end Resolution

end ScriptBuild

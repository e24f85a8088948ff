import ScriptBuild.Archive.Storage
import ScriptBuild.Plan
import ScriptBuild.Resolution.Analysis
import ScriptBuild.Stub
import ScriptBuild.Toolchain

namespace ScriptBuild

/-- What a build is made with. -/
structure Builder (σ : Type) where
  config : BuildConfig
  /-- The generator of code. -/
  generator : Stub.Request → Except Fault Stub.Generated
  toolchain : Toolchain σ
  /-- The time of the build in milliseconds, which the files that it writes itself are given. -/
  now : Nat

/-- What a build changes. -/
structure BuildState (σ : Type) where
  disk : Disk
  tools : σ
  resolution : Resolution
  archive : Archive
  /-- What the tools were asked to do, the first request first. -/
  log : List Invocation

/-- A computation of a build. It reads how the build is set up, changes the disk, the tools, the
    program and the archive of earlier builds, and may stop with a fault. What was changed before
    the fault stays changed. -/
abbrev BuildM (σ : Type) := EStateM Fault (BuildState σ)

variable {σ : Type}

/-- The start of a session: the program is the one in the archive of a setup. -/
def BuildState.start (c : BuildConfig) (disk : Disk) (tools : σ) : BuildState σ :=
  let archive := Archive.load disk c.layout.cacheFile
  ⟨disk, tools, .start archive.toProgram, archive, []⟩

/-- The search path of a setup. -/
def BuildConfig.search (c : BuildConfig) : SearchPath := .new c.searchPath []

/-- Makes the directories of a build, and sees that its runtime is there. -/
def BuildConfig.prepare (c : BuildConfig) (d : Disk) (now : Int) : Disk × Except Fault Unit :=
  go d [c.cacheDirectory, c.layout.objectsDirectory, c.outDirectory]
where
  go (d : Disk) : List FilePath → Disk × Except Fault Unit
    | [] =>
      match c.runtime with
      | some runtime => (d, if d.isFile runtime then .ok () else .error (.noRuntime runtime))
      | none => (d, .ok ())
    | directory :: directories =>
      match d.makeDirectories directory now with
      | (d, .ok ()) => go d directories
      | (d, .error reason) => (d, .error (.noDirectory directory reason))

namespace Builder

variable (b : Builder σ)

/-- Where the files of the units are. -/
def layout : Layout := b.config.layout

/-- The world as a disk shows it. -/
def world (d : Disk) : World := .ofDisk b.config.search d

/-- Asks the tools for something. -/
def run (i : Invocation) : BuildM σ Unit := fun s =>
  let ((tools, disk), result) := b.toolchain.run i (s.tools, s.disk)
  let s := { s with tools, disk, log := s.log ++ [i] }
  match result with
  | .ok () => .ok () s
  | .error fault => .error fault s

/-- Writes a file. -/
def writeFile (p : FilePath) (text : String) : BuildM σ Unit := fun s =>
  match s.disk.write p (.text text) b.now with
  | .ok disk => .ok () { s with disk }
  | .error reason => .error (.unwritable p reason) s

/-- Copies a file. A fault names the file that is copied. -/
def copyFile (source target : FilePath) : BuildM σ Unit := fun s =>
  match s.disk.copy source target b.now with
  | .ok disk => .ok () { s with disk }
  | .error reason => .error (.unwritable source reason) s

/-- Resolves a name, or what it is defined as, and all that it leads to. -/
def analyze (name : String) (definition : Option Definition) : BuildM σ (Option Nat) := fun s =>
  let (resolution, result) := s.resolution.analyze (b.world s.disk) name definition
  match result with
  | .ok id => .ok id { s with resolution }
  | .error fault => .error fault { s with resolution }

/-- The plan for a unit as things stand. -/
def planFor (s : BuildState σ) (root : Nat) : Plan :=
  let planning : Planning :=
    { catalog := s.resolution.program.units
      mode := b.config.mode
      freshness := s.resolution.freshness
      present := fun role u => s.disk.hasPath (b.layout.path role u) }
  planning.plan s.resolution.program.graph root

/-- Brings the archive up to date for some units, and keeps it on the disk. -/
def persist (touched : NodeSet) : BuildM σ Unit := fun s =>
  let archive := s.archive.updateRows s.resolution.program touched.toList
  let (disk, result) := archive.store s.disk b.layout.cacheFile b.now
  match result with
  | .ok () => .ok () { s with archive, disk }
  | .error fault => .error fault { s with archive, disk }

end Builder

end ScriptBuild

import ScriptBuild.Definition
import ScriptBuild.Disk.Basic

namespace ScriptBuild

/-- The directories that are searched, in their order, and the names that need no file. -/
structure SearchPath where
  directories : List FilePath
  builtins : NameSet

namespace SearchPath

/-- The extensions of precompiled modules, the preferred one first. -/
def moduleExtensions : List String := ["mexa64", "mexmaci64", "mexmaca64", "mexw64"]

/-- The extension of scripts. -/
def scriptExtension : String := "m"

/-- The names that the runtime always provides. -/
def defaultBuiltins : List String :=
  ["abs", "all", "any", "cat", "ceil", "cell", "cellfun", "char", "class", "disp", "double",
    "eps", "error", "exp", "false", "feval", "floor", "fprintf", "horzcat", "Inf", "isa",
    "iscell", "ischar", "isempty", "isfield", "isnumeric", "isstruct", "length", "log",
    "max", "min", "mod", "NaN", "nargin", "nargout", "num2str", "numel", "ones", "pi",
    "rand", "rem", "repmat", "reshape", "round", "size", "sort", "sprintf", "sqrt",
    "strcat", "strcmp", "struct", "sum", "true", "varargin", "varargout", "vertcat",
    "warning", "zeros"]

/-- The search path over some directories, with further built-in names. -/
def new (directories : List FilePath) (builtins : List String) : SearchPath :=
  ⟨directories, Std.ExtTreeSet.ofList (defaultBuiltins ++ builtins)⟩

/-- The time of the last change of a file in milliseconds; zero if there is no such file or the time
    is before the epoch. -/
def timestamp (d : Disk) (p : FilePath) : Nat := ((d.changed? p).getD 0).toNat

/-- The name of a file with an extension. -/
def withExtension (name extension : String) : String := name ++ "." ++ extension

/-- The definition in a file, whose kind depends on its path. -/
def inFile? (d : Disk) (kind : FilePath → UnitKind) (p : FilePath) : Option Definition :=
  if d.isFile p then some ⟨kind p, timestamp d p, .file p⟩ else none

/-- The precompiled module of a name in a directory, or else the script. -/
def inDirectory? (d : Disk) (directory : FilePath) (name : String) : Option Definition :=
  (moduleExtensions.findSome? fun extension =>
      inFile? d .precompiled (directory.entry (withExtension name extension))).or
    (inFile? d .script (directory.entry (withExtension name scriptExtension)))

/-- The script of a name in the private directory of a directory. -/
def inPrivate? (d : Disk) (directory : FilePath) (name : String) : Option Definition :=
  inFile? d .script ((directory.entry "private").entry (withExtension name scriptExtension))

/-- The class of a name below a directory. -/
def classIn? (d : Disk) (directory : FilePath) (name : String) : Option Definition :=
  inFile? d .classFile ((directory.entry ("@" ++ name)).entry (withExtension name scriptExtension))

/-- What a name denotes for a directory. A name is looked for in the directory that refers to it and
    in its private directory, then in the directories of the search path, and last among the
    built-in names. In each directory precompiled modules come before scripts; the class directories
    of the search path come before both. -/
def find (s : SearchPath) (d : Disk) (name : String) (context : Option FilePath) :
    Option Definition :=
  let near := context.bind fun directory =>
    (inDirectory? d directory name).or (inPrivate? d directory name)
  let far := s.directories.findSome? fun directory =>
    (classIn? d directory name).or (inDirectory? d directory name)
  let builtin := if s.builtins.contains name then some ⟨.builtins, 0, .table⟩ else none
  near.or (far.or builtin)

/-- The name that an entry of a directory defines: a class directory is named for its class, a file
    by its stem if its extension is one of those that are looked for. -/
def definedBy? (d : Disk) (directory : FilePath) (name : String) : Option String :=
  let path := directory.entry name
  if d.isDirectory path then
    match name.toList with
    | '@' :: rest => some (String.ofList rest)
    | _ => none
  else
    match path.stem?, path.extension? with
    | some stem, some extension =>
      if extension == scriptExtension || moduleExtensions.contains extension then some stem
      else none
    | _, _ => none

/-- The names that the entries of a directory define. -/
def definedIn (d : Disk) (directory : FilePath) : List String :=
  (d.namesIn directory).filterMap (definedBy? d directory)

/-- The names that are known everywhere. -/
def names (s : SearchPath) (d : Disk) : NameSet :=
  s.builtins ∪ Std.ExtTreeSet.ofList (s.directories.flatMap (definedIn d))

/-- The names that are known in a directory. -/
def namesIn (d : Disk) (directory : FilePath) : NameSet :=
  Std.ExtTreeSet.ofList (definedIn d directory ++ definedIn d (directory.entry "private"))

/-- The search path as a way to look names up. -/
def lookup (s : SearchPath) (d : Disk) : NameLookup := ⟨s.find d, s.names d, namesIn d⟩

end SearchPath

end ScriptBuild

namespace ScriptBuild

/-- Why the system refuses to read or change files. -/
inductive Refusal where
  | missing
  /-- The place is out of reach. -/
  | denied
  /-- The path ends in a step that is no name. -/
  | busy
  /-- There is something already where a directory should be made. -/
  | occupied
  | notDirectory
  | isDirectory
  | nameTooLong
  /-- No file can have such a name. -/
  | badName
  /-- What should be copied is no file. -/
  | notFile
  /-- The file holds bytes that are no text. -/
  | notText
deriving DecidableEq, Repr

/-- How messages show a reason. -/
def Refusal.text : Refusal → String
  | missing => "No such file or directory (os error 2)"
  | denied => "Permission denied (os error 13)"
  | busy => "Device or resource busy (os error 16)"
  | occupied => "File exists (os error 17)"
  | notDirectory => "Not a directory (os error 20)"
  | isDirectory => "Is a directory (os error 21)"
  | nameTooLong => "File name too long (os error 36)"
  | badName => "file name contained an unexpected NUL byte"
  | notFile => "the source path is neither a regular file nor a symlink to a regular file"
  | notText => "stream did not contain valid UTF-8"

end ScriptBuild

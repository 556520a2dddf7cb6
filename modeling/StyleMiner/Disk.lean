import StyleMiner.Text.Ascii

/-! Files by their paths, and why one cannot be read. A path is walked step by step, from the root
if it begins with a slash and else from the working directory. An empty step and `.` stay where they
are, and `..` goes up, at the root nowhere; every other step has to lead on from a directory. -/

namespace StyleMiner

inductive ReadFailure where
  | noSuchFile
  | permissionDenied
  | notDirectory
  | isDirectory
  | nameTooLong
  | notText
  | other (code : Nat) (words : Text)
  deriving DecidableEq, Repr

namespace ReadFailure

/-- the failure with a number of the operating system, which has these words for it -/
def ofCode (code : Nat) (words : Text) : ReadFailure :=
  match code with
  | 2 => noSuchFile
  | 13 => permissionDenied
  | 20 => notDirectory
  | 21 => isDirectory
  | 36 => nameTooLong
  | _ => other code words

def numbered (code : Nat) (words : Text) : Text :=
  words ++ " (os error ".toList ++ Text.decimal code ++ [')']

def message : ReadFailure → Text
  | noSuchFile => numbered 2 "No such file or directory".toList
  | permissionDenied => numbered 13 "Permission denied".toList
  | notDirectory => numbered 20 "Not a directory".toList
  | isDirectory => numbered 21 "Is a directory".toList
  | nameTooLong => numbered 36 "File name too long".toList
  | notText => "stream did not contain valid UTF-8".toList
  | other code words => numbered code words

end ReadFailure

inductive DiskEntry where
  | directory
  | file (content : Text)
  deriving DecidableEq, Repr

/-- what there is, by its steps from the root, and the working directory -/
structure Disk where
  entries : List (List Text × DiskEntry)
  working : List Text

namespace Disk

/-- the steps of a path, which slashes part -/
def steps : Text → List Text
  | [] => [[]]
  | c :: t => if c = '/' then [] :: steps t else (steps t).modifyHead (c :: ·)

def fromRoot (d : Disk) (path : Text) : List Text :=
  if path.head? = some '/' then steps path else d.working ++ steps path

/-- how many bytes a text takes in UTF-8 -/
def bytes (t : Text) : Nat := (String.ofList t).utf8ByteSize

def longestName : Nat := 255

def longestPath : Nat := 4095

/-- reads the file that the steps lead to from the directory `here` -/
def walk (d : Disk) (here : List Text) : List Text → Except ReadFailure Text
  | [] => throw .isDirectory
  | step :: rest =>
    if step = [] ∨ step = ['.'] then walk d here rest
    else if step = ['.', '.'] then walk d here.dropLast rest
    else if longestName < bytes step then throw .nameTooLong
    else
      match d.entries.lookup (here ++ [step]) with
      | none => throw .noSuchFile
      | some .directory => walk d (here ++ [step]) rest
      | some (.file content) => if rest = [] then return content else throw .notDirectory

def read (d : Disk) (path : Text) : Except ReadFailure Text :=
  if path = [] then throw .noSuchFile
  else if longestPath < bytes path then throw .nameTooLong
  else walk d [] (d.fromRoot path)

/-- the disk with a file more -/
def add (d : Disk) (path content : Text) : Disk :=
  { d with entries := ((d.fromRoot path).filter (· ≠ []), .file content) :: d.entries }

/-- The directories at the root of a Unix system and its empty file, with nothing in the working
directory. -/
def unix : Disk :=
  let directories := ["bin", "boot", "dev", "etc", "home", "lib", "media", "mnt", "opt", "proc",
    "run", "sbin", "srv", "sys", "tmp", "usr", "var"]
  add ⟨directories.map fun name => ([name.toList], .directory), ["home".toList]⟩
    "/dev/null".toList []

end Disk
end StyleMiner

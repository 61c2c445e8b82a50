/-!
# Files

Commands use files through a few operations. A store gives these operations a state, and tells apart
the paths that lead to a file, the file, and what it holds. A disk is a store of files in a tree of
folders, with a working folder that relative paths start from.
-/
namespace TuneRelay.Cli

inductive FileError
  | notFound
  | notFolder
  | isFolder
  | notText
  | other (reason : String)
  deriving DecidableEq, Repr

def FileError.message : FileError → String
  | notFound => "No such file or directory (os error 2)"
  | notFolder => "Not a directory (os error 20)"
  | isFolder => "Is a directory (os error 21)"
  | notText => "stream did not contain valid UTF-8"
  | other reason => reason

/-- The operations that commands use. Creating a file makes it, or empties the one that is there. -/
structure FileSystem (m : Type → Type) where
  Handle : Type
  fileExists : String → m Bool
  read : String → m (Except FileError (List UInt8))
  create : String → m (Except FileError Handle)
  fill : Handle → List UInt8 → m (Except FileError Unit)

/-- Files in a state. Several paths may lead to one file; a file that is not there holds nothing. -/
structure Store (State File : Type) where
  file? : State → String → Option File
  content? : State → File → Option (List UInt8)
  fileExists : State → String → Bool
  read : State → String → Except FileError (List UInt8)
  create : State → String → Except FileError (File × State)
  fill : State → File → List UInt8 → Except FileError Unit × State

def Store.fileSystem {State File : Type} (store : Store State File) :
    FileSystem (StateM State) where
  Handle := File
  fileExists path s := (store.fileExists s path, s)
  read path s := (store.read s path, s)
  create path s :=
    match store.create s path with
    | .ok (file, next) => (.ok file, next)
    | .error fault => (.error fault, s)
  fill file bytes s := store.fill s file bytes

/-- A place in a tree of folders, by the names on the way to it from the root. -/
abbrev Place := List String

/-- Files and folders by their places, and the working folder. The root is always there. -/
structure Disk where
  files : List (Place × List UInt8) := []
  folders : List Place := []
  here : Place := []

inductive Target
  | folder
  | file (place : Place)
  | vacant (place : Place)
  | vacantFolder
  | nowhere
  | throughFile
  deriving DecidableEq, Repr

namespace Disk

def staysHere (name : String) : Bool := name.isEmpty || name == "."

/-- Follows the names of a path from a folder. The folder above the root is the root. -/
def follow (d : Disk) : Place → List String → Target
  | _, [] => .folder
  | place, name :: rest =>
    if staysHere name then d.follow place rest
    else if name == ".." then d.follow place.dropLast rest
    else if (d.files.lookup (place ++ [name])).isSome then
      if rest.isEmpty then .file (place ++ [name]) else .throughFile
    else if d.folders.contains (place ++ [name]) then d.follow (place ++ [name]) rest
    else if rest.isEmpty then .vacant (place ++ [name])
    else if rest.all String.isEmpty then .vacantFolder
    else .nowhere

/-- A path that starts with a slash starts from the root; the empty path leads nowhere. -/
def locate (d : Disk) (path : String) : Target :=
  match (path.toList.splitOn '/').map String.ofList with
  | "" :: rest => if path.isEmpty then .nowhere else d.follow [] rest
  | names => d.follow d.here names

def put (d : Disk) (place : Place) (bytes : List UInt8) : Disk :=
  { d with files := d.files.filter (·.1 != place) ++ [(place, bytes)] }

def fileExists (d : Disk) (path : String) : Bool :=
  match d.locate path with
  | .folder | .file _ => true
  | _ => false

def read (d : Disk) (path : String) : Except FileError (List UInt8) :=
  match d.locate path with
  | .file place => .ok ((d.files.lookup place).getD [])
  | .folder => .error .isFolder
  | .throughFile => .error .notFolder
  | .vacant _ | .vacantFolder | .nowhere => .error .notFound

def create (d : Disk) (path : String) : Except FileError (Place × Disk) :=
  match d.locate path with
  | .file place | .vacant place => .ok (place, d.put place [])
  | .folder | .vacantFolder => .error .isFolder
  | .throughFile => .error .notFolder
  | .nowhere => .error .notFound

def store : Store Disk Place where
  file? d path :=
    match d.locate path with
    | .file place => some place
    | _ => none
  content? d place := d.files.lookup place
  fileExists := fileExists
  read := read
  create := create
  fill d place bytes := (.ok (), d.put place bytes)

end Disk
end TuneRelay.Cli

import StackLang.FileSystem
import StackLang.NameMap

namespace StackLang

/-- A place in the tree: names down from the root, or from the directory that lies `up` levels above
the working directory. The last name comes first. -/
structure Place where
  fromRoot : Bool
  up : Nat
  names : List Bytes
  deriving DecidableEq, Repr

namespace Place

def root : Place := ⟨true, 0, []⟩

def here : Place := ⟨false, 0, []⟩

/-- Where a path starts. -/
def start (path : Bytes) : Place :=
  if path.head? = some Ascii.slash then root else here

def child (p : Place) (name : Bytes) : Place :=
  { p with names := name :: p.names }

/-- The directory above. The root lies in itself. -/
def parent (p : Place) : Place :=
  match p.names with
  | _ :: names => { p with names }
  | [] => if p.fromRoot then p else { p with up := p.up + 1 }

/-- The place one name further. An empty name or a single dot stays. -/
def next (p : Place) (name : Bytes) : Place :=
  if name.isEmpty || name == bytes "." then p
  else if name == bytes ".." then p.parent
  else p.child name

/-- The one path by which a place is known. -/
def path (p : Place) : Bytes :=
  let inner := Bytes.join [Ascii.slash] (List.replicate p.up (bytes "..") ++ p.names.reverse)
  if p.fromRoot then Ascii.slash :: inner else inner

end Place

/-- The names along a path. -/
def pathNames (path : Bytes) : List Bytes :=
  path.splitOn Ascii.slash

/-- All places that a path leads through, the last first. -/
def pathPlaces (path : Bytes) : List Place :=
  (pathNames path).foldl (fun places name => ((places.headD .here).next name) :: places)
    [.start path]

/-- Contents and directories are kept by the paths of their places. -/
structure Files where
  contents : NameMap Bytes
  directories : List Bytes

namespace Files

/-- The longest name, and the longest path. -/
def maxName : Nat := 255

def maxPath : Nat := 4095

/-- Directories that every system has. -/
def systemDirectories : List Bytes :=
  ["/bin", "/boot", "/dev", "/etc", "/home", "/lib", "/media", "/mnt", "/opt", "/proc", "/root",
    "/run", "/sbin", "/srv", "/sys", "/tmp", "/usr", "/var"].map bytes

/-- The device that is always empty. -/
def nullDevice : Place := (Place.root.child (bytes "dev")).child (bytes "null")

def ofList (files : List (Bytes × Bytes)) : Files := ⟨.ofList files, systemDirectories⟩

/-- The files of the working directory. -/
def entries (f : Files) : List (Bytes × Bytes) :=
  f.contents.entries.filter fun e => !e.1.contains Ascii.slash

def isDirectory (f : Files) (p : Place) : Bool :=
  p.names.isEmpty || f.directories.contains p.path

def content? (f : Files) (p : Place) : Option Bytes :=
  if p = nullDevice then some [] else f.contents.get? p.path

/-- Why there is nothing to walk through. -/
def noDirectory (f : Files) (p : Place) : FileError :=
  if (f.content? p).isSome then .notDirectory else .notFound

/-- Walks one name further. -/
def walk (f : Files) (p : Place) (name : Bytes) : Except FileError Place :=
  if !f.isDirectory p then .error (f.noDirectory p)
  else if maxName < name.length then .error .nameTooLong
  else .ok (p.next name)

/-- Why a path is no path at all. -/
def pathFault? (path : Bytes) : Option FileError :=
  if path.contains 0 then some .invalidPath
  else if path.isEmpty then some .notFound
  else if maxPath < path.length then some .nameTooLong
  else none

/-- The place at the end of some names. -/
def locate (f : Files) (path : Bytes) (names : List Bytes) : Except FileError Place :=
  match pathFault? path with
  | some e => .error e
  | none => names.foldlM f.walk (.start path)

def read (f : Files) (path : Bytes) : Except FileError Bytes := do
  let place ← f.locate path (pathNames path)
  match f.content? place with
  | some content => .ok content
  | none => .error (if f.isDirectory place then .isDirectory else .notFound)

/-- The place that writing to a path leads to. A path that ends with a slash can only be a
directory. -/
def target (f : Files) (path : Bytes) : Except FileError Place :=
  match (pathNames path).reverse.dropWhile List.isEmpty with
  | [] => f.locate path (pathNames path)
  | name :: above =>
    if name == bytes "." || name == bytes ".." || path.getLast? != some Ascii.slash then
      f.locate path (pathNames path)
    else do
      let directory ← f.locate path above.reverse
      if f.isDirectory directory then .error .isDirectory else .error (f.noDirectory directory)

def write (f : Files) (path content : Bytes) : Except FileError Files := do
  let place ← f.target path
  if f.isDirectory place then .error .isDirectory
  else if place = nullDevice then .ok f
  else .ok { f with contents := f.contents.insert place.path content }

def system : FileSystem Files := ⟨read, write⟩

/-- Why a file could not be read. A directory can be opened but not read. -/
def readMessage (path : Bytes) (reason : FileError) : Bytes :=
  (if reason = .isDirectory then bytes "read " else bytes "open ") ++ path ++
    bytes ": " ++ reason.message

/-- Why a file could not be written. -/
def writeMessage (path : Bytes) (reason : FileError) : Bytes :=
  bytes "open " ++ path ++ bytes ": " ++ reason.message

end Files

end StackLang

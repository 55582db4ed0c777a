import MiniDregg.Control.Fallible
import MiniDregg.Text.Json

/-!
# The index of a package archive

The archive of a package is a tree of files, links and directories. The index
walks it once, checks names, sizes and link targets, and lists an entry for
every file; the module follows `Index::walk` and `valid_link`.

## Implementation notes

A path is the list of its components below the image root. Where the bytes of a
member lie in the message is left out. The components of a link target are what
the path library makes of it: repeated separators and `.` vanish, and a leading
separator makes the target absolute.
-/

namespace MiniDregg.SpkPackage

open Fallible

abbrev Name := Text

inductive File
  | regular (executable : Bool) (data : List UInt8)
  | symlink (target : Text)
  | directory (children : List (Name × File))

/-- The files of a directory. -/
abbrev Files := List (Name × File)

def MAX_NAME_BYTES : Nat := 16 * 1024 * 1024

def MAX_FILES : Nat := 100000

def MAX_DEPTH : Nat := 64

inductive EntryKind
  | directory
  | regular (executable : Bool)
  | symlink (target : Text)
  deriving DecidableEq

structure Entry where
  path : List Name
  kind : EntryKind
  length : Nat
  deriving DecidableEq

structure Index where
  entries : List Entry
  names : Nat
  data : Nat
  maxData : Nat
  deriving DecidableEq

/-- The empty index under a bound on the extracted bytes. -/
def Index.new (maxData : Nat) : Index := ⟨[], 0, 0, maxData⟩

/-! ## Link targets -/

inductive Component
  | normal (name : Name)
  | parentDir
  deriving DecidableEq

/-- `Path::is_absolute`. -/
def isAbsolute (target : Text) : Bool := target.head? == some '/'

/-- One piece between separators, as a component. -/
def component (piece : Text) : Option Component :=
  if piece = [] ∨ piece = ['.'] then none
  else if piece = ['.', '.'] then some .parentDir
  else some (.normal piece)

/-- `Path::components` behind the root. -/
def components (target : Text) : List Component := (target.splitOn '/').filterMap component

/-- The loop of `valid_link`: the depth after the components, or nothing when they
climb above the image. -/
def lexicalDepth : Nat → List Component → Option Nat
  | depth, [] => some depth
  | depth, .normal _ :: rest => lexicalDepth (depth + 1) rest
  | 0, .parentDir :: _ => none
  | depth + 1, .parentDir :: rest => lexicalDepth depth rest

/-- `valid_link`. -/
def validLink (parent : List Name) (target : Text) : Result Unit := do
  refuseIf (target.isEmpty || target.contains '\x00') "invalid symlink target"
  refuseIf (lexicalDepth (if isAbsolute target then 0 else parent.length)
    (components target)).isNone "symlink escapes image"

/-! ## The walk -/

/-- The length of a path in bytes. -/
def pathLength (path : List Name) : Nat :=
  (path.map Text.utf8Length).sum + (path.length - 1)

def invalidName (name : Name) : Bool :=
  name.isEmpty || decide (Text.utf8Length name > 255) || decide (name = ['.']) ||
    decide (name = ['.', '.']) || name.contains '/' || name.contains '\x00'

/-- The names under which the image mounts directories of its own. -/
def reservedMountpoints : List Name := ["var", "tmp", "proc", "dev"]

def File.isDirectory : File → Bool
  | directory _ => true
  | _ => false

namespace Index

def push (idx : Index) (entry : Entry) : Index := { idx with entries := idx.entries ++ [entry] }

/-- Count bytes of names against their bound. -/
def countName (idx : Index) (bytes : Nat) : Result Index := do
  refuseIf (decide (idx.names + bytes > MAX_NAME_BYTES)) "archive names exceed bound"
  pure { idx with names := idx.names + bytes }

/-- The checks at the head of `walk`. -/
def enter (idx : Index) (depth count : Nat) : Result Unit := do
  refuseIf (decide (depth > MAX_DEPTH)) "archive depth exceeds bound"
  refuseIf (decide (count > MAX_FILES - idx.entries.length)) "too many archive files"

/-- The checks of a name in its directory, before its kind is looked at. -/
def checkName (idx : Index) (parent seen : List Name) (name : Name) (isDirectory : Bool) :
    Result Index := do
  refuseIf (decide (idx.entries.length ≥ MAX_FILES)) "too many archive files"
  refuseIf (invalidName name) "invalid archive name"
  refuseIf (decide (name ∈ seen)) "duplicate archive name"
  refuseIf (decide (pathLength (parent ++ [name]) > 4096)) "archive path exceeds bound"
  let idx ← idx.countName (pathLength (parent ++ [name]))
  refuseIf (parent.isEmpty && decide (name ∈ reservedMountpoints) && !isDirectory)
    "reserved mountpoint is not a directory"
  pure idx

/-- A regular member. -/
def addRegular (idx : Index) (path : List Name) (executable : Bool) (data : List UInt8) :
    Result Index := do
  refuseIf (decide (idx.data + data.length ≥ 2 ^ 64)) "member size overflow"
  refuseIf (decide (idx.data + data.length > idx.maxData)) "extracted bytes exceed bound"
  pure ({ idx with data := idx.data + data.length }.push ⟨path, .regular executable, data.length⟩)

/-- A link. -/
def addLink (idx : Index) (parent : List Name) (name : Name) (target : Text) : Result Index := do
  refuseIf (decide (Text.utf8Length target > 4096)) "symlink target too long"
  validLink parent target
  let idx ← idx.countName (Text.utf8Length target)
  pure (idx.push ⟨parent ++ [name], .symlink target, 0⟩)

mutual

/-- The part of a round of `walk` that depends on the kind of the file. -/
def walkFile (idx : Index) (parent : List Name) (depth : Nat) (name : Name) :
    File → Result Index
  | .regular executable data => idx.addRegular (parent ++ [name]) executable data
  | .symlink target => idx.addLink parent name target
  | .directory children => do
    let idx := idx.push ⟨parent ++ [name], .directory, 0⟩
    idx.enter (depth + 1) children.length
    walkLoop idx (parent ++ [name]) (depth + 1) [] children

/-- The loop of `walk` over the files of a directory. -/
def walkLoop (idx : Index) (parent : List Name) (depth : Nat) (seen : List Name) :
    Files → Result Index
  | [] => .ok idx
  | (name, file) :: rest => do
    let idx ← idx.checkName parent seen name file.isDirectory
    let idx ← walkFile idx parent depth name file
    walkLoop idx parent depth (name :: seen) rest

end

/-- `Index::walk`. -/
def walk (idx : Index) (files : Files) (parent : List Name) (depth : Nat) : Result Index := do
  idx.enter depth files.length
  walkLoop idx parent depth [] files

end Index

/-- The index of an archive under a bound on the extracted bytes. -/
def index (maxData : Nat) (files : Files) : Result Index := (Index.new maxData).walk files [] 0

end MiniDregg.SpkPackage

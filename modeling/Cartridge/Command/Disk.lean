/-
# `Cartridge.Command.Disk` — files, directories and the paths to them

A path is a row of names with slashes between them; several slashes count as
one.  It is walked from the root if it starts with a slash, else from the
working directory.

    .       stays
    ..      goes one directory up; above the root is the root
    name    goes into that directory

Every name but the last must lead to a directory.  What the last one may be
depends on the use:

                          to read           to write
    nothing there         not found         a new file
    a file                its contents      its new contents
    a directory           refused           refused
    a slash behind it     must be a         refused before
                          directory         anything is looked up

A name has at most 255 bytes, a path at most 4095.
-/
import Cartridge.Word

namespace Cartridge

/-- Why a file cannot be read or written. -/
inductive FileError where
  | notFound
  | notDirectory
  | isDirectory
  | nameTooLong
  /-- A failure that only a real system has, in its own words. -/
  | other (text : String)
deriving DecidableEq, Inhabited, Repr

/-- The text of a file error. -/
def FileError.message : FileError → String
  | .notFound => "No such file or directory (os error 2)"
  | .notDirectory => "Not a directory (os error 20)"
  | .isDirectory => "Is a directory (os error 21)"
  | .nameTooLong => "File name too long (os error 36)"
  | .other text => text

/-! ## Paths -/

/-- The most bytes that a name may have. -/
def maxNameSize : Nat := 255

/-- The most bytes that a path may have. -/
def maxPathSize : Nat := 4095

/-- A path, taken apart. -/
structure Path where
  /-- Does the path start at the root? -/
  absolute : Bool
  names : List String
  /-- Does a slash stand at the end? -/
  slash : Bool
deriving DecidableEq, Inhabited, Repr

/-- Take a path apart. -/
def Path.parse (text : String) : Except FileError Path :=
  if text.isEmpty then .error .notFound
  else if maxPathSize < text.utf8ByteSize then .error .nameTooLong
  else .ok {
    absolute := text.startsWith "/"
    names := (text.splitOn "/").filter (· != "")
    slash := text.endsWith "/" }

/-! ## The disk -/

/-- A place on the disk: the names that lead to it from the root, the last one
first. -/
abbrev Spot := List String

/-- The device that reads as an empty file and drops what is written. -/
def nullDevice : Spot := ["null", "dev"]

/-- Files, and the working directory.  A directory is there if something lies
in it. -/
structure Disk where
  files : List (Spot × Bytes) := []
  /-- A directory for temporary files.  Its own name is empty, so that no path
  leads to it by name. -/
  home : Spot := ["", "tmp"]
deriving DecidableEq, Inhabited, Repr

/-- What lies at a place. -/
inductive Entry where
  | file (contents : Bytes)
  | device
  | directory
deriving DecidableEq, Inhabited, Repr

/-- Where a path leads. -/
inductive Goal where
  /-- To a directory that the walk has reached. -/
  | directory (spot : Spot)
  /-- To a name in a directory, which may be free. -/
  | named (parent : Spot) (name : String)
deriving DecidableEq, Inhabited, Repr

namespace Disk

/-- Is there a directory at this place? -/
def isDirectory (d : Disk) (spot : Spot) : Bool :=
  spot.isSuffixOf d.home || spot.isSuffixOf nullDevice.tail
    || d.files.any (fun f => spot.isSuffixOf f.1.tail)

/-- What lies at a place. -/
def entry? (d : Disk) (spot : Spot) : Option Entry :=
  if spot = nullDevice then some .device
  else
    match d.files.lookup spot with
    | some contents => some (.file contents)
    | none => if d.isDirectory spot then some .directory else none

/-- What a directory holds under a name. -/
def child? (d : Disk) (parent : Spot) (name : String) : Except FileError (Option Entry) :=
  if maxNameSize < name.utf8ByteSize then .error .nameTooLong
  else .ok (d.entry? (name :: parent))

/-- Go on to another directory. -/
def enter (d : Disk) (spot : Spot) (name : String) : Except FileError Spot :=
  if name = "." then .ok spot
  else if name = ".." then .ok spot.tail
  else
    match d.child? spot name with
    | .error e => .error e
    | .ok none => .error .notFound
    | .ok (some .directory) => .ok (name :: spot)
    | .ok (some _) => .error .notDirectory

/-- Walk through names from a directory. -/
def walk (d : Disk) (spot : Spot) : List String → Except FileError Goal
  | [] => .ok (.directory spot)
  | [name] =>
      if name = "." then .ok (.directory spot)
      else if name = ".." then .ok (.directory spot.tail)
      else .ok (.named spot name)
  | name :: names =>
      match d.enter spot name with
      | .error e => .error e
      | .ok spot' => d.walk spot' names

/-- Where a path leads. -/
def goal (d : Disk) (path : Path) : Except FileError Goal :=
  d.walk (if path.absolute then [] else d.home) path.names

/-- Read a file. -/
def read (d : Disk) (text : String) : Except FileError Bytes := do
  let path ← Path.parse text
  match ← d.goal path with
  | .directory _ => .error .isDirectory
  | .named parent name =>
      match ← d.child? parent name with
      | none => .error .notFound
      | some .directory => .error .isDirectory
      | some (.file contents) => if path.slash then .error .notDirectory else .ok contents
      | some .device => if path.slash then .error .notDirectory else .ok #[]

/-- Put a file at a place, over an older one. -/
def put (d : Disk) (spot : Spot) (contents : Bytes) : Disk :=
  { d with files := d.files.filter (fun f => f.1 != spot) ++ [(spot, contents)] }

/-- Write a file, over an older one of the same name. -/
def write (d : Disk) (text : String) (contents : Bytes) : Except FileError Disk := do
  let path ← Path.parse text
  match ← d.goal path with
  | .directory _ => .error .isDirectory
  | .named parent name =>
      if path.slash then .error .isDirectory
      else
        match ← d.child? parent name with
        | some .directory => .error .isDirectory
        | some .device => .ok d
        | _ => .ok (d.put (name :: parent) contents)

/-! ## The working directory -/

/-- A disk with files in the working directory, by their paths from there. -/
def ofFiles (files : List (String × Bytes)) : Disk :=
  let home := ({} : Disk).home
  { files := files.map fun (path, contents) =>
      (((path.splitOn "/").filter (· != "")).reverse ++ home, contents) }

/-- The files below the working directory, by their paths from there. -/
def toFiles (d : Disk) : List (String × Bytes) :=
  (d.files.filter (fun f => d.home.isSuffixOf f.1)).map fun (spot, contents) =>
    ("/".intercalate (spot.take (spot.length - d.home.length)).reverse, contents)

end Disk

end Cartridge

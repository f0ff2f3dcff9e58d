import SpriteConfig.Text.Basic
/-!
# Files

Commands read files by their paths. A file that cannot be read has one of a few reasons, which are
named as the operating system names them.
-/
namespace SpriteConfig

inductive ReadError
  | notFound
  | notDirectory
  | isDirectory
  | nameTooLong
  | other (reason : Text)
  deriving DecidableEq, Repr

def ReadError.message : ReadError → Text
  | notFound => "No such file or directory (os error 2)".toList
  | notDirectory => "Not a directory (os error 20)".toList
  | isDirectory => "Is a directory (os error 21)".toList
  | nameTooLong => "File name too long (os error 36)".toList
  | other reason => reason

/-- The bytes of the file at a path, or why there are none. -/
abbrev ReadFile := Text → Except ReadError (List UInt8)

def maxPathLength : Nat := 4095

def maxPartLength : Nat := 255

/-- A directory that holds files and no other directory. Of the system around it, only what is the
same everywhere is known: the names of a few directories, and the file that is always empty. -/
structure Directory where
  files : List (Text × List UInt8)

namespace Directory

inductive Folder
  | here
  | around
  /-- The directory of the system that these names lead to, the last one first. -/
  | system (names : List Text)

inductive Location
  | directory (folder : Folder)
  | file (name : Text) (bytes : List UInt8)

/-- The names of the directories that every system has right below its root. -/
def systemNames : List Text :=
  ["bin", "boot", "dev", "etc", "home", "lib", "media", "mnt", "opt", "proc", "run", "sbin", "srv",
   "sys", "tmp", "usr", "var"].map String.toList

def enter (d : Directory) (name : Text) : Folder → Except ReadError Location
  | .here =>
    match d.files.find? fun f => f.1 = name with
    | some f => .ok (.file f.1 f.2)
    | none => .error .notFound
  | .around => .error .notFound
  | .system names =>
    if names.isEmpty && systemNames.contains name then .ok (.directory (.system [name]))
    else if names = ["dev".toList] ∧ name = "null".toList then .ok (.file "/dev/null".toList [])
    else .error .notFound

def leave : Folder → Folder
  | .here | .around => .around
  | .system names => .system names.tail

/-- Follows one part of a path. A file has no parts, not even an empty one. -/
def follow (d : Directory) (part : Text) : Location → Except ReadError Location
  | .file _ _ => .error .notDirectory
  | .directory folder =>
    if part.isEmpty || part = ['.'] then .ok (.directory folder)
    else if part = ['.', '.'] then .ok (.directory (leave folder))
    else if maxPartLength < Text.byteLength part then .error .nameTooLong
    else d.enter part folder

def followAll (d : Directory) (location : Location) : List Text → Except ReadError Location
  | [] => .ok location
  | part :: parts => do
    let location ← d.follow part location
    d.followAll location parts

/-- Follows a path. A path that starts with a slash starts at the root of the system. -/
def locate (d : Directory) (path : Text) : Except ReadError Location :=
  if maxPathLength < Text.byteLength path then .error .nameTooLong
  else
    match path with
    | [] => .error .notFound
    | '/' :: path => d.followAll (.directory (.system [])) (Text.split '/' path)
    | path => d.followAll (.directory .here) (Text.split '/' path)

def read (d : Directory) : ReadFile := fun path => do
  match ← d.locate path with
  | .file _ bytes => return bytes
  | .directory _ => .error .isDirectory

def write (d : Directory) (path : Text) (bytes : List UInt8) : Directory :=
  match d.locate path with
  | .ok (.file name _) => { files := d.files.map fun f => if f.1 = name then (name, bytes) else f }
  | _ => d

end Directory
end SpriteConfig

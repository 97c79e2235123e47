/-
Vapor/Command/Directory.lean

Paths and the files of a working directory.  A path is written without its
empty parts and without the parts that mean the current directory.  A directory
is the list of the files below it, by their paths; a path that some file lies
below is a directory, too.  Of what is not below the working directory only its
parents and the root are known: they are directories, and nothing is in them but
what has been written there.
-/
import Vapor.Text.Quoted

namespace Vapor.Command

open Text

/-! ### Paths -/

/-- The parts of a text between slashes. -/
def splitSlashes : List Char → List (List Char)
  | [] => [[]]
  | '/' :: cs => [] :: splitSlashes cs
  | c :: cs =>
    match splitSlashes cs with
    | [] => [[c]]
    | part :: parts => (c :: part) :: parts

/-- A path: what it starts from, and its parts. -/
structure Path where
  /-- No slash for a path below the working directory, else one or two. -/
  root : String
  parts : List String
deriving DecidableEq, Repr

namespace Path

/-- The root of a path: exactly two slashes at its beginning are kept, any other
number of them counts as one. -/
def rootOf : List Char → String
  | '/' :: '/' :: '/' :: _ => "/"
  | '/' :: '/' :: _ => "//"
  | '/' :: _ => "/"
  | _ => ""

/-- Reads a path. -/
def ofString (text : String) : Path where
  root := rootOf text.toList
  parts := ((splitSlashes text.toList).map String.ofList).filter fun part => part ≠ "" ∧ part ≠ "."

/-- The path below the working directory with the given parts. -/
def below (parts : List String) : String :=
  String.intercalate "/" parts

/-- The text of a path; the working directory is a dot. -/
def text (p : Path) : String :=
  if p.root = "" ∧ p.parts = [] then "." else p.root ++ below p.parts

end Path

/-! ### Files -/

/-- Why a file cannot be opened. -/
inductive FileFault where
  | missing
  | notDirectory
  | isDirectory
  | nameTooLong
  | hasNul
deriving DecidableEq, Repr

/-- The message for the user. -/
def FileFault.message (path : Path) : FileFault → String
  | missing => s!"[Errno 2] No such file or directory: {quoted path.text}"
  | notDirectory => s!"[Errno 20] Not a directory: {quoted path.text}"
  | isDirectory => s!"[Errno 21] Is a directory: {quoted path.text}"
  | nameTooLong => s!"[Errno 36] File name too long: {quoted path.text}"
  | hasNul => "embedded null byte"

/-- The contents of a file. -/
abbrev Bytes := List UInt8

/-- The files below a directory, by their paths.  A file elsewhere has a path
that leads out of the directory. -/
abbrev Directory := List (String × Bytes)

/-- What a path leads to. -/
inductive Entry where
  | file (path : String) (contents : Bytes)
  | directory
  /-- Nothing, in a directory where there could be a file. -/
  | vacant (path : String)
deriving DecidableEq, Repr

namespace Directory

/-- Is some file below the path? -/
def hasBelow (dir : Directory) (path : String) : Bool :=
  dir.any fun f => (path ++ "/").toList.isPrefixOf f.1.toList

/-- Follows the parts of a path from the root or from a parent of the working
directory, given the path to there. -/
def followOutside (here : String) : List String → Except FileFault Entry
  | [] => .ok .directory
  | part :: rest =>
    if 255 < part.utf8ByteSize then .error .nameTooLong
    else if part = ".." then followOutside (here ++ "../") rest
    else if rest = [] then .ok (.vacant (here ++ part))
    else .error .missing

/-- Follows the parts of a path from a directory below the working directory. -/
def follow (dir : Directory) (here : List String) : List String → Except FileFault Entry
  | [] => .ok .directory
  | part :: rest =>
    let there := here ++ [part]
    let path := Path.below there
    if 255 < part.utf8ByteSize then .error .nameTooLong
    else if part = ".." then
      if here = [] then followOutside "../" rest else follow dir here.dropLast rest
    else
      match dir.lookup path, rest with
      | some contents, [] => .ok (.file path contents)
      | some _, _ => .error .notDirectory
      | none, rest =>
        if dir.hasBelow path then follow dir there rest
        else if rest = [] then .ok (.vacant path)
        else .error .missing

/-- What a path leads to. -/
def find (dir : Directory) (p : Path) : Except FileFault Entry :=
  if p.text.toList.contains '\x00' then .error .hasNul
  else if 4095 < p.text.utf8ByteSize then .error .nameTooLong
  else if p.root = "" then dir.follow [] p.parts
  else followOutside "/" p.parts

/-- The contents of a file. -/
def read (dir : Directory) (p : Path) : Except FileFault Bytes := do
  match ← dir.find p with
  | .file _ contents => .ok contents
  | .directory => .error .isDirectory
  | .vacant _ => .error .missing

/-- Puts a file under a path, in place of the one that may be there. -/
def put (dir : Directory) (path : String) (contents : Bytes) : Directory :=
  match dir with
  | [] => [(path, contents)]
  | f :: rest => if f.1 = path then (path, contents) :: rest else f :: put rest path contents

/-- Writes a file. -/
def write (dir : Directory) (p : Path) (contents : Bytes) : Except FileFault Directory := do
  match ← dir.find p with
  | .file path _ => .ok (dir.put path contents)
  | .directory => .error .isDirectory
  | .vacant path => .ok (dir.put path contents)

/-- Does the path lead out of the directory? -/
def isOutside (path : String) : Bool :=
  "/".toList.isPrefixOf path.toList || "../".toList.isPrefixOf path.toList

/-- The files below the directory that were not there before, or not with the
same contents. -/
def changedFrom (before after : Directory) : Directory :=
  after.filter fun f => !isOutside f.1 && before.lookup f.1 != some f.2

end Directory

end Vapor.Command

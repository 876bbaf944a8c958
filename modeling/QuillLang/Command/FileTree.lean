import QuillLang.Command.Path
import QuillLang.Text.Utf8
/-!
# File trees

The files below one directory, as far as a command can see them: what a path leads to, what reading it gives, and the tree
after something is written.  A directory is there when a file lies below it.  A name has at most 255 bytes and a path at most
4095.

Outside the tree little is known: nothing there can be read but the null device, which is empty, and what is written to the
null device or straight into a directory above the tree leaves the tree as it is.
-/
namespace QuillLang

/-- Files by the names on the way to them. -/
structure FileTree where
  files : List (List String × List UInt8)
  deriving DecidableEq

namespace FileTree

inductive Node where
  | file (content : List UInt8)
  | directory
  | missing
  deriving DecidableEq

/-- What stands at the end of a way of names. -/
def node (t : FileTree) (way : List String) : Node :=
  match t.files.lookup way with
  | some content => .file content
  | none => if t.files.any (fun f => way.isPrefixOf f.1) || way == [] then .directory else .missing

/-- Where a path leads. -/
inductive Place where
  | inside (way : List String)
  /-- Above the tree, with parts still to go. -/
  | above (rest : List String)
  /-- The device that is empty and keeps nothing. -/
  | nullDevice
  | nowhere
  deriving DecidableEq

/-- Has a text more bytes than a limit allows? -/
def isOverlong (limit : Nat) (text : String) : Bool :=
  decide (limit < (Utf8.bytes text).length)

/-- Follow the parts of a path from a place in the tree.  It leads nowhere when a part on the way is no directory. -/
def follow (t : FileTree) (way : List String) : List String → Place
  | [] => .inside way
  | part :: rest =>
    if t.node way ≠ .directory ∨ isOverlong 255 part then .nowhere
    else if Path.isIdle part then follow t way rest
    else if part == ".." then if way.isEmpty then .above rest else follow t way.dropLast rest
    else follow t (way ++ [part]) rest

def resolve (t : FileTree) (path : String) : Place :=
  if isOverlong 4095 path then .nowhere
  else if path == "/dev/null" then .nullDevice
  else if Path.isAbsolute path then .nowhere
  else t.follow [] (Path.parts path)

def read? (t : FileTree) (path : String) : Option (List UInt8) :=
  match t.resolve path with
  | .inside way =>
    match t.node way with
    | .file content => some content
    | .directory | .missing => none
  | .nullDevice => some []
  | .above _ | .nowhere => none

/-- The tree with a file written, whether it was there or not. -/
def set (t : FileTree) (way : List String) (content : List UInt8) : FileTree :=
  ⟨t.files.filter (fun f => f.1 != way) ++ [(way, content)]⟩

/-- A tree of files by their paths; of two files at one place, the later stays. -/
def ofFiles (files : List (String × List UInt8)) : FileTree :=
  files.foldl (fun t f => t.set ((Path.parts f.1).filter fun p => !Path.isIdle p) f.2) ⟨[]⟩

/-- The files that are new or changed since `before`, by their paths. -/
def changes (before after : FileTree) : List (String × List UInt8) :=
  (after.files.filter fun f => before.files.lookup f.1 != some f.2).map fun f => ("/".intercalate f.1, f.2)

/-- Do the parts to go above the tree name a file in a directory that is there? -/
def namesFileAbove (rest : List String) : Bool :=
  match rest.dropWhile fun p => Path.isIdle p || p == ".." with
  | [name] => !isOverlong 255 name
  | _ => false

/-- Write a file; its directory must be there. -/
def write? (t : FileTree) (path : String) (content : List UInt8) : Option FileTree :=
  match t.resolve path with
  | .inside way => if t.node way = .directory then none else some (t.set way content)
  | .above rest => if namesFileAbove rest then some t else none
  | .nullDevice => some t
  | .nowhere => none

end FileTree
end QuillLang

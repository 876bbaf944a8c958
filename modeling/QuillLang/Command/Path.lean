/-!
# Paths

A path is a text whose parts are divided by slashes.  Empty parts and lone dots at its end say nothing, so the last part
that remains names the file.  Of that name, what follows the last dot is the extension, unless the dot comes first.

To replace an extension, the old one is taken off first and its dot is left standing; then the new one is put after the stem
of what the path names now.  For most names this is the same as putting it after the old stem.  But a name like `..a` leaves
`..`, which names no file, so that nothing is put after it.
-/
namespace QuillLang
namespace Path

/-- What stands between the occurrences of a character; one piece more than there are occurrences. -/
def pieces (sep : Char) : List Char → List (List Char)
  | [] => [[]]
  | c :: cs =>
    if c = sep then [] :: pieces sep cs
    else
      match pieces sep cs with
      | [] => [[c]]
      | p :: ps => (c :: p) :: ps

/-- The parts of a path, empty ones included. -/
def parts (path : String) : List String :=
  (pieces '/' path.toList).map String.ofList

/-- Does the path begin at the root of all files? -/
def isAbsolute (path : String) : Bool :=
  path.toList.head? == some '/'

/-- Does a part lead nowhere? -/
def isIdle (part : String) : Bool :=
  part == "" || part == "."

/-- The parts up to the one that names the file. -/
def significantParts (path : String) : List String :=
  ((parts path).reverse.dropWhile isIdle).reverse

def fileName? (path : String) : Option String :=
  match (significantParts path).getLast? with
  | some ".." | none => none
  | some name => some name

/-- A file name at its last dot: the stem, and the extension if there is one.  A dot in front divides nothing. -/
def splitName (name : String) : String × Option String :=
  match (pieces '.' name.toList).reverse with
  | after :: before :: rest =>
    let stem := ".".intercalate ((before :: rest).reverse.map String.ofList)
    if stem == "" then (name, none) else (stem, some (String.ofList after))
  | _ => (name, none)

def stem? (path : String) : Option String :=
  (fileName? path).map fun name => (splitName name).1

def rename (path name : String) : String :=
  "/".intercalate ((significantParts path).dropLast ++ [name])

/-- The path without the extension, the dot before it left standing. -/
def cutExtension (path : String) : String :=
  match (fileName? path).map splitName with
  | some (stem, some _) => rename path (stem ++ ".")
  | some (_, none) | none => path

/-- The path with an extension after its stem; a path that names no file stays as it is. -/
def putExtension (path extension : String) : String :=
  match stem? path with
  | some stem => rename path (stem ++ "." ++ extension)
  | none => path

def withExtension (path extension : String) : String :=
  putExtension (cutExtension path) extension

end Path
end QuillLang

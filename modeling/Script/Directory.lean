/-!
# Directories in memory

- `Directory`: files by their path, the parts of a path separated by slashes.
- `Directory.read?`: the file that a path names, seen from the directory.
-/

namespace Script

/-- Files with their paths. -/
structure Directory where
  files : List (String × ByteArray)

namespace Directory

/-- The parts of the path of a file. -/
def parts (path : String) : List String := path.splitOn "/"

/-- Whether the directory itself or a directory in it has the given path. -/
def isDirectory (d : Directory) (path : List String) : Bool :=
  path.isEmpty || d.files.any fun file =>
    path.isPrefixOf (parts file.1) && path.length < (parts file.1).length

/-- Walks from the directory at `path` along further parts. Only a directory can be walked from,
and not out of the directory where the walk began. -/
def walk (d : Directory) (path : List String) : List String → Option (List String)
  | [] => some path
  | part :: rest =>
    if !d.isDirectory path then none
    else if part = "" || part = "." then d.walk path rest
    else if part = ".." then if path.isEmpty then none else d.walk path.dropLast rest
    else d.walk (path ++ [part]) rest

/-- The contents of the file that a path names. The empty path and paths from the root name no
file. -/
def read? (d : Directory) (path : String) : Option ByteArray :=
  if path.isEmpty || path.toList.head? = some '/' then none
  else do
    let found ← d.walk [] (parts path)
    let file ← d.files.find? fun file => parts file.1 = found
    pure file.2

end Directory

end Script

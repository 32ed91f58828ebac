/-
This file holds files that are kept in memory instead of on a disk: a directory with everything
below it, given as the contents of files by their paths from the directory. Paths are followed the
way an operating system follows them, one component at a time: whatever a path goes through has to
be a directory, and what it ends at has to be a file.
-/

import ClausalReasoner.Problem.Loading

namespace ClausalReasoner

/-- The files below a directory: their paths from there and their bytes. -/
structure FileTree where
  files : List (String × List Char)
  deriving Inhabited

namespace FileTree

/-- The path of a list of components. -/
def pathOf (components : List String) : String :=
  "/".intercalate components

/-- The bytes of the file at a path, if there is a file. -/
def file? (tree : FileTree) (components : List String) : Option (List Char) :=
  (tree.files.find? fun entry => entry.1 = pathOf components).map (·.2)

/-- Whether some file lies below a path. -/
def isDirectory (tree : FileTree) (components : List String) : Bool :=
  tree.files.any fun entry => (pathOf components ++ "/").toList.isPrefixOf entry.1.toList

/-- Follow a path from a directory of the tree, or from so many levels `above` the tree, where
nothing is known to be but directories that lead down to it. -/
def follow (tree : FileTree) :
    List String → (above : Nat) → (directory : List String) → Except FileFault (List Char)
  | [], _, _ => .error .isDirectory
  | component :: rest, above, directory =>
    if component = "" || component = "." then tree.follow rest above directory
    else if component = ".." then
      match directory with
      | [] => tree.follow rest (above + 1) []
      | _ => tree.follow rest above directory.dropLast
    else if above ≠ 0 then .error .notFound
    else
      let here := directory ++ [component]
      match tree.file? here with
      | some bytes => if rest.isEmpty then .ok bytes else .error .notDirectory
      | none => if tree.isDirectory here then tree.follow rest 0 here else .error .notFound

/-- The components of a path. -/
def componentsOf (path : String) : List String :=
  (path.toList.splitOn '/').map String.ofList

/-- Read the file at a path. Outside of the tree, where absolute paths lead, there are no files. -/
def read (tree : FileTree) (path : String) : Except FileFault (List Char) :=
  match componentsOf path with
  | "" :: rest =>
    if rest.all fun component => component = "" || component = "." || component = ".." then
      .error .isDirectory
    else .error .notFound
  | components => tree.follow components 0 []

/-- The bytes of a text, each as one character. -/
def bytesOf (text : String) : List Char :=
  text.toUTF8.toList.map fun byte => Char.ofNat byte.toNat

/-- The tree of the files with the given paths and texts. -/
def ofTexts (files : List (String × String)) : FileTree :=
  ⟨files.map fun entry => (entry.1, bytesOf entry.2)⟩

/-- Load a problem from the files of a tree. -/
def load (tree : FileTree) (path : String) : Except Failure Problem :=
  Id.run (Problem.load (fun path => pure (tree.read path)) path)

end FileTree

end ClausalReasoner

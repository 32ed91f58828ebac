/-
This file is the program: it reads files from the disk, prints what a run of the command line leaves
behind, and ends with its code.
-/

import ClausalReasoner.CommandLine

namespace ClausalReasoner

/-- The fault that an error of the file system stands for. -/
def FileFault.ofError : IO.Error → FileFault
  | .noFileOrDirectory _ _ _ => .notFound
  | .inappropriateType _ 20 _ => .notDirectory
  | .inappropriateType _ _ _ => .isDirectory
  | error => .other (toString error)

/-- Read the bytes of a file. -/
def readFromDisk : Problem.FileReader IO := fun path => do
  try
    let bytes ← IO.FS.readBinFile path
    return .ok (bytes.toList.map fun byte => Char.ofNat byte.toNat)
  catch error =>
    return .error (.ofError error)

/-- More rounds of search than the program will ever get to. -/
def searchBound : Nat := 1000000000000000

end ClausalReasoner

def main (arguments : List String) : IO UInt32 := do
  match ← ClausalReasoner.runCommand ClausalReasoner.searchBound ClausalReasoner.readFromDisk
      arguments with
  | none => return 1
  | some report =>
    IO.print report.output
    for line in report.errors do
      IO.eprintln line
    return report.code.toUInt32

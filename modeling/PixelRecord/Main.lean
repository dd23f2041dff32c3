import PixelRecord.CommandLine.Commands
import PixelRecord.Png

/-!
The command line on the machine at hand.
-/

namespace PixelRecord.CommandLine

def readBytes (path : String) : IO (Option Bytes) := do
  try
    return some (← IO.FS.readBinFile path).data
  catch _ => return none

def succeeds (action : IO Unit) : IO Bool := do
  try
    action
    return true
  catch _ => return false

def thisMachine : Machine IO where
  readText path := do
    match ← readBytes path with
    | some bytes => return String.fromUTF8? ⟨bytes⟩
    | none => return none
  openImage path := do
    if namesImage path then
      match ← readBytes path with
      | some bytes => return Png.decode? bytes
      | none => return none
    else return none
  createDirectory path :=
    if path.isEmpty then return true else succeeds (IO.FS.createDirAll path)
  writePicture path picture := succeeds (IO.FS.writeBinFile path ⟨Png.encode picture⟩)
  taskOrder := List.range

end PixelRecord.CommandLine

open PixelRecord PixelRecord.CommandLine in
/-- Runs one command line. -/
def main (args : List String) : IO UInt32 := do
  let ending ← (read args).perform thisMachine Catalog.builtin
  IO.print ending.report.output
  IO.eprint ending.report.notes
  return ending.status

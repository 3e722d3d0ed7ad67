import Diagnostics.CommandLine

/-! # The command line program

Everything is decided by `Program.run`; here the files are read, the two outputs are written and the status is passed
on. -/

namespace Diagnostics.CommandLine.Program

/-- The status of a program that ended by a fatal error. -/
def abortStatus : UInt32 := 134

/-- The place that a fatal error names. -/
def site : Site := ⟨"Diagnostics/Main.lean", 14⟩

/-- The content of a file, if it can be read. -/
def readSource (name : String) : IO (Option (String × Bytes)) := do
  try
    return some (name, (← IO.FS.readBinFile name).toList)
  catch _ =>
    return none

/-- The directory that the program runs in; without one, relative names have no location. -/
def workingDirectory : IO String := do
  try
    return (← IO.currentDir).toString
  catch _ =>
    return ""

/-- The host of a run that is given the content of some files.  No terminal is asked for its columns. -/
def host (sources : List (String × Bytes)) : IO Host := do
  return ⟨← workingDirectory, none, fun name => sources.lookup name⟩

/-- Writing bytes to a stream. -/
def writeBytes (stream : IO.FS.Stream) (bytes : Bytes) : IO Unit := do
  stream.write ⟨bytes.toArray⟩
  stream.flush

/-- Running the program and passing on how it ended. -/
def start (arguments : List String) : IO UInt32 := do
  let sources ← (sources arguments).filterMapM readSource
  let ending := run site (← host sources) arguments
  writeBytes (← IO.getStdout) ending.stdout
  writeBytes (← IO.getStderr) ending.stderr
  return ending.status?.getD abortStatus

end Diagnostics.CommandLine.Program

def main (arguments : List String) : IO UInt32 := Diagnostics.CommandLine.Program.start arguments

import Starfield.CommandLine

/-!
# The program

Reads the files that the command line names, runs the command on them and
writes the file that it made.
-/

namespace Starfield

/-- The files that a command reads, as far as they can be read, and the
directories on the way to them and to the file that it writes. -/
def loadFiles (command : Command) : IO Files := do
  let mut entries := []
  let mut directories :=
    match command with
    | .build order => (Files.trail order.output).dropLast
    | .inspect _ _ _ => []
  for name in command.inputs do
    try
      let bytes ← IO.FS.readBinFile name
      entries := (Files.locate name, bytes.toList) :: entries
      directories := (Files.trail name).dropLast ++ directories
    catch _ => pure ()
  return { entries, directories }

/-- What the system has refused. -/
def refusal : IO.Error → StreamFault
  | .otherError number text | .resourceBusy number text | .resourceVanished number text
  | .unsupportedOperation number text | .hardwareFault number text
  | .unsatisfiedConstraints number text | .illegalOperation number text
  | .protocolError number text | .timeExpired number text => .system text number.toNat
  | .interrupted _ number text | .noFileOrDirectory _ number text => .system text number.toNat
  | .alreadyExists _ number text | .invalidArgument _ number text
  | .permissionDenied _ number text | .resourceExhausted _ number text
  | .inappropriateType _ number text | .noSuchThing _ number text => .system text number.toNat
  | .unexpectedEof => .ended
  | .userError text => .system text 0

def storeTree (order : BuildOrder) (files : Files) : IO (Option Failure) := do
  let name := order.output
  match files.read name with
  | .error _ => return none
  | .ok bytes =>
    try
      IO.FS.writeBinFile name ⟨bytes.toArray⟩
      return none
    catch error =>
      return some ⟨[.savingTree name], .fault (.stream (refusal error))⟩

end Starfield

open Starfield in
def main (words : List String) : IO UInt32 := do
  let files ←
    match Command.read words with
    | .ok command => loadFiles command
    | .error _ => pure {}
  let outcome := runProgram files words
  if outcome.status = 0 then
    if let .ok (.build order) := Command.read words then
      if let some failure ← storeTree order outcome.files then
        IO.eprint failure.report
        return 1
  IO.print outcome.output
  IO.eprint outcome.complaint
  return outcome.status.toUInt32

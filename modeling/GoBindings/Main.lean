import GoBindings.CommandLine

/-!
# The command
-/

namespace GoBindings

/-- The code of a failure, which some calls give with its sign changed. -/
def failureCode (code : UInt32) : Nat := code.toInt32.toInt.natAbs

/-- The reason of a failure; one that has none of its own is a failure of the device. -/
def systemError : IO.Error → Error
  | .alreadyExists _ code _ | .inappropriateType _ code _ | .interrupted _ code _
  | .invalidArgument _ code _ | .noFileOrDirectory _ code _ | .noSuchThing _ code _
  | .permissionDenied _ code _ | .resourceExhausted _ code _ | .hardwareFault code _
  | .illegalOperation code _ | .otherError code _ | .protocolError code _ | .resourceBusy code _
  | .resourceVanished code _ | .timeExpired code _ | .unsatisfiedConstraints code _
  | .unsupportedOperation code _ => .system (failureCode code)
  | .unexpectedEof | .userError _ => .system 5

def attempt {α : Type} (action : IO α) : IO (Except Error α) := do
  try
    return .ok (← action)
  catch e => return .error (systemError e)

partial def readAll (stream : IO.FS.Stream) (bytes : ByteArray) : IO ByteArray := do
  let more ← stream.read 65536
  if more.isEmpty then return bytes else readAll stream (bytes ++ more)

def channels : CommandLine.Channels IO where
  readInput := attempt do return (← readAll (← IO.getStdin) .empty).toList
  load path := attempt do return (← IO.FS.readBinFile path).toList
  writeOutput bytes := attempt do
    let stdout ← IO.getStdout
    stdout.write ⟨bytes.toArray⟩
    stdout.flush
  save path bytes := attempt do
    IO.FS.withFile path .write fun file => do
      file.write ⟨bytes.toArray⟩
      file.flush
  report text := do (← IO.getStderr).putStr text

end GoBindings

def main (args : List String) : IO UInt32 :=
  GoBindings.CommandLine.run GoBindings.channels args

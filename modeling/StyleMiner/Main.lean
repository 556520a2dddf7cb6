import StyleMiner.CommandLine

/-! The program: arguments in, files from disk, output and exit code out. -/

namespace StyleMiner.CommandLine

/-- why a file could not be read; a number may come negated in 32 bits -/
def readFailure (e : IO.Error) : ReadFailure :=
  match e with
  | .noFileOrDirectory _ code words | .interrupted _ code words | .alreadyExists _ code words
  | .invalidArgument _ code words | .permissionDenied _ code words
  | .resourceExhausted _ code words | .inappropriateType _ code words | .noSuchThing _ code words
  | .otherError code words | .resourceBusy code words | .resourceVanished code words
  | .unsupportedOperation code words | .hardwareFault code words
  | .unsatisfiedConstraints code words | .illegalOperation code words
  | .protocolError code words | .timeExpired code words =>
    .ofCode (if code < 0x80000000 then code.toNat else (-code).toNat) words.toList
  | .unexpectedEof | .userError _ => .notText

def loadFile (path : Text) : IO (Except ReadFailure Text) := do
  try return .ok (← IO.FS.readFile (String.ofList path)).toList
  catch e => return .error (readFailure e)

/-- runs the program on its arguments and gives its exit code -/
def execute (args : List Text) : IO UInt32 := do
  let contents ← match file? args with
    | some path => loadFile path
    | none => pure (.ok [])
  match run (fun _ => contents) args with
  | .success output =>
    IO.print (String.ofList output)
    return 0
  | .failure message =>
    IO.eprintln (String.ofList message)
    return 1
  | .usage =>
    IO.eprint (String.ofList helpText)
    return 2

end StyleMiner.CommandLine

def main (args : List String) : IO UInt32 :=
  StyleMiner.CommandLine.execute (args.map String.toList)

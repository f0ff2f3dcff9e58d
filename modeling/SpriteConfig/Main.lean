import SpriteConfig.Command.Run
/-!
# The command line

Reads the files that a command needs, prints its answer, and writes the file that it changed.
-/
namespace SpriteConfig

/-- The reason that the system gives for an error. A directory is opened and then cannot be read; a
path through a file cannot even be opened, and then the error names the path. So it does when the
path is too long. -/
def readErrorOf : IO.Error → ReadError
  | .noFileOrDirectory .. => .notFound
  | .inappropriateType none _ _ => .isDirectory
  | .inappropriateType (some _) _ _ => .notDirectory
  | .invalidArgument (some _) _ _ => .nameTooLong
  | e => .other (toString e).toList

def readPath (path : Text) : IO (Except ReadError (List UInt8)) := do
  try
    let bytes ← IO.FS.readBinFile (String.ofList path)
    return .ok bytes.toList
  catch e => return .error (readErrorOf e)

def printLog (log : List Text) : IO Unit := do
  for entry in log do
    (← IO.getStderr).putStrLn (String.ofList entry)

/-- Writes the file of an answer, if it has one, and answers whether that worked. -/
def writeFileOf (a : Answer) : IO Bool := do
  match a.write with
  | none => return true
  | some (path, text) =>
    try
      IO.FS.writeFile (String.ofList path) (String.ofList text)
      return true
    catch e =>
      let message : Text := "writing ".toList ++ path ++ ": ".toList ++ (readErrorOf e).message
      printLog ["ERROR ".toList ++ message.shown]
      return false

def runProgram (arguments : List Text) : IO UInt32 := do
  let paths :=
    match Invocation.parse arguments with
    | .ok i => i.paths
    | .error _ => []
  let files ← paths.mapM fun path => return (path, ← readPath path)
  let read : ReadFile := fun path =>
    match files.find? fun f => f.1 = path with
    | some f => f.2
    | none => .error .notFound
  let a := answer read arguments
  (← IO.getStdout).putStr (String.ofList a.stdout)
  if ← writeFileOf a then
    printLog a.log
    return a.exitCode.toUInt32
  else return 1

end SpriteConfig

def main (arguments : List String) : IO UInt32 :=
  SpriteConfig.runProgram (arguments.map String.toList)

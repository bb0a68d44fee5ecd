import HybridCheck.Command.Run

/-!
# The command line

Reads model files, creates the dump file, and passes on what a command writes. The exit code is one
after a failure and two after a fault.
-/

namespace HybridCheck

def openFailure (path : String) : IO.Error → Failure
  | .noFileOrDirectory .. => .reported ("open " ++ path ++ ": no such file or directory")
  | .permissionDenied .. => .reported ("open " ++ path ++ ": permission denied")
  | e => .reported ("open " ++ path ++ ": " ++ toString e)

def systemFiles : Command.Files IO where
  read := fun path => do
    try return .ok (← IO.FS.readFile path)
    catch e => return .error (openFailure path e)
  create := fun path => do
    try
      IO.FS.writeFile path ""
      return .ok ()
    catch e => return .error (openFailure path e)

end HybridCheck

def main (args : List String) : IO UInt32 := do
  let out ← HybridCheck.Command.run HybridCheck.systemFiles args
  IO.print out.stdout
  IO.eprint out.stderr
  match out.failure with
  | none => return 0
  | some e => return if e.isFault then 2 else 1

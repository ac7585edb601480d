import Xdr.CommandLine

/-!
# The program

The command on real files and streams.
-/

namespace Xdr.Program

def faultOf : IO.Error → FileFault
  | .noFileOrDirectory _ _ _ => .missing
  | .inappropriateType _ code _ => if code = 21 then .isFolder else .notFolder
  | .alreadyExists _ _ _ => .taken
  | .invalidArgument _ code _ => if code = 36 then .tooLong else .denied
  | _ => .denied

def attempt {α : Type} (path : Path) (x : IO α) : IO (Except FileFault α) := do
  match Files.start path with
  | .error f => return .error f
  | .ok _ => try return .ok (← x) catch e => return .error (faultOf e)

def host : CommandLine.Host IO where
  read path := attempt path do return (← IO.FS.readBinFile path.text).toList
  write path data := attempt path (IO.FS.writeBinFile path.text ⟨data.toArray⟩)

def style : IO Style := do
  let surroundings : Surroundings :=
    { isTerminal := ← (← IO.getStderr).isTty
      term := ← IO.getEnv "TERM"
      noColor := ← IO.getEnv "NO_COLOR"
      noUnicode := ← IO.getEnv "NO_UNICODE" }
  return Style.choose surroundings none none

end Xdr.Program

def main (argv : List String) : IO UInt32 := do
  let manner : Xdr.CommandLine.Manner := { style := ← Xdr.Program.style }
  let (code, printed) ← Xdr.CommandLine.execute Xdr.Program.host manner argv
  IO.print printed.out
  IO.eprint printed.err
  match code with
  | .ok n => return UInt32.ofNat n
  | .error _ =>
    IO.eprintln "error: unexpected input"
    return 1

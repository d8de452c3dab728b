import Gemv.Command.Run

/-! The command line program: reads the files that an invocation names, carries it out, prints
what it printed and writes the device file back. -/
namespace Gemv.Command

/-- Sorts a failed file access by the code that the operating system gives it. -/
def fileFault (e : IO.Error) : FileFault :=
  match e with
  | .noFileOrDirectory _ _ _ => .notFound
  | .inappropriateType _ code details =>
    if code = 20 then .notDirectory
    else if code = 21 then .isDirectory
    else .system details code.toNat
  | .invalidArgument _ code details =>
    if code = 36 then .nameTooLong else .system details code.toNat
  | .permissionDenied _ code details => .system details code.toNat
  | e => .system (toString e) 5

def fetch (path : String) : IO (Except FileFault ByteArray) := do
  try
    return .ok (← IO.FS.readBinFile path)
  catch e =>
    return .error (fileFault e)

/-- The program file that an action reads. -/
def programPath? : Action → Option String
  | .push path _ _ _ => some path
  | .disassemble path _ => some path
  | _ => none

def surroundings (i : Invocation) : IO Surroundings := do
  let named ← IO.getEnv "IMAGINE_DEVICE"
  let device := (i.settings.device.orElse fun _ => named).getD standardDevice
  let program ← match programPath? i.action with
    | some path => fetch path
    | none => pure (.error .notFound)
  let window ← if i.settings.simulated then pure (.error .notFound) else fetch device
  return {
    files := {
      read := fun _ => program
      mappable := fun _ stop => do (FileEntry.file (← window.mapError .file)).mappable stop }
    device := named }

def usage : String :=
  String.intercalate "\n"
    ["Usage: imagine [OPTIONS] <COMMAND>",
     "",
     "Commands: regs, push <LISTING>, load --reg <REG> <VALUES>..., pop, disasm <LISTING>, reset,",
     "  selftest",
     "Options: --device <DEVICE>, --offset <OFFSET>, --sim, --lanes <LANES>,",
     "  --reg-width <REG_WIDTH>, --timeout-ms <TIMEOUT_MS>"]

def perform (i : Invocation) : IO UInt32 := do
  let report := run (← surroundings i) i
  IO.print report.printed
  IO.eprint report.complaint
  match report.stored with
  | some (path, bytes) => IO.FS.writeBinFile path bytes
  | none => pure ()
  return UInt32.ofNat report.exitCode

end Gemv.Command

open Gemv.Command in
def main (args : List String) : IO UInt32 := do
  match read args with
  | .ok i => perform i
  | .error .version => IO.println versionLine; return 0
  | .error .help => IO.println usage; return 0
  | .error .usage => IO.eprintln usage; return 2

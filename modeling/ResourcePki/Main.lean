import ResourcePki.CommandLine
import Std.Time.DateTime.Timestamp

/-!
The program: it reads the files that its arguments name and the clock, and prints what the command
makes of them.
-/

namespace ResourcePki.CommandLine

/-- The number by which the system knows a reason, which may come with a minus sign. -/
def reasonNumber (code : UInt32) : Nat :=
  if code < 0x80000000 then code.toNat else (0 - code).toNat

/-- The reason with a number. -/
def reasonOf (number : Nat) (details : String) : FileError :=
  match number with
  | 2 => .notFound
  | 20 => .notDirectory
  | 21 => .isDirectory
  | 36 => .nameTooLong
  | n => .other (FileError.withNumber details.capitalize n)

/-- Why a file cannot be read. -/
def describe : IO.Error → FileError
  | .noFileOrDirectory _ code details
  | .permissionDenied _ code details
  | .inappropriateType _ code details
  | .invalidArgument _ code details => reasonOf (reasonNumber code) details
  | e => .other e.toString

/-- All faults of the encoding are worded alike, and no place is given. -/
def plainWording : Wording where
  fault _ _ := "malformed encoding"
  place _ _ := ""

/-- The content of the file with a path. -/
def load (path : String) : IO (String × Except FileError Octets) := do
  try
    return (path, .ok (← IO.FS.readBinFile path).data.toList)
  catch e =>
    return (path, .error (describe e))

/-- The present moment. -/
def now : IO Time := do
  let seconds := (← Std.Time.Timestamp.now).toSecondsSinceUnixEpoch.val
  match Time.ofSeconds? seconds with
  | some t => return t
  | none => throw (.userError Time.invalidMessage)

end ResourcePki.CommandLine

open ResourcePki in
/-- Runs the command on files of the system. -/
def main (args : List String) : IO UInt32 := do
  let contents ← args.mapM CommandLine.load
  let files : CommandLine.Files := fun path =>
    (contents.lookup path).getD (.error .notFound)
  let outcome := CommandLine.run CommandLine.plainWording files (← CommandLine.now) args
  for line in outcome.output do
    IO.println line
  for line in outcome.errors do
    IO.eprintln line
  return UInt32.ofNat outcome.status

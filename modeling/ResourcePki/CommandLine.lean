import ResourcePki.FileTree
import ResourcePki.Record.Profile
import ResourcePki.Record.RoleCheck
import ResourcePki.Report

/-!
The command that reads certificates from files, checks them and prints what they hold.

Certificates are taken for issued ones, or for trust anchors if a key is given. Choices may stand
anywhere among the paths and hold for all of them. A file with a key is read as soon as it is named,
and nothing is printed if it cannot be. A certificate that is rejected, or that cannot be read, only
adds a line on the error channel and makes the command end with a status other than zero. The router
keys of all accepted certificates come last.

Reading a file is a function here, which gives its octets or the reason why it cannot be read. What
a decoder has to say of a fault of the encoding is a function, too.
-/

namespace ResourcePki.CommandLine

/-- The content of files by their paths, or why they cannot be read. -/
abbrev Files := String → Except FileError Octets

/-- How a decoder words that octets cannot be decoded. Rules on content have a wording of their own
    (`DecodeError.message?`), to which only the place is added. -/
structure Wording where
  /-- The text for a fault of the encoding itself. -/
  fault : DecodeOptions → Octets → String
  /-- What is added on the place of the failure. -/
  place : DecodeOptions → Octets → String

/-- What is asked for. -/
structure Request where
  options : DecodeOptions := {}
  /-- The encoded key of the trust anchor that all certificates are taken for. -/
  anchorKey : Option Octets := none
  paths : List String := []

/-- Why nothing can be done. -/
inductive Refusal where
  /-- No path is given, or a choice lacks its value. -/
  | usage
  /-- A file cannot be read. -/
  | unreadable (path : String) (reason : FileError)

/-- The line on a file that cannot be read. -/
def unreadableMessage (path : String) (reason : FileError) : String :=
  path ++ ": Can’t read file: " ++ reason.message

namespace Refusal

/-- The line that says why nothing is done. -/
def message : Refusal → String
  | .usage => "Usage: readcer [--strict] [--ta <tal-key>] <path>..."
  | .unreadable path reason => unreadableMessage path reason

/-- The status with which the command ends. -/
def status : Refusal → Nat
  | .usage => 2
  | .unreadable _ _ => 1

end Refusal

/-- Reads arguments behind those that led to a request. -/
def readArguments (files : Files) : Request → List String → Except Refusal Request
  | q, [] => if q.paths = [] then .error .usage else .ok q
  | q, arg :: args =>
    if arg = "--strict" then
      readArguments files { q with options := { q.options with strict := true } } args
    else if arg = "--ta" then
      match args with
      | [] => .error .usage
      | path :: args =>
        match files path with
        | .ok key => readArguments files { q with anchorKey := some key } args
        | .error reason => .error (.unreadable path reason)
    else readArguments files { q with paths := q.paths ++ [arg] } args

/-- The record of a certificate that passes all checks asked for. -/
def accept (q : Request) (now : Time) (bs : Octets) : Except ValidationError Record := do
  let r ← Record.ofDer q.options bs
  match q.anchorKey with
  | some key => r.asAnchor key now
  | none => r.asIssued

/-- Why the certificate in some octets is rejected. -/
def rejection (w : Wording) (q : Request) (bs : Octets) : ValidationError → String
  | .decoding cause => cause.message?.getD (w.fault q.options bs) ++ w.place q.options bs
  | .inspection cause => cause.message
  | .verification cause => cause.message

/-- The record of the certificate in a file, or the line that says why there is none. -/
def readFile (w : Wording) (files : Files) (q : Request) (now : Time) (path : String) :
    Except String Record :=
  match files path with
  | .error reason => .error (unreadableMessage path reason)
  | .ok bs =>
    match accept q now bs with
    | .ok r => .ok r
    | .error e => .error (path ++ ": " ++ rejection w q bs e)

/-- What a command prints, line by line on both channels, and the status with which it ends. -/
structure Outcome where
  status : Nat
  output : List String
  errors : List String
  deriving DecidableEq, Repr

/-- What became of the files of a batch, by their paths. -/
abbrev Results := List (String × Except String Record)

namespace Results

/-- The accepted records. -/
def accepted (rs : Results) : List Record :=
  rs.filterMap fun (_, r) => r.toOption

/-- The lines on accepted records. -/
def reports (rs : Results) : List String :=
  rs.flatMap fun (path, r) =>
    match r with
    | .ok r => r.report path
    | .error _ => []

/-- The lines on files without an accepted record. -/
def failures (rs : Results) : List String :=
  rs.filterMap fun (_, r) =>
    match r with
    | .ok _ => none
    | .error line => some line

/-- The router keys of the accepted records. -/
def routerKeys (limit : Nat) (rs : Results) : RouterKeyTable :=
  rs.accepted.foldl RouterKeyTable.insertRecord (.withLimit limit)

/-- What is printed of a batch. -/
def outcome (limit : Nat) (rs : Results) : Outcome where
  status := if rs.failures = [] then 0 else 1
  output := rs.reports ++ (rs.routerKeys limit).report
  errors := rs.failures

end Results

/-- Reads and checks all files that are asked for. -/
def results (w : Wording) (files : Files) (q : Request) (now : Time) : Results :=
  q.paths.map fun path => (path, readFile w files q now path)

/-- What the command does with arguments. -/
def run (w : Wording) (files : Files) (now : Time) (args : List String) : Outcome :=
  match readArguments files {} args with
  | .ok q => (results w files q now).outcome q.options.maxAs
  | .error refusal => ⟨refusal.status, [], [refusal.message]⟩

end ResourcePki.CommandLine

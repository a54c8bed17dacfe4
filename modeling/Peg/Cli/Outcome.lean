import Peg.Cli.Options
import Peg.Demo

/-! # The command line

A demo is run on the first line of a file or of the standard input. The outcome is what
is printed on either channel together with the exit code.
-/
namespace Peg.Cli

inductive ReadError
  | notFound
  | notDirectory
  | isDirectory
  | nameTooLong
  | notText
  | other (message : String)
  deriving DecidableEq, Repr

def ReadError.message : ReadError → String
  | notFound => "No such file or directory (os error 2)"
  | notDirectory => "Not a directory (os error 20)"
  | isDirectory => "Is a directory (os error 21)"
  | nameTooLong => "File name too long (os error 36)"
  | notText => "stream did not contain valid UTF-8"
  | other message => message

@[ext] structure Outcome where
  code : Nat
  stdout : String := ""
  /-- Nothing is said here of the wording in which misuse is explained or a crash reported. -/
  stderr : Option String := some ""
  deriving DecidableEq, Repr

def version : String := "pegcomb 0.1.0"

def causeText (mark cause : String) : String :=
  mark ++ cause.replace "\n" ("\n" ++ "".pushn ' ' mark.length) ++ "\n"

def causeNumber (i : Nat) : String :=
  "".pushn ' ' (5 - (toString i).length) ++ toString i ++ ": "

/-- An error that ends the program, and the chain of what it was caused by, numbered if there is
more than one cause. -/
def errorText (message : String) (causes : List String := []) : String :=
  "Error: " ++ message ++ "\n" ++
    match causes with
    | [] => ""
    | [cause] => "\nCaused by:\n" ++ causeText "    " cause
    | causes =>
      "\nCaused by:\n" ++
        String.join (causes.zipIdx.map fun c => causeText (causeNumber c.2) c.1)

/-- The bytes before the first line feed, without a carriage return at their end; all
bytes if there is no line feed. -/
def firstLine (bytes : Array UInt8) : Array UInt8 :=
  match bytes.findIdx? (· == 10) with
  | none => bytes
  | some i =>
    let line := bytes.extract 0 i
    if line.back? = some 13 then line.pop else line

def explanation (d : Demo) : String :=
  d.rules.foldl (fun text r => text ++ "  <" ++ r.1 ++ "> := " ++ r.2.render ++ "\n")
    (d.start.render ++ "\n")

def matchText (o : Options) (sink : SinkId) (line : Array UInt8) (m : Span) (s : Store) :
    String :=
  let c : Cursor := { input := line }
  let text (n : Span) : String := (n.text c).1.toOption.getD ""
  let head :=
    "matched " ++ toString m.start ++ ".." ++ toString m.stop ++ ": " ++ text m ++ "\n"
  let captured := s.captures.foldl (fun acc n => acc ++ text n ++ "\n") head
  if o.forward then captured ++ Utf8.decodeLossy (s.sinks.content sink) ++ "\n" else captured

/-- Runs a demo on the first line of a text. The error of a callback ends the program like every
other error, a fault makes it panic, and an evaluation that never comes back exhausts its stack. -/
def parseLine (o : Options) (d : Demo) (sink : SinkId) (contents : Array UInt8) : Outcome :=
  let line := firstLine contents
  let explained := if o.explain then explanation d else ""
  match d.run line with
  | some (.hit m, s) => { code := 0, stdout := explained ++ matchText o sink line m s.ctx }
  | some (.miss, _) =>
    { code := 1, stdout := explained
      stderr := some ("Failed to parse input with demo '" ++ o.demoName ++ "'.\n") }
  | some (.stop (.hook e), _) =>
    { code := 1, stdout := explained, stderr := some (errorText e.report (e.message :: e.causes)) }
  | some (.stop (.fault _), _) => { code := 101, stdout := explained, stderr := none }
  | none => { code := 134, stdout := explained, stderr := none }

def source (o : Options) (stdin : Array UInt8)
    (readFile : String → Except ReadError (Array UInt8)) :
    Except ReadError (Array UInt8) × String :=
  match o.file with
  | some path => (readFile path, path)
  | none => (.ok stdin, "stdin")

def requireText (contents : Except ReadError (Array UInt8)) : Except ReadError (Array UInt8) :=
  match contents with
  | .ok bytes => if Utf8.isValid bytes then .ok bytes else .error .notText
  | .error e => .error e

def start (o : Options) (stdin : Array UInt8)
    (readFile : String → Except ReadError (Array UInt8)) : Outcome :=
  match Demo.Language.ofName? o.demoName with
  | none =>
    { code := 1
      stderr := some (errorText
        ("Unknown demo '" ++ o.demoName ++ "'. Available: " ++ Demo.Language.names ++ ".")) }
  | some language =>
    let sink : SinkId := 0
    let built := Demo.build language 0 sink
    match built.grammar.check with
    | .error e => { code := 1, stderr := some (errorText e.message) }
    | .ok () =>
      let demo := if o.all then built.anchored else built
      let (contents, name) := source o stdin readFile
      match requireText contents with
      | .error e =>
        { code := 1
          stdout := if o.explain then explanation demo else ""
          stderr := some (errorText ("Failed to read " ++ name) [e.message]) }
      | .ok bytes => parseLine o demo sink bytes

def usage : String :=
  "Usage: pegcomb [OPTIONS] [FILE]\n\n" ++
  "Options:\n" ++
  "  -d, --demo <DEMO>  Demo grammar to run [default: " ++ Options.defaultDemo ++ "]\n" ++
  "  -f, --forward      Also print the bytes the demo forwards\n" ++
  "  -a, --all          Require the whole line to match\n" ++
  "  -e, --explain      Print the demo's pattern and rules before running it\n" ++
  "  -h, --help         Print help\n" ++
  "  -V, --version      Print version\n"

def run (args : List String) (stdin : Array UInt8)
    (readFile : String → Except ReadError (Array UInt8)) : Outcome :=
  match Request.ofArguments args with
  | .start o => start o stdin readFile
  | .version => { code := 0, stdout := version ++ "\n" }
  | .help => { code := 0, stdout := usage }
  | .misuse => { code := 2, stderr := none }

end Peg.Cli

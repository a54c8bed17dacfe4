/-! # Command line options

Options have a long name, a letter or both, and letters may be run together behind one
dash. Only the demo takes a value, which follows as the next argument, behind an equals
sign or directly behind its letter. No option may be given twice.
-/
namespace Peg.Cli

structure Options where
  file : Option String := none
  demo : Option String := none
  forward : Bool := false
  all : Bool := false
  explain : Bool := false
  deriving DecidableEq, Repr

inductive Request
  | start (o : Options)
  | version
  | help
  | misuse
  deriving DecidableEq, Repr

namespace Options

def defaultDemo : String := "macro"

def demoName (o : Options) : String := o.demo.getD defaultDemo

inductive Switch
  | forward
  | all
  | explain
  deriving DecidableEq, Repr

inductive Meaning
  | switch (s : Switch)
  | demo
  | version
  | help
  deriving DecidableEq, Repr

def ofLetter? : Char → Option Meaning
  | 'f' => some (.switch .forward)
  | 'a' => some (.switch .all)
  | 'e' => some (.switch .explain)
  | 'd' => some .demo
  | 'V' => some .version
  | 'h' => some .help
  | _ => none

def ofLongName? : String → Option Meaning
  | "forward" => some (.switch .forward)
  | "all" => some (.switch .all)
  | "explain" => some (.switch .explain)
  | "demo" => some .demo
  | "version" => some .version
  | "help" => some .help
  | _ => none

def turnOn (o : Options) : Switch → Option Options
  | .forward => if o.forward then none else some { o with forward := true }
  | .all => if o.all then none else some { o with all := true }
  | .explain => if o.explain then none else some { o with explain := true }

def chooseDemo (o : Options) (name : String) : Option Options :=
  if o.demo.isSome then none else some { o with demo := some name }

def takeFile (o : Options) (path : String) : Option Options :=
  if o.file.isSome then none else some { o with file := some path }

inductive Progress
  | further (o : Options)
  /-- The next argument is the value of the demo. -/
  | wantsDemo (o : Options)
  | done (r : Request)

def Progress.ofOption : Option Options → Progress
  | some o => .further o
  | none => .done .misuse

def readLetters (o : Options) : List Char → Progress
  | [] => .further o
  | c :: rest =>
    match ofLetter? c with
    | none => .done .misuse
    | some .version => .done .version
    | some .help => .done .help
    | some (.switch s) =>
      match o.turnOn s with
      | some o' => readLetters o' rest
      | none => .done .misuse
    | some .demo =>
      match rest with
      | [] => .wantsDemo o
      | '=' :: value => .ofOption (o.chooseDemo (String.ofList value))
      | value => .ofOption (o.chooseDemo (String.ofList value))

def readLong (o : Options) (name : String) (value : Option String) : Progress :=
  match ofLongName? name, value with
  | some .demo, none => .wantsDemo o
  | some .demo, some v => .ofOption (o.chooseDemo v)
  | some (.switch s), none => .ofOption (o.turnOn s)
  | some .version, none => .done .version
  | some .help, none => .done .help
  | _, _ => .done .misuse

def splitAtEquals (cs : List Char) : String × Option String :=
  let name := String.ofList (cs.takeWhile (· ≠ '='))
  match cs.dropWhile (· ≠ '=') with
  | [] => (name, none)
  | _ :: value => (name, some (String.ofList value))

def readArgument (o : Options) (arg : String) : Progress :=
  match arg.toList with
  | '-' :: '-' :: cs =>
    let (name, value) := splitAtEquals cs
    o.readLong name value
  | '-' :: c :: cs => o.readLetters (c :: cs)
  | _ => .ofOption (o.takeFile arg)

def isValue (arg : String) : Bool :=
  match arg.toList with
  | '-' :: _ :: _ => false
  | _ => true

def takeFiles (o : Options) : List String → Request
  | [] => .start o
  | arg :: rest =>
    match o.takeFile arg with
    | some o' => o'.takeFiles rest
    | none => .misuse

/-- Reads all arguments from left to right; two dashes end the options. -/
def read (o : Options) : List String → Request
  | [] => .start o
  | "--" :: rest => o.takeFiles rest
  | arg :: rest =>
    match o.readArgument arg, rest with
    | .done r, _ => r
    | .further o', rest => o'.read rest
    | .wantsDemo _, [] => .misuse
    | .wantsDemo o', value :: rest =>
      if isValue value then
        match o'.chooseDemo value with
        | some o'' => o''.read rest
        | none => .misuse
      else .misuse

end Options

def Request.ofArguments (args : List String) : Request := Options.read {} args

end Peg.Cli

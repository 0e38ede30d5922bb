namespace Kiwi.Command

inductive Action
  | interactive
  | evaluate (source : String)
  | runFile (name : String)
  | version
  | help
deriving DecidableEq, Repr

inductive Argument
  -- All further arguments are file names.
  | separator
  -- A source to evaluate, which may also be the next argument.
  | source (value : Option String)
  | version
  | help
  | file (name : String)
  | invalid
deriving DecidableEq, Repr

namespace Argument

def ofLong (cs : List Char) : Argument :=
  match String.ofList (cs.takeWhile (· ≠ '=')), cs.dropWhile (· ≠ '=') with
  | "eval",    _ :: value => source (some (String.ofList value))
  | "eval",    []         => source none
  | "version", []         => version
  | "help",    []         => help
  | _,         _          => invalid

def ofShort : List Char → Argument
  | ['e']               => source none
  | 'e' :: '=' :: value => source (some (String.ofList value))
  | 'e' :: value        => source (some (String.ofList value))
  | 'V' :: _            => version
  | 'h' :: _            => help
  | _                   => invalid

def ofFile (name : String) : Argument :=
  if name = "" then invalid else file name

def ofText (s : String) : Argument :=
  match s.toList with
  | ['-', '-']       => separator
  | '-' :: '-' :: cs => ofLong cs
  | ['-']            => ofFile s
  | '-' :: cs        => ofShort cs
  | _                => ofFile s

def looksLikeOption (s : String) : Bool :=
  match s.toList with
  | ['-']    => false
  | '-' :: _ => true
  | _        => false

end Argument

structure Request where
  source : Option String := none
  file   : Option String := none

namespace Request

def withSource (r : Request) (s : String) : Option Request :=
  if r.source.isSome then none else some { r with source := some s }

def withFile (r : Request) (name : String) : Option Request :=
  if r.file.isSome then none else some { r with file := some name }

def action : Request → Option Action
  | ⟨none,   none⟩   => some .interactive
  | ⟨some s, none⟩   => some (.evaluate s)
  | ⟨none,   some f⟩ => some (.runFile f)
  | ⟨some _, some _⟩ => none

def readFiles (r : Request) : List String → Option Action
  | []        => r.action
  | a :: args =>
    match Argument.ofFile a with
    | .file name => do (← r.withFile name).readFiles args
    | _          => none

-- Reads arguments from left to right. Version and help take effect where they are met.
def read (r : Request) : List String → Option Action
  | []        => r.action
  | a :: args =>
    match Argument.ofText a with
    | .separator       => r.readFiles args
    | .version         => some .version
    | .help            => some .help
    | .file name       => do (← r.withFile name).read args
    | .source (some s) => do (← r.withSource s).read args
    | .source none     =>
      match args with
      | s :: args => if Argument.looksLikeOption s then none else do (← r.withSource s).read args
      | []        => none
    | .invalid         => none

end Request

def Action.ofArguments? (args : List String) : Option Action :=
  ({} : Request).read args

end Kiwi.Command

import Kiwi.Command.Arguments
import Kiwi.Session.Interactive

namespace Kiwi.Command

structure Output where
  code   : Nat := 0
  stdout : String := ""
  stderr : String := ""
deriving DecidableEq, Repr

inductive ReadError
  | notFound
  | notText
  | other (reason : String)
deriving DecidableEq, Repr

def ReadError.text : ReadError → String
  | notFound     => "No such file or directory (os error 2)"
  | notText      => "stream did not contain valid UTF-8"
  | other reason => reason

def decode (content : ByteArray) : Except ReadError String :=
  match String.fromUTF8? content with
  | some s => .ok s
  | none   => .error .notText

namespace Output

def success (line : String) : Output where
  stdout := line ++ "\n"

def failure (line : String) : Output where
  code   := 1
  stderr := line ++ "\n"

def usage : Output where
  code   := 2
  stderr := "Usage: kiwi [OPTIONS] [FILE]\n\nFor more information, try '--help'.\n"

def version : Output :=
  success "kiwi_repl 0.1.0"

def help : Output :=
  success ("Usage: kiwi [OPTIONS] [FILE]\n\n" ++
    "Arguments:\n" ++
    "  [FILE]  Script to run instead of starting the interactive session\n\n" ++
    "Options:\n" ++
    "  -e, --eval <EVAL>  Evaluate the given source instead of reading a file\n" ++
    "  -h, --help         Print help\n" ++
    "  -V, --version      Print version")

def tooDeep : Output :=
  failure "evaluation is nested too deeply"

def ofOutcome : Outcome → Output
  | .value text        => success text
  | .runtimeError text => failure text
  | .parseErrors text  => failure text

def ofSource (fuel : Nat) (source : String) : Output :=
  match runScript fuel source with
  | some outcome => ofOutcome outcome
  | none         => tooDeep

def ofFile (fuel : Nat) (name : String) : Except ReadError String → Output
  | .ok source => ofSource fuel source
  | .error e   => failure ("Failed to read the input file '" ++ name ++ "': " ++ e.text)

def ofInput (fuel : Nat) (input : String) : Output :=
  match Interactive.answers fuel .start (Interactive.linesOf input) with
  | some answers =>
    { stdout := String.join ((Interactive.banner :: answers).map (· ++ "\n")) }
  | none         => tooDeep

end Output

def respond (fuel : Nat) (args : List String) (input : String)
    (file : String → Except ReadError String) : Output :=
  match Action.ofArguments? args with
  | none                => .usage
  | some .interactive   => .ofInput fuel input
  | some (.evaluate s)  => .ofSource fuel s
  | some (.runFile f)   => .ofFile fuel f (file f)
  | some .version       => .version
  | some .help          => .help

end Kiwi.Command

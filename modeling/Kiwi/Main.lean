import Kiwi.Command.Output

namespace Kiwi.Command

def readSource (name : String) : IO (Except ReadError String) := do
  try
    return decode (← IO.FS.readBinFile name)
  catch
    | .noFileOrDirectory .. => return .error .notFound
    | e                     => return .error (.other (toString e))

def print (o : Output) : IO UInt32 := do
  IO.print o.stdout
  IO.eprint o.stderr
  return o.code.toUInt32

-- Answers lines until the input ends or a line ends the session.
partial def converse (input : IO.FS.Stream) (se : Session) : IO UInt32 := do
  let line ← input.getLine
  if line.isEmpty then
    return 0
  match Interactive.reply defaultFuel se line with
  | none                 => print .tooDeep
  | some (.stop, _)      => return 0
  | some (.silence, se)  => converse input se
  | some (.answer a, se) => do
    IO.println a
    converse input se

end Kiwi.Command

open Kiwi Kiwi.Command

def main (args : List String) : IO UInt32 := do
  match Action.ofArguments? args with
  | none               => print .usage
  | some .version      => print .version
  | some .help         => print .help
  | some (.evaluate s) => print (.ofSource defaultFuel s)
  | some (.runFile f)  => print (.ofFile defaultFuel f (← readSource f))
  | some .interactive  => do
    IO.println Interactive.banner
    converse (← IO.getStdin) .start

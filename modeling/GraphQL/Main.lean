import GraphQL.Command

/-! The command line: reads standard input and writes the answer of a command. -/
namespace GraphQL.Command

partial def readAll (input : IO.FS.Stream) (before : String) : IO String := do
  let line ← input.getLine
  if line.isEmpty then return before else readAll input (before ++ line)

end GraphQL.Command

def main (words : List String) : IO UInt32 := do
  let text ← if words.isEmpty then pure "" else GraphQL.Command.readAll (← IO.getStdin) ""
  match GraphQL.Command.answer words text with
  | .done text => IO.println text; return 0
  | .failed text => IO.eprintln text; return 1

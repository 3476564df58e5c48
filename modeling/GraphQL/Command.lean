import GraphQL.Parser.TypeSystem
import GraphQL.Printer

/-! What the command line says about documents: the canonical layout of one, or a count of
what several define. A text that does not parse is a failure. -/
namespace GraphQL.Command

/-- What a command answers. -/
inductive Answer where
  | done (text : String)
  | failed (text : String)
deriving DecidableEq, Repr

/-- How many definitions of each sort documents hold. -/
structure Tally where
  operations : Nat := 0
  fragments : Nat := 0
  typeSystem : Nat := 0
deriving DecidableEq, Repr

namespace Tally

def ofDocument (document : Ast.Document) : Tally :=
  let operations := document.operations.length
  let fragments := document.fragments.length
  ⟨operations, fragments, document.definitions.length - operations - fragments⟩

def add (a b : Tally) : Tally :=
  ⟨a.operations + b.operations, a.fragments + b.fragments, a.typeSystem + b.typeSystem⟩

end Tally

def succeeded (text : String) : Answer := .done ("\u2705 " ++ text)

def refused (text : String) : Answer := .failed ("\u274c " ++ text)

/-- The document of a source in the canonical layout. -/
def print (source : Source) : Answer :=
  match source.parseDocument false with
  | .ok document => .done document.text
  | .error error => refused error.message

/-- The syntax error of a source, if it has one. -/
def syntaxError? (source : Source) : Option SyntaxError :=
  match source.parseDocument with
  | .ok _ => none
  | .error error => some error

/-- What a source defines; nothing if it does not parse. -/
def tallyOf (source : Source) : Tally :=
  match source.parseDocument with
  | .ok document => .ofDocument document
  | .error _ => {}

def listed (lines : List String) : String := "\n".intercalate lines

/-- Checks sources, of which none may fail. -/
def check (sources : List Source) : Answer :=
  match sources.filterMap syntaxError? with
  | [] =>
      let tally := (sources.map tallyOf).foldl Tally.add {}
      succeeded (listed
        ["All GraphQL parsed successfully:",
          "  * Analyzed " ++ toString sources.length ++ " files.",
          "  * Found " ++ toString tally.operations ++ " operations.",
          "  * Found " ++ toString tally.fragments ++ " fragments.",
          "  * Found " ++ toString tally.typeSystem ++ " type system definitions."])
  | errors =>
      refused (toString errors.length ++ " of " ++ toString sources.length
        ++ " GraphQL files failed to parse:\n\n"
        ++ "\n\n".intercalate (errors.map SyntaxError.message))

def usage : String :=
  listed
    ["Syntax checker and canonical printer for GraphQL documents.",
      "",
      "Commands, for a document on standard input:",
      "  check  Counts what the document defines; fails if it does not parse.",
      "  print  Writes the document in the canonical layout."]

/-- The answer to the words of a command line, for the text on standard input. -/
def answer (words : List String) (text : String) : Answer :=
  match words with
  | ["check"] => check [{ body := text }]
  | ["print"] => print { body := text }
  | [] => .done usage
  | _ => .failed usage

end GraphQL.Command

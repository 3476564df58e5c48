import GraphQL.Execution.Host

/-! Completions: the values of positions of a response, as far as they are known. A completion
that waits for the host is a tree of what is known and what is still to come. -/
namespace GraphQL.Execution

/-- The value at a position, or the error for which it is null. The error goes on to the
nearest position that may be null. -/
abbrev Outcome := Except ResponseError Value

/-- Which parts of a completion are asked in a round: all that wait, or those whose turn it
is, where `next` lists the positions of the parts that wait. -/
inductive Turns where
  | all
  | inTurn (next : List Nat)
deriving DecidableEq, Repr

/-- What parts are put together to. -/
inductive Shape where
  | list
  | object (keys : List String)
deriving DecidableEq, Repr

def Shape.assemble : Shape → List Value → Value
  | list, values => .list values
  | object keys, values => .object (keys.zip values)

inductive Completion (τ : Type) where
  | settled (outcome : Outcome)
  /-- The host still computes the value. -/
  | awaiting (value : Later τ) (site : Site) (type : TypeRef) (path : Path)
  /-- The value must not be null. -/
  | required (site : Site) (path : Path) (inner : Completion τ)
  /-- An error becomes a null here. -/
  | guarded (inner : Completion τ)
  | joined (shape : Shape) (parts : List (Completion τ)) (turns : Turns)

namespace Completion

variable {τ : Type}

def outcome? : Completion τ → Option Outcome
  | settled outcome => some outcome
  | _ => none

def isSettled (completion : Completion τ) : Bool := completion.outcome?.isSome

def nullError (site : Site) (path : Path) : ResponseError :=
  site.error path ("Cannot return null for non-nullable field " ++ site.coordinate ++ ".")

def refuseNull (site : Site) (path : Path) : Outcome → Outcome
  | .ok value => if value.isNull then .error (nullError site path) else .ok value
  | .error error => .error error

/-- Requires a value that is not null. -/
def require (site : Site) (path : Path) : Completion τ → Completion τ
  | settled outcome => settled (refuseNull site path outcome)
  | inner => required site path inner

/-- So many parts at most are asked in every round. -/
def asTogether : Nat := 30

/-- Who is asked first when parts begin to wait: all of them, unless they are too many. -/
def firstTurns (parts : List (Completion τ)) : Turns :=
  let waiting := (parts.zipIdx.filter fun part => !part.1.isSettled).map Prod.snd
  if waiting.length ≤ asTogether then .all else .inTurn waiting

/-- Puts parts together once all of them are settled. The first error of a part is the error
of the whole. -/
def gather (shape : Shape) (parts : List (Completion τ)) (turns : Turns) : Completion τ :=
  match parts.mapM outcome? with
  | some outcomes => settled ((outcomes.mapM id).map shape.assemble)
  | none => joined shape parts turns

/-- Puts parts together that have not been asked yet. -/
def join (shape : Shape) (parts : List (Completion τ)) : Completion τ :=
  gather shape parts (firstTurns parts)

end Completion
end GraphQL.Execution

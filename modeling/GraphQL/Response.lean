import GraphQL.Text.Location
import GraphQL.Value.Json

/-! Responses: what a request is answered with. An error in one has a message, the places in the
document that it is about, and where in the response it arose. -/
namespace GraphQL

/-- One step of a path through response data. -/
inductive PathSegment where
  | key (name : String)
  | index (position : Nat)
deriving DecidableEq, Repr

namespace PathSegment

def text : PathSegment → String
  | key name => name
  | index position => toString position

def json : PathSegment → String
  | key name => Text.quote name
  | index position => toString position

end PathSegment

/-- A path through response data, outermost step first. -/
abbrev Path := List PathSegment

structure ResponseError where
  message : String
  locations : List Location := []
  path : Option Path := none
deriving DecidableEq, Repr

namespace ResponseError

def locationJson (here : Location) : String :=
  Json.object [("line", toString here.line), ("column", toString here.column)]

/-- An error as JSON text. Locations are left out where there are none, and so is the path. -/
def json (error : ResponseError) : String :=
  Json.object
    (("message", Text.quote error.message)
      :: (if error.locations.isEmpty then []
          else [("locations", Json.array (error.locations.map locationJson))])
      ++ error.path.toList.map fun path => ("path", Json.array (path.map PathSegment.json)))

end ResponseError

structure Response where
  /-- Absent if execution did not start. -/
  data : Option Value
  errors : List ResponseError := []
  /-- Whether the request itself was refused. -/
  invalid : Bool := false

namespace Response

/-- The answer to a request that is not executed. -/
def refusal (errors : List ResponseError) : Response := { data := none, errors, invalid := true }

def isOk (response : Response) : Bool := response.errors.isEmpty

/-- A response as JSON text. Data and errors are left out where there are none. -/
def json (response : Response) : String :=
  Json.object
    ((response.data.toList.map fun data => ("data", data.json))
      ++ if response.errors.isEmpty then []
         else [("errors", Json.array (response.errors.map ResponseError.json))])

end Response
end GraphQL

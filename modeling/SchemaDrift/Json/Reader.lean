import SchemaDrift.Json.Token

namespace SchemaDrift.Json

/-!
# Reading a JSON text

The tokens are taken from left to right, and the lists and objects that are still open are kept on
a stack. One token is one step, so reading is a fold over the tokens.
-/

/-- The members of an object that are read so far, last one first; `none` once a key could not be
read. -/
abbrev Members := Option (List (Text × Json))

/-- A list or an object that is still open. -/
inductive Frame where
  | list (done : List Json)
  | object (done : Members) (key : Json)

/-- What the next token has to be. -/
inductive Expect where
  | value
  | firstItem
  | firstKey
  | key (done : Members)
  | colon (done : Members) (key : Json)
  | next (value : Json)

/-- Adds a member. A member whose key is unreadable spoils the object. -/
def Members.add (done : Members) (key value : Json) : Members :=
  match done, key with
  | some done, .text key => some ((key, value) :: done)
  | _, _ => none

/-- The object with the members. -/
def Members.close : Members → Json
  | some done => .object done.reverse
  | none => .unreadable

def startValue (stack : List Frame) : Token → Option (Expect × List Frame)
  | .scalar value => some (.next value, stack)
  | .openList => some (.firstItem, .list [] :: stack)
  | .openObject => some (.firstKey, stack)
  | _ => none

/-- The token as a key. Only a quoted text is a key. -/
def startKey (done : Members) (stack : List Frame) : Token → Option (Expect × List Frame)
  | .scalar (.text key) => some (.colon done (.text key), stack)
  | .scalar .unreadable => some (.colon done .unreadable, stack)
  | _ => none

/-- The token after a finished value. -/
def afterValue (value : Json) : List Frame → Token → Option (Expect × List Frame)
  | .list done :: outer, .comma => some (.value, .list (value :: done) :: outer)
  | .list done :: outer, .closeList => some (.next (.list (value :: done).reverse), outer)
  | .object done key :: outer, .comma => some (.key (done.add key value), outer)
  | .object done key :: outer, .closeObject => some (.next (done.add key value).close, outer)
  | _, _ => none

/-- Takes one token; `none` if it cannot stand here. -/
def step : Expect × List Frame → Token → Option (Expect × List Frame)
  | (.value, stack), token => startValue stack token
  | (.firstItem, .list _ :: outer), .closeList => some (.next (.list []), outer)
  | (.firstItem, stack), token => startValue stack token
  | (.firstKey, stack), .closeObject => some (.next (.object []), stack)
  | (.firstKey, stack), token => startKey (some []) stack token
  | (.key done, stack), token => startKey done stack token
  | (.colon done key, stack), .colon => some (.value, .object done key :: stack)
  | (.colon _ _, _), _ => none
  | (.next value, stack), token => afterValue value stack token

/-- The value that a text spells, if it spells exactly one. -/
def read? (t : Text) : Option Json :=
  match (tokens? t).bind (·.foldlM step (.value, [])) with
  | some (.next value, []) => some value
  | _ => none

end SchemaDrift.Json

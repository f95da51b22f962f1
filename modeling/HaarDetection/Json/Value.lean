import HaarDetection.Json.Token

/-!
# JSON values

A value is put together from tokens one by one. What has been opened and not yet closed is kept in
a list of frames, the innermost one first, so that values may be nested to any depth.

* `Json`: a value; objects keep the order and the repetitions of their members.
* `JsonState.step?`: the state after another token.
* `Json.read?`: the value that a text holds.
-/

namespace HaarDetection

/-- A JSON value. Strings and keys without a text are kept as none. -/
inductive Json
  | null
  | bool (value : Bool)
  | number (numeral : Numeral)
  | string (text : Option String)
  | array (elements : List Json)
  | object (members : List (Option String × Json))

/-- An array or an object that has been opened. What it holds so far is in reverse. -/
inductive JsonFrame
  | array (elements : List Json)
  | object (members : List (Option String × Json)) (key : Option String)

/-- What is expected next, inside of the opened frames. -/
inductive JsonState
  /-- A value. -/
  | atValue (frames : List JsonFrame)
  /-- The first element of an array, or its end. -/
  | atFirstElement (frames : List JsonFrame)
  /-- The first key of an object, or its end. -/
  | atFirstKey (frames : List JsonFrame)
  /-- Another key, behind some members in reverse. -/
  | atKey (members : List (Option String × Json)) (frames : List JsonFrame)
  /-- The colon behind a key. -/
  | atColon (members : List (Option String × Json)) (key : Option String) (frames : List JsonFrame)
  /-- What follows a value that is complete. -/
  | behind (value : Json) (frames : List JsonFrame)

namespace JsonState

/-- The state after the first token of a value. -/
def begin? (token : Token) (frames : List JsonFrame) : Option JsonState :=
  match token with
  | .null => some (.behind .null frames)
  | .bool value => some (.behind (.bool value) frames)
  | .number numeral => some (.behind (.number numeral) frames)
  | .string text => some (.behind (.string text) frames)
  | .openArray => some (.atFirstElement frames)
  | .openObject => some (.atFirstKey frames)
  | _ => none

/-- **The state after another token**, none if the token does not belong there. -/
def step? (state : JsonState) (token : Token) : Option JsonState :=
  match state, token with
  | .atValue frames, token => begin? token frames
  | .atFirstElement frames, .closeArray => some (.behind (.array []) frames)
  | .atFirstElement frames, token => begin? token (.array [] :: frames)
  | .atFirstKey frames, .closeObject => some (.behind (.object []) frames)
  | .atFirstKey frames, .string key => some (.atColon [] key frames)
  | .atKey members frames, .string key => some (.atColon members key frames)
  | .atColon members key frames, .colon => some (.atValue (.object members key :: frames))
  | .behind value (.array elements :: frames), .comma =>
    some (.atValue (.array (value :: elements) :: frames))
  | .behind value (.array elements :: frames), .closeArray =>
    some (.behind (.array (value :: elements).reverse) frames)
  | .behind value (.object members key :: frames), .comma =>
    some (.atKey ((key, value) :: members) frames)
  | .behind value (.object members key :: frames), .closeObject =>
    some (.behind (.object ((key, value) :: members).reverse) frames)
  | _, _ => none

/-- The state after some tokens. -/
def run? : JsonState → List Token → Option JsonState
  | state, [] => some state
  | state, token :: rest =>
    match state.step? token with
    | some next => run? next rest
    | none => none

end JsonState

namespace Json

/-- The value that some tokens make up. -/
def ofTokens? (tokens : List Token) : Option Json :=
  match JsonState.run? (.atValue []) tokens with
  | some (.behind value []) => some value
  | _ => none

/-- **The value that a text holds**, if it holds one and nothing else. -/
def read? (text : String) : Option Json := (Token.readAll? text.toList).bind ofTokens?

end Json

end HaarDetection

import ScoreDecoding.TokenSet
import ScoreDecoding.Json.Decode
import ScoreDecoding.Json.Parser
import ScoreDecoding.Json.Printer

/-!
# Tokens as JSON

A token is written as its name, and a set of tokens as the list of its tokens in id order.

- `Token.readList?` and `TokenSet.read?` read a text; a set may list its tokens in any order and more than once.
-/

namespace ScoreDecoding

namespace Token

/-- A token as its name. -/
def toJson (t : Token) : Json := .text t.name

/-- Reads the name of a token. -/
def ofJson? (j : Json) : Option Token := j.text?.bind ofName?

/-- Reads a list of tokens. -/
def listOfJson? (j : Json) : Option (List Token) := j.list? ofJson?

/-- Reads the text of a list of tokens. -/
def readList? (text : String) : Option (List Token) := (Json.parse? text).bind listOfJson?

end Token

namespace TokenSet

/-- A set as the list of its tokens in id order. -/
def toJson (s : TokenSet) : Json := .arr (s.toList.map Token.toJson)

/-- Reads the set of the tokens of a list. -/
def ofJson? (j : Json) : Option TokenSet := (Token.listOfJson? j).map ofList

/-- Reads the text of a set. -/
def read? (text : String) : Option TokenSet := (Json.parse? text).bind ofJson?

/-- The text of a set. -/
def text (s : TokenSet) : String := s.toJson.compact

/-- The set as it is shown to a reader: its names in quotes, between braces. -/
def shown (s : TokenSet) : String := "\x7b" ++ ", ".intercalate (s.toList.map (·.toJson.compact)) ++ "\x7d"

end TokenSet

end ScoreDecoding

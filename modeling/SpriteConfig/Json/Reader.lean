import SpriteConfig.Json.Basic
/-!
# Reading JSON

A text is first cut into tokens and then read with a stack of the arrays and objects that are still
open, so that values may be nested to any depth. The grammar is the strict one: no comments, no
trailing commas, no leading zeros, no control characters in strings.
-/
namespace SpriteConfig
namespace Json

inductive Token
  | mark (c : Char)
  | scalar (value : Json)
  | string (pieces : List StringPiece)

/-- What is being read. The pieces that were read already come last first. -/
inductive Mode
  | between
  | bare (read : Text)
  | string (read : List StringPiece)
  /-- After a backslash. -/
  | escape (read : List StringPiece)
  /-- In an escape by number, of which `left` digits are missing. -/
  | code (read : List StringPiece) (left value : Nat)

def isSpace (c : Char) : Bool := c = ' ' || c = '\t' || c = '\n' || c = '\r'

def isMark (c : Char) : Bool := ['{', '}', '[', ']', ',', ':'].contains c

/-- The digits at the start of a text and what follows them, if there is a digit. -/
def digits? (t : Text) : Option Text :=
  if t.head?.any Char.isDigit then some (t.dropWhile Char.isDigit) else none

/-- What follows the whole part of a number. A leading zero is the whole part. -/
def wholePart? : Text → Option Text
  | '0' :: t => some t
  | t => digits? t

/-- What follows the fraction of a number, if there is a fraction. -/
def fraction? : Text → Option Text
  | '.' :: t => digits? t
  | t => some t

/-- What follows the exponent of a number, if there is an exponent. -/
def exponent? : Text → Option Text
  | c :: t =>
    if c = 'e' ∨ c = 'E' then
      match t with
      | '+' :: t | '-' :: t => digits? t
      | t => digits? t
    else some (c :: t)
  | [] => some []

def isNumber (t : Text) : Bool :=
  let t :=
    match t with
    | '-' :: t => t
    | t => t
  ((wholePart? t).bind fraction?).bind exponent? == some []

def scalar? (t : Text) : Option Json :=
  if t = "null".toList then some null
  else if t = "true".toList then some (bool true)
  else if t = "false".toList then some (bool false)
  else if isNumber t then some (number t)
  else none

def hexDigit? (c : Char) : Option Nat :=
  if c.isDigit then some (c.toNat - '0'.toNat)
  else if 'a' ≤ c ∧ c ≤ 'f' then some (c.toNat - 'a'.toNat + 10)
  else if 'A' ≤ c ∧ c ≤ 'F' then some (c.toNat - 'A'.toNat + 10)
  else none

def escaped? : Char → Option Char
  | '"' => some '"'
  | '\\' => some '\\'
  | '/' => some '/'
  | 'b' => some '\x08'
  | 'f' => some '\x0c'
  | 'n' => some '\n'
  | 'r' => some '\r'
  | 't' => some '\t'
  | _ => none

def startToken (tokens : List Token) (c : Char) : List Token × Mode :=
  if isSpace c then (tokens, .between)
  else if isMark c then (.mark c :: tokens, .between)
  else if c = '"' then (tokens, .string [])
  else (tokens, .bare [c])

/-- Reads one character, with the tokens so far, the last first. -/
def readChar (tokens : List Token) (c : Char) : Mode → Option (List Token × Mode)
  | .between => some (startToken tokens c)
  | .bare read =>
    if isSpace c || isMark c || c = '"' then
      (scalar? read.reverse).map fun value => startToken (.scalar value :: tokens) c
    else some (tokens, .bare (c :: read))
  | .string read =>
    if c = '"' then some (.string read.reverse :: tokens, .between)
    else if c = '\\' then some (tokens, .escape read)
    else if c.toNat < 0x20 then none
    else some (tokens, .string (.char c :: read))
  | .escape read =>
    if c = 'u' then some (tokens, .code read 3 0)
    else (escaped? c).map fun e => (tokens, .string (.char e :: read))
  | .code read left value =>
    (hexDigit? c).map fun digit =>
      let value := value * 16 + digit
      match left with
      | 0 => (tokens, .string (.unit value :: read))
      | left + 1 => (tokens, .code read left value)

/-- Cuts a text into tokens, with the tokens so far, the last first. -/
def tokenize (tokens : List Token) (mode : Mode) : Text → Option (List Token)
  | [] =>
    match mode with
    | .between => some tokens.reverse
    | .bare read => (scalar? read.reverse).map fun value => (.scalar value :: tokens).reverse
    | _ => none
  | c :: t =>
    match readChar tokens c mode with
    | some (tokens, mode) => tokenize tokens mode t
    | none => none

/-- An array or an object that is still open, with what it holds so far, the last first. -/
inductive Frame
  | array (items : List Json)
  /-- An object in which the value for `key` is awaited. -/
  | object (fields : List (List StringPiece × Json)) (key : List StringPiece)

inductive Awaited
  | value
  | itemOrEnd
  | keyOrEnd
  | key (fields : List (List StringPiece × Json))
  | colon (fields : List (List StringPiece × Json)) (key : List StringPiece)
  /-- A comma or the end of what the value stands in. -/
  | next (done : Json)

/-- A value is read when its stack of frames is given up. -/
abbrev State := Awaited × List Frame

def readValue (frames : List Frame) : Token → Option State
  | .scalar v => some (.next v, frames)
  | .string s => some (.next (.string s), frames)
  | .mark '[' => some (.itemOrEnd, .array [] :: frames)
  | .mark '{' => some (.keyOrEnd, frames)
  | .mark _ => none

def readToken : State → Token → Option State
  | (.value, frames), t => readValue frames t
  | (.itemOrEnd, .array [] :: frames), .mark ']' => some (.next (.array []), frames)
  | (.itemOrEnd, frames), t => readValue frames t
  | (.keyOrEnd, frames), .mark '}' => some (.next (.object []), frames)
  | (.keyOrEnd, frames), .string k => some (.colon [] k, frames)
  | (.key fields, frames), .string k => some (.colon fields k, frames)
  | (.colon fields k, frames), .mark ':' => some (.value, .object fields k :: frames)
  | (.next v, .array items :: frames), .mark ',' => some (.value, .array (v :: items) :: frames)
  | (.next v, .array items :: frames), .mark ']' =>
    some (.next (.array (v :: items).reverse), frames)
  | (.next v, .object fields k :: frames), .mark ',' => some (.key ((k, v) :: fields), frames)
  | (.next v, .object fields k :: frames), .mark '}' =>
    some (.next (.object ((k, v) :: fields).reverse), frames)
  | _, _ => none

def readTokens (state : State) : List Token → Option State
  | [] => some state
  | t :: ts =>
    match readToken state t with
    | some state => readTokens state ts
    | none => none

def parse? (t : Text) : Option Json :=
  match (tokenize [] .between t).bind (readTokens (.value, [])) with
  | some (.next v, []) => some v
  | _ => none

end Json
end SpriteConfig

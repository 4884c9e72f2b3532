import ShardedQuery.Planning.Context

/-!
# Reading settings

Settings are written as JSON: an object with some of the settings by name, or an array with the
first few of them in order.  Settings that are left out have their defaults, and fields of other
names are passed over, though they have to be well formed.

* `Token.lex` — the tokens of a text.
* `Written.ofTokens?` — the value that a list of tokens writes.
* `Settings.ofJson` — the settings that a text writes.

A value that is passed over may hold strings that stand for no text, because an escaped half of a
surrogate pair lacks the other half; so a string is read as an optional text.
-/

namespace ShardedQuery

/-! ### Tokens -/

/-- A part of a string: a character as it stands or named by a short escape, or an escaped UTF-16
code unit. -/
inductive StringPart where
  | char (c : Char)
  | unit (n : Nat)

/-- The smallest parts of a JSON text that mean something. -/
inductive Token where
  | openArray
  | closeArray
  | openObject
  | closeObject
  | colon
  | comma
  | null
  | bool (value : Bool)
  | number
  | string (parts : List StringPart)

namespace Token

/-- The four characters that may stand between tokens. -/
def isBlank (c : Char) : Bool := c == ' ' || c == '\t' || c == '\r' || c == '\n'

def hexDigit? (c : Char) : Option Nat :=
  if '0' ≤ c && c ≤ '9' then some (c.toNat - '0'.toNat)
  else if 'a' ≤ c && c ≤ 'f' then some (c.toNat - 'a'.toNat + 10)
  else if 'A' ≤ c && c ≤ 'F' then some (c.toNat - 'A'.toNat + 10)
  else none

/-- The code unit that four hexadecimal digits name. -/
def codeUnit? (digits : List Char) : Option Nat :=
  digits.foldlM (fun n c => (hexDigit? c).map (16 * n + ·)) 0

def shortEscape? : Char → Option Char
  | '"' => some '"'
  | '\\' => some '\\'
  | '/' => some '/'
  | 'b' => some '\x08'
  | 'f' => some '\x0c'
  | 'n' => some '\n'
  | 'r' => some '\r'
  | 't' => some '\t'
  | _ => none

/-- The parts of a string up to its closing quote, and what follows.  Control characters have to be
escaped. -/
def stringParts : List Char → Option (List StringPart × List Char)
  | '"' :: rest => some ([], rest)
  | '\\' :: 'u' :: a :: b :: c :: d :: rest => do
    let n ← codeUnit? [a, b, c, d]
    let (parts, rest) ← stringParts rest
    return (.unit n :: parts, rest)
  | '\\' :: e :: rest => do
    let c ← shortEscape? e
    let (parts, rest) ← stringParts rest
    return (.char c :: parts, rest)
  | c :: rest =>
    if c.toNat < 0x20 || c == '\\' then none
    else do
      let (parts, rest) ← stringParts rest
      return (.char c :: parts, rest)
  | [] => none

/-- What follows a run of digits; there has to be one. -/
def digits : List Char → Option (List Char)
  | c :: rest => if c.isDigit then some (rest.dropWhile (·.isDigit)) else none
  | [] => none

/-- What follows the digits in front of a point; the first of several is not a zero. -/
def integer : List Char → Option (List Char)
  | '0' :: c :: rest => if c.isDigit then none else some (c :: rest)
  | cs => digits cs

/-- What follows a fraction, if there is one. -/
def fraction : List Char → Option (List Char)
  | '.' :: rest => digits rest
  | cs => some cs

/-- What follows an exponent, if there is one. -/
def exponent : List Char → Option (List Char)
  | 'e' :: '+' :: rest | 'e' :: '-' :: rest | 'E' :: '+' :: rest | 'E' :: '-' :: rest => digits rest
  | 'e' :: rest | 'E' :: rest => digits rest
  | cs => some cs

/-- What follows a number without its sign. -/
def number? (cs : List Char) : Option (List Char) := do exponent (← fraction (← integer cs))

/-- The token that a text starts with, and what follows. -/
def first? : List Char → Option (Token × List Char)
  | '[' :: rest => some (openArray, rest)
  | ']' :: rest => some (closeArray, rest)
  | '\x7b' :: rest => some (openObject, rest)
  | '\x7d' :: rest => some (closeObject, rest)
  | ':' :: rest => some (colon, rest)
  | ',' :: rest => some (comma, rest)
  | 'n' :: 'u' :: 'l' :: 'l' :: rest => some (null, rest)
  | 't' :: 'r' :: 'u' :: 'e' :: rest => some (bool true, rest)
  | 'f' :: 'a' :: 'l' :: 's' :: 'e' :: rest => some (bool false, rest)
  | '"' :: rest => (stringParts rest).map fun (parts, rest) => (string parts, rest)
  | '-' :: rest => (number? rest).map fun rest => (number, rest)
  | cs => (number? cs).map fun rest => (number, rest)

/-- The tokens of a text of at most `fuel` characters. -/
def lexWithin : (fuel : Nat) → List Char → Option (List Token)
  | fuel, cs =>
    match cs.dropWhile isBlank with
    | [] => some []
    | c :: rest =>
      match fuel with
      | 0 => none
      | fuel + 1 => do
        let (token, rest) ← first? (c :: rest)
        return token :: (← lexWithin fuel rest)

def lex (text : String) : Option (List Token) := lexWithin text.length text.toList

end Token

/-! ### Values -/

namespace StringPart

/-- The text of some parts.  An escaped unit is a character by itself, except that the halves of a
surrogate pair stand for one character together, and for none apart. -/
def text? : List StringPart → Option (List Char)
  | [] => some []
  | char c :: rest => (text? rest).map (c :: ·)
  | unit n :: rest =>
    if n < 0xD800 || 0xDFFF < n then (text? rest).map (Char.ofNat n :: ·)
    else
      match rest with
      | unit m :: rest =>
        if n < 0xDC00 && 0xDC00 ≤ m && m ≤ 0xDFFF then
          (text? rest).map (Char.ofNat (0x10000 + (n - 0xD800) * 0x400 + (m - 0xDC00)) :: ·)
        else none
      | _ => none

end StringPart

/-- A value as it is written, as far as settings depend on it. -/
inductive Written where
  | bool (value : Bool)
  | string (text : Option String)
  | array (items : List Written)
  | object (fields : List (Option String × Written))
  /-- Null, or a number. -/
  | other

namespace Written

/-- A container whose end has not been read, with its latest part first. -/
inductive Frame where
  | array (items : List Written)
  | object (fields : List (Option String × Written)) (key : Option String)

inductive Expect where
  | value
  /-- A value, or the end of an array. -/
  | valueOrEnd
  | key
  /-- A key, or the end of an object. -/
  | keyOrEnd
  | colon
  /-- A comma, or the end of a container. -/
  | commaOrEnd
  /-- The end of the text, after the whole value. -/
  | done (value : Written)

def textOf (parts : List StringPart) : Option String := (StringPart.text? parts).map String.ofList

/-- What to expect after a value, and the open containers with the value in them. -/
def put (value : Written) : List Frame → Expect × List Frame
  | [] => (.done value, [])
  | .array items :: frames => (.commaOrEnd, .array (value :: items) :: frames)
  | .object fields key :: frames => (.commaOrEnd, .object ((key, value) :: fields) none :: frames)

/-- What to expect after a token, and the containers that are open then. -/
def step : Expect → List Frame → Token → Option (Expect × List Frame)
  | .value, frames, .null | .valueOrEnd, frames, .null => some (put other frames)
  | .value, frames, .number | .valueOrEnd, frames, .number => some (put other frames)
  | .value, frames, .bool b | .valueOrEnd, frames, .bool b => some (put (bool b) frames)
  | .value, frames, .string parts | .valueOrEnd, frames, .string parts =>
    some (put (string (textOf parts)) frames)
  | .value, frames, .openArray | .valueOrEnd, frames, .openArray =>
    some (.valueOrEnd, .array [] :: frames)
  | .value, frames, .openObject | .valueOrEnd, frames, .openObject =>
    some (.keyOrEnd, .object [] none :: frames)
  | .key, .object fields _ :: frames, .string parts
  | .keyOrEnd, .object fields _ :: frames, .string parts =>
    some (.colon, .object fields (textOf parts) :: frames)
  | .colon, frames, .colon => some (.value, frames)
  | .commaOrEnd, .array items :: frames, .comma => some (.value, .array items :: frames)
  | .commaOrEnd, .object fields key :: frames, .comma => some (.key, .object fields key :: frames)
  | .valueOrEnd, .array items :: frames, .closeArray
  | .commaOrEnd, .array items :: frames, .closeArray => some (put (array items.reverse) frames)
  | .keyOrEnd, .object fields _ :: frames, .closeObject
  | .commaOrEnd, .object fields _ :: frames, .closeObject =>
    some (put (object fields.reverse) frames)
  | _, _, _ => none

/-- The value that a list of tokens writes, no more and no less. -/
def ofTokens? (tokens : List Token) : Option Written :=
  match tokens.foldlM (fun state token => step state.1 state.2 token) (Expect.value, []) with
  | some (.done value, _) => some value
  | _ => none

def bool? : Written → Option Bool
  | bool b => some b
  | _ => none

def texts? : Written → Option (List String)
  | array items =>
    items.mapM fun
      | string text => text
      | _ => none
  | _ => none

/-- The one field of the given name, absent if there is none; there may not be two. -/
def field? (fields : List (Option String × Written)) (name : String) : Option (Option Written) :=
  match fields.filter fun field => field.1 == some name with
  | [] => some none
  | [field] => some (some field.2)
  | _ => none

/-- A part that may be absent, absence being the default. -/
def partOr {α : Type} (read : Written → Option α) (default : α) : Option Written → Option α
  | none => some default
  | some value => read value

end Written

namespace Settings

/-- The settings from their values, where there are values. -/
def ofParts? (awareness ignoring counting reducing : Option Written) : Option Settings := do
  return {
    awarenessAttributes := ← Written.partOr Written.texts? [] awareness
    ignoreMissingShards := ← Written.partOr Written.bool? false ignoring
    countPushdown := ← Written.partOr Written.bool? true counting
    reduceOnCollector := ← Written.partOr Written.bool? true reducing }

def ofWritten? : Written → Option Settings
  | .object fields =>
    if fields.any fun field => field.1.isNone then none
    else do
      ofParts? (← Written.field? fields "awareness_attributes")
        (← Written.field? fields "ignore_missing_shards")
        (← Written.field? fields "count_pushdown") (← Written.field? fields "reduce_on_collector")
  | .array items =>
    if 4 < items.length then none else ofParts? items[0]? items[1]? items[2]? items[3]?
  | _ => none

def ofJson (text : String) : Except PlanningError Settings :=
  match (Token.lex text).bind fun tokens => (Written.ofTokens? tokens).bind ofWritten? with
  | some settings => .ok settings
  | none => .error (.invalidConfig "not a JSON object or array of settings")

/-- The settings that a file holds; the file may be missing. -/
def ofFile : Option String → Except PlanningError Settings
  | some text => ofJson text
  | none => .error (.invalidConfig "the file cannot be read")

end Settings

end ShardedQuery

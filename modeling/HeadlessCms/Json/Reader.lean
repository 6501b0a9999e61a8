import HeadlessCms.Json.Basic
import HeadlessCms.Decimal.Numeral

/-!
# Reading JSON

The reader takes a text one character at a time.  Its state is what it expects next together with
the arrays and objects that are still open, so reading is a fold over the text and every text has an
answer.

What is well formed need not be a value: a number beyond the range of doubles, a string with half of
a surrogate pair, a container nested more than `Reader.depthLimit` deep.  `Json.readRaw?` puts
`Json.unreadable` in its place, so that a reader of typed data may pass over it, and keeps members in
the order of the text, repeated ones included.  `Json.parse?` gives the value itself.
-/

namespace HeadlessCms

namespace Decimal

/-- How far the writing of a JSON number has come. -/
inductive NumeralPhase where
  | sign
  | zero
  | whole
  | point
  | fraction
  | mark
  | markSign
  | power
  deriving DecidableEq

/-- What a JSON number may go on with. -/
def NumeralPhase.next? (phase : NumeralPhase) (c : Char) : Option NumeralPhase :=
  let digit := Text.isAsciiDigit c
  match phase with
  | .sign => if c = '0' then some .zero else if digit then some .whole else none
  | .zero => if c = '.' then some .point else if c = 'e' ∨ c = 'E' then some .mark else none
  | .whole =>
    if digit then some .whole
    else if c = '.' then some .point
    else if c = 'e' ∨ c = 'E' then some .mark
    else none
  | .point => if digit then some .fraction else none
  | .fraction => if digit then some .fraction else if c = 'e' ∨ c = 'E' then some .mark else none
  | .mark => if digit then some .power else if c = '+' ∨ c = '-' then some .markSign else none
  | .markSign => if digit then some .power else none
  | .power => if digit then some .power else none

/-- Whether a JSON number may end here. -/
def NumeralPhase.isComplete : NumeralPhase → Bool
  | .zero | .whole | .fraction | .power => true
  | _ => false

end Decimal

open Decimal (Numeral NumeralPhase)

/-- The number of a numeral.  Without point and exponent it is a whole number as long as that is
between `-2 ^ 63` and `2 ^ 64 - 1`; minus zero is a float.  A numeral beyond the range of doubles
has none. -/
def Number.ofNumeral? (n : Numeral) : Option Number :=
  let i : Int := Decimal.ofDigits n.whole
  if n.fraction.isNone && n.exponent.isNone && !n.negative && i < Nat.pow 2 64 then some (.int i)
  else if n.fraction.isNone && n.exponent.isNone && n.negative && 0 < i && i ≤ Nat.pow 2 63 then
    some (.int (-i))
  else n.scaled?.map .float

/-- Stands for what is well formed but no value.  No typed reader takes it. -/
def Json.unreadable : Json :=
  .num (.float Decimal.infinity)

namespace Reader

/-- Containers nested deeper than this are no values. -/
def depthLimit : Nat := 127

/-- A container that is still open, with what it holds so far, the latest first. -/
inductive Frame where
  | array (items : List Json)
  /-- An object in which a key comes next; without members if one of its keys is no text. -/
  | object (members : Option (List (String × Json)))
  /-- An object in which the value of a key comes next. -/
  | member (members : Option (List (String × Json))) (key : Option String)

/-- What the reader is in the middle of. -/
inductive Mode where
  /-- A value comes next, or the end of an array that has just been opened. -/
  | value (mayClose : Bool)
  /-- A key comes next, or the end of an object that has just been opened. -/
  | key (mayClose : Bool)
  | colon
  /-- A value has been read inside a container. -/
  | separator
  /-- Inside a string; the text so far is kept backwards, if it is one. -/
  | string (asKey : Bool) (text : Option (List Char))
  | escape (asKey : Bool) (text : Option (List Char))
  /-- After `\u`, with the leading half of a pair if there is one, and the digits so far. -/
  | code (asKey : Bool) (text : Option (List Char)) (leading : Option Nat) (digits : List Nat)
  /-- After the leading half of a pair; without the other half it is no text. -/
  | pairEscape (asKey : Bool) (text : Option (List Char)) (leading : Nat)
  | pairCode (asKey : Bool) (text : Option (List Char)) (leading : Nat)
  /-- Inside a number; the text so far is kept backwards. -/
  | number (phase : NumeralPhase) (text : List Char)
  /-- Inside a word of which these letters are still to come. -/
  | word (left : List Char) (meaning : Json)
  | finished (v : Json)

/-- The state of the reader. -/
structure State where
  mode : Mode
  stack : List Frame

/-- The state before the text. -/
def State.start : State :=
  ⟨.value false, []⟩

def isSpace (c : Char) : Bool :=
  c == ' ' || c == '\n' || c == '\r' || c == '\t'

/-- Hands a finished value to the innermost open container. -/
def supply (v : Json) : List Frame → Option State
  | [] => some ⟨.finished v, []⟩
  | .array items :: rest => some ⟨.separator, .array (v :: items) :: rest⟩
  | .member members key :: rest =>
    let extended := members.bind fun ms => key.map fun k => (k, v) :: ms
    some ⟨.separator, .object extended :: rest⟩
  | .object _ :: _ => none

/-- Hands a finished string to the place it stands in. -/
def supplyText (asKey : Bool) (text : Option (List Char)) (stack : List Frame) : Option State :=
  let s := text.map fun t => String.ofList t.reverse
  if asKey then
    match stack with
    | .object members :: rest => some ⟨.colon, .member members s :: rest⟩
    | _ => none
  else supply ((s.map .str).getD .unreadable) stack

/-- Hands a finished container to the one around it, provided that it is not nested too deep. -/
def supplyContainer (v : Json) (stack : List Frame) : Option State :=
  supply (if (stack.take depthLimit).length < depthLimit then v else .unreadable) stack

/-- Closes the innermost container. -/
def close (c : Char) : List Frame → Option State
  | .array items :: rest => if c = ']' then supplyContainer (.arr items.reverse) rest else none
  | .object members :: rest =>
    if c = '\x7d' then
      supplyContainer ((members.map fun ms => .obj ms.reverse).getD .unreadable) rest
    else none
  | _ => none

/-- Goes on after a value inside a container: a comma or the end of the container. -/
def separate (c : Char) (stack : List Frame) : Option State :=
  if isSpace c then some ⟨.separator, stack⟩
  else if c = ',' then
    match stack with
    | .array _ :: _ => some ⟨.value false, stack⟩
    | .object _ :: _ => some ⟨.key false, stack⟩
    | _ => none
  else close c stack

/-- Starts a value. -/
def begin (c : Char) (stack : List Frame) : Option State :=
  if c = '"' then some ⟨.string false (some []), stack⟩
  else if c = '[' then some ⟨.value true, .array [] :: stack⟩
  else if c = '\x7b' then some ⟨.key true, .object (some []) :: stack⟩
  else if c = '-' then some ⟨.number .sign [c], stack⟩
  else if c = '0' then some ⟨.number .zero [c], stack⟩
  else if Text.isAsciiDigit c then some ⟨.number .whole [c], stack⟩
  else if c = 'n' then some ⟨.word ['u', 'l', 'l'] .null, stack⟩
  else if c = 't' then some ⟨.word ['r', 'u', 'e'] (.bool true), stack⟩
  else if c = 'f' then some ⟨.word ['a', 'l', 's', 'e'] (.bool false), stack⟩
  else none

/-- The number whose text, backwards, has been read. -/
def numberOf? (phase : NumeralPhase) (text : List Char) : Option Json :=
  if phase.isComplete then
    let (negative, unsigned) := Decimal.takeSign text.reverse
    (Numeral.unsigned? negative unsigned).map fun n =>
      ((Number.ofNumeral? n).map .num).getD .unreadable
  else none

/-- The character that a letter stands for after a backslash. -/
def escaped? (c : Char) : Option Char :=
  if c = '"' ∨ c = '\\' ∨ c = '/' then some c
  else if c = 'b' then some (Char.ofNat 8)
  else if c = 'f' then some (Char.ofNat 12)
  else if c = 'n' then some '\n'
  else if c = 'r' then some '\r'
  else if c = 't' then some '\t'
  else none

/-- What a code unit of four hexadecimal digits comes to: more text, the wait for the other half of
a pair, or no text. -/
def takeUnit (asKey : Bool) (text : Option (List Char)) (leading : Option Nat) (unit : Nat) :
    Mode :=
  let isLeading := 0xD800 ≤ unit && unit ≤ 0xDBFF
  let isTrailing := 0xDC00 ≤ unit && unit ≤ 0xDFFF
  match leading with
  | some first =>
    if isTrailing then
      let n := 0x10000 + (first - 0xD800) * 0x400 + (unit - 0xDC00)
      .string asKey (text.map (Char.ofNat n :: ·))
    else .string asKey none
  | none =>
    if isLeading then .pairEscape asKey text unit
    else if isTrailing then .string asKey none
    else .string asKey (text.map (Char.ofNat unit :: ·))

/-- Takes in a character inside a string. -/
def inString (asKey : Bool) (text : Option (List Char)) (c : Char) (stack : List Frame) :
    Option State :=
  if c = '"' then supplyText asKey text stack
  else if c = '\\' then some ⟨.escape asKey text, stack⟩
  else if c.toNat < 32 then none
  else some ⟨.string asKey (text.map (c :: ·)), stack⟩

/-- Takes in the character after a backslash. -/
def inEscape (asKey : Bool) (text : Option (List Char)) (c : Char) (stack : List Frame) :
    Option State :=
  if c = 'u' then some ⟨.code asKey text none [], stack⟩
  else (escaped? c).map fun d => ⟨.string asKey (text.map (d :: ·)), stack⟩

/-- **One step.**  Takes in one character; `none` when it cannot stand there. -/
def State.step (state : State) (c : Char) : Option State :=
  let stack := state.stack
  match state.mode with
  | .value mayClose =>
    if isSpace c then some state
    else if mayClose && c == ']' then close c stack
    else begin c stack
  | .key mayClose =>
    if isSpace c then some state
    else if mayClose && c == '\x7d' then close c stack
    else if c = '"' then some ⟨.string true (some []), stack⟩
    else none
  | .colon => if isSpace c then some state else if c = ':' then some ⟨.value false, stack⟩ else none
  | .separator => separate c stack
  | .string asKey text => inString asKey text c stack
  | .escape asKey text => inEscape asKey text c stack
  | .code asKey text leading digits => do
    let digit ← Text.hexValue? c
    match digits with
    | [a, b, d] =>
      some ⟨takeUnit asKey text leading (((a * 16 + b) * 16 + d) * 16 + digit), stack⟩
    | _ => some ⟨.code asKey text leading (digits ++ [digit]), stack⟩
  | .pairEscape asKey text leading =>
    if c = '\\' then some ⟨.pairCode asKey text leading, stack⟩
    else inString asKey none c stack
  | .pairCode asKey text leading =>
    if c = 'u' then some ⟨.code asKey text (some leading) [], stack⟩
    else inEscape asKey none c stack
  | .number phase text =>
    match phase.next? c with
    | some next => some ⟨.number next (c :: text), stack⟩
    | none =>
      if phase = .zero ∧ Text.isAsciiDigit c then none
      else do
        let v ← numberOf? phase text
        let after ← supply v stack
        match after.mode with
        | .separator => separate c after.stack
        | _ => if isSpace c then some after else none
  | .word left meaning =>
    match left with
    | [] => none
    | [d] => if c = d then supply meaning stack else none
    | d :: more => if c = d then some ⟨.word more meaning, stack⟩ else none
  | .finished _ => if isSpace c then some state else none

/-- The value that has been read when the text ends. -/
def State.result? (state : State) : Option Json :=
  match state.mode with
  | .finished v => some v
  | .number phase text => if state.stack.isEmpty then numberOf? phase text else none
  | _ => none

/-- The state after a text. -/
def State.run (state : State) : List Char → Option State
  | [] => some state
  | c :: rest => (state.step c).bind fun next => next.run rest

/-- The first value of a text, whatever comes after it. -/
def State.firstValue? (state : State) : List Char → Option Json
  | [] => state.result?
  | c :: rest =>
    match state.mode with
    | .finished v => some v
    | .number phase _ =>
      match state.step c with
      | some next => next.firstValue? rest
      | none =>
        if state.stack.isEmpty && !(phase = .zero && Text.isAsciiDigit c) then state.result? else none
    | _ => (state.step c).bind fun next => next.firstValue? rest

end Reader

namespace Json

/-- The value of a text with members in the order of the text, repeated ones included. -/
def readRaw? (text : String) : Option Json :=
  (Reader.State.start.run text.toList).bind (·.result?)

/-- The value of a text. -/
def parse? (text : String) : Option Json :=
  (readRaw? text).bind normalize?

end Json

end HeadlessCms

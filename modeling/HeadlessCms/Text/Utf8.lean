/-!
# UTF-8

Octets are read one at a time.  Between two characters nothing is pending; inside a character the
bits so far are, together with the number of octets that are still due and the range of the next
one.  Where the octets are no UTF-8 the longest beginning of a character counts as one fault, so
that `decodeLossy` puts one replacement character in its place; `decode?` refuses any fault.
-/

namespace HeadlessCms.Text.Utf8

/-- A character of which at least one octet is still to come. -/
structure Pending where
  bits : Nat
  /-- How many octets are still to come. -/
  due : Nat
  /-- The least octet that may come next. -/
  least : Nat
  /-- The greatest octet that may come next. -/
  greatest : Nat

/-- What the first octet of a character announces, if there are more to come. -/
def lead? (b : Nat) : Option Pending :=
  if b < 0xC2 then none
  else if b ≤ 0xDF then some ⟨b - 0xC0, 1, 0x80, 0xBF⟩
  else if b = 0xE0 then some ⟨b - 0xE0, 2, 0xA0, 0xBF⟩
  else if b = 0xED then some ⟨b - 0xE0, 2, 0x80, 0x9F⟩
  else if b ≤ 0xEF then some ⟨b - 0xE0, 2, 0x80, 0xBF⟩
  else if b = 0xF0 then some ⟨b - 0xF0, 3, 0x90, 0xBF⟩
  else if b ≤ 0xF3 then some ⟨b - 0xF0, 3, 0x80, 0xBF⟩
  else if b = 0xF4 then some ⟨b - 0xF0, 3, 0x80, 0x8F⟩
  else none

/-- What an octet does between two characters: the characters and faults (`none`) it completes, and
the character that is pending then. -/
def start (b : Nat) : List (Option Char) × Option Pending :=
  if b < 0x80 then ([some (Char.ofNat b)], none)
  else
    match lead? b with
    | some p => ([], some p)
    | none => ([none], none)

/-- **One step.**  An octet that cannot go on a character starts another one. -/
def step : Option Pending → Nat → List (Option Char) × Option Pending
  | none, b => start b
  | some p, b =>
    if p.least ≤ b ∧ b ≤ p.greatest then
      let bits := p.bits * 64 + (b - 0x80)
      if p.due = 1 then ([some (Char.ofNat bits)], none)
      else ([], some ⟨bits, p.due - 1, 0x80, 0xBF⟩)
    else (none :: (start b).1, (start b).2)

/-- The characters and faults of octets, with a character that is pending. -/
def decodeFrom (p : Option Pending) : List Nat → List (Option Char)
  | [] => if p.isSome then [none] else []
  | b :: rest => (step p b).1 ++ decodeFrom (step p b).2 rest

/-- The characters and faults of octets. -/
def decode (octets : List UInt8) : List (Option Char) :=
  decodeFrom none (octets.map UInt8.toNat)

/-- The text of octets that are UTF-8. -/
def decode? (octets : List UInt8) : Option (List Char) :=
  (decode octets).mapM id

/-- Stands for what cannot be read. -/
def replacement : Char := Char.ofNat 0xFFFD

/-- The text of octets, with a replacement character for each fault. -/
def decodeLossy (octets : List UInt8) : List Char :=
  (decode octets).map (·.getD replacement)

/-- The octets of a text. -/
def encode (s : List Char) : List UInt8 :=
  s.flatMap String.utf8EncodeChar

end HeadlessCms.Text.Utf8

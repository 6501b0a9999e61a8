/-!
# White space

The characters with the Unicode property `White_Space`, and the two uses of them: trimming a text
and listing its words.
-/

namespace HeadlessCms.Text

/-- The characters of the property `White_Space`. -/
def isBlank (c : Char) : Bool :=
  let n := c.toNat
  (9 ≤ n && n ≤ 13) || n == 0x20 || n == 0x85 || n == 0xA0 || n == 0x1680 ||
    (0x2000 ≤ n && n ≤ 0x200A) || n == 0x2028 || n == 0x2029 || n == 0x202F || n == 0x205F ||
    n == 0x3000

/-- A text without the white space in front. -/
def trimStart (s : List Char) : List Char :=
  s.dropWhile isBlank

/-- A text without the white space at the end. -/
def trimEnd (s : List Char) : List Char :=
  (s.reverse.dropWhile isBlank).reverse

/-- A text without the white space on both sides. -/
def trim (s : List Char) : List Char :=
  trimEnd (trimStart s)

/-- The maximal runs of characters that are not white space, in order. -/
def words : List Char → List (List Char)
  | [] => []
  | c :: rest =>
    if isBlank c then words rest
    else
      match rest with
      | [] => [[c]]
      | d :: _ =>
        if isBlank d then [c] :: words rest
        else
          match words rest with
          | [] => [[c]]
          | word :: more => (c :: word) :: more

end HeadlessCms.Text

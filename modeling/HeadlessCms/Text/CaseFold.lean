import HeadlessCms.Text.LowerCase

/-!
# Simple case folding

Two characters are the same up to case when their simple case foldings agree.  Folding is the
lower-case mapping except for the characters listed in `foldShifts`.  It follows Unicode 16, so the
pairs that Unicode 17 added have a lower-case form and still fold to themselves.
-/

namespace HeadlessCms.Text

/-- The characters whose folding differs from their lower-case form. -/
def foldShifts : List CaseShift := [
  ⟨0xB5, 0xB5, 1, 775⟩, ⟨0x17F, 0x17F, 1, -268⟩, ⟨0x345, 0x345, 1, 116⟩, ⟨0x3C2, 0x3C2, 1, 1⟩,
  ⟨0x3D0, 0x3D0, 1, -30⟩, ⟨0x3D1, 0x3D1, 1, -25⟩, ⟨0x3D5, 0x3D5, 1, -15⟩, ⟨0x3D6, 0x3D6, 1, -22⟩,
  ⟨0x3F0, 0x3F0, 1, -54⟩, ⟨0x3F1, 0x3F1, 1, -48⟩, ⟨0x3F5, 0x3F5, 1, -64⟩, ⟨0x13A0, 0x13F5, 1, 0⟩,
  ⟨0x13F8, 0x13FD, 1, -8⟩, ⟨0x1C80, 0x1C80, 1, -6222⟩, ⟨0x1C81, 0x1C81, 1, -6221⟩,
  ⟨0x1C82, 0x1C82, 1, -6212⟩, ⟨0x1C83, 0x1C84, 1, -6210⟩, ⟨0x1C85, 0x1C85, 1, -6211⟩,
  ⟨0x1C86, 0x1C86, 1, -6204⟩, ⟨0x1C87, 0x1C87, 1, -6180⟩, ⟨0x1C88, 0x1C88, 1, 35267⟩,
  ⟨0x1E9B, 0x1E9B, 1, -58⟩, ⟨0x1FBE, 0x1FBE, 1, -7173⟩, ⟨0x1FD3, 0x1FD3, 1, -7235⟩,
  ⟨0x1FE3, 0x1FE3, 1, -7219⟩, ⟨0xA7CE, 0xA7CE, 1, 0⟩, ⟨0xA7D2, 0xA7D4, 2, 0⟩,
  ⟨0xAB70, 0xABBF, 1, -38864⟩, ⟨0xFB05, 0xFB05, 1, 1⟩, ⟨0x16EA0, 0x16EB8, 1, 0⟩
]

/-- The simple case folding of a character.  The dotted capital `İ` folds to itself. -/
def foldChar (c : Char) : Char :=
  if c.toNat < 128 then c.toLower
  else (shiftBy? foldShifts c).getD (lowerChar c)

/-- A text with every character folded. -/
def foldCase (s : List Char) : List Char :=
  s.map foldChar

end HeadlessCms.Text

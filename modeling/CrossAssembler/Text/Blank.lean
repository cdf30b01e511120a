/-!
# Blank characters

The characters that count as white space around a number or a word: the separators and the
controls that move the writing position, in every script.
-/

namespace CrossAssembler.Text

/-- Ranges of blank characters outside the seven-bit set. -/
def wideBlanks : List (Nat × Nat) :=
  [(0x85, 0x85), (0xA0, 0xA0), (0x1680, 0x1680), (0x2000, 0x200A), (0x2028, 0x2029),
   (0x202F, 0x202F), (0x205F, 0x205F), (0x3000, 0x3000)]

/-- A blank outside the seven-bit set. -/
def isWideBlank (c : Char) : Bool :=
  wideBlanks.any fun range => range.1 ≤ c.toNat && c.toNat ≤ range.2

/-- A seven-bit blank of the typewriter: tab, line feed, vertical tab, form feed, carriage return
or space. -/
def isPlainBlank (c : Char) : Bool :=
  c.toNat == 0x20 || (0x09 ≤ c.toNat && c.toNat ≤ 0x0D)

/-- Any blank character; the four information separators are among them. -/
def isBlank (c : Char) : Bool :=
  isPlainBlank c || (0x1C ≤ c.toNat && c.toNat ≤ 0x1F) || isWideBlank c

/-- The text without the blanks at its two ends. -/
def trim (cs : List Char) : List Char :=
  ((cs.dropWhile isBlank).reverse.dropWhile isBlank).reverse

end CrossAssembler.Text

import Transclusion.Text.Basic

namespace Transclusion

/-- Unicode white space: the five ASCII controls from tab to carriage return, the space, next line,
and the separators of general category Z. -/
def isBlank (c : Char) : Bool :=
  let n := c.toNat
  (9 ≤ n && n ≤ 13) || n = 0x20 || n = 0x85 || n = 0xa0 || n = 0x1680 || (0x2000 ≤ n && n ≤ 0x200a) ||
    n = 0x2028 || n = 0x2029 || n = 0x202f || n = 0x205f || n = 0x3000

namespace Text

def trimStart (t : Text) : Text := t.dropWhile isBlank

def trimEnd (t : Text) : Text := dropEndWhile isBlank t

def trim (t : Text) : Text := trimEnd (trimStart t)

/-- The text without the carriage returns at its end. -/
def trimReturns (t : Text) : Text := dropEndWhile (· = '\r') t

end Text

end Transclusion

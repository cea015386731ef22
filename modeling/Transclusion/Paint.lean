namespace Transclusion

/-- The styles of terminal output, by the numbers that select them. -/
inductive Paint
  | red
  | boldRed
  | green
  | yellow
  | boldYellow
  | bold
deriving DecidableEq, Repr

namespace Paint

def code : Paint → String
  | red => "31"
  | boldRed => "1;31"
  | green => "32"
  | yellow => "33"
  | boldYellow => "1;33"
  | bold => "1"

/-- Text in a style, or plain where there are no colors. -/
def apply (paint : Paint) (color : Bool) (s : String) : String :=
  if color then "\x1b[" ++ paint.code ++ "m" ++ s ++ "\x1b[0m" else s

end Paint

end Transclusion

import Transclusion.Text.Basic

namespace Transclusion

namespace Similarity

/-- Takes the first free `c` among the places from `low` to below `high`. Places that are taken are
marked. -/
def take? (c : Char) : Nat → Nat → List (Char × Bool) → Option (List (Char × Bool))
  | _, 0, _ => none
  | _, _, [] => none
  | 0, high + 1, (d, taken) :: rest =>
    if d = c && !taken then some ((d, true) :: rest) else (take? c 0 high rest).map ((d, taken) :: ·)
  | low + 1, high + 1, place :: rest => (take? c low high rest).map (place :: ·)

/-- Gives each character, the first of which is number `i`, a place of the other text that holds the same
character at most `reach` places away. The result holds the characters that got one, and the places. -/
def pairUp (reach : Nat) : Nat → Text → List (Char × Bool) → Text × List (Char × Bool)
  | _, [], places => ([], places)
  | i, c :: rest, places =>
    match take? c (i - reach) (i + reach + 1) places with
    | some places =>
      let (paired, places) := pairUp reach (i + 1) rest places
      (c :: paired, places)
    | none => pairUp reach (i + 1) rest places

/-- The mean of three parts: of either text what is paired, and of the pairs what is in order. -/
def ofPairs (a b : Text) : Float :=
  let reach := max a.length b.length / 2 - 1
  let (paired, places) := pairUp reach 0 a (b.map (·, false))
  let partners := (places.filter (·.2)).map (·.1)
  let swaps := (paired.zip partners).countP (fun (c, d) => c ≠ d) / 2
  let n := paired.length
  if a.isEmpty && b.isEmpty then 1
  else if n = 0 then 0
  else (n.toFloat / a.length.toFloat + n.toFloat / b.length.toFloat + (n - swaps).toFloat / n.toFloat) / 3

/-- How alike two names are, from 0 to 1, when people mistype them: beside the characters that pair up, a
common start counts. Texts that are alike already gain a tenth of what they lack for each of up to four
characters of it. -/
def score (a b : Text) : Float :=
  let plain := ofPairs a b
  let common := (((a.take 4).zip b).takeWhile fun (c, d) => c = d).length
  if plain > 0.7 then plain + 0.1 * common.toFloat * (1 - plain) else plain

end Similarity

end Transclusion

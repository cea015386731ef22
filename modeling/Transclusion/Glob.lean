import Transclusion.Text.Basic

namespace Transclusion

/-- What is wrong with a pattern. -/
inductive GlobFault
  | wildcards
  | recursiveWildcards
  | range
deriving DecidableEq, Repr

/-- A fault and the place of the character, counted from zero, where it shows. -/
structure GlobError where
  position : Nat
  fault : GlobFault
deriving DecidableEq, Repr

/-- A part of a pattern: any text, folders up to a slash, any one character, one of some ranges (or
none of them), or a character that stands for itself. -/
inductive GlobToken
  | anyText
  | anyFolders
  | anyChar
  | class (ranges : List (Char × Char)) (negated : Bool)
  | char (c : Char)
deriving DecidableEq, Repr

/-- A shell pattern over a whole path. -/
structure Glob where
  tokens : List GlobToken
deriving DecidableEq, Repr

namespace GlobError

def message (e : GlobError) : String :=
  let what := match e.fault with
    | .wildcards => "wildcards are either regular \x60*\x60 or recursive \x60**\x60"
    | .recursiveWildcards => "recursive wildcards must form a single path component"
    | .range => "invalid range pattern"
  "Pattern syntax error near position " ++ toString e.position ++ ": " ++ what

end GlobError

namespace Glob

/-- `a-c` is a range and any other character stands for itself. -/
def ranges : Text → List (Char × Char)
  | low :: '-' :: high :: rest => (low, high) :: ranges rest
  | c :: rest => (c, c) :: ranges rest
  | [] => []

/-- The members of a class whose bracket is open, and what follows it. A bracket right at the start
is a member. -/
def members? : Text → Option (Text × Text)
  | [] => none
  | first :: more =>
    match more.dropWhile (· ≠ ']') with
    | _ :: rest => some (first :: more.takeWhile (· ≠ ']'), rest)
    | [] => none

/-- A class whose bracket is open, and what follows it. -/
def class? : Text → Option (GlobToken × Text)
  | '!' :: t => (members? t).map fun (inside, rest) => (.class (ranges inside) true, rest)
  | t => (members? t).map fun (inside, rest) => (.class (ranges inside) false, rest)

theorem members?_length {t inside rest : Text} (found : members? t = some (inside, rest)) :
    rest.length < t.length := by
  cases t with
  | nil => simp [members?] at found
  | cons first more =>
    simp only [members?] at found
    split at found
    · rename_i rest' whole
      cases found
      have shorter := (List.dropWhile_suffix (l := more) (· ≠ ']')).length_le
      rw [whole] at shorter
      simp only [List.length_cons] at shorter ⊢
      omega
    · cases found

theorem class?_length {t rest : Text} {token : GlobToken} (found : class? t = some (token, rest)) :
    rest.length < t.length := by
  unfold class? at found
  split at found
  · rename_i inner
    obtain ⟨⟨inside, behind⟩, isMembers, same⟩ := Option.map_eq_some_iff.mp found
    cases same
    exact Nat.lt_succ_of_lt (members?_length isMembers)
  · obtain ⟨⟨inside, behind⟩, isMembers, same⟩ := Option.map_eq_some_iff.mp found
    cases same
    exact members?_length isMembers

/-- Reads the pattern from character `position` on, where `before` is the character in front of it.
Two stars have to fill the whole stretch between slashes, and take the slash behind them along. -/
def parseFrom (position : Nat) (before : Option Char) (t : Text) : Except GlobError (List GlobToken) :=
  match t with
  | [] => .ok []
  | '?' :: rest => (parseFrom (position + 1) (some '?') rest).map (.anyChar :: ·)
  | '*' :: '*' :: '*' :: _ => .error ⟨position + 2, .wildcards⟩
  | '*' :: '*' :: rest =>
    if before = none || before = some '/' then
      match rest with
      | [] => .ok [.anyFolders]
      | '/' :: rest => (parseFrom (position + 3) (some '/') rest).map (.anyFolders :: ·)
      | _ => .error ⟨position + 2, .recursiveWildcards⟩
    else .error ⟨position - 1, .recursiveWildcards⟩
  | '*' :: rest => (parseFrom (position + 1) (some '*') rest).map (.anyText :: ·)
  | '[' :: rest =>
    match found : class? rest with
    | some (token, behind) =>
      have := class?_length found
      (parseFrom (position + 1 + (rest.length - behind.length)) (some ']') behind).map (token :: ·)
    | none => .error ⟨position, .range⟩
  | c :: rest => (parseFrom (position + 1) (some c) rest).map (.char c :: ·)
termination_by t.length
decreasing_by all_goals simp_all <;> omega

def parse (t : Text) : Except GlobError Glob := (parseFrom 0 none t).map (⟨·⟩)

/-- What can be left over once `anyFolders` has taken its part: all, anything right behind a slash,
or nothing. -/
def behindFolders : Text → List Text
  | [] => [[]]
  | c :: t => if c = '/' then t :: behindFolders t else behindFolders t

def suffixes : Text → List Text
  | [] => [[]]
  | c :: t => (c :: t) :: suffixes t

def accepts : List GlobToken → Text → Bool
  | [], t => t.isEmpty
  | .anyText :: more, t => (suffixes t).any (accepts more)
  | .anyFolders :: more, t => accepts more t || (behindFolders t).any (accepts more)
  | .anyChar :: more, t =>
    match t with
    | _ :: rest => accepts more rest
    | [] => false
  | .class ranges negated :: more, t =>
    match t with
    | c :: rest => (ranges.any fun range => range.1 ≤ c && c ≤ range.2) ≠ negated && accepts more rest
    | [] => false
  | .char expected :: more, t =>
    match t with
    | c :: rest => c = expected && accepts more rest
    | [] => false

/-- Whether the pattern fits the whole text. -/
def fits (g : Glob) (t : Text) : Bool := accepts g.tokens t

end Glob

end Transclusion

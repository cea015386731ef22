import Transclusion.Spelling

namespace Transclusion

/-- How often a document was imported. The target is printed as it was first recorded. -/
structure ImportCount where
  target : Spelling
  count : Nat
deriving DecidableEq, Repr

/-- What one run over several documents remembers: the import counts in path order, and the
documents that were inlined in full. -/
structure Session where
  counts : List ImportCount
  inlined : List Path
deriving DecidableEq, Repr

namespace Session

def empty : Session := ⟨[], []⟩

instance : Inhabited Session := ⟨empty⟩

/-- Adds one to the count of the target, which starts from 0. -/
def increment (target : Spelling) : List ImportCount → List ImportCount
  | [] => [⟨target, 1⟩]
  | entry :: rest =>
    match compare target.path entry.target.path with
    | .lt => ⟨target, 1⟩ :: entry :: rest
    | .eq => ⟨entry.target, entry.count + 1⟩ :: rest
    | .gt => entry :: increment target rest

def recordImport (s : Session) (target : Spelling) : Session :=
  { s with counts := increment target s.counts }

def importCount (s : Session) (p : Path) : Nat :=
  match s.counts.find? (·.target.path = p) with
  | some entry => entry.count
  | none => 0

def markInlined (s : Session) (p : Path) : Session :=
  if s.inlined.contains p then s else { s with inlined := p :: s.inlined }

def hasInlined (s : Session) (p : Path) : Bool := s.inlined.contains p

@[simp]
theorem hasInlined_recordImport (s : Session) (target : Spelling) (q : Path) :
    (s.recordImport target).hasInlined q = s.hasInlined q := rfl

theorem hasInlined_markInlined (s : Session) (p q : Path) :
    (s.markInlined p).hasInlined q ↔ q = p ∨ s.hasInlined q := by
  unfold markInlined hasInlined
  split
  · rename_i old
    constructor
    · exact Or.inr
    · rintro (rfl | before)
      · exact old
      · exact before
  · simp

theorem not_hasInlined_empty (p : Path) : ¬ empty.hasInlined p := by simp [hasInlined, empty]

def duplicates (counts : List ImportCount) : List Spelling := (counts.filter (1 < ·.count)).map (·.target)

def totalImports (counts : List ImportCount) : Nat := (counts.map (·.count)).foldr (· + ·) 0

end Session

end Transclusion

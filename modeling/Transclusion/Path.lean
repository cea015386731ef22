import Transclusion.Text.Basic

namespace Transclusion

/-- One step of a path. A leading `.` is kept, since `./a` and `a` are told apart; every other `.`
means nothing and is dropped when a path is read. -/
inductive Component
  | root
  | current
  | parent
  | name (text : Text)
deriving DecidableEq, Repr

namespace Component

/-- The kinds in ascending order. -/
def rank : Component → Nat
  | root => 0
  | current => 1
  | parent => 2
  | name _ => 3

def text : Component → Text
  | root => []
  | current => ['.']
  | parent => ['.', '.']
  | name t => t

/-- Names come last and in the order of their characters. -/
instance : Ord Component := ⟨compareLex (compareOn rank) (compareOn text)⟩

/-- What a piece between two slashes says, if it says anything. -/
def ofPiece? : Text → Option Component
  | [] => none
  | ['.'] => none
  | ['.', '.'] => some parent
  | t => some (name t)

/-- A step that may stand anywhere in a path and is the piece between two slashes that it is spelled by. -/
def isPlain (c : Component) : Bool := !c.text.contains '/' && ofPiece? c.text = some c

/-- Steps that some text spells: only the first may be the root or a lone dot. -/
def areSpelled : List Component → Bool
  | root :: rest => rest.all isPlain
  | current :: rest => rest.all isPlain
  | steps => steps.all isPlain

theorem text_ofPiece {piece : Text} {c : Component} (read : ofPiece? piece = some c) : c.text = piece := by
  unfold ofPiece? at read
  split at read
  · cases read
  · cases read
  · cases Option.some.inj read; rfl
  · cases Option.some.inj read; rfl

theorem isPlain_ofPiece {piece : Text} {c : Component} (clean : '/' ∉ piece)
    (read : ofPiece? piece = some c) :
    c.isPlain := by
  simp [isPlain, text_ofPiece read, read, clean]

theorem areSpelled_of_all {steps : List Component} (plain : steps.all isPlain) : areSpelled steps := by
  cases steps with
  | nil => rfl
  | cons c rest =>
    cases c with
    | root => exact absurd plain (by simp [isPlain, text, ofPiece?])
    | current => exact absurd plain (by simp [isPlain, text, ofPiece?])
    | parent => exact plain
    | name t => exact plain

theorem areSpelled_append {steps more : List Component} (spelled : areSpelled steps) (nonempty : steps ≠ [])
    (plain : more.all isPlain) : areSpelled (steps ++ more) := by
  cases steps with
  | nil => exact absurd rfl nonempty
  | cons c rest => cases c <;> simp_all [areSpelled]

theorem all_isPlain_tail {c : Component} {rest : List Component} (spelled : areSpelled (c :: rest)) :
    rest.all isPlain := by
  cases c <;> simp_all [areSpelled]

theorem areSpelled_drop {steps : List Component} (spelled : areSpelled steps) (n : Nat) :
    areSpelled (steps.drop n) := by
  cases steps with
  | nil => simp [areSpelled]
  | cons c rest =>
    cases n with
    | zero => exact spelled
    | succ n =>
      have plain := all_isPlain_tail spelled
      exact areSpelled_of_all (List.all_eq_true.mpr fun d member =>
        List.all_eq_true.mp plain d (List.mem_of_mem_drop member))

theorem areSpelled_dropLast {steps : List Component} (spelled : areSpelled steps) :
    areSpelled steps.dropLast := by
  cases steps with
  | nil => rfl
  | cons c rest =>
    cases rest with
    | nil => rfl
    | cons d rest =>
      have kept : ∀ e ∈ (d :: rest).dropLast, e.isPlain := fun e member =>
        List.all_eq_true.mp (all_isPlain_tail spelled) e (List.dropLast_subset _ member)
      have ends : (c :: d :: rest).dropLast = c :: (d :: rest).dropLast := rfl
      rw [ends]
      cases c <;> simp_all [areSpelled]

end Component

/-- A path by its steps, as a text spells them. Repeated and trailing slashes are not part of it, so two
spellings that differ only there are the same path. -/
@[ext]
structure Path where
  components : List Component
  spelled : Component.areSpelled components
deriving DecidableEq, Repr

namespace Path

/-- Paths are ordered by their first different step, a path before those below it. -/
instance : Ord Path := ⟨compareOn components⟩

def root : Path := ⟨[.root], rfl⟩

/-- The path without steps, which is no place of its own. -/
def empty : Path := ⟨[], rfl⟩

instance : Inhabited Path := ⟨empty⟩

def isEmpty (p : Path) : Bool := p.components.isEmpty

/-- What the text says before its first name: it starts at the root, or in the current directory. -/
def lead (t : Text) : List Component :=
  if t.head? = some '/' then [.root] else if (t.splitOn '/').head? = some ['.'] then [.current] else []

theorem all_isPlain_pieces (t : Text) :
    ((t.splitOn '/').filterMap Component.ofPiece?).all Component.isPlain := by
  rw [List.all_eq_true]
  intro c member
  obtain ⟨piece, inside, read⟩ := List.mem_filterMap.mp member
  exact Component.isPlain_ofPiece (Text.sep_not_mem_splitOn inside) read

theorem lead_cases (t : Text) : lead t = [.root] ∨ lead t = [.current] ∨ lead t = [] := by
  unfold lead
  split
  · exact Or.inl rfl
  · split
    · exact Or.inr (Or.inl rfl)
    · exact Or.inr (Or.inr rfl)

def parse (t : Text) : Path where
  components := lead t ++ (t.splitOn '/').filterMap Component.ofPiece?
  spelled := by
    have plain := all_isPlain_pieces t
    rcases lead_cases t with same | same | same
    · exact same ▸ plain
    · exact same ▸ plain
    · exact same ▸ Component.areSpelled_of_all plain

/-- The shortest spelling of the path. -/
def text (p : Path) : Text :=
  match p.components with
  | .root :: rest => '/' :: ['/'].intercalate (rest.map Component.text)
  | steps => ['/'].intercalate (steps.map Component.text)

def isAbsolute (p : Path) : Bool := p.components.head? = some .root

/-- Takes one more step from the place that the steps in `done`, last one first, lead to. A `..`
takes back a name, stays at the root, and is kept where there is nothing to take back. -/
def step (done : List Component) : Component → List Component
  | .current => done
  | .parent =>
    match done with
    | .name _ :: before => before
    | .root :: _ => done
    | _ => .parent :: done
  | c => c :: done

/-- Plain steps taken on top of plain ones leave plain ones; whatever lies below the root stays there. -/
theorem foldl_step_root {steps : List Component} (plain : steps.all Component.isPlain)
    (done : List Component) (before : done.all Component.isPlain) :
    ∃ reached : List Component, reached.all Component.isPlain ∧
      steps.foldl step (done ++ [.root]) = reached ++ [.root] := by
  induction steps generalizing done with
  | nil => exact ⟨done, before, rfl⟩
  | cons c rest ih =>
    rw [List.all_cons, Bool.and_eq_true] at plain
    rw [List.foldl_cons]
    cases c with
    | root => exact absurd plain.1 (by decide)
    | current => exact absurd plain.1 (by decide)
    | name t => exact ih plain.2 (.name t :: done) (by simp [before, plain.1])
    | parent =>
      match done with
      | [] => exact ih plain.2 [] rfl
      | .name _ :: above => exact ih plain.2 above (by simp_all)
      | .parent :: above => exact ih plain.2 (.parent :: .parent :: above) (by simp_all)
      | .root :: above =>
        exact absurd before (by simp [Component.isPlain, Component.text, Component.ofPiece?])
      | .current :: above =>
        exact absurd before (by simp [Component.isPlain, Component.text, Component.ofPiece?])

theorem all_isPlain_foldl_step (steps : List Component) {done : List Component}
    (plain : steps.all Component.isPlain) (before : done.all Component.isPlain) :
    (steps.foldl step done).all Component.isPlain := by
  induction steps generalizing done with
  | nil => exact before
  | cons c rest ih =>
    rw [List.all_cons, Bool.and_eq_true] at plain
    refine ih plain.2 ?_
    unfold step
    split
    · exact before
    · split <;> simp_all
    · simp [before, plain.1]

/-- The path with `.` and `..` worked out from its text alone. -/
def normalize (p : Path) : Path where
  components := (p.components.foldl step []).reverse
  spelled := by
    obtain ⟨steps, spelled⟩ := p
    match steps with
    | .root :: rest =>
      obtain ⟨reached, plain, same⟩ := foldl_step_root spelled [] rfl
      rw [show (Component.root :: rest).foldl step [] = reached ++ [.root] from same, List.reverse_append]
      exact (List.all_reverse ..).trans plain
    | .current :: rest =>
      have plain := all_isPlain_foldl_step rest spelled (List.all_nil ..)
      exact Component.areSpelled_of_all ((List.all_reverse ..).trans plain)
    | [] => rfl
    | .parent :: rest =>
      have plain := all_isPlain_foldl_step (.parent :: rest) spelled (List.all_nil ..)
      exact Component.areSpelled_of_all ((List.all_reverse ..).trans plain)
    | .name t :: rest =>
      have plain := all_isPlain_foldl_step (.name t :: rest) spelled (List.all_nil ..)
      exact Component.areSpelled_of_all ((List.all_reverse ..).trans plain)

/-- Behind the start of a path that is not absolute, only plain steps are left when the dots are dropped. -/
theorem all_isPlain_filter {q : Path} (relative : ¬ q.isAbsolute) :
    (q.components.filter (· ≠ .current)).all Component.isPlain := by
  obtain ⟨steps, spelled⟩ := q
  rw [List.all_eq_true]
  intro c member
  obtain ⟨inside, visible⟩ := List.mem_filter.mp member
  match steps with
  | [] => cases inside
  | first :: rest =>
    rcases List.mem_cons.mp inside with rfl | later
    · cases c with
      | root => exact absurd rfl relative
      | current => simp at visible
      | parent => rfl
      | name t =>
        exact List.all_eq_true.mp
          (show (Component.name t :: rest).all Component.isPlain from spelled) _ inside
    · exact List.all_eq_true.mp (Component.all_isPlain_tail spelled) c later

/-- `q` as seen from the directory `p`. -/
def join (p q : Path) : Path :=
  if alone : q.isAbsolute || p.isEmpty then q
  else
    { components := p.components ++ q.components.filter (· ≠ .current)
      spelled := by
        rw [Bool.or_eq_true, not_or] at alone
        exact Component.areSpelled_append p.spelled (by simpa [isEmpty] using alone.2)
          (all_isPlain_filter alone.1) }

theorem isAbsolute_iff {p : Path} : p.isAbsolute ↔ ∃ rest, p.components = .root :: rest := by
  simp [isAbsolute, List.head?_eq_some_iff]

theorem isAbsolute_join {p q : Path} (absolute : p.isAbsolute) : (p.join q).isAbsolute := by
  unfold join
  split
  · rename_i alone
    rw [Bool.or_eq_true] at alone
    rcases alone with there | nowhere
    · exact there
    · obtain ⟨rest, steps⟩ := isAbsolute_iff.mp absolute
      simp [isEmpty, steps] at nowhere
  · obtain ⟨rest, steps⟩ := isAbsolute_iff.mp absolute
    exact isAbsolute_iff.mpr ⟨rest ++ q.components.filter (· ≠ .current),
      by simp only [steps, List.cons_append]⟩

theorem isAbsolute_normalize {p : Path} (absolute : p.isAbsolute) : p.normalize.isAbsolute := by
  obtain ⟨rest, steps⟩ := isAbsolute_iff.mp absolute
  have plain : rest.all Component.isPlain := Component.all_isPlain_tail (steps ▸ p.spelled)
  obtain ⟨reached, _, same⟩ := foldl_step_root plain [] rfl
  refine isAbsolute_iff.mpr ⟨reached.reverse, ?_⟩
  simp only [normalize, steps, List.foldl_cons, step]
  simp only [List.nil_append] at same
  rw [same, List.reverse_append, List.reverse_singleton, List.singleton_append]

/-- The place named `name` in the directory `p`. -/
def child (p : Path) (name : Text) : Path := p.join (.parse name)

/-- The path without its last step; the root and the empty path have none to take away. -/
def parent? (p : Path) : Option Path :=
  match p.components.getLast? with
  | none => none
  | some .root => none
  | some _ => some ⟨p.components.dropLast, Component.areSpelled_dropLast p.spelled⟩

def directory (p : Path) : Path := p.parent?.getD empty

def fileName? (p : Path) : Option Text :=
  match p.components.getLast? with
  | some (.name t) => some t
  | _ => none

/-- A name cut at its last dot, unless that dot begins the name. -/
def cutExtension (name : Text) : Text × Option Text :=
  let ending := (name.reverse.takeWhile (· ≠ '.')).reverse
  let before := name.take (name.length - ending.length - 1)
  if ending.length = name.length || before.isEmpty then (name, none) else (before, some ending)

def extension? (p : Path) : Option Text := p.fileName?.bind fun name => (cutExtension name).2

/-- The steps of `q` behind those of `p`, when `q` starts with all of them. -/
def stripStart? (p q : Path) : Option Path :=
  if p.components.isPrefixOf q.components then
    some ⟨q.components.drop p.components.length, Component.areSpelled_drop q.spelled _⟩
  else none

def startsWith (q p : Path) : Bool := p.components.isPrefixOf q.components

theorem isAbsolute_of_startsWith {p q : Path} (absolute : p.isAbsolute) (below : q.startsWith p) :
    q.isAbsolute := by
  obtain ⟨rest, steps⟩ := isAbsolute_iff.mp absolute
  obtain ⟨more, same⟩ := List.isPrefixOf_iff_prefix.mp below
  exact isAbsolute_iff.mpr ⟨rest ++ more, by rw [← same, steps, List.cons_append]⟩

/-- The normal form of `p` as seen from the directory `cwd`. The empty path has no place that it
could be seen from. -/
def absolute? (cwd p : Path) : Option Path :=
  if p.isAbsolute then some p.normalize else if p.isEmpty then none else some (cwd.join p).normalize

/-- Extensions, in lower case, of the files that are documents. -/
def documentExtensions : List Text := [['m', 'd'], ['m', 'a', 'r', 'k', 'd', 'o', 'w', 'n']]

def isDocument (p : Path) : Bool :=
  match p.extension? with
  | some ext => documentExtensions.contains (ext.map Char.toLower)
  | none => false

end Path

end Transclusion

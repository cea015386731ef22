import Transclusion.FileView

namespace Transclusion

/-- Files held in memory, by normalized path in ascending order. A directory is whatever some file
lies below. -/
structure MemoryStore where
  files : List (Path × Text)
deriving DecidableEq, Repr, Inhabited

namespace MemoryStore

def empty : MemoryStore := ⟨[]⟩

def put (p : Path) (t : Text) : List (Path × Text) → List (Path × Text)
  | [] => [(p, t)]
  | (q, u) :: rest =>
    match compare p q with
    | .lt => (p, t) :: (q, u) :: rest
    | .eq => (q, t) :: rest
    | .gt => (q, u) :: put p t rest

def insert (m : MemoryStore) (p : Path) (t : Text) : MemoryStore := ⟨put p.normalize t m.files⟩

def get? (m : MemoryStore) (p : Path) : Option Text := m.files.lookup p.normalize

/-- Some file is at `p`, which is in normal form, or below it. -/
def reaches (m : MemoryStore) (p : Path) : Bool := m.files.any fun file => file.1.startsWith p

def kind (m : MemoryStore) (p : Path) : Option FileKind :=
  if (m.get? p).isSome then some .file else if m.reaches p.normalize then some .directory else none

/-- An error that says what is the matter with the path. -/
def fault (cause : AccessCause) (p : Path) (complaint : String) : AccessError :=
  ⟨cause, String.ofList p.normalize.text ++ complaint⟩

def read (m : MemoryStore) (p : Path) : Except AccessError Text :=
  match m.get? p with
  | some t => .ok t
  | none =>
    if m.reaches p.normalize then .error (fault .isADirectory p " is a directory")
    else .error (fault .notFound p " not found")

def list (m : MemoryStore) (p : Path) : Except AccessError (List Path) :=
  match m.kind p with
  | some .directory => .ok ((m.files.map (·.1)).filter fun q => q.startsWith p.normalize && q ≠ p.normalize)
  | some .file => .error (fault .notADirectory p " is not a directory")
  | none => .error (fault .notFound p " not found")

theorem isAbsolute_of_list {m : MemoryStore} {dir : Path} {found : List Path} (absolute : dir.isAbsolute)
    (listed : m.list dir = .ok found) : ∀ p ∈ found, p.isAbsolute := by
  intro p member
  unfold list at listed
  split at listed
  · cases listed
    have below := (List.mem_filter.mp member).2
    rw [Bool.and_eq_true] at below
    exact Path.isAbsolute_of_startsWith (Path.isAbsolute_normalize absolute) below.1
  · cases listed
  · cases listed

def view (m : MemoryStore) : FileView where
  cwd := .root
  kind := m.kind
  read := m.read
  list := m.list
  cwd_absolute := rfl
  list_absolute := isAbsolute_of_list

instance : FileStore MemoryStore where
  view := view
  write m target t := (.ok (), m.insert target.path t)

end MemoryStore

/-- Requests that go wrong, by normalized path, whatever the files below are like. -/
structure Faults where
  read : List (Path × AccessError)
  write : List (Path × AccessError)
  list : List (Path × AccessError)
  kind : List (Path × Option FileKind)

/-- Files in memory behind a fixed set of faults. -/
structure FaultyStore where
  faults : Faults
  store : MemoryStore

namespace FaultyStore

def view (s : FaultyStore) : FileView where
  cwd := .root
  kind p := (s.faults.kind.lookup p.normalize).getD (s.store.kind p)
  read p :=
    match s.faults.read.lookup p.normalize with
    | some fault => .error fault
    | none => s.store.read p
  list p :=
    match s.faults.list.lookup p.normalize with
    | some fault => .error fault
    | none => s.store.list p
  cwd_absolute := rfl
  list_absolute := by
    intro dir found absolute listed
    split at listed
    · cases listed
    · exact MemoryStore.isAbsolute_of_list absolute listed

instance : FileStore FaultyStore where
  view := view
  write s target t :=
    match s.faults.write.lookup target.path.normalize with
    | some fault => (.error fault, s)
    | none => (.ok (), { s with store := s.store.insert target.path t })

end FaultyStore

end Transclusion

import Mathlib.Data.List.Basic
import Mathlib.Logic.ExistsUnique
import Transclusion.Proofs.PathForm
import Transclusion.Resolution

namespace Transclusion

theorem Path.isAbsolute_parse (t : Text) : (parse t).isAbsolute ↔ t.head? = some '/' := by
  have below : ∀ c ∈ (t.splitOn '/').filterMap Component.ofPiece?, c ≠ .root := by
    rintro c member rfl
    exact absurd (List.all_eq_true.mp (all_isPlain_pieces t) _ member) (by decide)
  rw [isAbsolute, decide_eq_true_iff]
  change (lead t ++ (t.splitOn '/').filterMap Component.ofPiece?).head? = some .root ↔ _
  unfold lead
  split
  · rename_i slash
    simp [slash]
  · rename_i other
    refine iff_of_false (fun top => ?_) other
    split at top
    · cases top
    · exact below _ (List.mem_of_mem_head? top) rfl

namespace Resolution

/-- The places where a reference that leads to `c` is looked for, in order: `c` itself, `c` with
each ending written behind it unless there is something at `c`, and the index document of `c` with
each ending. -/
def candidates (files : FileView) (extensions : List Text) (c : Path) : List Path :=
  c :: ((if files.kind c = none then extensions.map fun ext => .parse (c.text ++ dotted ext) else []) ++
    extensions.map fun ext => c.join (.parse ("index".toList ++ dotted ext)))

/-- What is found at `c`: the first candidate that is a file; when none is, `c` as a directory if it
is one; and otherwise nothing, with the last candidate tried. -/
inductive Finds (files : FileView) (extensions : List Text) (c : Path) : Resolution → Prop
  | file {before p after} : candidates files extensions c = before ++ p :: after →
      (∀ q ∈ before, files.kind q ≠ some .file) → files.kind p = some .file →
        Finds files extensions c (.file p)
  | directory : (∀ q ∈ candidates files extensions c, files.kind q ≠ some .file) →
      files.kind c = some .directory →
      Finds files extensions c (.directory c)
  | missing {before p} : (∀ q ∈ candidates files extensions c, files.kind q ≠ some .file) →
      files.kind c ≠ some .directory →
      candidates files extensions c = before ++ [p] → Finds files extensions c (.missing p)

variable {files : FileView} {extensions : List Text} {c p : Path} {r r' : Resolution}

theorem candidates_eq (files : FileView) (extensions : List Text) (c : Path) :
    candidates files extensions c = c :: alternatives files c extensions := by
  rw [candidates, alternatives]
  cases files.kind c <;> rfl

theorem finds_locate (files : FileView) (c : Path) (extensions : List Text) :
    Finds files extensions c (locate files c extensions) := by
  have tried := candidates_eq files extensions c
  unfold locate
  by_cases here : files.kind c = some .file
  · rw [if_pos here]
    have first : candidates files extensions c = [] ++ c :: alternatives files c extensions := tried
    exact .file first (fun _ none => absurd none List.not_mem_nil) here
  rw [if_neg here]
  dsimp only
  cases found : (alternatives files c extensions).find? fun p => files.kind p = some .file with
  | some p =>
    obtain ⟨stored, before, after, others, none⟩ := List.find?_eq_some_iff_append.mp found
    have split : candidates files extensions c = (c :: before) ++ p :: after :=
      tried.trans (congrArg (c :: ·) others)
    refine .file split ?_ (of_decide_eq_true stored)
    exact List.forall_mem_cons.mpr ⟨here, fun q member => by simpa using none q member⟩
  | none =>
    have absent : ∀ q ∈ candidates files extensions c, files.kind q ≠ some .file := by
      rw [tried]
      refine List.forall_mem_cons.mpr ⟨here, fun q member => ?_⟩
      simpa using List.find?_eq_none.mp found q member
    dsimp only
    split
    · rename_i directory
      exact .directory absent directory
    · rename_i other
      have last : candidates files extensions c =
          (c :: alternatives files c extensions).dropLast ++
            [(alternatives files c extensions).getLastD c] := by
        rw [tried, ← List.getLast_eq_getLastD (h := List.cons_ne_nil _ _), List.dropLast_concat_getLast]
      exact .missing absent other last

/-- The first file of a list is found by looking through it. -/
theorem find?_of_split {tried before after : List Path} (split : tried = before ++ p :: after)
    (none : ∀ q ∈ before, files.kind q ≠ some .file) (stored : files.kind p = some .file) :
    (tried.find? fun q => files.kind q = some .file) = some p :=
  List.find?_eq_some_iff_append.mpr
    ⟨decide_eq_true stored, before, after, split, fun q member => by simpa using none q member⟩

theorem Finds.unique (finds : Finds files extensions c r) (finds' : Finds files extensions c r') :
    r = r' := by
  have clash {p : Path} {before after : List Path}
      (split : candidates files extensions c = before ++ p :: after)
      (stored : files.kind p = some .file)
        (absent : ∀ q ∈ candidates files extensions c, files.kind q ≠ some .file) : False :=
    absent p (split ▸ List.mem_append_right _ (List.mem_cons_self ..)) stored
  cases finds with
  | file split none stored =>
    cases finds' with
    | file split' none' stored' =>
      have same := (find?_of_split split none stored).symm.trans (find?_of_split split' none' stored')
      rw [Option.some.inj same]
    | directory absent => exact (clash split stored absent).elim
    | missing absent => exact (clash split stored absent).elim
  | directory absent directory =>
    cases finds' with
    | file split' _ stored' => exact (clash split' stored' absent).elim
    | directory => rfl
    | missing _ other => exact (other directory).elim
  | missing absent other last =>
    cases finds' with
    | file split' _ stored' => exact (clash split' stored' absent).elim
    | directory _ directory => exact (other directory).elim
    | missing _ _ last' =>
      obtain ⟨_, same⟩ := List.append_inj' (last.symm.trans last') rfl
      rw [(List.cons.inj same).1]

theorem locate_eq_iff : locate files c extensions = r ↔ Finds files extensions c r := by
  constructor
  · rintro rfl
    exact finds_locate ..
  · exact (finds_locate ..).unique

/-- What is tried last is the index document with the last ending, or without any ending the place
itself. -/
theorem getLast?_candidates (files : FileView) (extensions : List Text) (c : Path) :
    (candidates files extensions c).getLast? = some ((extensions.getLast?.map (indexIn c)).getD c) := by
  rw [candidates_eq, alternatives]
  rcases List.eq_nil_or_concat' extensions with rfl | ⟨front, ext, rfl⟩
  · simp
  · rw [List.map_append (f := indexIn c), List.map_singleton, ← List.append_assoc, ← List.cons_append,
      List.getLast?_concat, List.getLast?_concat]
    rfl

/-- The three outcomes by what is said of them. -/
theorem outcome_iff (r : Resolution) :
    ((∃ p, r = .file p) ↔ r.exists? ∧ ¬ r.isDirectory) ∧
      ((∃ p, r = .directory p) ↔ r.exists? ∧ r.isDirectory) ∧
      ((∃ p, r = .missing p) ↔ ¬ r.exists? ∧ ¬ r.isDirectory) ∧
      (r.complaint? = none ↔ ∃ p, r = .file p) := by
  cases r <;> simp [exists?, isDirectory, complaint?]

theorem not_exists?_iff : ¬ r.exists? ↔ ∃ p, r = .missing p := by
  cases r <;> simp [exists?]

end Resolution

open Resolution

/-- The directory that a reference starts from when `base` is given for it: a relative one is seen
from the current directory, and an empty one stays as it is. -/
def startOf (files : FileView) (base : Path) : Path :=
  if base.isAbsolute ∨ base.isEmpty then base.normalize else (files.cwd.join base).normalize

theorem absolute?_getD (files : FileView) (base : Path) :
    (Path.absolute? files.cwd base).getD base.normalize = startOf files base := by
  unfold Path.absolute? startOf
  by_cases absolute : base.isAbsolute
  · simp [absolute]
  · by_cases empty : base.isEmpty <;> simp [absolute, empty]

/-- Where a reference leads is settled at the place that it names in the file system, when it is
absolute and there is something there, and otherwise at the place that it names in the directory
that it starts from. -/
theorem resolve_eq_ite (files : FileView) (base : Path) (extensions : List Text) (target : Text) :
    resolve files base extensions target =
      if (Path.parse target).isAbsolute ∧
          (locate files (Path.parse target).normalize extensions).exists? then
        locate files (Path.parse target).normalize extensions
      else
        locate files ((startOf files base).join (.parse (target.dropWhile (· = '/')))).normalize
          extensions := by
  rw [← absolute?_getD]
  unfold resolve
  dsimp only
  by_cases slash : target.head? = some '/'
  · rw [if_pos slash]
    have absolute := (Path.isAbsolute_parse target).mpr slash
    cases locate files (Path.parse target).normalize extensions <;> simp [absolute, exists?]
  · have relative : ¬ (Path.parse target).isAbsolute := mt (Path.isAbsolute_parse target).mp slash
    rw [if_neg slash, if_neg fun both => relative both.1]

/-- A reference leads to the first hit among the candidates of its place, which are tried in one
order: every place has one outcome, an absolute reference takes that of the place it names unless
nothing is there, every other that of the place below its directory. What was tried last is told
where nothing is found, and what is said of an outcome tells which it is. -/
theorem resolve_takes_first_hit (files : FileView) (base : Path) (extensions : List Text)
    (target : Text) :
    let top := (Path.parse target).normalize
    let below := ((startOf files base).join (.parse (target.dropWhile (· = '/')))).normalize
    let found := resolve files base extensions target
    (∀ c, ∃! r, Finds files extensions c r) ∧
      (∀ r, found = r ↔
        (Path.parse target).isAbsolute ∧ Finds files extensions top r ∧ (∀ p, r ≠ .missing p) ∨
          ((Path.parse target).isAbsolute → ∃ p, Finds files extensions top (.missing p)) ∧
            Finds files extensions below r) ∧
      (∀ c p, Finds files extensions c (.missing p) → p = (extensions.getLast?.map (indexIn c)).getD c) ∧
      ((∃ p, found = .file p) ↔ found.exists? ∧ ¬ found.isDirectory) ∧
      ((∃ p, found = .directory p) ↔ found.exists? ∧ found.isDirectory) ∧
      ((∃ p, found = .missing p) ↔ ¬ found.exists? ∧ ¬ found.isDirectory) ∧
      (found.complaint? = none ↔ ∃ p, found = .file p) := by
  intro top below found
  refine ⟨fun c => ⟨_, finds_locate files c extensions,
    fun r finds => (finds_locate ..).unique finds |>.symm⟩, fun r => ?_,
    fun c p finds => ?_, outcome_iff found⟩
  · have settled : found = _ := resolve_eq_ite files base extensions target
    rw [settled]
    simp only [← locate_eq_iff]
    by_cases here : (Path.parse target).isAbsolute ∧ (locate files top extensions).exists?
    · rw [if_pos here]
      have some : ∀ p, locate files top extensions ≠ .missing p := fun p same => by
        rw [same] at here
        exact absurd here.2 (by simp [exists?])
      constructor
      · rintro rfl
        exact Or.inl ⟨here.1, rfl, some⟩
      · rintro (⟨_, same, _⟩ | ⟨missing, _⟩)
        · exact same
        · obtain ⟨p, same⟩ := missing here.1
          exact absurd same (some p)
    · rw [if_neg here]
      have nothing (absolute : (Path.parse target).isAbsolute) :
          ∃ p, locate files top extensions = .missing p :=
        not_exists?_iff.mp fun there => here ⟨absolute, there⟩
      constructor
      · intro same
        exact Or.inr ⟨nothing, same⟩
      · rintro (⟨absolute, rfl, some⟩ | ⟨_, same⟩)
        · obtain ⟨p, same⟩ := nothing absolute
          exact absurd same (some p)
        · exact same
  · cases finds with
    | missing _ _ last =>
      have tried := getLast?_candidates files extensions c
      rw [last, List.getLast?_concat] at tried
      exact Option.some.inj tried

end Transclusion

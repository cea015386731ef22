import Transclusion.FileView

namespace Transclusion

namespace Path

/-- One more step from a place that its own steps lead to ends at another such place. -/
theorem foldl_step_reverse_step {done : List Component}
    (settled : done.reverse.foldl step [] = done) (c : Component) :
    (step done c).reverse.foldl step [] = step done c := by
  have again : ∀ d, (d :: done).reverse.foldl step [] = step done d := by
    intro d
    rw [List.reverse_cons, List.foldl_append, settled]
    rfl
  cases c with
  | current => exact settled
  | root => exact again .root
  | name t => exact again (.name t)
  | parent =>
    match done with
    | [] => rfl
    | .root :: _ => exact settled
    | .current :: _ => exact again .parent
    | .parent :: _ => exact again .parent
    | .name t :: before =>
      rw [List.reverse_cons, List.foldl_append] at settled
      exact (List.cons.inj settled).2

theorem foldl_step_reverse {done : List Component} (settled : done.reverse.foldl step [] = done)
    (steps : List Component) :
    (steps.foldl step done).reverse.foldl step [] = steps.foldl step done := by
  induction steps generalizing done with
  | nil => exact settled
  | cons c rest ih => exact ih (foldl_step_reverse_step settled c)

@[simp]
theorem normalize_normalize (p : Path) : p.normalize.normalize = p.normalize :=
  Path.ext (congrArg List.reverse (foldl_step_reverse rfl p.components))

theorem absolute?_of_normal {cwd p : Path} (absolute : p.isAbsolute) (normal : p.normalize = p) :
    absolute? cwd p = some p := by
  simp only [absolute?, absolute, if_true, normal]

theorem absolute?_eq_some {cwd p q : Path} (there : cwd.isAbsolute) (found : absolute? cwd p = some q) :
    q.isAbsolute ∧ q.normalize = q := by
  unfold absolute? at found
  split at found
  · rename_i absolute
    cases found
    exact ⟨isAbsolute_normalize absolute, normalize_normalize p⟩
  · split at found
    · cases found
    · cases found
      exact ⟨isAbsolute_normalize (isAbsolute_join there), normalize_normalize _⟩

theorem isPlain_iff {c : Component} : c.isPlain ↔ '/' ∉ c.text ∧ Component.ofPiece? c.text = some c := by
  simp [Component.isPlain]

theorem filterMap_ofPiece_text {steps : List Component} (plain : steps.all Component.isPlain) :
    (steps.map Component.text).filterMap Component.ofPiece? = steps := by
  induction steps with
  | nil => rfl
  | cons c rest ih =>
    rw [List.all_cons, Bool.and_eq_true] at plain
    rw [List.map_cons, List.filterMap_cons, (isPlain_iff.mp plain.1).2, ih plain.2]

theorem slash_not_mem_text {steps : List Component} (plain : steps.all Component.isPlain) :
    ∀ piece ∈ steps.map Component.text, '/' ∉ piece := by
  intro piece member
  obtain ⟨c, inside, rfl⟩ := List.mem_map.mp member
  exact (isPlain_iff.mp (List.all_eq_true.mp plain c inside)).1

theorem splitOn_slash (t : Text) : List.splitOn '/' ('/' :: t) = [] :: t.splitOn '/' :=
  List.splitOn_append_cons_self_of_not_mem List.not_mem_nil t

theorem read_join {steps : List Component} (plain : steps.all Component.isPlain) :
    ((['/'].intercalate (steps.map Component.text)).splitOn '/').filterMap Component.ofPiece? = steps := by
  cases steps with
  | nil => rfl
  | cons c rest =>
    rw [List.splitOn_intercalate '/' (slash_not_mem_text plain) (by simp)]
    exact filterMap_ofPiece_text plain

/-- A text whose first piece is a step of its own begins nowhere in particular. -/
theorem lead_of_step {t : Text} {c : Component} {more : List Text} (split : t.splitOn '/' = c.text :: more)
    (plain : c.isPlain) : lead t = [] := by
  have read := (isPlain_iff.mp plain).2
  unfold lead
  split
  · rename_i slash
    obtain ⟨u, rfl⟩ := List.head?_eq_some_iff.mp slash
    rw [splitOn_slash] at split
    rw [← (List.cons.inj split).1] at read
    cases read
  · split
    · rename_i dot
      rw [split] at dot
      rw [Option.some.inj dot] at read
      cases read
    · rfl

theorem parse_join {steps : List Component} (plain : steps.all Component.isPlain) :
    (parse (['/'].intercalate (steps.map Component.text))).components = steps := by
  cases steps with
  | nil => rfl
  | cons c rest =>
    have split := List.splitOn_intercalate '/' (slash_not_mem_text plain) (by simp)
    have here : c.isPlain := by
      rw [List.all_cons, Bool.and_eq_true] at plain
      exact plain.1
    simp only [parse, lead_of_step split here, List.nil_append]
    exact read_join plain

/-- The spelling of a path says all of it. -/
@[simp]
theorem parse_text (p : Path) : parse p.text = p := by
  obtain ⟨steps, spelled⟩ := p
  refine Path.ext ?_
  match steps with
  | [] => exact parse_join spelled
  | .root :: rest =>
    show lead ('/' :: _) ++ (List.splitOn '/' ('/' :: _)).filterMap Component.ofPiece? = .root :: rest
    rw [splitOn_slash, List.filterMap_cons, read_join spelled]
    rfl
  | .current :: rest =>
    have pieces : List.splitOn '/' (['/'].intercalate (['.'] :: rest.map Component.text)) =
        ['.'] :: rest.map Component.text := by
      refine List.splitOn_intercalate '/' (fun piece member => ?_) (by simp)
      rcases List.mem_cons.mp member with rfl | later
      · decide
      · exact slash_not_mem_text spelled piece later
    show lead (['/'].intercalate (['.'] :: rest.map Component.text)) ++
      (List.splitOn '/' (['/'].intercalate (['.'] :: rest.map Component.text))).filterMap
        Component.ofPiece? = .current :: rest
    have start : lead (['/'].intercalate (['.'] :: rest.map Component.text)) = [.current] := by
      unfold lead
      rw [pieces]
      cases rest <;> rfl
    rw [start, pieces, List.filterMap_cons]
    exact congrArg _ (filterMap_ofPiece_text spelled)
  | .parent :: rest => exact parse_join spelled
  | .name t :: rest => exact parse_join spelled

end Path

@[simp]
theorem Spelling.path_ofPath (p : Path) : (ofPath p).path = p := Path.parse_text p

namespace FileView

theorem absolute_eq_ok {files : FileView} {p q : Path} (found : files.absolute p = .ok q) :
    q.isAbsolute ∧ q.normalize = q := by
  unfold absolute at found
  split at found
  · rename_i there
    cases found
    exact Path.absolute?_eq_some files.cwd_absolute there
  · cases found

theorem absolute_of_normal {files : FileView} {p : Path} (absolute : p.isAbsolute)
    (normal : p.normalize = p) :
    files.absolute p = .ok p := by
  rw [FileView.absolute, Path.absolute?_of_normal absolute normal]

theorem absoluteOr_of_normal {files : FileView} {p : Path} (absolute : p.isAbsolute)
    (normal : p.normalize = p) :
    files.absoluteOr p = p := by
  rw [absoluteOr, Path.absolute?_of_normal absolute normal, Option.getD_some]

end FileView

end Transclusion

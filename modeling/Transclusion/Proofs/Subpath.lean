import Transclusion.FolderRun
import Transclusion.Proofs.Ending

namespace Transclusion

/-- Steps down from a place: each goes to something by its name. -/
def AreNames (steps : List Component) : Prop := ∀ c ∈ steps, ∃ t, c = .name t

namespace Path

/-- The place that some steps lead to, its last step first: names on top of what cannot be taken
back, which is the root or the `..` that lead out of where a relative path starts. -/
def Reached (floor : Nat → List Component) (done : List Component) : Prop :=
  ∃ ups names, AreNames names ∧ done = names ++ floor ups

section Reached

variable {floor : Nat → List Component} (grounded : ∀ ups, ∃ more, step (floor ups) .parent = floor more)

include grounded

theorem Reached.next {done : List Component} (reached : Reached floor done) {c : Component}
    (plain : c.isPlain) :
    Reached floor (step done c) := by
  obtain ⟨ups, names, below, rfl⟩ := reached
  cases c with
  | root => exact absurd plain (by decide)
  | current => exact absurd plain (by decide)
  | name t => exact ⟨ups, .name t :: names, List.forall_mem_cons.mpr ⟨⟨t, rfl⟩, below⟩, rfl⟩
  | parent =>
    cases names with
    | nil =>
      obtain ⟨more, taken⟩ := grounded ups
      exact ⟨more, [], below, taken⟩
    | cons last names =>
      obtain ⟨⟨t, rfl⟩, others⟩ := List.forall_mem_cons.mp below
      exact ⟨ups, names, others, rfl⟩

theorem Reached.run {steps done : List Component} (reached : Reached floor done)
    (plain : steps.all Component.isPlain) :
    Reached floor (steps.foldl step done) := by
  induction steps generalizing done with
  | nil => exact reached
  | cons c rest ih =>
    rw [List.all_cons, Bool.and_eq_true] at plain
    exact ih (reached.next grounded plain.1) plain.2

end Reached

/-- Plain steps from the root lead down from it by names. -/
theorem exists_names_foldl {steps : List Component} (plain : steps.all Component.isPlain) :
    ∃ names, AreNames names ∧ steps.foldl step [.root] = names ++ [.root] := by
  have start : Reached (fun _ => [.root]) [.root] :=
    ⟨0, [], fun c none => absurd none List.not_mem_nil, rfl⟩
  obtain ⟨_, names, below, same⟩ := start.run (fun _ => ⟨0, rfl⟩) plain
  exact ⟨names, below, same⟩

/-- In an absolute path in normal form nothing but names follows the root. -/
theorem Settled.names {steps : List Component} (settled : Settled (.root :: steps))
    (plain : steps.all Component.isPlain) :
    AreNames steps := by
  obtain ⟨names, below, same⟩ := exists_names_foldl plain
  have whole : steps.foldl step [.root] = steps.reverse ++ [.root] := settled.trans (List.reverse_cons ..)
  have reversed : steps.reverse = names := List.append_cancel_right (whole.symm.trans same)
  exact fun c member => below c (reversed ▸ List.mem_reverse.mpr member)

theorem Settled.append_names {front steps : List Component} (settled : Settled front)
    (names : AreNames steps) :
    Settled (front ++ steps) := by
  induction steps generalizing front with
  | nil => rwa [List.append_nil]
  | cons c rest ih =>
    obtain ⟨t, rfl⟩ := names c (List.mem_cons_self ..)
    rw [← List.singleton_append, ← List.append_assoc]
    exact ih (settled.name t) fun d member => names d (List.mem_cons_of_mem _ member)

/-- What lies below an absolute directory, as normal forms have it. -/
theorem exists_names {root p : Path} (absolute : root.isAbsolute) (normal : p.normalize = p)
    (below : p.startsWith root) :
    ∃ steps, p.components = root.components ++ steps ∧ AreNames steps := by
  obtain ⟨steps, same⟩ := List.isPrefixOf_iff_prefix.mp below
  obtain ⟨front, top⟩ := isAbsolute_iff.mp absolute
  have whole : p.components = .root :: (front ++ steps) := by rw [← same, top, List.cons_append]
  have plain : (front ++ steps).all Component.isPlain := Component.all_isPlain_tail (whole ▸ p.spelled)
  have names : AreNames (front ++ steps) := Settled.names (whole ▸ normalize_eq_self_iff.mp normal) plain
  exact ⟨steps, same.symm, fun c member => names c (List.mem_append_right _ member)⟩

/-- Names are taken over as they are when a path is put below a directory, the empty one included. -/
theorem components_join {dir p : Path} (names : AreNames p.components) :
    (dir.join p).components = dir.components ++ p.components := by
  have relative : p.isAbsolute = false := by
    unfold isAbsolute
    cases steps : p.components with
    | nil => rfl
    | cons c rest =>
      obtain ⟨t, rfl⟩ := names c (by simp [steps])
      rfl
  unfold join
  by_cases nowhere : dir.isEmpty
  · simp [nowhere, List.isEmpty_iff.mp nowhere]
  · have visible : ∀ c ∈ p.components, c ≠ .current := by
      intro c member
      obtain ⟨t, rfl⟩ := names c member
      exact Component.noConfusion
    simpa [relative, nowhere] using visible

theorem exists_stripStart {root p : Path} {steps : List Component}
    (same : p.components = root.components ++ steps) :
    ∃ rest, root.stripStart? p = some rest ∧ rest.components = steps := by
  have below : root.components.isPrefixOf p.components = true := by
    rw [same]
    exact List.isPrefixOf_iff_prefix.mpr (List.prefix_append ..)
  have rest : p.components.drop root.components.length = steps := by rw [same, List.drop_left]
  exact ⟨_, if_pos below, rest⟩

end Path

theorem FileView.normalize_absoluteOr (files : FileView) (p : Path) :
    (files.absoluteOr p).normalize = files.absoluteOr p := by
  unfold absoluteOr
  cases there : Path.absolute? files.cwd p with
  | some q => exact (Path.absolute?_eq_some files.cwd_absolute there).2
  | none =>
    unfold Path.absolute? at there
    split at there
    · cases there
    · split at there
      · rename_i nowhere
        have empty : p.components = [] := List.isEmpty_iff.mp nowhere
        exact Path.normalize_eq_self_iff.mpr (by rw [Option.getD_none, empty]; rfl)
      · cases there

namespace FolderRun

variable {root p q : Path}

/-- Behind the output directory a document keeps the steps that lead to it from the folder. -/
theorem components_target {dir : Path} {steps : List Component}
    (same : p.components = root.components ++ steps) (names : AreNames steps) :
    (target root (some dir) p).components = dir.components ++ steps := by
  obtain ⟨rest, found, rfl⟩ := Path.exists_stripStart same
  simp only [target, found, Option.getD_some]
  exact Path.components_join names

variable {outputDir : Option Path} (absolute : root.isAbsolute)
    (settled : ∀ dir ∈ outputDir, dir.normalize = dir)

include absolute settled in
theorem normalize_target (normal : p.normalize = p) (below : p.startsWith root) :
    (target root outputDir p).normalize = target root outputDir p := by
  cases outputDir with
  | none => exact normal
  | some dir =>
    obtain ⟨steps, same, names⟩ := Path.exists_names absolute normal below
    rw [Path.normalize_eq_self_iff, components_target same names]
    exact (Path.normalize_eq_self_iff.mp (settled dir rfl)).append_names names

include absolute in
/-- Two documents are never written to the same place. -/
theorem target_injective (normal : p.normalize = p) (below : p.startsWith root) (normal' : q.normalize = q)
    (below' : q.startsWith root) (same : target root outputDir p = target root outputDir q) : p = q := by
  cases outputDir with
  | none => exact same
  | some dir =>
    obtain ⟨steps, here, names⟩ := Path.exists_names absolute normal below
    obtain ⟨steps', there, names'⟩ := Path.exists_names absolute normal' below'
    have ends := congrArg Path.components same
    rw [components_target here names, components_target there names', List.append_cancel_left_eq] at ends
    exact Path.ext (by rw [here, there, ends])

end FolderRun

end Transclusion

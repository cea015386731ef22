import Mathlib.Data.List.Basic
import Transclusion.Compilation

namespace Transclusion

/-- The site of a document that is inlined at `site`. -/
def Site.below (site : Site) (p : Path) : Site := ⟨p, p.directory, site.ancestors ++ [p]⟩

/-- Where a reference in a document whose references start at `base` leads. -/
def CompileOptions.resolve (options : CompileOptions) (files : FileView) (base : Path)
    (r : Reference) : Resolution :=
  Transclusion.resolve files base (options.extensions.map dotted) r.target

/-- What becomes of a reference whose target is not inlined here, with the session afterwards. `room` is
how many more documents may nest. -/
inductive Settles (files : FileView) (options : CompileOptions) (room : Nat) (ancestors : List Path)
    (s : Session) :
    Resolution → Outcome → Session → Prop
  | missing {p} : Settles files options room ancestors s (.missing p) .notFound s
  | directory {p} : Settles files options room ancestors s (.directory p) .isDirectory s
  | circular {p} : p ∈ ancestors →
    Settles files options room ancestors s (.file p) (.circular (ancestors ++ [p])) s
  | tooDeep {p} : p ∉ ancestors → room = 0 →
      Settles files options room ancestors s (.file p) (.tooDeep options.maxDepth) s
  | stubbed {p} : p ∉ ancestors → room ≠ 0 → options.optimizeDuplicates → s.hasInlined p →
      Settles files options room ancestors s (.file p)
        (.stubbed ((s.recordImport (.ofPath p)).importCount p)) (s.recordImport (.ofPath p))
  | unreadable {p e} : p ∉ ancestors → room ≠ 0 → (options.optimizeDuplicates → ¬ s.hasInlined p) →
      files.read p = .error e →
      Settles files options room ancestors s (.file p)
        (.unreadable e.message ((s.recordImport (.ofPath p)).importCount p)) (s.recordImport (.ofPath p))

theorem Settles.not_inlined {files : FileView} {options : CompileOptions} {room : Nat}
    {ancestors : List Path} {s s' : Session} {resolution : Resolution} {outcome : Outcome}
    (settles : Settles files options room ancestors s resolution outcome s') :
    ¬ outcome.content?.isSome := by
  cases settles <;> exact Bool.false_ne_true

/-- The references of the document at a site dealt with in order: the records of each, followed by those
of the document it inlined, and the session afterwards. What an inlined text looks like is left open. -/
inductive Unfolds (files : FileView) (options : CompileOptions) :
    Nat → Site → List Reference → Session → List Record → Session → Prop
  | done {room site s} : Unfolds files options room site [] s [] s
  | settled {room site r rest s outcome s' records s''} :
      Settles files options room site.ancestors s (options.resolve files site.base r) outcome s' →
      Unfolds files options room site rest s' records s'' →
      Unfolds files options room site (r :: rest) s
        (⟨r, options.resolve files site.base r, outcome, site.file⟩ :: records) s''
  | inlined {room site r rest s p source content nested s' records s''} :
      options.resolve files site.base r = .file p → p ∉ site.ancestors →
      (options.optimizeDuplicates → ¬ s.hasInlined p) → files.read p = .ok source →
      Unfolds files options room (site.below p)
        (Reference.extract (FrontMatter.strip source) options.oneBased)
        ((s.recordImport (.ofPath p)).markInlined p) nested s' →
      Unfolds files options (room + 1) site rest s' records s'' →
      Unfolds files options (room + 1) site (r :: rest) s
        (⟨r, .file p, .inlined content ((s.recordImport (.ofPath p)).importCount p), site.file⟩ ::
          nested ++ records) s''

/-- No document that is being expanded is expanded again further down: a record is about a mention of the
site's own text, or comes from a document outside of the branch. -/
theorem Unfolds.own_or_outside {files : FileView} {options : CompileOptions} {room : Nat} {site : Site}
    {refs : List Reference} {s s' : Session} {records : List Record}
    (run : Unfolds files options room site refs s records s') :
    ∀ r ∈ records, r.importedFrom = site.file ∧ r.reference ∈ refs ∨ r.importedFrom ∉ site.ancestors := by
  induction run with
  | done => intro r member; cases member
  | settled _ _ ih =>
    intro r member
    rcases List.mem_cons.mp member with rfl | member
    · exact Or.inl ⟨rfl, List.mem_cons_self ..⟩
    · exact (ih r member).imp_left fun ⟨from_, about⟩ => ⟨from_, List.mem_cons_of_mem _ about⟩
  | @inlined room site _ rest _ p _ _ nested _ _ _ _ outside _ _ _ _ inner later =>
    intro r member
    rcases List.mem_cons.mp member with rfl | member
    · exact Or.inl ⟨rfl, List.mem_cons_self ..⟩
    rcases List.mem_append.mp member with below | member
    · rcases inner r below with ⟨from_, _⟩ | apart
      · have same : r.importedFrom = p := from_
        exact Or.inr (same ▸ outside)
      · exact Or.inr fun above => apart (List.mem_append_left _ above)
    · exact (later r member).imp_left fun ⟨from_, about⟩ => ⟨from_, List.mem_cons_of_mem _ about⟩

namespace Expansion

/-- One reference either settles, or its target is expanded by `deeper`, which has to be there. -/
theorem expandReference_cases (files : FileView) (options : CompileOptions)
    (deeper : Option Expander) (room : Nat) (full : deeper = none ↔ room = 0) (site : Site)
    (context : Nat) (r : Reference) (s : Session) :
    (∃ outcome s', Settles files options room site.ancestors s
        (options.resolve files site.base r) outcome s' ∧
      expandReference files options deeper site context r s =
        ⟨⟨r, options.resolve files site.base r, outcome, site.file⟩, [], 0, s'⟩) ∨
    ∃ expand p source, deeper = some expand ∧ options.resolve files site.base r = .file p ∧
      p ∉ site.ancestors ∧ (options.optimizeDuplicates → ¬ s.hasInlined p) ∧ files.read p = .ok source ∧
      let child :=
        expand (site.below p) (FrontMatter.strip source) ((s.recordImport (.ofPath p)).markInlined p)
      let shifted := HeadingShift.under child.content options.headingMode context
      expandReference files options deeper site context r s =
        ⟨⟨r, .file p, .inlined shifted.content ((s.recordImport (.ofPath p)).importCount p), site.file⟩,
          child.records, child.clamps + shifted.clamped, child.session⟩ := by
  unfold expandReference CompileOptions.resolve
  generalize Transclusion.resolve files site.base (options.extensions.map dotted) r.target = resolution
  cases resolution with
  | missing p => exact Or.inl ⟨_, _, .missing, rfl⟩
  | directory p => exact Or.inl ⟨_, _, .directory, rfl⟩
  | file p =>
    by_cases outside : p ∈ site.ancestors
    · exact Or.inl ⟨_, _, .circular outside, by simp [outside]⟩
    cases deeper with
    | none => exact Or.inl ⟨_, _, .tooDeep outside (full.mp rfl), by simp [outside]⟩
    | some expand =>
      have roomy : room ≠ 0 := fun none => absurd (full.mpr none) (by simp)
      by_cases stub : options.optimizeDuplicates ∧ s.hasInlined p
      · exact Or.inl ⟨_, _, .stubbed outside roomy stub.1 stub.2, by simp [outside, stub]⟩
      have first : options.optimizeDuplicates → ¬ s.hasInlined p := fun dedup old => stub ⟨dedup, old⟩
      have fresh : (options.optimizeDuplicates && (s.recordImport (.ofPath p)).hasInlined p) = false := by
        rw [Session.hasInlined_recordImport, Bool.and_eq_false_imp]
        exact fun dedup => Bool.eq_false_iff.mpr (first dedup)
      cases read : files.read p with
      | error e => exact Or.inl ⟨_, _, .unreadable outside roomy first read, by
          simp only [List.contains_iff_mem, outside, fresh, read, if_false]; rfl⟩
      | ok source =>
        refine Or.inr ⟨expand, p, source, rfl, rfl, outside, first, read, ?_⟩
        simp only [List.contains_iff_mem, outside, fresh, read, if_false]
        rfl

/-- The session after some steps is the one that the last of them left. -/
theorem getLast_session_cons (step : Step) (steps : List Step) (s : Session) :
    (((step :: steps).getLast?.map (·.session)).getD s) =
      (steps.getLast?.map (·.session)).getD step.session := by
  rw [List.getLast?_cons, Option.map_some, Option.getD_some]
  exact (Option.getD_map (·.session) step steps.getLast?).symm

theorem unfolds_expandAll {files : FileView} {options : CompileOptions} {deeper : Option Expander}
    {room : Nat} (full : deeper = none ↔ room = 0) {site : Site} (context : Reference → Nat)
    (below : ∀ expand, deeper = some expand → ∀ site t s, Unfolds files options (room - 1) site
      (Reference.extract t options.oneBased) s (expand site t s).records (expand site t s).session)
    (refs : List Reference) (s : Session) :
    let steps := expandAll (fun r => expandReference files options deeper site (context r) r) refs s
    Unfolds files options room site refs s (steps.flatMap fun step => step.record :: step.nested)
      ((steps.getLast?.map (·.session)).getD s) := by
  induction refs generalizing s with
  | nil => exact .done
  | cons r rest ih =>
    have later := ih (expandReference files options deeper site (context r) r s).session
    simp only [expandAll, List.flatMap_cons]
    rw [getLast_session_cons]
    rcases expandReference_cases files options deeper room full site (context r) r s with
      ⟨outcome, s', settles, same⟩ | ⟨expand, p, source, there, leads, outside, first, read, same⟩
    · rw [same] at later ⊢
      exact .settled settles later
    · cases room with
      | zero => exact absurd (full.mpr rfl) (by simp [there])
      | succ room =>
        rw [same] at later ⊢
        exact .inlined leads outside first read (below expand there ..) later

/-- What an expansion records is what unfolding the references of its text records. -/
theorem unfolds_expand (files : FileView) (options : CompileOptions) (room : Nat) (site : Site)
    (t : Text) (s : Session) :
    Unfolds files options room site (Reference.extract t options.oneBased) s
      (expand files options room site t s).records (expand files options room site t s).session := by
  induction room generalizing site t s with
  | zero => exact unfolds_expandAll (by simp) _ (fun _ none => by cases none) ..
  | succ room ih =>
    refine unfolds_expandAll (by simp) _ (fun expand same => ?_) ..
    cases same
    exact ih

end Expansion

/-- Where the references of the document at `path` start when it is the one that is compiled. -/
def CompileOptions.baseOf (options : CompileOptions) (files : FileView) (path : Path) : Path :=
  match options.basePath with
  | some base => files.absoluteOr base
  | none => path.directory

/-- What a compiled text records is what unfolding its references records, with nothing but the document
itself being expanded. -/
theorem compileContent_unfolds (files : FileView) (options : CompileOptions) (t : Text)
    (file : Path) (s : Session) :
    let path := files.absoluteOr file
    Unfolds files options options.maxDepth ⟨path, options.baseOf files path, [path]⟩
      (Reference.extract (FrontMatter.strip t) options.oneBased) s
        (compileContent files options t file s).1.records
      (compileContent files options t file s).2 :=
  Expansion.unfolds_expand ..

/-- A document can be used when it is there and can be read. -/
theorem openDocument_eq_ok {α : Type} {files : FileView} {file : Spelling} {purpose caller : String}
    {use : Path → Text → α} {result : α} :
    (do let path ← files.placeDocument file caller
        let t ← (files.readDocument path purpose caller).mapError Fault.file
        return use path t) = Except.ok result ↔
      ∃ path t, files.absolute file.path = .ok path ∧ files.kind path = some .file ∧
        files.read path = .ok t ∧
        use path t = result := by
  unfold FileView.placeDocument FileView.place FileView.readDocument
  cases files.absolute file.path with
  | error e => simp [bind, Except.bind, Except.mapError]
  | ok path =>
    cases kind : files.kind path with
    | none => simp [bind, Except.bind, Except.mapError, kind, throw, throwThe, MonadExceptOf.throw]
    | some what =>
      cases what with
      | directory => simp [bind, Except.bind, Except.mapError, kind, throw, throwThe, MonadExceptOf.throw]
      | file =>
        cases read : files.read path with
        | error e => simp [bind, Except.bind, Except.mapError, kind, read, pure, Except.pure]
        | ok t => simp [bind, Except.bind, Except.mapError, kind, read, pure, Except.pure]

/-- A document compiles when it is there and can be read, to what its text compiles to at its place. -/
theorem compileDocument_eq_ok {files : FileView} {options : CompileOptions} {file : Spelling}
    {s : Session} {result : Compilation × Session} :
    compileDocument files options file s = .ok result ↔
      ∃ path t, files.absolute file.path = .ok path ∧ files.kind path = some .file ∧
        files.read path = .ok t ∧
        compileContent files options t path s = result :=
  openDocument_eq_ok

/-- Whether a document can be compiled is settled before the options and the session are looked at. -/
theorem compileDocument_error {files : FileView} {options : CompileOptions} {file : Spelling}
    {s : Session} {fault : Fault} (fails : compileDocument files options file s = .error fault)
    (options' : CompileOptions) (s' : Session) :
    compileDocument files options' file s' = .error fault := by
  unfold compileDocument at fails ⊢
  cases place : files.placeDocument file "compiler::engine" with
  | error e =>
    simp only [place, bind, Except.bind] at fails ⊢
    exact fails
  | ok path =>
    cases read : files.readDocument path "compiling document" "compiler::engine" with
    | error e =>
      simp only [place, read, bind, Except.bind] at fails ⊢
      exact fails
    | ok t => simp [place, read, bind, Except.bind, Except.mapError, pure, Except.pure] at fails

end Transclusion

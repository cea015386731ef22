import Transclusion.Proofs.FolderDependencies
import Transclusion.Proofs.ImportCounts

namespace Transclusion

/-- A compiled document with nothing left of the run it is part of: neither its counts nor where it
was written. -/
def Compilation.uncounted (c : Compilation) : Compilation :=
  { c with records := c.records.map Record.uncounted, counts := [], output := none }

/-- How many of the records have a count says nothing about where counting started. -/
theorem length_importCountsOf_uncounted (p : Path) (records : List Record) :
    (importCountsOf p (records.map Record.uncounted)).length = (importCountsOf p records).length := by
  induction records with
  | nil => rfl
  | cons r rest ih =>
    obtain ⟨reference, resolution, outcome, file⟩ := r
    simp only [List.map_cons, importCountsOf_cons, Record.uncounted]
    split
    · rw [List.length_append, List.length_append, ih]
      cases outcome <;> rfl
    · exact ih

namespace Expansion

/-- In whatever session it expands, it leaves the same in the text and on record, but for the counts. -/
def Forgetful (expand : Expander) : Prop :=
  ∀ site t s s', (expand site t s').uncounted = (expand site t s).uncounted

section Forgetting

variable (files : FileView) {options : CompileOptions} {deeper : Option Expander}

theorem forgetful_expandReference (repeating : options.optimizeDuplicates = false)
    (forgetful : ∀ expand, deeper = some expand → Forgetful expand) (site : Site) (context : Nat)
    (r : Reference) (s s' : Session) :
    (expandReference files options deeper site context r s').uncounted =
      (expandReference files options deeper site context r s).uncounted := by
  unfold expandReference
  dsimp only
  cases resolve files site.base (options.extensions.map dotted) r.target with
  | missing p => rfl
  | directory p => rfl
  | file p =>
    by_cases above : p ∈ site.ancestors
    · simp [above, Step.uncounted]
    cases deeper with
    | none => simp [above, Step.uncounted]
    | some expand =>
      cases read : files.read p with
      | error e => simp [above, repeating, read, Step.uncounted, Record.uncounted, Outcome.uncounted]
      | ok source =>
        have same := forgetful expand rfl (site.below p) (FrontMatter.strip source)
          ((s.recordImport (.ofPath p)).markInlined p) ((s'.recordImport (.ofPath p)).markInlined p)
        simp only [Site.below, uncounted, Expansion.mk.injEq] at same
        obtain ⟨content, records, clamps, _⟩ := same
        simp only [List.contains_iff_mem, above, repeating, read, if_false, Bool.false_and,
          Bool.false_eq_true, Step.uncounted, Record.uncounted, Outcome.uncounted, content, records,
          clamps]

theorem forgetful_expandOnce (repeating : options.optimizeDuplicates = false)
    (forgetful : ∀ expand, deeper = some expand → Forgetful expand) :
    Forgetful (expandOnce files options deeper) := by
  intro site t s s'
  have steps := map_expandAll Step.uncounted (fun _ _ => True) (fun {_ _} _ _ => trivial)
    (fun r s s' _ _ => ⟨forgetful_expandReference files repeating forgetful site
      (Heading.contextLevel (Heading.extract t true) r.start) r s s', trivial⟩)
    (Reference.extract t options.oneBased) s s' trivial trivial
  unfold expandOnce
  dsimp only
  rw [uncounted_assemble, uncounted_assemble, steps]

theorem forgetful_expand (repeating : options.optimizeDuplicates = false) (room : Nat) :
    Forgetful (expand files options room) := by
  refine @expand_related (fun _ => Forgetful) files files options options
    (fun supports => forgetful_expandOnce files repeating fun expand same => ?_) room room le_rfl
  obtain ⟨_, _, forgetful⟩ := supports expand same
  exact forgetful

end Forgetting

end Expansion

section Documents

variable {files : FileView} {options : CompileOptions}

theorem uncounted_compileContent (repeating : options.optimizeDuplicates = false) (t : Text)
    (file : Path) (s s' : Session) :
    (compileContent files options t file s').1.uncounted =
      (compileContent files options t file s).1.uncounted := by
  have same := Expansion.forgetful_expand files repeating options.maxDepth
    ⟨files.absoluteOr file, options.baseOf files (files.absoluteOr file), [files.absoluteOr file]⟩
      (FrontMatter.strip t) s s'
  simp only [Expansion.uncounted, Expansion.mk.injEq] at same
  obtain ⟨content, records, clamps, _⟩ := same
  simp only [Compilation.uncounted, compileContent, Compilation.mk.injEq, true_and, and_true]
  exact ⟨content, records, clamps⟩

theorem uncounted_compileDocument (repeating : options.optimizeDuplicates = false) (file : Spelling)
    (s s' : Session) :
    (compileDocument files options file s').toOption.map (·.1.uncounted) =
      (compileDocument files options file s).toOption.map (·.1.uncounted) := by
  cases compiled : compileDocument files options file s with
  | error fault => rw [compileDocument_error compiled options s']
  | ok pair =>
    obtain ⟨path, t, place, kind, read, rfl⟩ := compileDocument_eq_ok.mp compiled
    rw [compileDocument_eq_ok.mpr ⟨path, t, place, kind, read, rfl⟩]
    exact congrArg some (uncounted_compileContent repeating t path s s')

end Documents

theorem DocumentResult.uncounted_unwritten (d : DocumentResult) :
    d.unwritten.result?.map Compilation.uncounted = d.result?.map Compilation.uncounted := by
  obtain ⟨path, cyclic, outcome⟩ := d
  cases outcome <;> rfl

/-- With repeated imports inlined it does not matter what was compiled before. A text compiles in
any two sessions to the same, but for the counts on record, and adds the same to those of each path.
So each document of a folder compiles to what it compiles to on its own, in a session of its own, or
fails as it does there. -/
theorem repeating_forgets_session {options : CompileOptions}
    (repeating : options.optimizeDuplicates = false) :
    (∀ files t file (s s' : Session), s.Orderly → s'.Orderly →
      let one := compileContent files options t file s
      let other := compileContent files options t file s'
      other.1.uncounted = one.1.uncounted ∧ ∃ added : Path → Nat, ∀ p,
        one.2.importCount p = s.importCount p + added p ∧
          other.2.importCount p = s'.importCount p + added p) ∧
    ∀ {σ : Type} [FileStore σ] {store after : σ} {folder : FolderOptions} {dir : Spelling}
      {run : FolderRun},
      folder.compile = options → compileFolder store folder dir = (.ok run, after) →
      ∀ d ∈ run.documents,
        d.result?.map Compilation.uncounted =
          (compileDocument (FileStore.view store) { options with basePath := none }
            (.ofPath d.path) .empty).toOption.map (·.1.uncounted) := by
  constructor
  · intro files t file s s' orderly orderly' one other
    have same : other.1.uncounted = one.1.uncounted := uncounted_compileContent repeating t file s s'
    refine ⟨same, fun p => (importCountsOf p one.1.records).length, fun p => ⟨?_, ?_⟩⟩
    · exact ((compileContent_ledger files options t file s).importCountsOf_eq orderly p).2
    · have records : other.1.records.map Record.uncounted = one.1.records.map Record.uncounted :=
        congrArg Compilation.records same
      have counted : (importCountsOf p one.1.records).length =
          (importCountsOf p other.1.records).length := by
        rw [← length_importCountsOf_uncounted, ← records, length_importCountsOf_uncounted]
      have total := ((compileContent_ledger files options t file s').importCountsOf_eq orderly' p).2
      exact total.trans (congrArg _ counted.symm)
  · rintro σ _ store after folder dir run rfl compiled d member
    obtain ⟨root, listed, _, _, rfl, rfl⟩ := compileFolder_eq_ok_iff.mp compiled
    obtain ⟨d', inside, alike⟩ := FolderRun.exists_compiled member
    obtain ⟨before, made⟩ := FolderRun.exists_result_eq inside
    have path : d'.path = d.path := by rw [← d.path_unwritten, ← alike, d'.path_unwritten]
    rw [← d.uncounted_unwritten, ← alike, d'.uncounted_unwritten, made, Option.map_map, path]
    exact @uncounted_compileDocument _ folder.perDocument repeating (.ofPath d.path) .empty before

/-- A session in which a document was inlined before. -/
def olderSession : Session := ⟨[⟨⟨"/c.md".toList⟩, 2⟩], [.parse "/c.md".toList]⟩

/-- Two documents of a folder that inline the same third one. -/
def twins : MemoryStore :=
  ((MemoryStore.empty.insert (.parse "/d/a.md".toList) "# A\n@c.md".toList).insert
    (.parse "/d/b.md".toList) "# B\n@c.md".toList).insert (.parse "/d/c.md".toList) "# C".toList

theorem repeating_forgets_session_twins :
    (let text := "# A\n@b.md @c.md".toList
      let one := compileContent (FileStore.view guideStore) CompileOptions.default.repeating text
        (.parse "/a.md".toList) .empty
      let other := compileContent (FileStore.view guideStore) CompileOptions.default.repeating text
        (.parse "/a.md".toList) olderSession
      one.1.records.map (·.outcome.importCount?) = [some 1, some 1, some 1, some 2] ∧
        other.1.records.map (·.outcome.importCount?) = [some 1, some 3, some 1, some 4] ∧
        other.1.uncounted = one.1.uncounted) ∧
    ∃ run after d result,
      compileFolder twins ⟨CompileOptions.default.repeating, [], none, false⟩ ⟨"/d".toList⟩ =
        (.ok run, after) ∧
      d ∈ run.documents ∧ d.path = .parse "/d/b.md".toList ∧ d.result? = some result ∧
      result.records.map (·.outcome.importCount?) = [some 2] ∧
      (compileDocument (FileStore.view twins) { CompileOptions.default.repeating with basePath := none }
        (.ofPath d.path) .empty).toOption.map (·.1.uncounted) = some result.uncounted := by
  have orderly : olderSession.Orderly := List.pairwise_singleton ..
  obtain ⟨texts, folders⟩ := @repeating_forgets_session CompileOptions.default.repeating rfl
  refine ⟨⟨by decide +kernel, by decide +kernel, (texts _ _ _ _ _ Session.orderly_empty orderly).1⟩, ?_⟩
  have fine : (compileFolder twins ⟨CompileOptions.default.repeating, [], none, false⟩
      ⟨"/d".toList⟩).1.toOption.any
      (fun run => run.documents.any fun d => d.path = .parse "/d/b.md".toList &&
        d.result?.any fun result => result.records.map (·.outcome.importCount?) = [some 2]) = true := by
    decide +kernel
  obtain ⟨run, after, compiled, fine⟩ := exists_run_of_any fine
  simp only [List.any_eq_true, Bool.and_eq_true, decide_eq_true_eq, Option.any_eq_true] at fine
  obtain ⟨d, member, path, result, found, counts⟩ := fine
  refine ⟨run, after, d, result, compiled, member, path, found, counts, ?_⟩
  rw [← folders rfl compiled d member, found, Option.map_some]

end Transclusion

import Transclusion.Proofs.FolderPass
import Transclusion.Proofs.Ring

namespace Transclusion

namespace FolderRun

variable {files : FileView} {options : CompileOptions} {cyclic order : List Path} {s : Session}
    {ring : List Path}

/-- Whatever the order, the first document that touches a ring closes it, as no document of the ring was
inlined before. -/
theorem closes_compileAll (home : options.basePath = none) (isRing : IsRing files options.extensions ring)
    (stands : ∀ p ∈ ring, files.absolute (Spelling.ofPath p).path = .ok p ∧ files.kind p = some .file)
    (fresh : ∀ q ∈ ring, ¬ s.hasInlined q)
    (roomy : ∀ d ∈ (compileAll files options cyclic s order).1, Roomy d.records)
    (compiled : ∃ p ∈ ring, p ∈ order) :
    ∃ d ∈ (compileAll files options cyclic s order).1, Closes d.records ring := by
  induction order generalizing s with
  | nil =>
    obtain ⟨p, _, listed⟩ := compiled
    cases listed
  | cons first rest ih =>
    have later : first ∉ ring → ∃ p ∈ ring, p ∈ rest := by
      intro apart
      obtain ⟨p, member, listed⟩ := compiled
      rcases List.mem_cons.mp listed with rfl | listed
      · exact absurd member apart
      · exact ⟨p, member, listed⟩
    cases run : compileDocument files options (.ofPath first) s with
    | error fault =>
      simp only [compileAll, run] at roomy ⊢
      have apart : first ∉ ring := by
        intro member
        obtain ⟨place, kind⟩ := stands first member
        obtain ⟨t, read⟩ := isRing.readable member
        have result : compileDocument files options (.ofPath first) s =
            .ok (compileContent files options t first s) :=
          compileDocument_eq_ok.mpr ⟨first, t, place, kind, read, rfl⟩
        cases run.symm.trans result
      obtain ⟨d, found, closes⟩ :=
        ih fresh (fun d found => roomy d (List.mem_cons_of_mem _ found)) (later apart)
      exact ⟨d, List.mem_cons_of_mem _ found, closes⟩
    | ok pair =>
      obtain ⟨result, s'⟩ := pair
      simp only [compileAll, run] at roomy ⊢
      obtain ⟨t, unfolds, read, place⟩ := compileDocument_unfolds run home
      have roomyFirst : Roomy result.records := roomy _ (List.mem_cons_self ..)
      by_cases here : Closes result.records ring
      · exact ⟨_, List.mem_cons_self .., here⟩
      have untouched : ∀ q ∈ ring, ¬ Inlines result.records q := fun q member full =>
        here (unfolds.closes_of_inlines isRing roomyFirst fresh ⟨q, member, full⟩)
      have apart : first ∉ ring := by
        intro member
        cases (stands first member).1.symm.trans place
        exact here (unfolds.closes_of_entered rfl (List.mem_singleton_self _) read roomyFirst
          (fun q member old => absurd old (fresh q member)) (isRing _ member))
      have still : ∀ q ∈ ring, ¬ s'.hasInlined q := by
        intro q member
        rw [unfolds.ledger.hasInlined_iff]
        exact fun known => known.elim (fresh q member) (untouched q member)
      obtain ⟨d, found, closes⟩ :=
        ih still (fun d found => roomy d (List.mem_cons_of_mem _ found)) (later apart)
      exact ⟨d, List.mem_cons_of_mem _ found, closes⟩

end FolderRun

theorem compileFolder_closes [FileStore σ] {store after : σ} {options : FolderOptions}
    {dir : Spelling} {run : FolderRun}
    (compiled : compileFolder store options dir = (.ok run, after))
    (roomy : ∀ d ∈ run.documents, Roomy d.records) {cycle : List Path}
    (found : cycle ∈ run.cycles) : ∃ d ∈ run.documents, Closes d.records cycle := by
  obtain ⟨listed, documents, _, _, place, list, all, same, cycles⟩ := compileFolder_eq_ok compiled
  rw [cycles] at found
  obtain ⟨isRing, members⟩ := isRing_of_mem_cycles found
  obtain ⟨leader, inside, _⟩ := Graph.exists_of_mem_cycles found
  have stands : ∀ p ∈ cycle, (FileStore.view store).absolute (Spelling.ofPath p).path = .ok p ∧
      (FileStore.view store).kind p = some .file := by
    intro p member
    obtain ⟨document, kind⟩ := members p member
    obtain ⟨file, from_, normal⟩ := DocumentGraph.mem_paths_build.mp document
    exact ⟨normal ▸ absolute_of_listed place list from_, kind⟩
  have kept : ∀ d ∈ documents, ∃ d' ∈ run.documents, d'.records = d.records := fun d member =>
    List.mem_map.mp (same ▸ List.mem_map_of_mem member)
  have home : ({ options.compile with basePath := none } : CompileOptions).basePath = none := rfl
  have fresh : ∀ q ∈ cycle, ¬ Session.empty.hasInlined q := fun q _ => Session.not_hasInlined_empty q
  have roomyBefore : ∀ d ∈ documents, Roomy d.records := by
    intro d member
    obtain ⟨d', member', alike⟩ := kept d member
    exact alike ▸ roomy d' member'
  obtain ⟨d, member, closes⟩ := FolderRun.closes_compileAll home isRing stands fresh
    (by rw [all]; exact roomyBefore)
    ⟨leader, inside, Graph.mem_compileOrder (members leader inside).1⟩
  rw [all] at member
  obtain ⟨d', member', alike⟩ := kept d member
  exact ⟨d', member', alike ▸ closes⟩

/-- Every set of documents that refer to each other in a circle, as the graph of the folder has it, is met
by the compilation: a mention of one of its documents is recorded as circular. Neither the order of the
documents nor what they share can hide one; only a lack of room could. -/
theorem compileFolder_meets_cycles [FileStore σ] {store after : σ} {options : FolderOptions}
    {dir : Spelling} {run : FolderRun}
    (compiled : compileFolder store options dir = (.ok run, after))
    (roomy : ∀ d ∈ run.documents, Roomy d.records) :
    (∀ cycle ∈ run.cycles, ∃ p ∈ cycle, p ∈ run.circularPaths) ∧ (run.cycles ≠ [] → run.hasFailures) := by
  constructor
  · intro cycle found
    obtain ⟨d, document, r, member, circular, inside⟩ := compileFolder_closes compiled roomy found
    exact ⟨r.resolution.path, inside, FolderRun.mem_circularPaths document member circular⟩
  · intro some
    obtain ⟨cycle, found⟩ := List.exists_mem_of_ne_nil _ some
    obtain ⟨d, document, r, member, circular, _⟩ := compileFolder_closes compiled roomy found
    exact FolderRun.hasFailures_of_record document member (Outcome.isFailure_of_isCircular circular)

theorem compileFolder_meets_mutual : ∃ run after,
    compileFolder mutualStore ⟨.default, [], none, false⟩ ⟨['/']⟩ = (.ok run, after) ∧
      run.cycles = [[.parse "/a.md".toList, .parse "/b.md".toList]] ∧ run.hasFailures := by
  have fine : (compileFolder mutualStore ⟨.default, [], none, false⟩ ⟨['/']⟩).1.toOption.any (fun run =>
      run.cycles = [[.parse "/a.md".toList, .parse "/b.md".toList]] &&
        run.documents.all fun d => decide (Roomy d.records)) = true := by
    decide +kernel
  obtain ⟨run, after, compiled, fine⟩ := exists_run_of_any fine
  simp only [Bool.and_eq_true, decide_eq_true_eq, List.all_eq_true] at fine
  obtain ⟨cycles, roomy⟩ := fine
  exact ⟨run, after, compiled, cycles, (compileFolder_meets_cycles compiled roomy).2 (by simp [cycles])⟩

end Transclusion

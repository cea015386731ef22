import Transclusion.Proofs.FolderFailures
import Transclusion.Proofs.Subpath
import Transclusion.Proofs.Unfolding

namespace Transclusion

namespace FolderRun

section Goals

variable {σ : Type} [FileStore σ] {target : Path → Path} {store after : σ}
    {documents later : List DocumentResult}
  {goals : List Path}

/-- Files are written for documents that have a result and no complaint. -/
theorem Writes.exists_of_mem_goals (writes : Writes target store documents later goals after) {goal : Path}
    (member : goal ∈ goals) : ∃ d ∈ later, d.result?.isSome ∧ d.error? = none ∧ target d.path = goal := by
  induction writes with
  | done => cases member
  | failed _ ih =>
    obtain ⟨d, inside, about⟩ := ih member
    exact ⟨d, List.mem_cons_of_mem _ inside, about⟩
  | written _ _ ih =>
    rcases List.mem_cons.mp member with rfl | member
    · exact ⟨_, List.mem_cons_self .., rfl, rfl, rfl⟩
    · obtain ⟨d, inside, about⟩ := ih member
      exact ⟨d, List.mem_cons_of_mem _ inside, about⟩
  | refused _ _ ih =>
    obtain ⟨d, inside, about⟩ := ih member
    exact ⟨d, List.mem_cons_of_mem _ inside, about⟩

end Goals

section Store

variable {target : Path → Path} {store after : FaultyStore} {documents later : List DocumentResult}
    {goals : List Path}

theorem Writes.faults_eq (writes : Writes target store documents later goals after) :
    after.faults = store.faults := by
  induction writes with
  | done => rfl
  | failed _ ih => exact ih
  | written write _ ih =>
    cases FaultyStore.write_eq_ok write
    exact ih
  | refused write _ ih =>
    cases FaultyStore.write_eq_error write
    exact ih

/-- Nothing changes where nothing is written. -/
theorem Writes.get?_eq (writes : Writes target store documents later goals after) {p : Path}
    (apart : ∀ goal ∈ goals, goal.normalize ≠ p.normalize) : after.store.get? p = store.store.get? p := by
  induction writes with
  | done => rfl
  | failed _ ih => exact ih apart
  | written write _ ih =>
    cases FaultyStore.write_eq_ok write
    rw [ih fun goal member => apart goal (List.mem_cons_of_mem _ member), MemoryStore.get?_insert,
      if_neg (Ne.symm (apart _ (List.mem_cons_self ..)))]
  | refused write _ ih =>
    cases FaultyStore.write_eq_error write
    exact ih apart

/-- Where the targets differ, the text of a document that was written is not overwritten by a later one. -/
theorem Writes.get?_target (writes : Writes target store documents later goals after)
    (distinct : (later.map fun d => (target d.path).normalize).Nodup) {d : DocumentResult}
    (member : d ∈ later) {result : Compilation} (compiled : d.result? = some result)
    (quiet : d.error? = none) :
    after.store.get? (target d.path) = some result.content := by
  induction writes with
  | done => cases member
  | failed _ ih =>
    rcases List.mem_cons.mp member with rfl | member
    · cases compiled
    · exact ih (List.nodup_cons.mp distinct).2 member
  | @written _ path _ _ _ _ _ others _ _ write rest ih =>
    obtain ⟨apart, distinct⟩ := List.nodup_cons.mp distinct
    rcases List.mem_cons.mp member with rfl | member
    · cases compiled
      have elsewhere : ∀ goal ∈ others, goal.normalize ≠ (target path).normalize := by
        intro goal inside same
        obtain ⟨e, there, _, _, rfl⟩ := rest.exists_of_mem_goals inside
        exact apart (List.mem_map.mpr ⟨e, there, same⟩)
      cases FaultyStore.write_eq_ok write
      rw [rest.get?_eq elsewhere, MemoryStore.get?_insert, if_pos rfl]
    · exact ih distinct member
  | refused _ _ ih =>
    rcases List.mem_cons.mp member with rfl | member
    · cases quiet
    · exact ih (List.nodup_cons.mp distinct).2 member

/-- Where the targets differ, a document that has a result is written unless it has a complaint. -/
theorem Writes.mem_goals_iff (writes : Writes target store documents later goals after)
    (distinct : (later.map fun d => (target d.path).normalize).Nodup) {d : DocumentResult}
    (member : d ∈ later) (compiled : d.result?.isSome) :
    (∃ goal ∈ goals, goal.normalize = (target d.path).normalize) ↔ d.error? = none := by
  refine ⟨?_, fun quiet => ⟨_, writes.mem_goals member compiled quiet, rfl⟩⟩
  rintro ⟨goal, inside, same⟩
  obtain ⟨e, there, _, quiet, rfl⟩ := writes.exists_of_mem_goals inside
  exact List.inj_on_of_nodup_map distinct there member same ▸ quiet

end Store

end FolderRun

/-- Before anything is written, nothing is said about it. -/
theorem FolderRun.unwritten_compileAll (files : FileView) (options : CompileOptions)
    (cyclic : List Path) (s : Session) (order : List Path) :
    (compileAll files options cyclic s order).1.map (·.unwritten) =
      (compileAll files options cyclic s order).1 := by
  induction order generalizing s with
  | nil => rfl
  | cons p rest ih =>
    cases compiled : compileDocument files options (.ofPath p) s with
    | error fault =>
      simp only [compileAll, compiled, List.map_cons, ih]
      rfl
    | ok pair =>
      obtain ⟨path, t, _, _, _, rfl⟩ := compileDocument_eq_ok.mp compiled
      simp only [compileAll, compiled, List.map_cons, ih]
      rfl

namespace FolderOptions

/-- The same options with nothing to write. -/
def readOnly (options : FolderOptions) :
    FolderOptions := { options with outputDir := none, inPlace := false }

variable {store : FaultyStore} {root : Path} {listed : List Path} {dir : Spelling} {caller : String}

/-- No two documents of a folder have the same goal. -/
theorem nodup_goals (orderly : store.store.Orderly) (options : FolderOptions)
    (place : (FileStore.view store).placeFolder dir caller = .ok root)
    (list : listDocuments (FileStore.view store) (.ofPath root) options.exclude = .ok listed) :
    ((FolderRun.runOver store options root listed).1.documents.map fun d =>
      (options.goal (FileStore.view store) root d.path).normalize).Nodup := by
  have tidy := FaultyStore.orderly_view orderly
  have perm := FolderRun.perm_runOver tidy options place list
  have normal := FolderRun.normal_of_listed tidy place list
  obtain ⟨absolute, settledRoot⟩ := FileView.absolute_eq_ok (placeFolder_eq_ok place).1
  have below : ∀ p ∈ listed, p.startsWith root := by
    obtain ⟨globs, all, found, permuted⟩ := listDocuments_eq_ok list
    rw [Spelling.path_ofPath] at found
    have stored := MemoryStore.list_eq_ok (FaultyStore.list_eq_ok found)
    intro p member
    have inside := List.mem_of_mem_filter (permuted.subset member)
    rw [stored, settledRoot] at inside
    exact (Bool.and_eq_true_iff.mp (List.mem_filter.mp inside).2).1
  have settled : ∀ dir ∈ options.outputDir.map fun dir => (FileStore.view store).absoluteOr dir.path,
      dir.normalize = dir := by
    intro dir given
    obtain ⟨written, _, rfl⟩ := Option.map_eq_some_iff.mp given
    exact FileView.normalize_absoluteOr ..
  have distinct : (listed.map fun p => (options.goal (FileStore.view store) root p).normalize).Nodup := by
    refine List.Nodup.map_on (fun p here q there same => ?_) (perm.nodup_iff.mp ?_)
    · have apart : options.goal (FileStore.view store) root p =
          options.goal (FileStore.view store) root q := by
        rwa [goal, goal, FolderRun.normalize_target absolute settled (normal p here) (below p here),
          FolderRun.normalize_target absolute settled (normal q there) (below q there)] at same
      exact FolderRun.target_injective absolute (normal p here) (below p here) (normal q there)
        (below q there) apart
    · rw [FolderRun.order_runOver]
      exact Graph.Coherent.nodup_compileOrder DocumentGraph.coherent_build
  have moved :=
    (perm.map fun p => (options.goal (FileStore.view store) root p).normalize).nodup_iff.mpr distinct
  rwa [FolderRun.order, List.map_map] at moved

end FolderOptions

namespace FolderRun

variable {store : FaultyStore} {options : FolderOptions} {root : Path} {listed : List Path}

/-- What a run finds out and compiles does not hang on whether it writes. -/
theorem runOver_readOnly (store : FaultyStore) (options : FolderOptions) (root : Path)
    (listed : List Path) :
    let run := (runOver store options root listed).1
    let plain := (runOver store options.readOnly root listed).1
    (runOver store options.readOnly root listed).2 = store ∧ run.order = plain.order ∧
      run.cyclic = plain.cyclic ∧
      run.cycles = plain.cycles ∧ run.circularPaths = plain.circularPaths ∧ run.counts = plain.counts ∧
      run.documents.map (·.unwritten) = plain.documents := by
  intro run plain
  have kept : run.documents.map (·.unwritten) = plain.documents :=
    (unwritten_documents store options root listed).trans (unwritten_compileAll ..)
  have order : run.order = plain.order := by
    rw [order_runOver, order_runOver]
    rfl
  have circular : run.circularPaths = plain.circularPaths := by
    unfold circularPaths
    rw [← kept]
    simp only [List.flatMap_map, DocumentResult.records_unwritten]
  exact ⟨rfl, order, rfl, rfl, circular, rfl, kept⟩

theorem idle_runOver (store : FaultyStore) (idle : options.writes = false) (root : Path)
    (listed : List Path) :
    (runOver store options root listed).1.written = [] ∧ (runOver store options root listed).2 = store := by
  have out : ∀ documents, writeOut options root store documents = (documents, [], store) :=
    fun documents => if_neg (by simp [idle])
  exact ⟨congrArg (·.2.1) (out _), congrArg (·.2.2) (out _)⟩

variable (distinct : ((runOver store options root listed).1.documents.map fun d =>
  (options.goal (FileStore.view store) root d.path).normalize).Nodup)

include distinct in
/-- Afterwards the files that were written hold the compiled texts, and the others what they held before. -/
theorem store_runOver :
    let run := (runOver store options root listed).1
    let after := (runOver store options root listed).2
    after.faults = store.faults ∧
      (∀ p ∈ run.written, ∃ d ∈ run.documents, ∃ result, d.result? = some result ∧
        options.goal (FileStore.view store) root d.path = p ∧ after.store.get? p = some result.content) ∧
      ∀ p, (∀ q ∈ run.written, q.normalize ≠ p.normalize) → after.store.get? p = store.store.get? p := by
  cases wanted : options.writes with
  | false =>
    obtain ⟨none, unchanged⟩ := idle_runOver store wanted root listed
    dsimp only
    rw [none, unchanged]
    exact ⟨rfl, fun p inside => absurd inside List.not_mem_nil, fun p _ => rfl⟩
  | true =>
    have writes := writes_runOver store wanted root listed
    refine ⟨writes.faults_eq, fun p inside => ?_, fun p apart => writes.get?_eq apart⟩
    obtain ⟨d, member, compiled, quiet, rfl⟩ := writes.exists_of_mem_goals inside
    obtain ⟨result, found⟩ := Option.isSome_iff_exists.mp compiled
    exact ⟨d, member, result, found, rfl, writes.get?_target distinct member found quiet⟩

include distinct in
/-- Each document that was compiled is written, or has a complaint and finds what stood at its goal. -/
theorem written_or_refused (wanted : options.writes) {d : DocumentResult}
    (member : d ∈ (runOver store options root listed).1.documents) (compiled : d.result?.isSome) :
    let goal := options.goal (FileStore.view store) root d.path
    (goal ∈ (runOver store options root listed).1.written ↔ d.error? = none) ∧
      (d.error?.isSome → (runOver store options root listed).2.store.get? goal =
        store.store.get? goal) := by
  have writes := writes_runOver store wanted root listed
  have written := writes.mem_goals_iff distinct member compiled
  refine ⟨⟨fun inside => written.mp ⟨_, inside, rfl⟩, writes.mem_goals member compiled⟩, fun refused => ?_⟩
  refine writes.get?_eq fun goal inside same => ?_
  rw [written.mp ⟨goal, inside, same⟩] at refused
  cases refused

end FolderRun

/-- Writing comes after the whole run and disturbs nothing in it: a run that writes has the results
of one that does not. In a store, the files at the goals of what was written then hold the compiled
texts, all others what they held before. The goals of all documents differ, and each document that
was compiled is either written or has a complaint and finds its goal as it was. -/
theorem writing_keeps_run (store : FaultyStore) (orderly : store.store.Orderly)
    (options : FolderOptions) (dir : Spelling) :
    match compileFolder store options dir, compileFolder store options.readOnly dir with
    | (.error fault, after), (.error fault', after') => fault = fault' ∧ after = store ∧ after' = store
    | (.ok run, after), (.ok plain, after') =>
      let goal := options.goal (FileStore.view store) run.root
      (after' = store ∧ run.order = plain.order ∧ run.cyclic = plain.cyclic ∧ run.cycles = plain.cycles ∧
        run.circularPaths = plain.circularPaths ∧ run.counts = plain.counts ∧
        run.documents.map (·.unwritten) = plain.documents) ∧
      (after.faults = store.faults ∧
        (∀ p ∈ run.written, ∃ d ∈ run.documents, ∃ result, d.result? = some result ∧ goal d.path = p ∧
          after.store.get? p = some result.content) ∧
        ∀ p, (∀ q ∈ run.written, q.normalize ≠ p.normalize) → after.store.get? p = store.store.get? p) ∧
      (run.documents.map fun d => (goal d.path).normalize).Nodup ∧
      (options.writes = false → run.written = [] ∧ after = store) ∧
      (options.writes → ∀ d ∈ run.documents, d.result?.isSome →
        (goal d.path ∈ run.written ↔ d.error? = none) ∧
        (d.error?.isSome → after.store.get? (goal d.path) = store.store.get? (goal d.path)))
    | _, _ => False := by
  rw [compileFolder_eq, compileFolder_eq]
  cases place : (FileStore.view store).placeFolder dir "compiler::folder" with
  | error fault => exact ⟨rfl, rfl, rfl⟩
  | ok root =>
    have same : options.readOnly.exclude = options.exclude := rfl
    dsimp only
    rw [same]
    cases list : listDocuments (FileStore.view store) (.ofPath root) options.exclude with
    | error fault => exact ⟨rfl, rfl, rfl⟩
    | ok listed =>
      have distinct := FolderOptions.nodup_goals orderly options place list
      exact ⟨FolderRun.runOver_readOnly store options root listed,
        FolderRun.store_runOver distinct, distinct,
        fun idle => FolderRun.idle_runOver store idle root listed,
        fun wanted d member compiled => FolderRun.written_or_refused distinct wanted member compiled⟩

/-- On the shelf one document cannot be written, and one cannot even be compiled. -/
theorem writing_keeps_run_shelf : shelf.store.Orderly ∧
    ∃ run after, compileFolder shelf ⟨.default, [], none, true⟩ ⟨"/d".toList⟩ = (.ok run, after) ∧
      run.written = ["/d/a.md", "/d/c.md", "/d/d.md"].map (.parse ·.toList) ∧
      after.store.get? (.parse "/d/b.md".toList) = some "text".toList ∧
      after.store.get? (.parse "/d/e.md".toList) = some "secret".toList := by
  have fine : (compileFolder shelf ⟨.default, [], none, true⟩ ⟨"/d".toList⟩).1.toOption.any (fun run =>
      run.written = ["/d/a.md", "/d/c.md", "/d/d.md"].map (.parse ·.toList)) = true := by
    decide +kernel
  have keeps := writing_keeps_run shelf orderly_shelf ⟨.default, [], none, true⟩ ⟨"/d".toList⟩
  obtain ⟨run, after, compiled, fine⟩ := exists_run_of_any fine
  have written : run.written = ["/d/a.md", "/d/c.md", "/d/d.md"].map (.parse ·.toList) :=
    of_decide_eq_true fine
  rw [compiled] at keeps
  split at keeps
  · rename_i failed _
    cases failed
  · rename_i same _
    cases same
    obtain ⟨_, ⟨_, _, frame⟩, _⟩ := keeps
    refine ⟨orderly_shelf, run, after, compiled, written, ?_, ?_⟩
    · rw [frame _ (by rw [written]; decide +kernel)]
      decide +kernel
    · rw [frame _ (by rw [written]; decide +kernel)]
      decide +kernel
  · exact keeps.elim

end Transclusion

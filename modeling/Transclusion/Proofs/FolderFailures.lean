import Transclusion.Proofs.FolderOrder

namespace Transclusion

namespace FolderRun

/-- References that failed, in all documents together. -/
def failedReferences (run : FolderRun) : Nat :=
  (run.documents.map (·.records.countP (·.outcome.isFailure))).sum

/-- Documents with something to complain about as a whole: they were not compiled, or not written. -/
def complaints (run : FolderRun) : Nat := run.documents.countP (·.error?.isSome)

/-- Documents that were compiled and then could not be written. -/
def refusals (run : FolderRun) : Nat := run.documents.countP fun d => d.result?.isSome && d.error?.isSome

/-- A document that could not be written has something to complain about that is not counted. -/
theorem totalFailures_add_refusals (run : FolderRun) :
    run.totalFailures + run.refusals = run.failedReferences + run.complaints := by
  obtain ⟨root, documents, _⟩ := run
  simp only [totalFailures, refusals, failedReferences, complaints]
  induction documents with
  | nil => rfl
  | cons d rest ih =>
    have here : d.failureCount + (if d.result?.isSome && d.error?.isSome then 1 else 0) =
        d.records.countP (·.outcome.isFailure) + if d.error?.isSome then 1 else 0 := by
      obtain ⟨path, cyclic, outcome⟩ := d
      cases outcome with
      | failed fault => rfl
      | compiled result complaint => cases complaint <;> rfl
    simp only [List.map_cons, List.foldr_cons, List.sum_cons, List.countP_cons] at ih ⊢
    omega

/-- Without failures every document has a result in which all references are replaced. -/
theorem exists_result_of_not_hasFailures {run : FolderRun} (fine : ¬ run.hasFailures) {d : DocumentResult}
    (member : d ∈ run.documents) :
    ∃ result, d.result? = some result ∧ ∀ r ∈ result.records, ¬ r.outcome.isFailure := by
  have none : run.totalFailures = 0 := Nat.eq_zero_of_not_pos fun some => fine (decide_eq_true some)
  have counted : d.failureCount ≤ run.totalFailures := List.le_sum_of_mem (List.mem_map_of_mem member)
  obtain ⟨path, cyclic, outcome⟩ := d
  cases outcome with
  | failed fault =>
    have one : 1 ≤ run.totalFailures := counted
    omega
  | compiled result complaint =>
    have few : result.records.countP (·.outcome.isFailure) ≤ run.totalFailures := counted
    refine ⟨result, rfl, fun r inside fails => ?_⟩
    have some : 0 < result.records.countP (·.outcome.isFailure) :=
      List.countP_pos_iff.mpr ⟨r, inside, fails⟩
    omega

theorem Writes.mem_goals [FileStore σ] {target : Path → Path} {store after : σ}
    {documents later : List DocumentResult} {goals : List Path}
    (writes : Writes target store documents later goals after) {d : DocumentResult}
    (member : d ∈ later) (compiled : d.result?.isSome) (quiet : d.error? = none) :
    target d.path ∈ goals := by
  induction writes with
  | done => cases member
  | failed _ ih =>
    rcases List.mem_cons.mp member with rfl | member
    · cases compiled
    · exact ih member
  | written _ _ ih =>
    rcases List.mem_cons.mp member with rfl | member
    · exact List.mem_cons_self ..
    · exact List.mem_cons_of_mem _ (ih member)
  | refused _ _ ih =>
    rcases List.mem_cons.mp member with rfl | member
    · cases quiet
    · exact ih member

theorem writes_runOver [FileStore σ] (store : σ) {options : FolderOptions} (wanted : options.writes)
    (root : Path) (listed : List Path) :
    Writes (options.goal (FileStore.view store) root) store
      (compileAll (FileStore.view store) options.perDocument
        (graphOver store options listed).compileOrder.cyclic .empty
        (graphOver store options listed).compileOrder.all).1
      (runOver store options root listed).1.documents (runOver store options root listed).1.written
      (runOver store options root listed).2 := by
  have out : ∀ documents, writeOut options root store documents =
      writeAll (options.goal (FileStore.view store) root) store documents := fun documents => if_pos wanted
  have writes := writes_writeAll (options.goal (FileStore.view store) root) store
    (compileAll (FileStore.view store) options.perDocument
      (graphOver store options listed).compileOrder.cyclic .empty
      (graphOver store options listed).compileOrder.all).1
  rw [← out] at writes
  exact writes

end FolderRun

/-- The failures of a run are the failed references and the documents that were not compiled. A
document that was compiled and could not be written carries a complaint as well, but is not among
them. So a run without failures has compiled all documents of the folder and replaced all
references, and if none was refused it has written what it was to write. -/
theorem compileFolder_accounts [FileStore σ] {store after : σ} {options : FolderOptions}
    {dir : Spelling} {run : FolderRun}
    (compiled : compileFolder store options dir = (.ok run, after)) :
    run.totalFailures + run.refusals = run.failedReferences + run.complaints ∧
    (∃ listed, (FileStore.view store).absolute dir.path = .ok run.root ∧
      listDocuments (FileStore.view store) (.ofPath run.root) options.exclude = .ok listed ∧
      ∀ p ∈ listed, p.normalize ∈ run.order) ∧
    (¬ run.hasFailures → ∀ d ∈ run.documents, ∃ result, d.result? = some result ∧
      (∀ r ∈ result.records, ¬ r.outcome.isFailure) ∧
      (run.refusals = 0 → d.error? = none ∧
        (options.writes → options.goal (FileStore.view store) run.root d.path ∈ run.written))) := by
  refine ⟨run.totalFailures_add_refusals, ?_, fun fine d member => ?_⟩
  · obtain ⟨root, listed, place, list, rfl, rfl⟩ := compileFolder_eq_ok_iff.mp compiled
    refine ⟨listed, (placeFolder_eq_ok place).1, list, fun p member => ?_⟩
    rw [FolderRun.order_runOver]
    exact Graph.mem_compileOrder (DocumentGraph.mem_paths_build.mpr ⟨p, member, rfl⟩)
  · obtain ⟨result, found, replaced⟩ := FolderRun.exists_result_of_not_hasFailures fine member
    refine ⟨result, found, replaced, fun none => ?_⟩
    have there : d.result?.isSome := by rw [found]; rfl
    have quiet : d.error? = Option.none := by
      have fit := List.countP_eq_zero.mp none d member
      simpa [there] using fit
    refine ⟨quiet, fun wanted => ?_⟩
    obtain ⟨root, listed, place, list, rfl, rfl⟩ := compileFolder_eq_ok_iff.mp compiled
    exact (FolderRun.writes_runOver store wanted root listed).mem_goals member there quiet

/-- One document in a place where nothing can be written. -/
def lockedStore : FaultyStore where
  faults := ⟨[], [(.parse "/d/a.md".toList, ⟨.permissionDenied, "denied"⟩)], [], []⟩
  store := MemoryStore.empty.insert (.parse "/d/a.md".toList) "text".toList

/-- The run passes for one without failures although the only document is not written. -/
theorem compileFolder_accounts_locked :
    ∃ run after,
      compileFolder lockedStore ⟨.default, [], none, true⟩ ⟨"/d".toList⟩ = (.ok run, after) ∧
        ¬ run.hasFailures ∧ run.totalFailures = 0 ∧ run.written = [] ∧
          run.failedReferences + run.complaints = 1 := by
  have fine : (compileFolder lockedStore ⟨.default, [], none, true⟩ ⟨"/d".toList⟩).1.toOption.any
      (fun run => run.totalFailures = 0 && run.refusals = 1 && run.written = []) = true := by
    decide +kernel
  obtain ⟨run, after, compiled, fine⟩ := exists_run_of_any fine
  simp only [Bool.and_eq_true, decide_eq_true_eq] at fine
  obtain ⟨⟨none, refused⟩, written⟩ := fine
  have sum := (compileFolder_accounts compiled).1
  have quiet : ¬ run.hasFailures := by simp [FolderRun.hasFailures, none]
  exact ⟨run, after, compiled, quiet, none, written, by omega⟩

end Transclusion

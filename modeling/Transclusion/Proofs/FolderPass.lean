import Mathlib.Algebra.Order.BigOperators.Group.List
import Mathlib.Algebra.Order.Group.Nat
import Transclusion.FolderRun
import Transclusion.Proofs.PathForm
import Transclusion.Proofs.PathOrder

namespace Transclusion

namespace FolderOptions

/-- How each document of a folder is compiled: its references start where it stands. -/
def perDocument (options : FolderOptions) : CompileOptions := { options.compile with basePath := none }

def writes (options : FolderOptions) : Bool := options.outputDir.isSome || options.inPlace

/-- Where a document of the folder `root` is written. -/
def goal (options : FolderOptions) (files : FileView) (root p : Path) : Path :=
  FolderRun.target root (options.outputDir.map fun dir => files.absoluteOr dir.path) p

end FolderOptions

namespace DocumentResult

/-- The outcome as it was before anything was written. -/
def unwritten (d : DocumentResult) : DocumentResult :=
  match d.outcome with
  | .compiled result _ => { d with outcome := .compiled { result with output := none } none }
  | .failed _ => d

theorem path_unwritten (d : DocumentResult) : d.unwritten.path = d.path := by
  unfold unwritten
  split <;> rfl

theorem cyclic_unwritten (d : DocumentResult) : d.unwritten.cyclic = d.cyclic := by
  unfold unwritten
  split <;> rfl

theorem records_unwritten (d : DocumentResult) : d.unwritten.records = d.records := by
  obtain ⟨path, cyclic, outcome⟩ := d
  cases outcome <;> rfl

theorem isNone_result_unwritten (d : DocumentResult) : d.unwritten.result?.isNone = d.result?.isNone := by
  obtain ⟨path, cyclic, outcome⟩ := d
  cases outcome <;> rfl

end DocumentResult

namespace FolderRun

/-- Writing some documents in order turns `documents` into `written`, with the files that were
written and the store afterwards. -/
inductive Writes [FileStore σ] (target : Path → Path) :
    σ → List DocumentResult → List DocumentResult → List Path → σ → Prop
  | done {store} : Writes target store [] [] [] store
  | failed {store path cyclic fault rest later goals after} : Writes target store rest later goals after →
      Writes target store (⟨path, cyclic, .failed fault⟩ :: rest)
        (⟨path, cyclic, .failed fault⟩ :: later) goals after
  | written {store path cyclic result complaint rest later goals next after} :
      FileStore.write store (.ofPath (target path)) result.content = (.ok (), next) →
      Writes target next rest later goals after →
      Writes target store (⟨path, cyclic, .compiled result complaint⟩ :: rest)
        (⟨path, cyclic, .compiled { result with output := some (.ofPath (target path)) } none⟩ :: later)
        (target path :: goals) after
  | refused {store path cyclic result complaint rest later goals next after} {e : AccessError} :
      FileStore.write store (.ofPath (target path)) result.content = (.error e, next) →
      Writes target next rest later goals after →
      Writes target store (⟨path, cyclic, .compiled result complaint⟩ :: rest)
        (⟨path, cyclic, .compiled result (some
          ("Failed to write " ++ String.ofList (target path).text ++ ": " ++ e.message))⟩ :: later)
        goals after

theorem writes_writeAll [FileStore σ] (target : Path → Path) (store : σ) (documents : List DocumentResult) :
    Writes target store documents (writeAll target store documents).1 (writeAll target store documents).2.1
      (writeAll target store documents).2.2 := by
  induction documents generalizing store with
  | nil => exact .done
  | cons d rest ih =>
    obtain ⟨path, cyclic, outcome⟩ := d
    cases outcome with
    | failed fault => exact .failed (ih store)
    | compiled result complaint =>
      unfold writeAll
      dsimp only
      cases write : FileStore.write store (.ofPath (target path)) result.content with
      | mk answer next =>
        cases answer with
        | ok => exact .written write (ih next)
        | error e => exact .refused write (ih next)

theorem Writes.writeAll_eq [FileStore σ] {target : Path → Path} {store after : σ}
    {documents later : List DocumentResult} {goals : List Path}
    (writes : Writes target store documents later goals after) :
    writeAll target store documents = (later, goals, after) := by
  induction writes with
  | done => rfl
  | failed _ ih => simp only [writeAll, ih]
  | written write _ ih => simp only [writeAll, write, ih]
  | refused write _ ih => simp only [writeAll, write, ih]

theorem Writes.unwritten_eq [FileStore σ] {target : Path → Path} {store after : σ}
    {documents later : List DocumentResult} {goals : List Path}
    (writes : Writes target store documents later goals after) :
    later.map (·.unwritten) = documents.map (·.unwritten) := by
  induction writes with
  | done => rfl
  | failed _ ih => exact congrArg (List.cons _) ih
  | written _ _ ih => exact congrArg (List.cons _) ih
  | refused _ _ ih => exact congrArg (List.cons _) ih

/-- Writes the documents when the options ask for it. -/
def writeOut [FileStore σ] (options : FolderOptions) (root : Path) (store : σ)
    (documents : List DocumentResult) :
    List DocumentResult × List Path × σ :=
  if options.writes then writeAll (options.goal (FileStore.view store) root) store documents
    else (documents, [], store)

/-- Writing is all that happens to the documents once they are compiled. -/
theorem unwritten_writeOut [FileStore σ] (options : FolderOptions) (root : Path) (store : σ)
    (documents : List DocumentResult) :
    (writeOut options root store documents).1.map (·.unwritten) = documents.map (·.unwritten) := by
  unfold writeOut
  split
  · exact (writes_writeAll ..).unwritten_eq
  · rfl

/-- Compiles the documents in the given order and writes them. -/
def passOver [FileStore σ] (store : σ) (options : FolderOptions) (root : Path) (cyclic order : List Path) :
    List DocumentResult × List Path × σ :=
  writeOut options root store (compileAll (FileStore.view store) options.perDocument cyclic .empty order).1

/-- The run over the documents that were found in the folder `root`. -/
def runOver [FileStore σ] (store : σ) (options : FolderOptions) (root : Path) (listed : List Path) :
    FolderRun × σ :=
  let built := DocumentGraph.build (FileStore.view store) options.compile.extensions listed
  let order := built.graph.compileOrder
  let compiled := compileAll (FileStore.view store) options.perDocument order.cyclic .empty order.all
  let (documents, written, after) := passOver store options root order.cyclic order.all
  ({ root := root, documents := documents, cyclic := order.cyclic, cycles := built.graph.cycles
     unreadable := built.unreadable, counts := compiled.2.2.counts, written := written
     events := .start listed.length :: compiled.2.1 ++ [.finish] }, after)

theorem unwritten_documents [FileStore σ] (store : σ) (options : FolderOptions) (root : Path)
    (listed : List Path) :
    let order :=
      (DocumentGraph.build (FileStore.view store) options.compile.extensions listed).graph.compileOrder
    (runOver store options root listed).1.documents.map (·.unwritten) =
      (compileAll (FileStore.view store) options.perDocument order.cyclic .empty order.all).1.map
        (·.unwritten) :=
  unwritten_writeOut ..

theorem mem_circularPaths {run : FolderRun} {d : DocumentResult} {r : Record} (document : d ∈ run.documents)
    (member : r ∈ d.records) (circular : r.outcome.isCircular) : r.resolution.path ∈ run.circularPaths := by
  unfold circularPaths
  rw [mem_sortNew]
  exact List.mem_map_of_mem (List.mem_filter.mpr ⟨List.mem_flatMap.mpr ⟨d, document, member⟩, circular⟩)

theorem hasFailures_of_record {run : FolderRun} {d : DocumentResult} {r : Record}
    (document : d ∈ run.documents) (member : r ∈ d.records) (fails : r.outcome.isFailure) :
    run.hasFailures := by
  have counted : 0 < d.failureCount := by
    obtain ⟨path, cyclic, outcome⟩ := d
    cases outcome with
    | failed fault => exact Nat.one_pos
    | compiled result complaint => exact List.countP_pos_iff.mpr ⟨r, member, fails⟩
  have total : d.failureCount ≤ run.totalFailures := List.le_sum_of_mem (List.mem_map_of_mem document)
  exact decide_eq_true (counted.trans_le total)

end FolderRun

theorem placeFolder_eq_ok {files : FileView} {dir : Spelling} {caller : String} {root : Path}
    (found : files.placeFolder dir caller = .ok root) :
    files.absolute dir.path = .ok root ∧ files.kind root = some .directory := by
  unfold FileView.placeFolder FileView.place at found
  cases place : files.absolute dir.path with
  | error e => simp [place, bind, Except.bind, Except.mapError] at found
  | ok path =>
    by_cases folder : files.kind path = some .directory
    · have same : path = root := by
        simpa [place, folder, bind, Except.bind, Except.mapError, pure, Except.pure] using found
      subst same
      exact ⟨rfl, folder⟩
    · simp [place, folder, bind, Except.bind, Except.mapError, throw, throwThe,
        MonadExceptOf.throw] at found

theorem listDocuments_eq_ok_iff {files : FileView} {dir : Spelling} {exclude : List Text}
    {listed : List Path} :
    listDocuments files dir exclude = .ok listed ↔ ∃ globs all, parsePatterns exclude = .ok globs ∧
      files.list dir.path = .ok all ∧
      listed = sortBy (fun p q => (compare p q).isLE)
        (all.filter fun file => file.isDocument && !isExcluded globs dir.path file) := by
  unfold listDocuments
  cases patterns : parsePatterns exclude with
  | error e => simp [bind, Except.bind, Except.mapError]
  | ok globs =>
    cases list : files.list dir.path with
    | error e => simp [bind, Except.bind, Except.mapError]
    | ok all => simp [bind, Except.bind, Except.mapError, pure, Except.pure, eq_comm]

theorem listDocuments_eq_ok {files : FileView} {dir : Spelling} {exclude : List Text} {listed : List Path}
    (found : listDocuments files dir exclude = .ok listed) :
    ∃ globs all, files.list dir.path = .ok all ∧
      listed.Perm (all.filter fun file => file.isDocument && !isExcluded globs dir.path file) := by
  obtain ⟨globs, all, _, list, rfl⟩ := listDocuments_eq_ok_iff.mp found
  exact ⟨globs, all, list, perm_sortBy ..⟩

theorem listDocuments_absolute {files : FileView} {dir : Spelling} {exclude : List Text}
    {listed : List Path} (absolute : dir.path.isAbsolute)
    (found : listDocuments files dir exclude = .ok listed) :
    ∀ p ∈ listed, p.isAbsolute := by
  obtain ⟨globs, all, list, perm⟩ := listDocuments_eq_ok found
  exact fun p member => files.list_absolute absolute list p (List.mem_of_mem_filter (perm.subset member))

/-- The documents of a folder stand, as the graph has them, where a compilation looks for them. -/
theorem absolute_of_listed {files : FileView} {dir : Spelling} {caller : String} {root : Path}
    {exclude : List Text} {listed : List Path} (place : files.placeFolder dir caller = .ok root)
    (list : listDocuments files (.ofPath root) exclude = .ok listed) {file : Path}
    (member : file ∈ listed) :
    files.absolute (Spelling.ofPath file.normalize).path = .ok file.normalize := by
  have rooted : (Spelling.ofPath root).path.isAbsolute := by
    rw [Spelling.path_ofPath]
    exact (FileView.absolute_eq_ok (placeFolder_eq_ok place).1).1
  have absolute : file.isAbsolute := listDocuments_absolute rooted list file member
  rw [Spelling.path_ofPath]
  exact FileView.absolute_of_normal (Path.isAbsolute_normalize absolute) (Path.normalize_normalize file)

/-- A folder is compiled once it is there and its documents are listed. -/
theorem compileFolder_eq [FileStore σ] (store : σ) (options : FolderOptions) (dir : Spelling) :
    compileFolder store options dir =
      match (FileStore.view store).placeFolder dir "compiler::folder" with
      | .error fault => (.error fault, store)
      | .ok root =>
        match listDocuments (FileStore.view store) (.ofPath root) options.exclude with
        | .error fault => (.error fault, store)
        | .ok listed =>
          ((.ok (FolderRun.runOver store options root listed).1),
            (FolderRun.runOver store options root listed).2) := by
  unfold compileFolder
  cases place : (FileStore.view store).placeFolder dir "compiler::folder" with
  | error fault => simp [place, bind, Except.bind]
  | ok root =>
    cases list : listDocuments (FileStore.view store) (.ofPath root) options.exclude with
    | error fault => simp [place, list, bind, Except.bind]
    | ok listed =>
      simp only [place, list, bind, Except.bind, pure, Except.pure, FolderRun.runOver,
        FolderRun.passOver, FolderRun.writeOut,
        FolderOptions.writes, FolderOptions.perDocument, Option.isSome_map]
      by_cases writes : (options.outputDir.isSome || options.inPlace) = true
      · simp only [writes, if_true]
        rfl
      · simp only [writes, Bool.false_eq_true, if_false]

theorem compileFolder_eq_ok_iff [FileStore σ] {store after : σ} {options : FolderOptions}
    {dir : Spelling} {run : FolderRun} :
    compileFolder store options dir = (.ok run, after) ↔
      ∃ root listed, (FileStore.view store).placeFolder dir "compiler::folder" = .ok root ∧
        listDocuments (FileStore.view store) (.ofPath root) options.exclude = .ok listed ∧
        (FolderRun.runOver store options root listed).1 = run ∧
        (FolderRun.runOver store options root listed).2 = after := by
  rw [compileFolder_eq]
  cases (FileStore.view store).placeFolder dir "compiler::folder" with
  | error fault => simp
  | ok root =>
    cases list : listDocuments (FileStore.view store) (.ofPath root) options.exclude with
    | error fault => simp [list]
    | ok listed => simp [list]

theorem compileFolder_eq_ok [FileStore σ] {store after : σ} {options : FolderOptions}
    {dir : Spelling} {run : FolderRun}
    (compiled : compileFolder store options dir = (.ok run, after)) :
    ∃ listed documents told session,
      (FileStore.view store).placeFolder dir "compiler::folder" = .ok run.root ∧
      listDocuments (FileStore.view store) (.ofPath run.root) options.exclude = .ok listed ∧
      let graph := (DocumentGraph.build (FileStore.view store) options.compile.extensions listed).graph
      FolderRun.compileAll (FileStore.view store) { options.compile with basePath := none }
        graph.compileOrder.cyclic .empty graph.compileOrder.all = (documents, told, session) ∧
      run.documents.map (·.records) = documents.map (·.records) ∧ run.cycles = graph.cycles := by
  obtain ⟨root, listed, place, list, rfl, rfl⟩ := compileFolder_eq_ok_iff.mp compiled
  refine ⟨listed, _, _, _, place, list, rfl, ?_, rfl⟩
  have kept := congrArg (List.map DocumentResult.records)
    (FolderRun.unwritten_documents store options root listed)
  simp only [List.map_map, Function.comp_def, DocumentResult.records_unwritten] at kept
  exact kept

/-- A run of which something is true has come to its end. -/
theorem exists_run_of_any {done : Except Fault FolderRun × σ} {holds : FolderRun → Bool}
    (any : done.1.toOption.any holds = true) : ∃ run after, done = (.ok run, after) ∧ holds run := by
  obtain ⟨_ | run, after⟩ := done
  · cases any
  · exact ⟨run, after, rfl, any⟩

end Transclusion

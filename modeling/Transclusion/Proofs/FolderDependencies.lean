import Transclusion.Proofs.CycleDetection
import Transclusion.Proofs.DocumentSet
import Transclusion.Proofs.FolderOrder

namespace Transclusion

/-- The files that the mentions in the document at `p` were found to lead to. -/
def Compilation.targetsFrom (result : Compilation) (p : Path) : List Path :=
  (result.records.filter fun r => r.importedFrom = p && r.resolution.isFile).map (·.resolution.path)

theorem Compilation.mem_targetsFrom {result : Compilation} {p q : Path} :
    q ∈ result.targetsFrom p ↔ ∃ r ∈ result.records, r.importedFrom = p ∧ r.resolution = .file q := by
  have leads (resolution : Resolution) : resolution.isFile ∧ resolution.path = q ↔
      resolution = .file q := by
    cases resolution <;> simp [Resolution.isFile, Resolution.path]
  simp only [targetsFrom, List.mem_map, List.mem_filter, Bool.and_eq_true, decide_eq_true_eq,
    and_assoc, leads]

/-- What a document mentions, as scanning it finds, is what its own records lead to when it is compiled. -/
theorem compileDocument_mentions_iff {files : FileView} {options : CompileOptions} {file : Spelling}
    {result : Compilation} {s s' : Session}
    (compiled : compileDocument files options file s = .ok (result, s'))
    (home : options.basePath = none) (q : Path) :
    Mentions files options.extensions result.path q ↔ q ∈ result.targetsFrom result.path := by
  obtain ⟨t, run, read, _⟩ := compileDocument_unfolds compiled home
  rw [Compilation.mem_targetsFrom]
  constructor
  · intro mentions
    obtain ⟨u, readable, r, held, leads⟩ := mentions_iff.mp mentions
    obtain rfl : t = u := Except.ok.inj (read.symm.trans readable)
    obtain ⟨record, member, from_, _, resolved⟩ := run.reports r held
    exact ⟨record, member, from_, resolved.trans leads⟩
  · rintro ⟨r, member, from_, leads⟩
    exact from_ ▸ run.mentions_of_record read member leads

/-- What a document of the graph depends on are those of the documents that it mentions. -/
theorem DocumentGraph.dependenciesOf_build {files : FileView} {extensions : List Text}
    {listed targets : List Path} {p : Path}
    (known : p ∈ (build files extensions listed).graph.paths)
    (mentions : ∀ q, Mentions files extensions p q ↔ q ∈ targets) :
    (build files extensions listed).graph.dependenciesOf p =
      (build files extensions listed).graph.paths.filter targets.contains := by
  have coherent : (build files extensions listed).graph.Coherent := coherent_build
  refine (coherent.dependencies p).eq_of_mem_iff (coherent.ascending.sublist List.filter_sublist)
    fun q => ?_
  rw [← Graph.Depends, depends_build, and_iff_right known, mentions, List.mem_filter, List.contains_iff_mem]

namespace FolderRun

/-- A document with a result was compiled in some session to one with the same records. -/
theorem exists_session_runOver [FileStore σ] {store : σ} {options : FolderOptions} {root : Path}
    {listed : List Path} {d : DocumentResult}
    (member : d ∈ (runOver store options root listed).1.documents) {result : Compilation}
    (found : d.result? = some result) :
    ∃ same before after, compileDocument (FileStore.view store) options.perDocument
      (.ofPath d.path) before = .ok (same, after) ∧
      same.records = result.records := by
  obtain ⟨d', inside, alike⟩ := exists_compiled member
  have path : d'.path = d.path := by rw [← d.path_unwritten, ← alike, d'.path_unwritten]
  have there : d'.result?.isNone = false := by
    rw [← d'.isNone_result_unwritten, alike, d.isNone_result_unwritten, found]
    rfl
  obtain ⟨same, found'⟩ := Option.isSome_iff_exists.mp (by simpa using there)
  obtain ⟨before, made⟩ := exists_result_eq inside
  have records : d'.records = d.records := by rw [← d'.records_unwritten, alike, d.records_unwritten]
  rw [found', path] at made
  cases compiled : compileDocument (FileStore.view store) options.perDocument (.ofPath d.path) before with
  | error fault =>
    rw [compiled] at made
    cases made
  | ok pair =>
    rw [compiled] at made
    cases made
    exact ⟨pair.1, before, pair.2, compiled, by simpa [DocumentResult.records, found, found'] using records⟩

end FolderRun

/-- The graph that orders a folder and the compilation of its documents agree: what a compiled
document depends on are those documents of the folder that the records of its own mentions lead
to. -/
theorem compileFolder_records_dependencies [FileStore σ] {store after : σ} {options : FolderOptions}
    {dir : Spelling} {run : FolderRun}
    (compiled : compileFolder store options dir = (.ok run, after)) :
    ∃ listed, (FileStore.view store).absolute dir.path = .ok run.root ∧
      listDocuments (FileStore.view store) (.ofPath run.root) options.exclude = .ok listed ∧
      let graph := (DocumentGraph.build (FileStore.view store) options.compile.extensions listed).graph
      run.order.Perm graph.paths ∧
      ∀ d ∈ run.documents, ∀ result, d.result? = some result →
        graph.dependenciesOf d.path = graph.paths.filter (result.targetsFrom d.path).contains := by
  obtain ⟨root, listed, place, list, rfl, rfl⟩ := compileFolder_eq_ok_iff.mp compiled
  have coherent : (FolderRun.graphOver store options listed).Coherent := DocumentGraph.coherent_build
  have perm : (FolderRun.runOver store options root listed).1.order.Perm
      (FolderRun.graphOver store options listed).paths := by
    rw [FolderRun.order_runOver]
    exact coherent.compileOrder_perm
  refine ⟨listed, (placeFolder_eq_ok place).1, list, perm, fun d member result found => ?_⟩
  obtain ⟨same, before, after, compiled, records⟩ := FolderRun.exists_session_runOver member found
  have known : d.path ∈ (FolderRun.graphOver store options listed).paths :=
    perm.mem_iff.mp (List.mem_map_of_mem member)
  have home : same.path = d.path := by
    obtain ⟨_, _, _, placed⟩ := compileDocument_unfolds compiled rfl
    obtain ⟨file, inside, normal⟩ := DocumentGraph.mem_paths_build.mp known
    exact Except.ok.inj (placed.symm.trans (normal ▸ absolute_of_listed place list inside))
  have targets : same.targetsFrom d.path = result.targetsFrom d.path := by
    rw [Compilation.targetsFrom, records, ← Compilation.targetsFrom]
  have mentions := compileDocument_mentions_iff compiled rfl
  rw [home] at mentions
  rw [← targets]
  exact DocumentGraph.dependenciesOf_build known mentions

/-- A chain of three documents, the first of which also mentions one outside of the folder and one
that is not there. -/
def annex : MemoryStore :=
  (((MemoryStore.empty.insert (.parse "/d/a.md".toList) "@b.md @../x.md @none.md".toList).insert
    (.parse "/d/b.md".toList) "@c.md".toList).insert (.parse "/d/c.md".toList) "text".toList).insert
    (.parse "/x.md".toList) "outside".toList

/-- The document at the head of the chain depends on the next one only, although it has records of more. -/
theorem compileFolder_records_dependencies_annex : ∃ run after d result,
    compileFolder annex ⟨.default, [], none, false⟩ ⟨"/d".toList⟩ = (.ok run, after) ∧ d ∈ run.documents ∧
      d.result? = some result ∧
      result.targetsFrom d.path = ["/d/b.md", "/x.md"].map (.parse ·.toList) ∧
      (DocumentGraph.build (FileStore.view annex) CompileOptions.default.extensions
          (["/d/a.md", "/d/b.md", "/d/c.md"].map (.parse ·.toList))).graph.dependenciesOf d.path =
        [.parse "/d/b.md".toList] := by
  have fine : (compileFolder annex ⟨.default, [], none, false⟩ ⟨"/d".toList⟩).1.toOption.any (fun run =>
      run.root = .parse "/d".toList && run.documents.any fun d =>
        d.path = .parse "/d/a.md".toList && d.result?.any fun result =>
          result.targetsFrom d.path = ["/d/b.md", "/x.md"].map (.parse ·.toList)) = true := by
    decide +kernel
  obtain ⟨run, after, compiled, fine⟩ := exists_run_of_any fine
  simp only [Bool.and_eq_true, decide_eq_true_eq, List.any_eq_true, Option.any_eq_true] at fine
  obtain ⟨root, d, member, _, result, found, targets⟩ := fine
  obtain ⟨listed, _, list, _, agree⟩ := compileFolder_records_dependencies compiled
  rw [root] at list
  obtain rfl : listed = ["/d/a.md", "/d/b.md", "/d/c.md"].map (.parse ·.toList) :=
    Except.ok.inj (list.symm.trans (by decide +kernel))
  refine ⟨run, after, d, result, compiled, member, found, targets, ?_⟩
  rw [agree d member result found, targets]
  decide +kernel

end Transclusion

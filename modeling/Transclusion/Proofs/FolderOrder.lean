import Transclusion.Proofs.FolderPass
import Transclusion.Proofs.MemoryForm
import Transclusion.Proofs.ScannedGraph

namespace Transclusion

namespace FolderRun

section Pass

variable (files : FileView) (options : CompileOptions) (cyclic : List Path)

theorem paths_compileAll (s : Session) (order : List Path) :
    (compileAll files options cyclic s order).1.map (·.path) = order := by
  induction order generalizing s with
  | nil => rfl
  | cons p rest ih => simp only [compileAll, List.map_cons, ih]

/-- The observer is told of each document as its turn comes. -/
theorem events_compileAll (s : Session) (order : List Path) :
    (compileAll files options cyclic s order).2.1 = order.map .document := by
  induction order generalizing s with
  | nil => rfl
  | cons p rest ih => simp only [compileAll, List.map_cons, ih]

variable {files options cyclic} {order : List Path} {s : Session} {d : DocumentResult}

theorem cyclic_of_mem_compileAll (member : d ∈ (compileAll files options cyclic s order).1) :
    d.cyclic = cyclic.contains d.path := by
  induction order generalizing s with
  | nil => cases member
  | cons p rest ih =>
    rcases List.mem_cons.mp member with rfl | later
    · rfl
    · exact ih later

/-- The result of a document is what compiling it gives in the session that those before it left. -/
theorem exists_result_eq (member : d ∈ (compileAll files options cyclic s order).1) :
    ∃ before, d.result? = (compileDocument files options (.ofPath d.path) before).toOption.map (·.1) := by
  induction order generalizing s with
  | nil => cases member
  | cons p rest ih =>
    cases compiled : compileDocument files options (.ofPath p) s with
    | error fault =>
      simp only [compileAll, compiled] at member
      rcases List.mem_cons.mp member with rfl | later
      · exact ⟨s, by rw [compiled]; rfl⟩
      · exact ih later
    | ok pair =>
      simp only [compileAll, compiled] at member
      rcases List.mem_cons.mp member with rfl | later
      · exact ⟨s, by rw [compiled]; rfl⟩
      · exact ih later

/-- A document without a result is one whose compilation fails, whatever was compiled before it. -/
theorem isNone_result_iff (member : d ∈ (compileAll files options cyclic s order).1) :
    d.result?.isNone ↔ ∃ fault, ∀ s', compileDocument files options (.ofPath d.path) s' = .error fault := by
  obtain ⟨before, made⟩ := exists_result_eq member
  rw [made]
  cases compiled : compileDocument files options (.ofPath d.path) before with
  | error fault => exact iff_of_true rfl ⟨fault, compileDocument_error compiled options⟩
  | ok pair =>
    refine iff_of_false Bool.false_ne_true ?_
    rintro ⟨fault, fails⟩
    cases compiled.symm.trans (fails before)

/-- Leaving out a document that cannot be compiled changes nothing for the others. -/
theorem compileAll_skip {p : Path} {fault : Fault}
    (fails : ∀ s, compileDocument files options (.ofPath p) s = .error fault) (s : Session)
    (order : List Path) :
    compileAll files options cyclic s (order.filter (· ≠ p)) =
      ((compileAll files options cyclic s order).1.filter (·.path ≠ p),
        (order.filter (· ≠ p)).map .document, (compileAll files options cyclic s order).2.2) := by
  induction order generalizing s with
  | nil => rfl
  | cons q rest ih =>
    by_cases here : q = p
    · subst here
      rw [List.filter_cons_of_neg (by simp), ih]
      simp only [compileAll, fails]
      rw [List.filter_cons_of_neg (by simp)]
    · rw [List.filter_cons_of_pos (by simpa using here)]
      simp only [compileAll, ih, List.map_cons]
      rw [List.filter_cons_of_pos (by simpa using here)]

end Pass

section Writing

variable {σ : Type} [FileStore σ] {target : Path → Path} {store after : σ}
    {documents later : List DocumentResult}
  {goals : List Path}

/-- Nothing is written for a document that has no result. -/
theorem Writes.skip (writes : Writes target store documents later goals after) {p : Path}
    (failed : ∀ d ∈ documents, d.path = p → d.result?.isNone) :
    Writes target store (documents.filter (·.path ≠ p)) (later.filter (·.path ≠ p)) goals after := by
  induction writes with
  | done => exact .done
  | @failed _ path _ _ _ _ _ _ _ ih =>
    have rest := ih fun d member => failed d (List.mem_cons_of_mem _ member)
    by_cases here : path = p
    · simpa [here] using rest
    · simpa [here] using rest.failed
  | @written _ path _ _ _ _ _ _ _ _ write _ ih =>
    have rest := ih fun d member => failed d (List.mem_cons_of_mem _ member)
    have here : path ≠ p := fun same => Bool.false_ne_true (failed _ (List.mem_cons_self ..) same)
    simpa [here] using rest.written write
  | @refused _ path _ _ _ _ _ _ _ _ _ write _ ih =>
    have rest := ih fun d member => failed d (List.mem_cons_of_mem _ member)
    have here : path ≠ p := fun same => Bool.false_ne_true (failed _ (List.mem_cons_self ..) same)
    simpa [here] using rest.refused write

end Writing

theorem passOver_skip [FileStore σ] {store : σ} {options : FolderOptions} {root p : Path}
    {cyclic order : List Path} {fault : Fault}
    (fails : ∀ s, compileDocument (FileStore.view store) options.perDocument (.ofPath p) s = .error fault) :
    passOver store options root cyclic (order.filter (· ≠ p)) =
      ((passOver store options root cyclic order).1.filter (·.path ≠ p),
        (passOver store options root cyclic order).2) := by
  unfold passOver writeOut
  rw [compileAll_skip fails]
  split
  · refine ((writes_writeAll ..).skip fun d member same => ?_).writeAll_eq
    exact (isNone_result_iff member).mpr ⟨fault, same ▸ fails⟩
  · rfl

section Run

variable {σ : Type} [FileStore σ] (store : σ) (options : FolderOptions) (root : Path) (listed : List Path)

/-- The graph that gives the run its order. -/
abbrev graphOver : Graph :=
  (DocumentGraph.build (FileStore.view store) options.compile.extensions listed).graph

theorem order_runOver :
    (runOver store options root listed).1.order = (graphOver store options listed).compileOrder.all := by
  have kept := congrArg (List.map DocumentResult.path) (unwritten_documents store options root listed)
  simp only [List.map_map, Function.comp_def, DocumentResult.path_unwritten] at kept
  exact kept.trans (paths_compileAll ..)

theorem events_runOver : (runOver store options root listed).1.events =
    .start listed.length :: (runOver store options root listed).1.order.map .document ++ [.finish] := by
  rw [order_runOver, ← events_compileAll (FileStore.view store) options.perDocument
    (graphOver store options listed).compileOrder.cyclic .empty]
  rfl

theorem passOver_order :
    passOver store options (runOver store options root listed).1.root
      (runOver store options root listed).1.cyclic (runOver store options root listed).1.order =
    ((runOver store options root listed).1.documents, (runOver store options root listed).1.written,
      (runOver store options root listed).2) := by
  rw [order_runOver]
  rfl

variable {store options root listed}

/-- What a run has for a document is what was compiled for it, but for the writing. -/
theorem exists_compiled {d : DocumentResult}
    (member : d ∈ (runOver store options root listed).1.documents) :
    ∃ d' ∈ (compileAll (FileStore.view store) options.perDocument
      (graphOver store options listed).compileOrder.cyclic .empty
      (graphOver store options listed).compileOrder.all).1, d'.unwritten = d.unwritten := by
  have inside : d.unwritten ∈ (runOver store options root listed).1.documents.map (·.unwritten) :=
    List.mem_map_of_mem member
  rw [unwritten_documents] at inside
  exact List.mem_map.mp inside

theorem cyclic_runOver {d : DocumentResult} (member : d ∈ (runOver store options root listed).1.documents) :
    d.cyclic = (graphOver store options listed).compileOrder.cyclic.contains d.path := by
  obtain ⟨d', compiled, same⟩ := exists_compiled member
  rw [← d.cyclic_unwritten, ← d.path_unwritten, ← same, d'.cyclic_unwritten, d'.path_unwritten]
  exact cyclic_of_mem_compileAll compiled

theorem normal_of_listed {exclude : List Text} (orderly : (FileStore.view store).Orderly)
    {dir : Spelling} {caller : String}
    (place : (FileStore.view store).placeFolder dir caller = .ok root)
    (list : listDocuments (FileStore.view store) (.ofPath root) exclude = .ok listed) :
    ∀ p ∈ listed, p.normalize = p := by
  obtain ⟨globs, all, found, perm⟩ := listDocuments_eq_ok list
  rw [Spelling.path_ofPath] at found
  have normal := (FileView.absolute_eq_ok (placeFolder_eq_ok place).1).2
  exact fun p member => orderly.normal normal found p (List.mem_of_mem_filter (perm.subset member))

/-- Every document that is listed is compiled once, and no other. -/
theorem perm_runOver {exclude : List Text} (orderly : (FileStore.view store).Orderly)
    (options : FolderOptions) {dir : Spelling} {caller : String}
    (place : (FileStore.view store).placeFolder dir caller = .ok root)
    (list : listDocuments (FileStore.view store) (.ofPath root) exclude = .ok listed) :
    (runOver store options root listed).1.order.Perm listed := by
  have normal := normal_of_listed orderly place list
  have distinct : listed.Nodup := by
    obtain ⟨globs, all, found, perm⟩ := listDocuments_eq_ok list
    exact perm.nodup_iff.mpr ((orderly.distinct found).filter _)
  have coherent : (graphOver store options listed).Coherent := DocumentGraph.coherent_build
  rw [order_runOver]
  refine coherent.compileOrder_perm.trans ?_
  rw [DocumentGraph.paths_build, List.map_congr_left normal, List.map_id']
  exact (List.perm_ext_iff_of_nodup (ascending_sortNew listed).nodup distinct).mpr fun p => mem_sortNew

end Run

end FolderRun

/-- A folder is compiled document by document: each of those listed once, behind the documents that
it refers to unless it is left over as cyclic, and those last. The observer is told so in the same
order. A document that cannot be compiled might as well not have been there. -/
theorem compileFolder_covers [FileStore σ] {store after : σ} {options : FolderOptions}
    {dir : Spelling} {run : FolderRun} (orderly : (FileStore.view store).Orderly)
    (compiled : compileFolder store options dir = (.ok run, after)) :
    ∃ listed, (FileStore.view store).absolute dir.path = .ok run.root ∧
      listDocuments (FileStore.view store) (.ofPath run.root) options.exclude = .ok listed ∧
      run.order.Perm listed ∧
      (∀ before d later, run.documents = before ++ d :: later → ¬ d.cyclic →
        ∀ q, (DocumentGraph.build (FileStore.view store)
            options.compile.extensions listed).graph.Depends d.path q →
          q ∈ before.map (·.path)) ∧
      (run.documents.Pairwise fun d e => d.cyclic → e.cyclic) ∧
      (∀ d ∈ run.documents, d.cyclic = run.cyclic.contains d.path) ∧
      run.events = .start run.documents.length :: run.order.map .document ++ [.finish] ∧
      FolderRun.passOver store options run.root run.cyclic run.order = (run.documents, run.written, after) ∧
      ∀ d ∈ run.documents, d.result?.isNone →
        FolderRun.passOver store options run.root run.cyclic (run.order.filter (· ≠ d.path)) =
          (run.documents.filter (·.path ≠ d.path), run.written, after) := by
  obtain ⟨root, listed, place, list, rfl, rfl⟩ := compileFolder_eq_ok_iff.mp compiled
  have coherent : (FolderRun.graphOver store options listed).Coherent := DocumentGraph.coherent_build
  have order := FolderRun.order_runOver store options root listed
  have perm := FolderRun.perm_runOver orderly options place list
  refine ⟨listed, (placeFolder_eq_ok place).1, list, perm, ?_, ?_,
    fun d member => FolderRun.cyclic_runOver member, ?_, FolderRun.passOver_order .., ?_⟩
  · intro before d later split ordered
    have placed := FolderRun.cyclic_runOver (show d ∈ _ by rw [split]; simp)
    rw [FolderRun.order, split, List.map_append, List.map_cons] at order
    refine coherent.follows order.symm fun cyclic => ordered ?_
    rw [placed]
    exact List.contains_iff_mem.mpr cyclic
  · have last : (FolderRun.runOver store options root listed).1.order.Pairwise fun p q =>
        p ∈ (FolderRun.graphOver store options listed).compileOrder.cyclic →
          q ∈ (FolderRun.graphOver store options listed).compileOrder.cyclic :=
      order ▸ Graph.pairwise_cyclic
    refine (List.pairwise_map.mp last).imp_of_mem fun {d e} first second later cyclic => ?_
    rw [FolderRun.cyclic_runOver first, List.contains_iff_mem] at cyclic
    rw [FolderRun.cyclic_runOver second, List.contains_iff_mem]
    exact later cyclic
  · have total : (FolderRun.runOver store options root listed).1.documents.length = listed.length := by
      rw [← perm.length_eq, FolderRun.order, List.length_map]
    rw [total]
    exact FolderRun.events_runOver ..
  · intro d member failed
    obtain ⟨d', compiled, same⟩ := FolderRun.exists_compiled member
    have alike : d'.path = d.path := by rw [← d.path_unwritten, ← same, d'.path_unwritten]
    rw [← d.isNone_result_unwritten, ← same, d'.isNone_result_unwritten,
      FolderRun.isNone_result_iff compiled, alike] at failed
    obtain ⟨fault, fails⟩ := failed
    rw [FolderRun.passOver_skip fails, FolderRun.passOver_order]

/-- A chain of two documents, two in a circle, one that cannot be read and one that cannot be written. -/
def shelf : FaultyStore where
  faults := ⟨[(.parse "/d/e.md".toList, ⟨.permissionDenied, "denied"⟩)],
    [(.parse "/d/b.md".toList, ⟨.permissionDenied, "denied"⟩)], [], []⟩
  store := ((((MemoryStore.empty.insert (.parse "/d/a.md".toList) "@b.md".toList).insert
    (.parse "/d/b.md".toList) "text".toList).insert (.parse "/d/c.md".toList) "@d.md".toList).insert
    (.parse "/d/d.md".toList) "@c.md".toList).insert (.parse "/d/e.md".toList) "secret".toList

theorem orderly_shelf : shelf.store.Orderly :=
  ((((MemoryStore.orderly_empty.insert _ _).insert _ _).insert _ _).insert _ _).insert _ _

theorem compileFolder_covers_shelf : (FileStore.view shelf).Orderly ∧
    ∃ run after, compileFolder shelf ⟨.default, [], none, true⟩ ⟨"/d".toList⟩ = (.ok run, after) ∧
      run.order = ["/d/b.md", "/d/a.md", "/d/e.md", "/d/c.md", "/d/d.md"].map (.parse ·.toList) ∧
      run.events = .start run.documents.length :: run.order.map .document ++ [.finish] ∧
      FolderRun.passOver shelf ⟨.default, [], none, true⟩ run.root run.cyclic
          (run.order.filter (· ≠ .parse "/d/e.md".toList)) =
        (run.documents.filter (·.path ≠ .parse "/d/e.md".toList), run.written, after) := by
  have orderly : (FileStore.view shelf).Orderly := FaultyStore.orderly_view orderly_shelf
  have fine : (compileFolder shelf ⟨.default, [], none, true⟩ ⟨"/d".toList⟩).1.toOption.any (fun run =>
      run.order = ["/d/b.md", "/d/a.md", "/d/e.md", "/d/c.md", "/d/d.md"].map (.parse ·.toList) &&
        run.documents.any fun d => d.path = .parse "/d/e.md".toList && d.result?.isNone) = true := by
    decide +kernel
  obtain ⟨run, after, compiled, fine⟩ := exists_run_of_any fine
  simp only [Bool.and_eq_true, decide_eq_true_eq, List.any_eq_true] at fine
  obtain ⟨order, d, member, path, failed⟩ := fine
  obtain ⟨_, _, _, _, _, _, _, events, _, skip⟩ := compileFolder_covers orderly compiled
  exact ⟨orderly, run, after, compiled, order, events, path ▸ skip d member failed⟩

end Transclusion

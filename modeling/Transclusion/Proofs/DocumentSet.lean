import Mathlib.Data.List.Nodup
import Transclusion.MemoryStore
import Transclusion.Proofs.ScannedGraph

namespace Transclusion

/-- A set has one ascending order. -/
theorem Ascending.eq_of_mem_iff {α : Type} [Ord α] [Std.TransOrd α] [Std.LawfulEqOrd α] {xs ys : List α}
    (ascending : Ascending xs) (ascending' : Ascending ys) (same : ∀ a, a ∈ xs ↔ a ∈ ys) : xs = ys := by
  have perm : xs.Perm ys := (List.perm_ext_iff_of_nodup ascending.nodup ascending'.nodup).mpr same
  refine perm.eq_of_pairwise (fun a b _ _ before behind => ?_) ascending ascending'
  exact absurd behind (Std.OrientedCmp.not_lt_of_lt before)

namespace DocumentGraph

variable {files : FileView} {extensions : List Text} {listed listed' : List Path} {p q : Path}

theorem mem_targetsOf {t : Text} : q ∈ targetsOf files extensions p t ↔
    ∃ r ∈ Reference.extract (FrontMatter.strip t) false,
      resolve files p.directory (extensions.map dotted) r.target = .file q := by
  unfold targetsOf
  rw [List.mem_filterMap]
  refine exists_congr fun r => and_congr_right fun _ => ?_
  cases resolve files p.directory (extensions.map dotted) r.target <;> simp

theorem mem_dependenciesOf_build : q ∈ (build files extensions listed).graph.dependenciesOf p ↔
    p ∈ (build files extensions listed).graph.paths ∧ q ∈ (build files extensions listed).graph.paths ∧
      ∃ t, files.read p = .ok t ∧ ∃ r ∈ Reference.extract (FrontMatter.strip t) false,
        resolve files p.directory (extensions.map dotted) r.target = .file q := by
  rw [← Graph.Depends, depends_build]
  simp only [Mentions, mem_targetsOf]

theorem mem_rootFiles_build :
    p ∈ (build files extensions listed).graph.rootFiles ↔
      p ∈ (build files extensions listed).graph.paths ∧
        ∀ q, ¬ (build files extensions listed).graph.Depends p q := by
  have coherent : (build files extensions listed).graph.Coherent := coherent_build
  have waits := coherent.waiting.mem_ready (p := p)
  simpa only [List.not_mem_nil, not_false_iff, true_and] using waits

theorem unreadable_build : (build files extensions listed).unreadable =
    (build files extensions listed).graph.paths.filterMap fun p =>
      match files.readDocument p "scanning references" "dependency_graph" with
      | .error e => some (p, e)
      | .ok _ => none := by
  rw [paths_build]
  simp only [build, scan, List.filterMap_map]
  refine List.filterMap_congr fun p _ => ?_
  simp only [Function.comp_apply]
  cases files.readDocument p "scanning references" "dependency_graph" <;> rfl

theorem mem_unreadable_build {e : FileFailure} : (p, e) ∈ (build files extensions listed).unreadable ↔
    p ∈ (build files extensions listed).graph.paths ∧ ∃ cause, files.read p = .error cause ∧
      e = ⟨.read, String.ofList p.text, "scanning references", "dependency_graph", cause, []⟩ := by
  rw [unreadable_build, List.mem_filterMap]
  unfold FileView.readDocument
  constructor
  · rintro ⟨q, known, failed⟩
    cases read : files.read q with
    | error cause =>
      rw [read] at failed
      cases failed
      exact ⟨known, cause, read, rfl⟩
    | ok t =>
      rw [read] at failed
      cases failed
  · rintro ⟨known, cause, read, rfl⟩
    exact ⟨p, known, by rw [read]; rfl⟩

theorem ascending_unreadable_build : Ascending ((build files extensions listed).unreadable.map (·.1)) := by
  have within : ((build files extensions listed).unreadable.map (·.1)).Sublist
      (build files extensions listed).graph.paths := by
    rw [unreadable_build]
    generalize (build files extensions listed).graph.paths = paths
    induction paths with
    | nil => exact .slnil
    | cons p rest ih =>
      rw [List.filterMap_cons]
      cases files.readDocument p "scanning references" "dependency_graph" with
      | error e => exact ih.cons_cons p
      | ok t => exact ih.cons p
  exact coherent_build.ascending.sublist within

/-- Neither the order of the given paths nor how often and in which spelling each is given matters. -/
theorem build_congr
    (same : ∀ p, (∃ file ∈ listed', file.normalize = p) ↔ ∃ file ∈ listed, file.normalize = p) :
    build files extensions listed' = build files extensions listed := by
  have documents : sortNew compare (listed'.map Path.normalize) =
      sortNew compare (listed.map Path.normalize) := by
    refine (ascending_sortNew _).eq_of_mem_iff (ascending_sortNew _) fun p => ?_
    rw [mem_sortNew, mem_sortNew, List.mem_map, List.mem_map]
    exact same p
  unfold build
  rw [documents]

end DocumentGraph

/-- The scanned graph is exact: its documents are the given ones in normal form, one depends on
another when a reference in its text leads there, and it tells which depend on none and which could
not be read. Nothing else about how the documents were given shows in it. -/
theorem documentGraph_is_exact (files : FileView) (extensions : List Text) (listed : List Path) :
    let built := DocumentGraph.build files extensions listed
    (built.graph.Coherent ∧ ∀ p, p ∈ built.graph.paths ↔ ∃ file ∈ listed, file.normalize = p) ∧
      (∀ p q, (p ∈ built.graph.dependentsOf q ↔ q ∈ built.graph.dependenciesOf p) ∧
        (q ∈ built.graph.dependenciesOf p ↔ p ∈ built.graph.paths ∧ q ∈ built.graph.paths ∧
          ∃ t, files.read p = .ok t ∧ ∃ r ∈ Reference.extract (FrontMatter.strip t) false,
            resolve files p.directory (extensions.map dotted) r.target = .file q)) ∧
      (Ascending built.graph.rootFiles ∧
        ∀ p, p ∈ built.graph.rootFiles ↔ p ∈ built.graph.paths ∧ ∀ q, q ∉ built.graph.dependenciesOf p) ∧
      (Ascending (built.unreadable.map (·.1)) ∧ ∀ p e, (p, e) ∈ built.unreadable ↔
        p ∈ built.graph.paths ∧ ∃ cause, files.read p = .error cause ∧
          e = ⟨.read, String.ofList p.text, "scanning references", "dependency_graph", cause, []⟩) ∧
      ∀ listed', (∀ p, (∃ file ∈ listed', file.normalize = p) ↔ ∃ file ∈ listed, file.normalize = p) →
        DocumentGraph.build files extensions listed' = built := by
  intro built
  have coherent : built.graph.Coherent := DocumentGraph.coherent_build
  refine ⟨⟨coherent, fun p => DocumentGraph.mem_paths_build⟩,
    fun p q => ⟨coherent.mirrored, DocumentGraph.mem_dependenciesOf_build⟩,
    ⟨coherent.waiting.ascending, fun p => DocumentGraph.mem_rootFiles_build⟩,
    ⟨DocumentGraph.ascending_unreadable_build, fun p e => DocumentGraph.mem_unreadable_build⟩,
    fun listed' same => DocumentGraph.build_congr same⟩

/-- Two documents, of which one mentions the other twice, and itself in its front matter only. -/
def pairStore : MemoryStore :=
  (MemoryStore.empty.insert (.parse "/d/a.md".toList) "---\nsee: @a.md\n---\n@b.md (@./b)".toList).insert
    (.parse "/d/b.md".toList) "text".toList

/-- Given in another order, one of them twice and in two spellings, with a third that is not there. -/
theorem documentGraph_is_exact_respelled :
    let listed := ["/d/a.md", "/d/b.md", "/d/gone.md"].map fun path => Path.parse path.toList
    let listed' := ["/d/gone.md", "/d/b.md", "/d/x/../a.md", "/d/./b.md", "/d/a.md"].map
      fun path => Path.parse path.toList
    let built := DocumentGraph.build (FileStore.view pairStore) ["md".toList] listed
    (∀ p, (∃ file ∈ listed', file.normalize = p) ↔ ∃ file ∈ listed, file.normalize = p) ∧
      DocumentGraph.build (FileStore.view pairStore) ["md".toList] listed' = built ∧
      built.graph.dependenciesOf (.parse "/d/a.md".toList) = [.parse "/d/b.md".toList] ∧
      built.unreadable.map (·.1) = [.parse "/d/gone.md".toList] := by
  intro listed listed' built
  have documents : sortNew compare (listed'.map Path.normalize) =
      sortNew compare (listed.map Path.normalize) := by
    decide +kernel
  have same (p : Path) : (∃ file ∈ listed', file.normalize = p) ↔ ∃ file ∈ listed, file.normalize = p := by
    have member : p ∈ sortNew compare (listed'.map Path.normalize) ↔
        p ∈ sortNew compare (listed.map Path.normalize) := by
      rw [documents]
    simpa only [mem_sortNew, List.mem_map] using member
  obtain ⟨_, _, _, _, respelled⟩ := documentGraph_is_exact (FileStore.view pairStore) ["md".toList] listed
  exact ⟨same, respelled listed' same, by decide +kernel, by decide +kernel⟩

end Transclusion

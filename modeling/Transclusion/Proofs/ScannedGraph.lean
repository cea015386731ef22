import Transclusion.Proofs.Coverage
import Transclusion.Proofs.Placement

namespace Transclusion

namespace Resolution

theorem kind_of_locate {files : FileView} {candidate q : Path} {extensions : List Text}
    (found : locate files candidate extensions = .file q) : files.kind q = some .file := by
  unfold locate at found
  split at found
  · rename_i here
    cases found
    exact here
  · dsimp only at found
    split at found
    · rename_i p first
      cases found
      simpa using List.find?_some first
    · split at found <;> cases found

end Resolution

/-- A reference leads to nothing that is not there. -/
theorem kind_of_resolve {files : FileView} {base q : Path} {extensions : List Text} {target : Text}
    (found : resolve files base extensions target = .file q) : files.kind q = some .file := by
  unfold resolve at found
  dsimp only at found
  split at found
  · split at found
    · exact Resolution.kind_of_locate found
    · exact Resolution.kind_of_locate found
  · exact Resolution.kind_of_locate found

theorem Mentions.kind {files : FileView} {extensions : List Text} {p q : Path}
    (edge : Mentions files extensions p q) :
    files.kind q = some .file := by
  obtain ⟨t, _, member⟩ := edge
  obtain ⟨r, _, leads⟩ := List.mem_filterMap.mp member
  split at leads
  · rename_i found
    cases leads
    exact kind_of_resolve found
  · cases leads

namespace Graph

section Edges

variable {g : Graph} {p q a b : Path}

theorem paths_addEdge : (g.addEdge p q).paths = g.paths := List.map_map ..

theorem node?_addEdge : (g.addEdge p q).node? a = (g.node? a).map (·.linked p q) := List.find?_map ..

theorem exists_node (known : a ∈ g.paths) : ∃ node, g.node? a = some node ∧ node.path = a := by
  obtain ⟨node, found⟩ := Option.isSome_iff_exists.mp (node?_isSome_iff.mpr known)
  exact ⟨node, found, by simpa using List.find?_some found⟩

/-- Of each direction, an edge changes what is noted at one of its ends. -/
theorem neighbours_addEdge {neighbours : GraphNode → List Path} {changed : Path}
    {change : List Path → List Path}
    (linked : ∀ node, neighbours (node.linked p q) =
      if node.path = changed then change (neighbours node) else neighbours node)
    (known : changed ∈ g.paths) :
    (((g.addEdge p q).node? a).map neighbours).getD [] =
      if a = changed then change (((g.node? a).map neighbours).getD [])
      else ((g.node? a).map neighbours).getD [] := by
  rw [node?_addEdge]
  by_cases inside : a ∈ g.paths
  · obtain ⟨node, found, here⟩ := exists_node inside
    simp only [found, Option.map_some, Option.getD_some, linked, here]
  · have absent := Option.not_isSome_iff_eq_none.mp (mt node?_isSome_iff.mp inside)
    have other : a ≠ changed := fun same => inside (same ▸ known)
    simp only [absent, Option.map_none, Option.getD_none, if_neg other]

theorem dependenciesOf_addEdge (first : p ∈ g.paths) : (g.addEdge p q).dependenciesOf a =
    if a = p then insertNew compare q (g.dependenciesOf a) else g.dependenciesOf a :=
  neighbours_addEdge (fun _ => rfl) first

theorem dependentsOf_addEdge (second : q ∈ g.paths) : (g.addEdge p q).dependentsOf a =
    if a = q then insertNew compare p (g.dependentsOf a) else g.dependentsOf a :=
  neighbours_addEdge (fun _ => rfl) second

theorem depends_addEdge (first : p ∈ g.paths) :
    (g.addEdge p q).Depends a b ↔ g.Depends a b ∨ a = p ∧ b = q := by
  rw [Depends, dependenciesOf_addEdge first]
  split
  · rename_i here
    rw [mem_insertNew, and_iff_right here]
    exact or_comm
  · rename_i other
    exact (or_iff_left fun edge => other edge.1).symm

theorem Coherent.addEdge (coherent : g.Coherent) (first : p ∈ g.paths) (second : q ∈ g.paths) :
    (g.addEdge p q).Coherent where
  ascending := paths_addEdge (g := g) ▸ coherent.ascending
  dependencies a := by
    rw [dependenciesOf_addEdge first]
    split
    · exact (coherent.dependencies a).insertNew q
    · exact coherent.dependencies a
  dependents a := by
    rw [dependentsOf_addEdge second]
    split
    · exact (coherent.dependents a).insertNew p
    · exact coherent.dependents a
  mirrored {a b} := by
    rw [depends_addEdge first, dependentsOf_addEdge second, ← coherent.mirrored]
    split
    · rename_i here
      rw [mem_insertNew, and_iff_left here]
      exact or_comm
    · rename_i other
      exact (or_iff_left fun edge => other edge.2).symm
  inside edge := by
    rw [paths_addEdge]
    rcases (depends_addEdge first).mp edge with old | ⟨_, rfl⟩
    · exact coherent.inside old
    · exact second

theorem paths_isolated (documents : List Path) : (isolated documents).paths = documents :=
  (List.map_map ..).trans (List.map_id _)

theorem neighbours_isolated {neighbours : GraphNode → List Path}
    (bare : ∀ p, neighbours ⟨p, [], []⟩ = []) (documents : List Path) (p : Path) :
    (((isolated documents).node? p).map neighbours).getD [] = [] := by
  cases found : (isolated documents).node? p with
  | none => rfl
  | some node =>
    obtain ⟨q, _, rfl⟩ := List.mem_map.mp (List.mem_of_find?_eq_some found)
    exact bare q

theorem dependenciesOf_isolated (documents : List Path) (p : Path) :
    (isolated documents).dependenciesOf p = [] :=
  neighbours_isolated (fun _ => rfl) documents p

theorem dependentsOf_isolated (documents : List Path) (p : Path) :
    (isolated documents).dependentsOf p = [] :=
  neighbours_isolated (fun _ => rfl) documents p

theorem coherent_isolated {documents : List Path} (ascending : Ascending documents) :
    (isolated documents).Coherent where
  ascending := (paths_isolated documents).symm ▸ ascending
  dependencies p := (dependenciesOf_isolated documents p).symm ▸ .nil
  dependents p := (dependentsOf_isolated documents p).symm ▸ .nil
  mirrored := by
    intro p q
    rw [Depends, dependenciesOf_isolated, dependentsOf_isolated]
    exact iff_of_false List.not_mem_nil List.not_mem_nil
  inside := by
    intro p q edge
    rw [Depends, dependenciesOf_isolated] at edge
    cases edge

/-- Edges between documents leave a graph coherent, and each is there afterwards. -/
theorem Coherent.addEdges (coherent : g.Coherent) {edges : List (Path × Path)}
    (between : ∀ e ∈ edges, e.1 ∈ g.paths ∧ e.2 ∈ g.paths) :
    (g.addEdges edges).Coherent ∧ (g.addEdges edges).paths = g.paths ∧
      ∀ a b, (g.addEdges edges).Depends a b ↔ g.Depends a b ∨ (a, b) ∈ edges := by
  induction edges generalizing g with
  | nil => exact ⟨coherent, rfl, fun a b => by simp [Graph.addEdges]⟩
  | cons e rest ih =>
    obtain ⟨⟨first, second⟩, later⟩ := List.forall_mem_cons.mp between
    have step := coherent.addEdge first second
    obtain ⟨coherent, paths, depends⟩ := ih step fun e member => paths_addEdge (g := g) ▸ later e member
    refine ⟨coherent, paths.trans paths_addEdge, fun a b => (depends a b).trans ?_⟩
    rw [depends_addEdge first, List.mem_cons, or_assoc, ← Prod.mk.injEq]

end Edges

end Graph

namespace DocumentGraph

variable {files : FileView} {extensions : List Text} {documents listed : List Path} {p q : Path}

theorem mem_edges : (p, q) ∈ edges documents (scan files extensions documents) ↔
    p ∈ documents ∧ q ∈ documents ∧ Mentions files extensions p q := by
  have found : q ∈ ((files.readDocument p "scanning references" "dependency_graph").map
      (targetsOf files extensions p)).toOption.getD [] ↔ Mentions files extensions p q := by
    unfold FileView.readDocument Mentions
    cases files.read p with
    | error e => simp [Except.mapError, Except.map, Except.toOption]
    | ok t => simp [Except.mapError, Except.map, Except.toOption]
  simp only [edges, scan, List.mem_flatMap, List.mem_map, exists_exists_and_eq_and, List.mem_filter,
    List.contains_iff_mem, Prod.mk.injEq]
  constructor
  · rintro ⟨_, known, _, ⟨leads, inside⟩, rfl, rfl⟩
    exact ⟨known, inside, found.mp leads⟩
  · rintro ⟨known, inside, mentions⟩
    exact ⟨p, known, q, ⟨found.mpr mentions, inside⟩, rfl, rfl⟩

/-- The built graph is coherent, has the given documents, and an edge for every mention of one of
them in another. -/
theorem build_spec (files : FileView) (extensions : List Text) (listed : List Path) :
    let documents := sortNew compare (listed.map Path.normalize)
    let graph := (build files extensions listed).graph
    graph.Coherent ∧ graph.paths = documents ∧
      ∀ p q, graph.Depends p q ↔ p ∈ documents ∧ q ∈ documents ∧ Mentions files extensions p q := by
  intro documents graph
  have start : (Graph.isolated documents).Coherent := Graph.coherent_isolated (ascending_sortNew _)
  have paths := Graph.paths_isolated documents
  have between : ∀ e ∈ edges documents (scan files extensions documents),
      e.1 ∈ (Graph.isolated documents).paths ∧ e.2 ∈ (Graph.isolated documents).paths := by
    intro e member
    obtain ⟨first, second, _⟩ := mem_edges.mp member
    exact paths.symm ▸ ⟨first, second⟩
  obtain ⟨coherent, same, depends⟩ := start.addEdges between
  refine ⟨coherent, same.trans paths, fun p q => (depends p q).trans ?_⟩
  rw [Graph.Depends, Graph.dependenciesOf_isolated, mem_edges]
  exact or_iff_right List.not_mem_nil

theorem coherent_build : (build files extensions listed).graph.Coherent :=
  (build_spec files extensions listed).1

theorem paths_build :
    (build files extensions listed).graph.paths = sortNew compare (listed.map Path.normalize) :=
  (build_spec files extensions listed).2.1

theorem mem_paths_build :
    p ∈ (build files extensions listed).graph.paths ↔ ∃ file ∈ listed, file.normalize = p := by
  rw [paths_build, mem_sortNew, List.mem_map]

theorem depends_build : (build files extensions listed).graph.Depends p q ↔
    p ∈ (build files extensions listed).graph.paths ∧ q ∈ (build files extensions listed).graph.paths ∧
      Mentions files extensions p q := by
  rw [paths_build]
  exact (build_spec files extensions listed).2.2 p q

end DocumentGraph

end Transclusion

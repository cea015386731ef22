import Mathlib.Data.List.Nodup
import Transclusion.Proofs.GraphWalk
import Transclusion.Proofs.PathOrder

namespace Transclusion

namespace Graph

/-- A graph whose two directions agree and stay among its documents, with every list in path order. -/
structure Coherent (g : Graph) : Prop where
  ascending : Ascending g.paths
  dependencies (p : Path) : Ascending (g.dependenciesOf p)
  dependents (p : Path) : Ascending (g.dependentsOf p)
  mirrored {p q : Path} : q ∈ g.dependentsOf p ↔ g.Depends q p
  inside {p q : Path} : g.Depends p q → q ∈ g.paths

theorem Depends.mem_paths {g : Graph} {p q : Path} (edge : g.Depends p q) : p ∈ g.paths := by
  unfold Depends dependenciesOf node? at edge
  cases found : g.nodes.find? (·.path = p) with
  | none => rw [found] at edge; cases edge
  | some node =>
    have here : node.path = p := by simpa using List.find?_some found
    exact here ▸ List.mem_map_of_mem (List.mem_of_find?_eq_some found)

/-- None of the documents is listed twice or in front of one that it refers to, when those in `done` have
their places already. -/
def InOrder (g : Graph) (done : List Path) : List Path → Prop
  | [] => True
  | p :: rest => p ∈ g.paths ∧ p ∉ done ∧ (∀ q, g.Depends p q → q ∈ done) ∧ g.InOrder (p :: done) rest

namespace InOrder

variable {g : Graph} {done order : List Path}

theorem mem (inOrder : g.InOrder done order) : ∀ p ∈ order, p ∈ g.paths ∧ p ∉ done := by
  induction order generalizing done with
  | nil => intro p member; cases member
  | cons first rest ih =>
    obtain ⟨inside, fresh, _, later⟩ := inOrder
    intro p member
    rcases List.mem_cons.mp member with rfl | member
    · exact ⟨inside, fresh⟩
    · obtain ⟨known, apart⟩ := ih later p member
      exact ⟨known, fun old => apart (List.mem_cons_of_mem first old)⟩

theorem nodup (inOrder : g.InOrder done order) : order.Nodup := by
  induction order generalizing done with
  | nil => exact List.nodup_nil
  | cons first rest ih =>
    obtain ⟨_, _, _, later⟩ := inOrder
    refine List.nodup_cons.mpr ⟨fun again => ?_, ih later⟩
    exact (later.mem first again).2 (List.mem_cons_self ..)

theorem follows (inOrder : g.InOrder done order) {before after : List Path} {p : Path}
    (split : order = before ++ p :: after) : ∀ q, g.Depends p q → q ∈ done ∨ q ∈ before := by
  induction before generalizing done order with
  | nil =>
    subst split
    exact fun q edge => Or.inl (inOrder.2.2.1 q edge)
  | cons first before ih =>
    subst split
    intro q edge
    rcases ih inOrder.2.2.2 rfl q edge with placed | between
    · rcases List.mem_cons.mp placed with rfl | old
      · exact Or.inr (List.mem_cons_self ..)
      · exact Or.inl old
    · exact Or.inr (List.mem_cons_of_mem first between)

end InOrder

theorem lookup_lower (p q : Path) (degrees : Degrees) :
    (lower p degrees).lookup q = (degrees.lookup q).map fun d => if q = p then d - 1 else d := by
  induction degrees with
  | nil => rfl
  | cons entry rest ih =>
    obtain ⟨r, d⟩ := entry
    have step : lower p ((r, d) :: rest) = (r, if r = p then d - 1 else d) :: lower p rest := by
      by_cases same : r = p <;> simp [lower, same]
    rw [step, lookup_cons_ite, lookup_cons_ite, ih]
    by_cases here : q = r <;> simp [here]

section Release

variable {waiting : List Path} (distinct : waiting.Nodup) (degrees : Degrees) (ready : List Path)

include distinct in
theorem lookup_release (q : Path) : (release waiting degrees ready).1.lookup q =
    (degrees.lookup q).map fun d => if q ∈ waiting then d - 1 else d := by
  induction waiting generalizing degrees ready with
  | nil => simp [release]
  | cons p rest ih =>
    obtain ⟨apart, distinct⟩ := List.nodup_cons.mp distinct
    rw [release, ih distinct, lookup_lower, Option.map_map]
    refine congrArg (degrees.lookup q).map (funext fun d => ?_)
    by_cases here : q = p
    · subst here
      simp [apart]
    · simp [here]

include distinct in
/-- A document becomes ready when the last dependency that it waits for is placed. -/
theorem mem_release {q : Path} : q ∈ (release waiting degrees ready).2 ↔
    q ∈ ready ∨ q ∈ waiting ∧ (degrees.lookup q).map (· - 1) = some 0 := by
  induction waiting generalizing degrees ready with
  | nil => simp [release]
  | cons p rest ih =>
    obtain ⟨apart, distinct⟩ := List.nodup_cons.mp distinct
    have here : (lower p degrees).lookup p = (degrees.lookup p).map (· - 1) := by simp [lookup_lower]
    have elsewhere : q ∈ rest → (lower p degrees).lookup q = degrees.lookup q := by
      intro member
      have other : q ≠ p := fun same => apart (same ▸ member)
      simp [lookup_lower, other]
    rw [release, ih distinct, here]
    by_cases last : (degrees.lookup p).map (· - 1) = some 0
    · rw [if_pos last, mem_insertNew, List.mem_cons]
      constructor
      · rintro ((rfl | old) | ⟨member, none⟩)
        · exact Or.inr ⟨Or.inl rfl, last⟩
        · exact Or.inl old
        · exact Or.inr ⟨Or.inr member, elsewhere member ▸ none⟩
      · rintro (old | ⟨rfl | member, none⟩)
        · exact Or.inl (Or.inr old)
        · exact Or.inl (Or.inl rfl)
        · exact Or.inr ⟨member, (elsewhere member).symm ▸ none⟩
    · rw [if_neg last, List.mem_cons]
      constructor
      · rintro (old | ⟨member, none⟩)
        · exact Or.inl old
        · exact Or.inr ⟨Or.inr member, elsewhere member ▸ none⟩
      · rintro (old | ⟨rfl | member, none⟩)
        · exact Or.inl old
        · exact absurd none last
        · exact Or.inr ⟨member, (elsewhere member).symm ▸ none⟩

theorem ascending_release {ready : List Path} (ascending : Ascending ready) :
    Ascending (release waiting degrees ready).2 := by
  induction waiting generalizing degrees ready with
  | nil => exact ascending
  | cons p rest ih =>
    rw [release]
    refine ih _ ?_
    split
    · exact ascending.insertNew p
    · exact ascending

end Release

/-- Where the documents in `done` are placed: what the others still wait for, and those that wait for
nothing. -/
structure Waiting (g : Graph) (done : List Path) (degrees : Degrees) (ready : List Path) : Prop where
  closed {p q : Path} : p ∈ done → g.Depends p q → q ∈ done
  degree {p : Path} : p ∈ g.paths → degrees.lookup p = some ((g.dependenciesOf p).countP (· ∉ done))
  mem_ready {p : Path} : p ∈ ready ↔ p ∈ g.paths ∧ p ∉ done ∧ ∀ q, g.Depends p q → q ∈ done
  ascending : Ascending ready

theorem countP_not_mem_cons {p : Path} {done : List Path} (fresh : p ∉ done) {paths : List Path}
    (distinct : paths.Nodup) :
    paths.countP (· ∉ done) = paths.countP (· ∉ p :: done) + if p ∈ paths then 1 else 0 := by
  induction paths with
  | nil => rfl
  | cons q rest ih =>
    obtain ⟨apart, distinct⟩ := List.nodup_cons.mp distinct
    by_cases here : q = p
    · subst here
      have same := ih distinct
      rw [if_neg apart] at same
      rw [List.countP_cons_of_pos (by simpa using fresh), List.countP_cons_of_neg (by simp), same]
      simp
    · rw [List.countP_cons, List.countP_cons, ih distinct]
      simp only [List.mem_cons, here, Ne.symm here, false_or]
      omega

variable {g : Graph} {p : Path} {done ready : List Path} {degrees : Degrees}

/-- Placing a document that is ready takes it off what its dependents wait for, and off nothing else. -/
theorem Waiting.next (waiting : g.Waiting done degrees (p :: ready)) (coherent : g.Coherent) :
    g.Waiting (p :: done) (release (g.dependentsOf p) degrees ready).1
      (release (g.dependentsOf p) degrees ready).2 := by
  obtain ⟨inside, fresh, met⟩ := waiting.mem_ready.mp (List.mem_cons_self ..)
  obtain ⟨first, sorted⟩ := List.pairwise_cons.mp waiting.ascending
  have apart : p ∉ ready := (List.nodup_cons.mp waiting.ascending.nodup).1
  have distinct : (g.dependentsOf p).Nodup := (coherent.dependents p).nodup
  have degree : ∀ {q}, q ∈ g.paths → (release (g.dependentsOf p) degrees ready).1.lookup q =
      some ((g.dependenciesOf q).countP (· ∉ p :: done)) := by
    intro q known
    have counted := countP_not_mem_cons fresh (coherent.dependencies q).nodup
    rw [lookup_release distinct, waiting.degree known, Option.map_some, counted]
    by_cases edge : p ∈ g.dependenciesOf q
    · rw [if_pos (coherent.mirrored.mpr edge), if_pos edge, Nat.add_sub_cancel]
    · rw [if_neg fun member => edge (coherent.mirrored.mp member), if_neg edge, Nat.add_zero]
  refine ⟨?_, degree, ?_, ascending_release _ sorted⟩
  · intro q r member edge
    rcases List.mem_cons.mp member with rfl | member
    · exact List.mem_cons_of_mem _ (met r edge)
    · exact List.mem_cons_of_mem _ (waiting.closed member edge)
  · intro q
    rw [mem_release distinct]
    constructor
    · rintro (old | ⟨dependent, last⟩)
      · obtain ⟨known, unplaced, all⟩ := waiting.mem_ready.mp (List.mem_cons_of_mem p old)
        refine ⟨known, fun member => ?_, fun r edge => List.mem_cons_of_mem p (all r edge)⟩
        rcases List.mem_cons.mp member with rfl | member
        · exact apart old
        · exact unplaced member
      · have edge : g.Depends q p := coherent.mirrored.mp dependent
        have zero : (g.dependenciesOf q).countP (· ∉ p :: done) = 0 := by
          have lowered := degree edge.mem_paths
          rw [lookup_release distinct] at lowered
          simp only [dependent, if_true] at lowered
          exact Option.some.inj (lowered.symm.trans last)
        refine ⟨edge.mem_paths, fun member => ?_, fun r edge => ?_⟩
        · rcases List.mem_cons.mp member with rfl | member
          · exact fresh (met q edge)
          · exact fresh (waiting.closed member edge)
        · by_contra unplaced
          exact List.countP_eq_zero.mp zero r edge (decide_eq_true unplaced)
    · rintro ⟨known, unplaced, all⟩
      rw [List.mem_cons, not_or] at unplaced
      by_cases edge : p ∈ g.dependenciesOf q
      · have zero : (g.dependenciesOf q).countP (· ∉ p :: done) = 0 :=
          List.countP_eq_zero.mpr fun r member unplaced => of_decide_eq_true unplaced (all r member)
        have counted := countP_not_mem_cons fresh (coherent.dependencies q).nodup
        rw [zero, if_pos edge] at counted
        refine Or.inr ⟨coherent.mirrored.mpr edge, ?_⟩
        rw [waiting.degree known, counted]
        rfl
      · have before : ∀ r, g.Depends q r → r ∈ done := by
          intro r other
          rcases List.mem_cons.mp (all r other) with rfl | old
          · exact absurd other edge
          · exact old
        have listed := waiting.mem_ready.mpr ⟨known, unplaced.2, before⟩
        exact Or.inl ((List.mem_cons.mp listed).resolve_left unplaced.1)

theorem Waiting.inOrder (coherent : g.Coherent) (fuel : Nat) (waiting : g.Waiting done degrees ready) :
    g.InOrder done (g.place fuel degrees ready) := by
  induction fuel generalizing done degrees ready with
  | zero => trivial
  | succ fuel ih =>
    cases ready with
    | nil => trivial
    | cons p ready =>
      obtain ⟨inside, fresh, met⟩ := waiting.mem_ready.mp (List.mem_cons_self ..)
      exact ⟨inside, fresh, met, ih (waiting.next coherent)⟩

theorem node?_of_mem (distinct : g.paths.Nodup) {node : GraphNode} (member : node ∈ g.nodes) :
    g.node? node.path = some node := by
  obtain ⟨nodes⟩ := g
  induction nodes with
  | nil => cases member
  | cons first rest ih =>
    obtain ⟨apart, distinct⟩ := List.nodup_cons.mp distinct
    unfold node? at ih ⊢
    rcases List.mem_cons.mp member with rfl | member
    · simp
    · have again : node.path ∈ rest.map (·.path) := List.mem_map_of_mem member
      have other : first.path ≠ node.path := by
        intro same
        rw [← same] at again
        exact apart again
      rw [List.find?_cons_of_neg (by simpa using other)]
      exact ih distinct member

theorem dependenciesOf_of_mem (distinct : g.paths.Nodup) {node : GraphNode} (member : node ∈ g.nodes) :
    g.dependenciesOf node.path = node.dependencies := by
  rw [dependenciesOf, node?_of_mem distinct member]
  rfl

theorem dependentsOf_of_mem (distinct : g.paths.Nodup) {node : GraphNode} (member : node ∈ g.nodes) :
    g.dependentsOf node.path = node.dependents := by
  rw [dependentsOf, node?_of_mem distinct member]
  rfl

theorem length_le_nodes {documents : List Path} (distinct : documents.Nodup)
    (inside : documents ⊆ g.paths) :
    documents.length ≤ g.nodes.length :=
  calc documents.length
    _ ≤ g.paths.length := (List.subperm_of_subset distinct inside).length_le
    _ = g.nodes.length := List.length_map ..

/-- At first the documents without dependencies are ready. -/
theorem Coherent.waiting (coherent : g.Coherent) :
    g.Waiting [] (g.nodes.map fun node => (node.path, node.dependencies.length)) g.rootFiles := by
  have own : ∀ {node}, node ∈ g.nodes → g.dependenciesOf node.path = node.dependencies :=
    dependenciesOf_of_mem coherent.ascending.nodup
  refine ⟨fun placed => absurd placed List.not_mem_nil, ?_, ?_, ?_⟩
  · intro p known
    obtain ⟨node, member, rfl⟩ := List.mem_map.mp known
    have found : g.nodes.find? (·.path = node.path) = some node :=
      node?_of_mem coherent.ascending.nodup member
    rw [lookup_map_path, found, own member]
    simp
  · intro p
    constructor
    · intro root
      obtain ⟨node, member, rfl⟩ := List.mem_map.mp root
      obtain ⟨member, none⟩ := List.mem_filter.mp member
      refine ⟨List.mem_map_of_mem member, List.not_mem_nil, fun q edge => ?_⟩
      rw [Depends, own member, List.isEmpty_iff.mp none] at edge
      exact edge
    · rintro ⟨known, _, met⟩
      obtain ⟨node, member, rfl⟩ := List.mem_map.mp known
      have none : node.dependencies = [] := List.eq_nil_iff_forall_not_mem.mpr fun q inside =>
        List.not_mem_nil (met q (show q ∈ g.dependenciesOf node.path from own member ▸ inside))
      exact List.mem_map_of_mem (List.mem_filter.mpr ⟨member, List.isEmpty_iff.mpr none⟩)
  · exact coherent.ascending.sublist (List.Sublist.map _ List.filter_sublist)

theorem Coherent.inOrder_sorted (coherent : g.Coherent) : g.InOrder [] g.compileOrder.sorted :=
  coherent.waiting.inOrder coherent _

theorem not_mem_cyclic (placed : p ∈ g.compileOrder.sorted) : p ∉ g.compileOrder.cyclic := fun cyclic =>
  (mem_cyclic.mp cyclic).2 placed

theorem nodup_all (distinct : g.paths.Nodup) (once : g.compileOrder.sorted.Nodup) :
    g.compileOrder.all.Nodup :=
  List.nodup_append'.mpr ⟨once, distinct.sublist List.filter_sublist, fun _ placed => not_mem_cyclic placed⟩

theorem mem_all_iff (known : ∀ p ∈ g.compileOrder.sorted, p ∈ g.paths) :
    p ∈ g.compileOrder.all ↔ p ∈ g.paths := by
  refine ⟨fun listed => ?_, mem_compileOrder⟩
  rcases List.mem_append.mp listed with placed | cyclic
  · exact known p placed
  · exact (mem_cyclic.mp cyclic).1

theorem Coherent.nodup_compileOrder (coherent : g.Coherent) : g.compileOrder.all.Nodup :=
  nodup_all coherent.ascending.nodup coherent.inOrder_sorted.nodup

/-- Every document is compiled once. -/
theorem Coherent.compileOrder_perm (coherent : g.Coherent) : g.compileOrder.all.Perm g.paths :=
  (List.perm_ext_iff_of_nodup coherent.nodup_compileOrder coherent.ascending.nodup).mpr fun _ =>
    mem_all_iff fun p placed => (coherent.inOrder_sorted.mem p placed).1

/-- A document that is not left over stands behind all that it refers to. -/
theorem Coherent.follows (coherent : g.Coherent) {before after : List Path}
    (split : g.compileOrder.all = before ++ p :: after) (ordered : p ∉ g.compileOrder.cyclic) :
    ∀ q, g.Depends p q → q ∈ before := by
  have listed : p ∈ g.compileOrder.all := by rw [split]; simp
  have placed : p ∈ g.compileOrder.sorted := (List.mem_append.mp listed).resolve_right ordered
  obtain ⟨front, back, sorted⟩ := List.append_of_mem placed
  have whole : g.compileOrder.all = front ++ p :: (back ++ g.compileOrder.cyclic) := by
    rw [CompileOrder.all, sorted, List.append_assoc, List.cons_append]
  have distinct := coherent.nodup_compileOrder
  rw [whole, List.nodup_middle, List.nodup_cons, List.mem_append, not_or] at distinct
  obtain ⟨same, _⟩ := (List.append_cons_inj_of_notMem distinct.1.1 distinct.1.2).mp (whole.symm.trans split)
  intro q edge
  have met := coherent.inOrder_sorted.follows sorted q edge
  exact same ▸ met.resolve_left List.not_mem_nil

/-- The documents that are left over come last. -/
theorem pairwise_cyclic :
    g.compileOrder.all.Pairwise fun p q => p ∈ g.compileOrder.cyclic → q ∈ g.compileOrder.cyclic := by
  refine List.pairwise_append.mpr ⟨?_, ?_, fun p placed q cyclic _ => cyclic⟩
  · exact List.pairwise_of_forall_mem_list fun p placed q _ cyclic => absurd cyclic (not_mem_cyclic placed)
  · exact List.pairwise_of_forall_mem_list fun p _ q cyclic _ => cyclic

end Graph

end Transclusion

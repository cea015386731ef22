import Mathlib.Algebra.GroupWithZero.Nat
import Mathlib.Algebra.Order.BigOperators.Group.List
import Mathlib.Algebra.Order.Group.Nat
import Mathlib.Logic.Relation
import Transclusion.Graph.Cycle
import Transclusion.Graph.Order

namespace Transclusion

namespace Graph

theorem node?_isSome_iff {g : Graph} {p : Path} : (g.node? p).isSome ↔ p ∈ g.paths := by
  simp [node?, paths, List.find?_isSome]

/-- `p` refers to `q`. -/
def Depends (g : Graph) (p q : Path) : Prop := q ∈ g.dependenciesOf p

/-- Some walk along dependencies leads from `p` to `q`, perhaps without a step. -/
def Leads (g : Graph) : Path → Path → Prop := Relation.ReflTransGen g.Depends

/-- How many dependencies the documents that are not in `seen` have, all together. -/
def unseen (seen : List Path) (nodes : List GraphNode) : Nat :=
  ((nodes.filter (·.path ∉ seen)).map (·.dependencies.length)).sum

theorem unseen_cons_le (p : Path) (seen : List Path) (nodes : List GraphNode) :
    unseen (p :: seen) nodes ≤ unseen seen nodes := by
  refine List.Sublist.sum_le_sum ?_ fun _ _ => Nat.zero_le _
  refine List.Sublist.map _ (List.monotone_filter_right nodes fun node fresh => ?_)
  simp only [List.mem_cons, not_or, decide_eq_true_eq] at fresh ⊢
  exact fresh.2

theorem unseen_le (seen : List Path) (nodes : List GraphNode) :
    unseen seen nodes ≤ (nodes.map (·.dependencies.length)).sum :=
  List.Sublist.sum_le_sum (List.Sublist.map _ List.filter_sublist) fun _ _ => Nat.zero_le _

/-- A document that is seen for the first time pays for the dependencies it pushes. -/
theorem dependencies_add_unseen_le {p : Path} {seen : List Path} (fresh : p ∉ seen)
    (nodes : List GraphNode) :
    ((⟨nodes⟩ : Graph).dependenciesOf p).length + unseen (p :: seen) nodes ≤ unseen seen nodes := by
  induction nodes with
  | nil => simp [dependenciesOf, node?, unseen]
  | cons node rest ih =>
    by_cases here : node.path = p
    · have found : (⟨node :: rest⟩ : Graph).dependenciesOf p = node.dependencies := by
        simp [dependenciesOf, node?, here]
      have gone : unseen (p :: seen) (node :: rest) = unseen (p :: seen) rest := by
        simp [unseen, here]
      have counted : unseen seen (node :: rest) = node.dependencies.length + unseen seen rest := by
        simp [unseen, here, fresh]
      have fewer := unseen_cons_le p seen rest
      rw [found, gone, counted]
      omega
    · have later : (⟨node :: rest⟩ : Graph).dependenciesOf p = (⟨rest⟩ : Graph).dependenciesOf p := by
        simp [dependenciesOf, node?, here]
      rw [later]
      by_cases old : node.path ∈ seen
      · have same : ∀ set, node.path ∈ set → unseen set (node :: rest) = unseen set rest := by
          intro set inside
          simp [unseen, inside]
        rw [same _ old, same _ (List.mem_cons_of_mem p old)]
        exact ih
      · have same : ∀ set, node.path ∉ set →
            unseen set (node :: rest) = node.dependencies.length + unseen set rest := by
          intro set outside
          simp [unseen, outside]
        have apart : node.path ∉ p :: seen := by simp [here, old]
        rw [same _ old, same _ apart]
        omega

/-- Whatever something in `seen` refers to is there as well, or pending. -/
def Closed (g : Graph) (seen pending : List Path) : Prop :=
  ∀ p ∈ seen, ∀ q, g.Depends p q → q ∈ seen ∨ q ∈ pending

variable {g : Graph} {p q : Path} {seen pending : List Path}

theorem Closed.skip (closed : g.Closed seen (p :: pending)) (old : p ∈ seen) : g.Closed seen pending := by
  intro r inside q edge
  rcases closed r inside q edge with known | ahead
  · exact Or.inl known
  · rcases List.mem_cons.mp ahead with rfl | ahead
    · exact Or.inl old
    · exact Or.inr ahead

theorem Closed.take (closed : g.Closed seen (p :: pending)) :
    g.Closed (p :: seen) (g.dependenciesOf p ++ pending) := by
  intro r inside q edge
  rcases List.mem_cons.mp inside with rfl | inside
  · exact Or.inr (List.mem_append_left _ edge)
  · rcases closed r inside q edge with known | ahead
    · exact Or.inl (List.mem_cons_of_mem p known)
    · rcases List.mem_cons.mp ahead with rfl | ahead
      · exact Or.inl (List.mem_cons_self ..)
      · exact Or.inr (List.mem_append_right _ ahead)

theorem Closed.leads (closed : g.Closed seen pending) (walk : g.Leads p q) (inside : p ∈ seen) :
    q ∈ seen ∨ ∃ r ∈ pending, g.Leads r q := by
  induction walk using Relation.ReflTransGen.head_induction_on with
  | refl => exact Or.inl inside
  | head edge walk ih =>
    rcases closed _ inside _ edge with old | next
    · exact ih old
    · exact Or.inr ⟨_, next, walk⟩

/-- With fuel for every dependency that can still be pushed, exactly what the pending documents lead to is
added. -/
theorem mem_collect (fuel : Nat) (closed : g.Closed seen pending)
    (enough : unseen seen g.nodes + pending.length < fuel) :
    q ∈ g.collect fuel pending seen ↔ q ∈ seen ∨ ∃ p ∈ pending, g.Leads p q := by
  induction fuel generalizing pending seen with
  | zero => omega
  | succ fuel ih =>
    cases pending with
    | nil => simp [collect]
    | cons p pending =>
      rw [List.length_cons] at enough
      by_cases old : p ∈ seen
      · rw [collect, if_pos (List.contains_iff_mem.mpr old), ih (closed.skip old) (by omega)]
        constructor
        · exact Or.imp_right fun ⟨r, member, walk⟩ => ⟨r, List.mem_cons_of_mem p member, walk⟩
        · rintro (known | ⟨r, member, walk⟩)
          · exact Or.inl known
          · rcases List.mem_cons.mp member with rfl | member
            · exact (closed.skip old).leads walk old
            · exact Or.inr ⟨r, member, walk⟩
      · have paid : (g.dependenciesOf p).length + unseen (p :: seen) g.nodes ≤ unseen seen g.nodes :=
          dependencies_add_unseen_le old g.nodes
        have room : unseen (p :: seen) g.nodes + (g.dependenciesOf p ++ pending).length < fuel := by
          rw [List.length_append]
          omega
        rw [collect, if_neg (fun inside => old (List.contains_iff_mem.mp inside)), ih closed.take room]
        constructor
        · rintro (known | ⟨r, member, walk⟩)
          · rcases List.mem_cons.mp known with rfl | known
            · exact Or.inr ⟨q, List.mem_cons_self .., .refl⟩
            · exact Or.inl known
          · rcases List.mem_append.mp member with edge | member
            · exact Or.inr ⟨p, List.mem_cons_self .., .head edge walk⟩
            · exact Or.inr ⟨r, List.mem_cons_of_mem p member, walk⟩
        · rintro (known | ⟨r, member, walk⟩)
          · exact Or.inl (List.mem_cons_of_mem p known)
          · rcases List.mem_cons.mp member with rfl | member
            · rcases walk.cases_head with rfl | ⟨next, edge, walk⟩
              · exact Or.inl (List.mem_cons_self ..)
              · exact Or.inr ⟨next, List.mem_append_left _ edge, walk⟩
            · exact Or.inr ⟨r, List.mem_append_right _ member, walk⟩

theorem mem_cover (starts : List Path) (closed : ∀ p ∈ seen, ∀ q, g.Depends p q → q ∈ seen) :
    q ∈ g.cover starts seen ↔ q ∈ seen ∨ ∃ p ∈ starts, g.Leads p q := by
  refine mem_collect _ (fun p inside q edge => Or.inl (closed p inside q edge)) ?_
  have bound : unseen seen g.nodes ≤ g.edgeCount := unseen_le seen g.nodes
  omega

theorem lookup_map_path {α : Type} (f : GraphNode → α) (nodes : List GraphNode) (p : Path) :
    (nodes.map fun node => (node.path, f node)).lookup p = (nodes.find? (·.path = p)).map f := by
  induction nodes with
  | nil => rfl
  | cons node rest ih =>
    rw [List.map_cons, List.find?_cons, List.lookup_cons, ih]
    by_cases here : node.path = p
    · simp [here]
    · have other : (p == node.path) = false := beq_false_of_ne (Ne.symm here)
      simp [here, other]

/-- The table knows the walks of at least one step. -/
theorem leadsTo_iff : leadsTo g.reachTable p q ↔ Relation.TransGen g.Depends p q := by
  have reached : q ∈ ((g.reachTable.lookup p).getD []) ↔ ∃ r, g.Depends p r ∧ g.Leads r q := by
    unfold reachTable Depends dependenciesOf node?
    rw [lookup_map_path]
    cases g.nodes.find? (·.path = p) with
    | none => simp
    | some node =>
      simp only [Option.map_some, Option.getD_some]
      rw [mem_cover node.dependencies (by simp)]
      simp
  rw [leadsTo, List.contains_iff_mem, reached, Relation.TransGen.head'_iff]
  rfl

theorem mem_cycleOf : q ∈ g.cycleOf g.reachTable p ↔
    q ∈ g.paths ∧ Relation.TransGen g.Depends p q ∧ Relation.TransGen g.Depends q p := by
  rw [cycleOf, List.mem_filter, Bool.and_eq_true, leadsTo_iff, leadsTo_iff]

/-- A cycle is a document on a closed walk with all documents that walks lead to and back from. -/
theorem exists_of_mem_cycles {cycle : List Path} (found : cycle ∈ g.cycles) :
    ∃ p ∈ cycle, ∀ q, q ∈ cycle ↔
      q ∈ g.paths ∧ Relation.TransGen g.Depends p q ∧ Relation.TransGen g.Depends q p := by
  obtain ⟨p, inside, first⟩ := List.mem_filterMap.mp found
  by_cases leader : (g.cycleOf g.reachTable p).head? = some p
  · have same : g.cycleOf g.reachTable p = cycle := by simpa [leader] using first
    exact ⟨p, same ▸ List.mem_of_mem_head? leader, fun q => same ▸ mem_cycleOf⟩
  · simp [leader] at first

/-- A walk between documents of a cycle stays in it. -/
theorem walk_in_cycle {cycle : List Path} {leader : Path}
    (documents : ∀ {p q}, g.Depends p q → q ∈ g.paths)
    (members : ∀ q, q ∈ cycle ↔ q ∈ g.paths ∧ Relation.TransGen g.Depends leader q ∧
      Relation.TransGen g.Depends q leader)
    (before : Relation.TransGen g.Depends leader p) (walk : Relation.TransGen g.Depends p q)
    (after : Relation.TransGen g.Depends q leader) :
    Relation.TransGen (fun p q => q ∈ cycle ∧ g.Depends p q) p q := by
  induction walk with
  | single edge => exact .single ⟨(members _).mpr ⟨documents edge, before.tail edge, after⟩, edge⟩
  | tail walk edge ih =>
    have there : Relation.TransGen g.Depends leader _ := (before.trans walk).tail edge
    exact (ih (after.head edge)).tail ⟨(members _).mpr ⟨documents edge, there, after⟩, edge⟩

theorem mem_cyclic : p ∈ g.compileOrder.cyclic ↔ p ∈ g.paths ∧ p ∉ g.compileOrder.sorted := by
  show p ∈ g.paths.filter (!g.compileOrder.sorted.contains ·) ↔ _
  rw [List.mem_filter, Bool.not_eq_true', List.contains_eq_mem, decide_eq_false_iff_not]

theorem mem_compileOrder (inside : p ∈ g.paths) : p ∈ g.compileOrder.all := by
  by_cases placed : p ∈ g.compileOrder.sorted
  · exact List.mem_append_left _ placed
  · exact List.mem_append_right _ (mem_cyclic.mpr ⟨inside, placed⟩)

end Graph

end Transclusion

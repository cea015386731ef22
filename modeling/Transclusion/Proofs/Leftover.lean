import Mathlib.Data.Fintype.Card
import Mathlib.Data.Set.Finite.Basic
import Mathlib.Order.WellFounded
import Transclusion.MemoryStore
import Transclusion.Proofs.ScannedGraph

namespace Transclusion

namespace Graph

variable {g : Graph} {p q : Path}

/-- Whatever a walk from a placed document leads to has its place in front of it. -/
theorem InOrder.mem_of_walk {order before after : List Path} (inOrder : g.InOrder [] order)
    (split : order = before ++ p :: after) (walk : Relation.TransGen g.Depends p q) : q ∈ before := by
  induction walk with
  | single edge => exact (inOrder.follows split _ edge).resolve_left List.not_mem_nil
  | tail _ edge ih =>
    obtain ⟨front, back, rfl⟩ := List.append_of_mem ih
    rw [List.append_assoc, List.cons_append] at split
    exact List.mem_append_left _ ((inOrder.follows split _ edge).resolve_left List.not_mem_nil)

/-- With fuel for all that have no place yet, placing ends only when every document without a place
waits for another one: nothing was ready any more. -/
theorem Waiting.exists_unplaced (coherent : g.Coherent) {fuel : Nat} {done ready : List Path}
    {degrees : Degrees} (waiting : g.Waiting done degrees ready)
    (enough : g.paths.countP (· ∉ done) ≤ fuel) (known : p ∈ g.paths) (unplaced : p ∉ done)
    (never : p ∉ g.place fuel degrees ready) :
    ∃ q, g.Depends p q ∧ q ∉ done ∧ q ∉ g.place fuel degrees ready := by
  induction fuel generalizing done degrees ready with
  | zero =>
    have none := List.countP_eq_zero.mp (Nat.le_zero.mp enough) p known
    exact absurd (decide_eq_true unplaced) none
  | succ fuel ih =>
    cases ready with
    | nil =>
      have stuck : ¬ ∀ q, g.Depends p q → q ∈ done := fun met =>
        List.not_mem_nil (waiting.mem_ready.mpr ⟨known, unplaced, met⟩)
      obtain ⟨q, edge, waits⟩ : ∃ q, g.Depends p q ∧ q ∉ done := by simpa using stuck
      exact ⟨q, edge, waits, List.not_mem_nil⟩
    | cons first ready =>
      obtain ⟨inside, fresh, _⟩ := waiting.mem_ready.mp (List.mem_cons_self ..)
      have counted := countP_not_mem_cons fresh coherent.ascending.nodup
      rw [if_pos inside] at counted
      rw [place, List.mem_cons, not_or] at never
      have later : p ∉ first :: done := by
        rw [List.mem_cons, not_or]
        exact ⟨never.1, unplaced⟩
      obtain ⟨q, edge, waits, last⟩ := ih (waiting.next coherent) (by omega) later never.2
      rw [List.mem_cons, not_or] at waits
      refine ⟨q, edge, waits.2, ?_⟩
      rw [place, List.mem_cons, not_or]
      exact ⟨waits.1, last⟩

/-- A document that is left over refers to another one that is. -/
theorem Coherent.exists_cyclic (coherent : g.Coherent) (left : p ∈ g.compileOrder.cyclic) :
    ∃ q ∈ g.compileOrder.cyclic, g.Depends p q := by
  obtain ⟨known, never⟩ := mem_cyclic.mp left
  have enough : g.paths.countP (· ∉ ([] : List Path)) ≤ 2 ^ g.nodes.length := by
    refine Nat.le_trans List.countP_le_length ?_
    exact Nat.le_trans (length_le_nodes coherent.ascending.nodup fun _ => id)
      (Nat.le_of_lt Nat.lt_two_pow_self)
  obtain ⟨q, edge, _, waits⟩ :=
    coherent.waiting.exists_unplaced coherent enough known List.not_mem_nil never
  exact ⟨q, mem_cyclic.mpr ⟨coherent.inside edge, waits⟩, edge⟩

/-- Walking on within finitely many documents comes back to one of them. If none that lie ahead were
on a circle, one of them would be last. -/
theorem exists_circle {r : Path → Path → Prop} {left : List Path} (onward : ∀ p ∈ left, ∃ q ∈ left, r p q)
    (start : p ∈ left) : ∃ q, Relation.ReflTransGen r p q ∧ Relation.TransGen r q q := by
  by_contra none
  let Ahead := { q : Path // q ∈ left ∧ Relation.ReflTransGen r p q }
  let behind (a b : Ahead) : Prop := Relation.TransGen r b.1 a.1
  have : Finite Ahead := (left.finite_toSet.subset fun q ahead => ahead.1).to_subtype
  have : IsTrans Ahead behind := ⟨fun a b c later earlier => earlier.trans later⟩
  have : Std.Irrefl behind := ⟨fun a circle => none ⟨a.1, a.2.2, circle⟩⟩
  obtain ⟨⟨q, member, walk⟩, _, last⟩ :=
    (Finite.wellFounded_of_trans_of_irrefl behind).has_min Set.univ ⟨⟨p, start, .refl⟩, trivial⟩
  obtain ⟨next, ahead, edge⟩ := onward q member
  exact last ⟨next, ahead, walk.tail edge⟩ trivial (.single edge)

theorem Coherent.mem_cyclic_of_circle (coherent : g.Coherent) (walk : g.Leads p q)
    (circle : Relation.TransGen g.Depends q q) : p ∈ g.compileOrder.cyclic := by
  have onward : Relation.TransGen g.Depends p q := Relation.TransGen.trans_right walk circle
  obtain ⟨next, edge, _⟩ := Relation.TransGen.head'_iff.mp onward
  refine mem_cyclic.mpr ⟨edge.mem_paths, fun placed => ?_⟩
  obtain ⟨before, after, split⟩ := List.append_of_mem placed
  -- the document on the circle would have its place as well, and have it in front of itself
  obtain ⟨front, back, rfl⟩ := List.append_of_mem (coherent.inOrder_sorted.mem_of_walk split onward)
  rw [List.append_assoc, List.cons_append] at split
  have distinct := coherent.inOrder_sorted.nodup
  rw [split] at distinct
  exact List.disjoint_of_nodup_append distinct (coherent.inOrder_sorted.mem_of_walk split circle)
    (List.mem_cons_self ..)

end Graph

/-- The order has every document once: first those that can stand behind all that they refer to, and
then, in its second part, exactly those from which a walk along dependencies leads to a document on
a circle. -/
theorem compileOrder_leaves_circles {g : Graph} (coherent : g.Coherent) :
    g.compileOrder.all.Perm g.paths ∧
      (∀ before p after, g.compileOrder.sorted = before ++ p :: after → ∀ q, g.Depends p q → q ∈ before) ∧
      ∀ p, p ∈ g.compileOrder.cyclic ↔ ∃ q, g.Leads p q ∧ Relation.TransGen g.Depends q q := by
  refine ⟨coherent.compileOrder_perm, fun before p after split q edge => ?_, fun p => ⟨fun left => ?_, ?_⟩⟩
  · exact coherent.inOrder_sorted.mem_of_walk split (.single edge)
  · exact Graph.exists_circle (fun q member => coherent.exists_cyclic member) left
  · rintro ⟨q, walk, circle⟩
    exact coherent.mem_cyclic_of_circle walk circle

/-- A document that mentions one that mentions itself, and two more, one of which mentions the other. -/
def spiralStore : MemoryStore :=
  (((MemoryStore.empty.insert (.parse "/a.md".toList) "@b.md".toList).insert
    (.parse "/b.md".toList) "@b.md".toList).insert
    (.parse "/c.md".toList) "@d.md".toList).insert (.parse "/d.md".toList) "text".toList

def spiral : Graph :=
  (DocumentGraph.build (FileStore.view spiralStore) ["md".toList]
    (["/a.md", "/b.md", "/c.md", "/d.md"].map (.parse ·.toList))).graph

/-- The first is left over although it is on no circle itself. -/
theorem compileOrder_leaves_circles_spiral :
    spiral.Coherent ∧
      spiral.compileOrder = ⟨["/d.md", "/c.md"].map (.parse ·.toList),
        ["/a.md", "/b.md"].map (.parse ·.toList)⟩ ∧
      ¬ spiral.Depends (.parse "/a.md".toList) (.parse "/a.md".toList) ∧
      ∃ q, spiral.Leads (.parse "/a.md".toList) q ∧ Relation.TransGen spiral.Depends q q := by
  have coherent : spiral.Coherent := DocumentGraph.coherent_build
  have order : spiral.compileOrder =
      ⟨["/d.md", "/c.md"].map (.parse ·.toList), ["/a.md", "/b.md"].map (.parse ·.toList)⟩ := by
    decide +kernel
  have alone : .parse "/a.md".toList ∉ spiral.dependenciesOf (.parse "/a.md".toList) := by decide +kernel
  obtain ⟨_, _, left⟩ := compileOrder_leaves_circles coherent
  exact ⟨coherent, order, alone, (left _).mp (by rw [order]; decide +kernel)⟩

end Transclusion

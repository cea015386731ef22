import Transclusion.MemoryStore
import Transclusion.Proofs.ScannedGraph

namespace Transclusion

namespace Graph

/-- The given documents, each behind all that it refers to. -/
def Arranges (g : Graph) (documents order : List Path) : Prop :=
  order.Perm documents ∧ ∀ before p after, order = before ++ p :: after → ∀ q, g.Depends p q → q ∈ before

variable {g : Graph} {done ready order documents : List Path} {degrees : Degrees}

instance : (done order : List Path) → Decidable (g.InOrder done order)
  | _, [] => .isTrue trivial
  | done, p :: rest =>
    have : Decidable (∀ q, g.Depends p q → q ∈ done) :=
      inferInstanceAs (Decidable (∀ q ∈ g.dependenciesOf p, q ∈ done))
    have : Decidable (g.InOrder (p :: done) rest) := instDecidableInOrder (p :: done) rest
    inferInstanceAs (Decidable (_ ∧ _ ∧ _ ∧ _))

theorem InOrder.arranges (inOrder : g.InOrder [] order) (perm : order.Perm documents) :
    g.Arranges documents order :=
  ⟨perm, fun _ _ _ split q edge => (inOrder.follows split q edge).resolve_left List.not_mem_nil⟩

theorem InOrder.of_splits (distinct : order.Nodup) (unplaced : ∀ p ∈ order, p ∈ g.paths ∧ p ∉ done)
    (met : ∀ before p after, order = before ++ p :: after → ∀ q, g.Depends p q → q ∈ done ∨ q ∈ before) :
    g.InOrder done order := by
  induction order generalizing done with
  | nil => trivial
  | cons first rest ih =>
    obtain ⟨apart, distinct⟩ := List.nodup_cons.mp distinct
    obtain ⟨known, fresh⟩ := unplaced first (List.mem_cons_self ..)
    refine ⟨known, fresh, fun q edge => ?_, ih distinct ?_ ?_⟩
    · exact (met [] first rest rfl q edge).resolve_right List.not_mem_nil
    · intro p member
      obtain ⟨inside, new⟩ := unplaced p (List.mem_cons_of_mem first member)
      refine ⟨inside, fun placed => ?_⟩
      rcases List.mem_cons.mp placed with rfl | old
      · exact apart member
      · exact new old
    · rintro before p after rfl q edge
      rcases met (first :: before) p after rfl q edge with old | between
      · exact Or.inl (List.mem_cons_of_mem first old)
      · rcases List.mem_cons.mp between with rfl | between
        · exact Or.inl (List.mem_cons_self ..)
        · exact Or.inr between

/-- Whatever can come first in another order waits for nothing, so it is ready, and the smallest of
those that are ready is placed. Where both begin with the same document, the rest of the other is an
order for what is left. -/
theorem Waiting.place_isLE (coherent : g.Coherent) (waiting : g.Waiting done degrees ready) {fuel : Nat}
    (inOrder : g.InOrder done order) (perm : order.Perm (g.place fuel degrees ready)) :
    (compare (g.place fuel degrees ready) order).isLE := by
  induction fuel generalizing done degrees ready order with
  | zero =>
    cases List.perm_nil.mp perm
    rfl
  | succ fuel ih =>
    match ready, order with
    | [], order =>
      cases List.perm_nil.mp perm
      rfl
    | p :: ready, [] => cases List.nil_perm.mp perm
    | p :: ready, first :: rest =>
      obtain ⟨known, fresh, met, later⟩ := inOrder
      have listed : first ∈ p :: ready := waiting.mem_ready.mpr ⟨known, fresh, met⟩
      rw [place, List.compare_eq_compareLex, List.compareLex_cons_cons, Ordering.isLE_then_iff_or,
        ← List.compare_eq_compareLex]
      rcases List.mem_cons.mp listed with rfl | behind
      · exact Or.inr ⟨Std.ReflCmp.compare_self, ih (waiting.next coherent) later perm.cons_inv⟩
      · exact Or.inl ((List.pairwise_cons.mp waiting.ascending).1 first behind)

theorem Coherent.arranges_sorted (coherent : g.Coherent) :
    g.Arranges g.compileOrder.sorted g.compileOrder.sorted :=
  coherent.inOrder_sorted.arranges (.refl _)

theorem Coherent.sorted_isLE (coherent : g.Coherent) (arranges : g.Arranges g.compileOrder.sorted order) :
    (compare g.compileOrder.sorted order).isLE := by
  obtain ⟨perm, met⟩ := arranges
  refine coherent.waiting.place_isLE coherent (.of_splits ?_ ?_ ?_) perm
  · exact perm.nodup_iff.mpr coherent.inOrder_sorted.nodup
  · exact fun p member => coherent.inOrder_sorted.mem p (perm.mem_iff.mp member)
  · exact fun before p after split q edge => Or.inr (met before p after split q edge)

end Graph

/-- Of all the ways to arrange the documents that can be ordered, each behind those that it refers
to, the compile order is the one that comes first when they are compared step by step. There is no
other of that kind, so nothing but the graph has a say in it. -/
theorem compileOrder_is_least {g : Graph} (coherent : g.Coherent) :
    g.Arranges g.compileOrder.sorted g.compileOrder.sorted ∧
      (∀ order, g.Arranges g.compileOrder.sorted order → (compare g.compileOrder.sorted order).isLE) ∧
      ∀ least, g.Arranges g.compileOrder.sorted least →
        (∀ order, g.Arranges g.compileOrder.sorted order → (compare least order).isLE) →
          least = g.compileOrder.sorted := by
  refine ⟨coherent.arranges_sorted, fun order => coherent.sorted_isLE, fun least arranges first => ?_⟩
  have level := Std.OrientedCmp.isLE_antisymm (first _ coherent.arranges_sorted)
    (coherent.sorted_isLE arranges)
  exact Std.LawfulEqCmp.eq_of_compare level

/-- A document that is not ready before another one is placed, and one behind it in path order that
is ready at once. -/
def latecomerStore : MemoryStore :=
  ((MemoryStore.empty.insert (.parse "/a.md".toList) "@b.md".toList).insert
    (.parse "/b.md".toList) "text".toList).insert (.parse "/c.md".toList) "text".toList

def latecomer : Graph :=
  (DocumentGraph.build (FileStore.view latecomerStore) ["md".toList]
    (["/a.md", "/b.md", "/c.md"].map (.parse ·.toList))).graph

theorem compileOrder_is_least_latecomer : latecomer.Coherent ∧
    latecomer.compileOrder.sorted = ["/b.md", "/a.md", "/c.md"].map (.parse ·.toList) ∧
    latecomer.Arranges latecomer.compileOrder.sorted (["/b.md", "/c.md", "/a.md"].map (.parse ·.toList)) ∧
    (compare latecomer.compileOrder.sorted (["/b.md", "/c.md", "/a.md"].map (.parse ·.toList))).isLE := by
  have coherent : latecomer.Coherent := DocumentGraph.coherent_build
  have sorted : latecomer.compileOrder.sorted = ["/b.md", "/a.md", "/c.md"].map (.parse ·.toList) := by
    decide +kernel
  have inOrder : latecomer.InOrder [] (["/b.md", "/c.md", "/a.md"].map (.parse ·.toList)) := by
    decide +kernel
  have arranges : latecomer.Arranges latecomer.compileOrder.sorted
      (["/b.md", "/c.md", "/a.md"].map (.parse ·.toList)) :=
    inOrder.arranges (by rw [sorted]; decide +kernel)
  exact ⟨coherent, sorted, arranges, (compileOrder_is_least coherent).2.1 _ arranges⟩

end Transclusion

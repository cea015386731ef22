import Transclusion.Proofs.DocumentSet
import Transclusion.Proofs.Leftover

namespace Transclusion

namespace Graph

variable {g : Graph} {p q : Path} {cycle : List Path} {components : List (List Path)}

/-- Documents that lead to each other are on the same circles. -/
theorem cycleOf_congr (there : Relation.TransGen g.Depends p q) (back : Relation.TransGen g.Depends q p) :
    g.cycleOf g.reachTable p = g.cycleOf g.reachTable q := by
  refine List.filter_congr fun r _ => Bool.eq_iff_iff.mpr ?_
  rw [Bool.and_eq_true, Bool.and_eq_true, leadsTo_iff, leadsTo_iff, leadsTo_iff, leadsTo_iff]
  exact ⟨fun ⟨on, home⟩ => ⟨back.trans on, home.trans there⟩,
    fun ⟨on, home⟩ => ⟨there.trans on, home.trans back⟩⟩

theorem mem_paths_of_circle (circle : Relation.TransGen g.Depends p p) : p ∈ g.paths := by
  obtain ⟨_, edge, _⟩ := Relation.TransGen.head'_iff.mp circle
  exact edge.mem_paths

theorem mem_cycles : cycle ∈ g.cycles ↔
    ∃ p, Relation.TransGen g.Depends p p ∧ g.cycleOf g.reachTable p = cycle := by
  simp only [cycles, List.mem_filterMap]
  constructor
  · rintro ⟨p, _, found⟩
    split at found
    · rename_i leader
      cases found
      exact ⟨p, (mem_cycleOf.mp (List.mem_of_mem_head? leader)).2.1, rfl⟩
    · cases found
  · rintro ⟨p, circle, rfl⟩
    obtain ⟨leader, rest, members⟩ :=
      List.exists_cons_of_ne_nil
        (List.ne_nil_of_mem (mem_cycleOf.mpr ⟨mem_paths_of_circle circle, circle, circle⟩))
    obtain ⟨known, there, back⟩ :=
      mem_cycleOf.mp (members ▸ List.mem_cons_self .. : leader ∈ g.cycleOf g.reachTable p)
    -- the set is found at its first member, which has the same one
    have same := cycleOf_congr there back
    refine ⟨leader, known, ?_⟩
    rw [← same, members, if_pos (List.head?_cons ..)]

/-- A document on a circle is on it with exactly those that it leads to and that lead back. -/
theorem mem_iff_of_mem_cycles (found : cycle ∈ g.cycles) (inside : p ∈ cycle) :
    q ∈ cycle ↔ q ∈ g.paths ∧ Relation.TransGen g.Depends p q ∧ Relation.TransGen g.Depends q p := by
  obtain ⟨r, circle, rfl⟩ := mem_cycles.mp found
  obtain ⟨_, there, back⟩ := mem_cycleOf.mp inside
  rw [cycleOf_congr there back, mem_cycleOf]

theorem pairwise_cycles (ascending : Ascending g.paths) : g.cycles.Pairwise fun cycle later =>
    compare cycle later = .lt ∧ cycle.Disjoint later := by
  unfold cycles
  rw [List.pairwise_filterMap]
  refine ascending.imp fun {p q} before => ?_
  simp only [Option.ite_none_right_eq_some, Option.some.injEq]
  rintro _ ⟨first, rfl⟩ _ ⟨first', rfl⟩
  constructor
  · obtain ⟨rest, members⟩ := List.head?_eq_some_iff.mp first
    obtain ⟨rest', members'⟩ := List.head?_eq_some_iff.mp first'
    rw [members, members', List.compare_eq_compareLex, List.compareLex_cons_cons, before]
    rfl
  · intro r inside inside'
    obtain ⟨_, there, back⟩ := mem_cycleOf.mp inside
    obtain ⟨_, there', back'⟩ := mem_cycleOf.mp inside'
    -- with a document in common the two would be one set, which has one first member
    have same := cycleOf_congr (there.trans back') (there'.trans back)
    rw [same, first'] at first
    cases first
    have level : compare p p = .eq := Std.ReflCmp.compare_self
    cases before.symm.trans level

/-- What a search for strongly connected components gives: every document is in one of them, with
exactly those that it leads to and that lead back to it. -/
structure Components (g : Graph) (components : List (List Path)) : Prop where
  nonempty : [] ∉ components
  perm : components.flatten.Perm g.paths
  together {members : List Path} {p q : Path} :
    members ∈ components → p ∈ members → (q ∈ members ↔ q ∈ g.paths ∧ g.Leads p q ∧ g.Leads q p)

/-- The circles among the components: those of several documents, and a document alone that refers
to itself. Each is put in path order, and then all of them are. -/
def circlesAmong (g : Graph) (components : List (List Path)) : List (List Path) :=
  let circles := components.filter fun members =>
    members.length > 1 || members.head?.any fun p => (g.dependenciesOf p).contains p
  sortBy (fun a b => (compare a b).isLE) (circles.map (sortBy fun a b => (compare a b).isLE))

instance (p q : Path) : Decidable (g.Leads p q) :=
  decidable_of_iff (q = p ∨ leadsTo g.reachTable p q)
    ((or_congr_right leadsTo_iff).trans Relation.reflTransGen_iff_eq_or_transGen.symm)

theorem transGen_of_leads (apart : p ≠ q) (walk : g.Leads p q) : Relation.TransGen g.Depends p q :=
  (Relation.reflTransGen_iff_eq_or_transGen.mp walk).resolve_left (Ne.symm apart)

namespace Components

variable (found : g.Components components) (coherent : g.Coherent) {members : List Path}
    (member : members ∈ components)
  (inside : p ∈ members)

include found coherent

theorem nodup_flatten : (∀ members ∈ components, members.Nodup) ∧ components.Pairwise List.Disjoint :=
  List.nodup_flatten.mp (found.perm.nodup_iff.mpr coherent.ascending.nodup)

include member inside

/-- A component is a circle as soon as one of its documents is on one. -/
theorem isCircle_iff :
    (members.length > 1 || members.head?.any fun p => (g.dependenciesOf p).contains p) = true ↔
      Relation.TransGen g.Depends p p := by
  match members with
  | [] => cases inside
  | [only] =>
    cases List.mem_singleton.mp inside
    have alone : (([p].length > 1 || [p].head?.any fun p => (g.dependenciesOf p).contains p) = true) ↔
        g.Depends p p := by
      simp [Depends]
    rw [alone]
    refine ⟨.single, fun circle => ?_⟩
    obtain ⟨next, edge, back⟩ := Relation.TransGen.head'_iff.mp circle
    have stays : next ∈ [p] := (found.together member inside).mpr ⟨coherent.inside edge, .single edge, back⟩
    exact List.mem_singleton.mp stays ▸ edge
  | first :: second :: rest =>
    refine iff_of_true (by simp) ?_
    obtain ⟨apart, _⟩ := List.nodup_cons.mp ((found.nodup_flatten coherent).1 _ member)
    obtain ⟨q, there, other⟩ : ∃ q ∈ first :: second :: rest, p ≠ q := by
      by_cases here : p = first
      · refine ⟨second, by simp, fun same => apart ?_⟩
        rw [← here, same]
        exact List.mem_cons_self ..
      · exact ⟨first, List.mem_cons_self .., here⟩
    obtain ⟨_, walk, back⟩ := (found.together member inside).mp there
    exact (transGen_of_leads other walk).trans_left back

theorem sortBy_eq (circle : Relation.TransGen g.Depends p p) :
    sortBy (fun a b => (compare a b).isLE) members = g.cycleOf g.reachTable p := by
  have ascending : Ascending (g.cycleOf g.reachTable p) := coherent.ascending.sublist List.filter_sublist
  refine (ascending_sortBy ((found.nodup_flatten coherent).1 _ member)).eq_of_mem_iff ascending fun q => ?_
  rw [mem_sortBy, found.together member inside, mem_cycleOf]
  refine and_congr_right fun _ =>
    ⟨fun ⟨there, back⟩ => ⟨circle.trans_left there, .trans_right back circle⟩, ?_⟩
  exact fun ⟨there, back⟩ => ⟨there.to_reflTransGen, back.to_reflTransGen⟩

omit member inside

/-- The cycles do not depend on how the components are searched, nor on the order in which they and
their documents are found. -/
theorem circlesAmong_eq : g.circlesAmong components = g.cycles := by
  have ascending : Ascending g.cycles := (pairwise_cycles coherent.ascending).imp And.left
  refine (ascending_sortBy ?_).eq_of_mem_iff ascending fun cycle => ?_
  · refine List.pairwise_map.mpr
      (List.Pairwise.imp_of_mem ?_ (List.Pairwise.filter _ (found.nodup_flatten coherent).2))
    intro members later member _ disjoint same
    obtain ⟨p, inside⟩ := List.exists_mem_of_ne_nil members
      fun none => found.nonempty (none ▸ List.mem_of_mem_filter member)
    exact disjoint inside (mem_sortBy.mp (same ▸ mem_sortBy.mpr inside))
  · simp only [mem_sortBy, List.mem_map, mem_cycles]
    constructor
    · rintro ⟨members, kept, rfl⟩
      obtain ⟨member, circle⟩ := List.mem_filter.mp kept
      obtain ⟨p, inside⟩ := List.exists_mem_of_ne_nil members fun none => found.nonempty (none ▸ member)
      rw [found.isCircle_iff coherent member inside] at circle
      exact ⟨p, circle, (found.sortBy_eq coherent member inside circle).symm⟩
    · rintro ⟨p, circle, rfl⟩
      obtain ⟨members, member, inside⟩ :=
        List.mem_flatten.mp (found.perm.mem_iff.mpr (mem_paths_of_circle circle))
      refine ⟨members, List.mem_filter.mpr ⟨member, ?_⟩, found.sortBy_eq coherent member inside circle⟩
      exact (found.isCircle_iff coherent member inside).mpr circle

end Components

/-- A circle that is reported keeps all its documents from being ordered, and one is reported
whenever some are. -/
theorem Coherent.cycles_eq_nil_iff (coherent : g.Coherent) :
    g.cycles = [] ↔ g.compileOrder.cyclic = [] := by
  constructor
  · intro none
    refine List.eq_nil_iff_forall_not_mem.mpr fun p left => ?_
    obtain ⟨q, _, circle⟩ := exists_circle (fun _ member => coherent.exists_cyclic member) left
    exact List.not_mem_nil (none ▸ mem_cycles.mpr ⟨q, circle, rfl⟩)
  · intro none
    refine List.eq_nil_iff_forall_not_mem.mpr fun cycle found => ?_
    obtain ⟨p, circle, rfl⟩ := mem_cycles.mp found
    exact List.not_mem_nil (none ▸ coherent.mem_cyclic_of_circle .refl circle)

end Graph

/-- The cycles of a graph are its circles, however strongly connected components are searched: two
documents are in one when each leads to the other, and one document when some walk leads back to it.
No document is in two of them, they and their documents are in path order, and there are some
exactly when documents are left over. -/
theorem cycles_are_circles {g : Graph} (coherent : g.Coherent) :
    (∀ components, g.Components components → g.circlesAmong components = g.cycles) ∧
      (∀ p q, p ≠ q → ((∃ cycle ∈ g.cycles, p ∈ cycle ∧ q ∈ cycle) ↔ g.Leads p q ∧ g.Leads q p)) ∧
      (∀ p, (∃ cycle ∈ g.cycles, p ∈ cycle) ↔ Relation.TransGen g.Depends p p) ∧
      g.cycles.Pairwise List.Disjoint ∧ (∀ cycle ∈ g.cycles, Ascending cycle) ∧ Ascending g.cycles ∧
      (∀ cycle ∈ g.cycles, ∀ p ∈ cycle, p ∈ g.compileOrder.cyclic) ∧
      (g.cycles = [] ↔ g.compileOrder.cyclic = []) := by
  have ordered := Graph.pairwise_cycles coherent.ascending
  have onCircle : ∀ {p}, (∃ cycle ∈ g.cycles, p ∈ cycle) ↔ Relation.TransGen g.Depends p p := by
    intro p
    constructor
    · rintro ⟨cycle, found, inside⟩
      exact ((Graph.mem_iff_of_mem_cycles found inside).mp inside).2.1
    · intro circle
      exact ⟨_, Graph.mem_cycles.mpr ⟨p, circle, rfl⟩,
        Graph.mem_cycleOf.mpr ⟨Graph.mem_paths_of_circle circle, circle, circle⟩⟩
  refine ⟨fun components found => found.circlesAmong_eq coherent, fun p q apart => ?_, fun p => onCircle,
    ordered.imp And.right, ?_, ordered.imp And.left, ?_, coherent.cycles_eq_nil_iff⟩
  · constructor
    · rintro ⟨cycle, found, inside, inside'⟩
      obtain ⟨_, there, back⟩ := (Graph.mem_iff_of_mem_cycles found inside).mp inside'
      exact ⟨there.to_reflTransGen, back.to_reflTransGen⟩
    · rintro ⟨walk, walk'⟩
      have there := Graph.transGen_of_leads apart walk
      have back := Graph.transGen_of_leads apart.symm walk'
      obtain ⟨cycle, found, inside⟩ := onCircle.mpr (there.trans back)
      have known := Graph.mem_paths_of_circle (back.trans there)
      exact ⟨cycle, found, inside, (Graph.mem_iff_of_mem_cycles found inside).mpr ⟨known, there, back⟩⟩
  · intro cycle found
    obtain ⟨p, _, rfl⟩ := Graph.mem_cycles.mp found
    exact coherent.ascending.sublist List.filter_sublist
  · intro cycle found p inside
    exact coherent.mem_cyclic_of_circle .refl (onCircle.mp ⟨cycle, found, inside⟩)

/-- Two documents that mention each other, one that mentions itself, one that mentions another of
these, and one that mentions nothing. -/
def roundaboutStore : MemoryStore :=
  ((((MemoryStore.empty.insert (.parse "/a.md".toList) "@b.md".toList).insert
    (.parse "/b.md".toList) "@a.md".toList).insert
    (.parse "/c.md".toList) "@c.md".toList).insert (.parse "/d.md".toList) "@a.md".toList).insert
    (.parse "/e.md".toList) "text".toList

def roundabout : Graph :=
  (DocumentGraph.build (FileStore.view roundaboutStore) ["md".toList]
    (["/a.md", "/b.md", "/c.md", "/d.md", "/e.md"].map (.parse ·.toList))).graph

def roundaboutComponents : List (List Path) :=
  [["/e.md"], ["/b.md", "/a.md"], ["/d.md"], ["/c.md"]].map (·.map (.parse ·.toList))

theorem components_roundabout : roundabout.Components roundaboutComponents := by
  have perm : roundaboutComponents.flatten.Perm roundabout.paths := by decide +kernel
  have together : ∀ members ∈ roundaboutComponents, ∀ p ∈ members, ∀ q ∈ roundabout.paths,
      (q ∈ members ↔ roundabout.Leads p q ∧ roundabout.Leads q p) := by
    decide +kernel
  refine ⟨by decide, perm, fun {members p q} member inside => ?_⟩
  by_cases known : q ∈ roundabout.paths
  · rw [together members member p inside q known, and_iff_right known]
  · have outside : q ∉ members :=
      fun there => known (perm.mem_iff.mp (List.mem_flatten_of_mem member there))
    exact iff_of_false outside fun ⟨inside, _⟩ => known inside

theorem cycles_are_circles_roundabout :
    roundabout.Coherent ∧ roundabout.Components roundaboutComponents ∧
      roundabout.circlesAmong roundaboutComponents =
        [["/a.md", "/b.md"], ["/c.md"]].map (·.map (.parse ·.toList)) ∧
      roundabout.Leads (.parse "/b.md".toList) (.parse "/a.md".toList) ∧
        roundabout.compileOrder.cyclic ≠ [] := by
  have coherent : roundabout.Coherent := DocumentGraph.coherent_build
  have cycles : roundabout.cycles = [["/a.md", "/b.md"], ["/c.md"]].map (·.map (.parse ·.toList)) := by
    decide +kernel
  obtain ⟨searched, together, _, _, _, _, _, left⟩ := cycles_are_circles coherent
  refine ⟨coherent, components_roundabout, (searched _ components_roundabout).trans cycles, ?_, ?_⟩
  · exact ((together _ _ (by decide +kernel)).mp (by rw [cycles]; decide +kernel)).2
  · rw [ne_eq, ← left, cycles]
    decide

end Transclusion

import Transclusion.Proofs.Leftover
import Transclusion.Proofs.PathForm
import Transclusion.Proofs.TreeLines

namespace Transclusion

namespace Graph

variable {g : Graph} {p q root : Path} {seen pending starts covered earlier others : List Path}

/-- Once there is fuel for every dependency that can still be pushed, more of it changes nothing. -/
theorem collect_eq {fuel fuel' : Nat} (enough : unseen seen g.nodes + pending.length < fuel)
    (enough' : unseen seen g.nodes + pending.length < fuel') :
    g.collect fuel pending seen = g.collect fuel' pending seen := by
  induction fuel generalizing fuel' pending seen with
  | zero => omega
  | succ fuel ih =>
    match fuel', pending with
    | 0, _ => omega
    | fuel' + 1, [] => rfl
    | fuel' + 1, p :: pending =>
      rw [List.length_cons] at enough enough'
      rw [collect, collect]
      split
      · exact ih (by omega) (by omega)
      · rename_i fresh
        have paid : (g.dependenciesOf p).length + unseen (p :: seen) g.nodes ≤ unseen seen g.nodes :=
          dependencies_add_unseen_le (fun old => fresh (List.contains_iff_mem.mpr old)) g.nodes
        refine ih ?_ ?_ <;> rw [List.length_append] <;> omega

theorem collect_eq_cover {fuel : Nat} (enough : g.edgeCount + starts.length < fuel) :
    g.collect fuel starts seen = g.cover starts seen := by
  have bound : unseen seen g.nodes ≤ g.edgeCount := unseen_le seen g.nodes
  exact collect_eq (by omega) (by omega)

theorem Coherent.mem_entryPoints (coherent : g.Coherent) :
    p ∈ g.entryPoints ↔ p ∈ g.paths ∧ ∀ q, ¬ g.Depends q p := by
  have own : ∀ {node}, node ∈ g.nodes → g.dependentsOf node.path = node.dependents :=
    dependentsOf_of_mem coherent.ascending.nodup
  simp only [entryPoints, paths, List.mem_map, List.mem_filter, List.isEmpty_iff]
  constructor
  · rintro ⟨node, ⟨member, none⟩, rfl⟩
    refine ⟨⟨node, member, rfl⟩, fun q edge => ?_⟩
    have listed := coherent.mirrored.mpr edge
    rw [own member, none] at listed
    cases listed
  · rintro ⟨⟨node, member, rfl⟩, none⟩
    refine ⟨node, ⟨member, List.eq_nil_iff_forall_not_mem.mpr fun q listed => ?_⟩, rfl⟩
    exact none q (coherent.mirrored.mp (own member ▸ listed))

/-- What does not lie behind an entry point lies behind a circle: going back from it never comes to
an end. -/
theorem Coherent.exists_origin (coherent : g.Coherent) (known : p ∈ g.paths) :
    (∃ entry ∈ g.entryPoints, g.Leads entry p) ∨ ∃ q ∈ g.compileOrder.cyclic, g.Leads q p := by
  classical
  by_cases entered : ∃ entry ∈ g.entryPoints, g.Leads entry p
  · exact Or.inl entered
  -- none of those that lead to `p` is an entry point, so going back from any of them finds another
  · have onward : ∀ q ∈ g.paths.filter (g.Leads · p),
        ∃ r ∈ g.paths.filter (g.Leads · p), g.Depends r q := by
      intro q member
      obtain ⟨inside, walk⟩ := List.mem_filter.mp member
      have walk : g.Leads q p := of_decide_eq_true walk
      obtain ⟨r, edge⟩ : ∃ r, g.Depends r q := by
        by_contra none
        push Not at none
        exact entered ⟨q, coherent.mem_entryPoints.mpr ⟨inside, none⟩, walk⟩
      exact ⟨r, List.mem_filter.mpr ⟨edge.mem_paths, decide_eq_true (.head edge walk)⟩, edge⟩
    have start : p ∈ g.paths.filter (g.Leads · p) := List.mem_filter.mpr ⟨known, decide_eq_true .refl⟩
    obtain ⟨q, back, circle⟩ := exists_circle onward start
    have walk : g.Leads q p := Relation.reflTransGen_swap.mp back
    exact Or.inr ⟨q, coherent.mem_cyclic_of_circle .refl (Relation.transGen_swap.mp circle), walk⟩

/-- What the trees that start at `earlier` show. -/
def Covers (g : Graph) (earlier covered : List Path) : Prop :=
  ∀ q, q ∈ covered ↔ ∃ root ∈ earlier, g.Leads root q

theorem covers_cover_nil (starts : List Path) : g.Covers starts (g.cover starts []) := fun q => by
  rw [mem_cover starts fun p member => absurd member List.not_mem_nil]
  simp

theorem Covers.cover (covers : g.Covers earlier covered) (p : Path) :
    g.Covers (earlier ++ [p]) (g.cover [p] covered) := by
  intro q
  have closed : ∀ p ∈ covered, ∀ q, g.Depends p q → q ∈ covered := by
    intro p member q edge
    obtain ⟨root, listed, walk⟩ := (covers p).mp member
    exact (covers q).mpr ⟨root, listed, walk.tail edge⟩
  rw [mem_cover [p] closed, covers q]
  simp only [List.mem_append, List.mem_singleton, or_and_right, exists_or]

theorem treeRoots_go_sublist (covered others : List Path) :
    (treeRoots.go g covered others).Sublist others := by
  induction others generalizing covered with
  | nil => exact .slnil
  | cons p rest ih =>
    rw [treeRoots.go]
    split
    · exact (ih covered).cons p
    · exact (ih _).cons_cons p

/-- Each of the other documents hangs below a root, its own if need be. -/
theorem Covers.exists_root (covers : g.Covers earlier covered) (listed : p ∈ others) :
    ∃ root ∈ earlier ++ treeRoots.go g covered others, g.Leads root p := by
  induction others generalizing covered earlier with
  | nil => cases listed
  | cons first rest ih =>
    rw [treeRoots.go]
    split
    · rename_i old
      rcases List.mem_cons.mp listed with rfl | later
      · obtain ⟨root, member, walk⟩ := (covers p).mp (List.contains_iff_mem.mp old)
        exact ⟨root, List.mem_append_left _ member, walk⟩
      · exact ih covers later
    · rcases List.mem_cons.mp listed with rfl | later
      · exact ⟨p, List.mem_append_right _ (List.mem_cons_self ..), .refl⟩
      · have found := ih (covers.cover first) later
        rwa [List.append_assoc, List.singleton_append] at found

/-- No tree starts at a document that one before it shows. -/
theorem Covers.not_leads (covers : g.Covers earlier covered) {before after : List Path}
    (split : treeRoots.go g covered others = before ++ root :: after) :
    ∀ r ∈ earlier ++ before, ¬ g.Leads r root := by
  induction others generalizing covered earlier before with
  | nil => simp [treeRoots.go] at split
  | cons first rest ih =>
    rw [treeRoots.go] at split
    split at split
    · exact ih covers split
    · rename_i fresh
      cases before with
      | nil =>
        obtain ⟨rfl, _⟩ := List.cons.inj split
        intro r member walk
        rw [List.append_nil] at member
        exact fresh (List.contains_iff_mem.mpr ((covers first).mpr ⟨r, member, walk⟩))
      | cons second before =>
        obtain ⟨rfl, later⟩ := List.cons.inj split
        have apart := ih (covers.cover first) later
        rwa [List.append_assoc, List.singleton_append] at apart

theorem entry_or_not_leads {before after : List Path}
    (split : g.treeRoots others = before ++ root :: after) :
    root ∈ g.entryPoints ∨ ∀ r ∈ before, ¬ g.Leads r root := by
  have covers := covers_cover_nil g.entryPoints (g := g)
  -- the root is one of those that were added, or an entry point
  rcases List.append_eq_append_iff.mp split with ⟨more, rfl, added⟩ | ⟨more, entries, rest⟩
  · exact Or.inr (covers.not_leads added)
  · cases more with
    | nil =>
      rw [List.append_nil] at entries
      have apart := covers.not_leads (show _ = [] ++ root :: after from rest.symm)
      rw [List.append_nil] at apart
      exact Or.inr (entries ▸ apart)
    | cons first more =>
      obtain ⟨rfl, _⟩ := List.cons.inj rest
      exact Or.inl (entries ▸ List.mem_append_right before (List.mem_cons_self ..))

theorem Coherent.treeRoots_subset (coherent : g.Coherent) :
    g.treeRoots g.compileOrder.cyclic ⊆ g.paths := by
  intro root member
  rcases List.mem_append.mp member with entry | cyclic
  · exact (coherent.mem_entryPoints.mp entry).1
  · exact (mem_cyclic.mp ((treeRoots_go_sublist _ _).subset cyclic)).1

theorem Coherent.exists_treeRoot (coherent : g.Coherent) (known : p ∈ g.paths) :
    ∃ root ∈ g.treeRoots g.compileOrder.cyclic, g.Leads root p := by
  rcases coherent.exists_origin known with ⟨entry, member, walk⟩ | ⟨q, left, walk⟩
  · exact ⟨entry, List.mem_append_left _ member, walk⟩
  · obtain ⟨root, member, before⟩ := (covers_cover_nil g.entryPoints).exists_root left
    exact ⟨root, member, before.trans walk⟩

/-- A tree shows its root and, in its lines, what the root leads to. -/
theorem Coherent.leads_iff (coherent : g.Coherent) (known : root ∈ g.paths) :
    g.Leads root p ↔ p = root ∨ ∃ line ∈ g.treeLines root, line.path = p := by
  constructor
  · intro walk
    rcases Relation.ReflTransGen.cases_tail walk with same | ⟨q, walk, edge⟩
    · exact Or.inl same
    · obtain ⟨branch, trail⟩ := exists_trail walk
      obtain ⟨line, shown, _, same⟩ := (coherent.exists_line_iff known).mpr ⟨q, trail, edge⟩
      exact Or.inr ⟨line, shown, same⟩
  · rintro (rfl | ⟨line, shown, rfl⟩)
    · exact .refl
    · obtain ⟨_, last, trail, edge⟩ := Trail.start.of_mem_linesBelow shown
      exact trail.leads.tail edge

end Graph

/-- Together the trees show every document. Each shows what its root leads to: a line for every
trail and every dependency of its last document, marked just if that is on the branch already which
a reader sees above it. Only entry points and documents that no tree before shows have one of their
own, and no tree nor the search for what it shows is cut short. -/
theorem trees_show_every_document {g : Graph} (coherent : g.Coherent) (base : Path) :
    g.treesText g.compileOrder.cyclic base = ((g.treeRoots g.compileOrder.cyclic).flatMap fun root =>
        ((Spelling.ofPath root).relativeTo base).text :: (g.treeLines root).map (·.text base)).flatMap
          (· ++ ['\n']) ∧
      (∀ p ∈ g.paths, ∃ root ∈ g.treeRoots g.compileOrder.cyclic,
        g.Leads root p ∧ (p = root ∨ ∃ line ∈ g.treeLines root, line.path = p)) ∧
      (∀ root ∈ g.treeRoots g.compileOrder.cyclic,
        (∀ p, g.Leads root p ↔ p = root ∨ ∃ line ∈ g.treeLines root, line.path = p) ∧
        (∀ branch q, (∃ line ∈ g.treeLines root, line.branch = branch ∧ line.path = q) ↔
          ∃ p, g.Trail root branch p ∧ g.Depends p q) ∧
        (∀ before line after, g.treeLines root = before ++ line :: after →
          line.branch = (before.foldl TreeLine.follow [root]).take line.depth ∧
          (line.circular ↔ line.path ∈ line.branch)) ∧
        ∀ fuel > g.nodes.length, g.linesBelow fuel [root] [] root = g.treeLines root) ∧
      (∀ before root after, g.treeRoots g.compileOrder.cyclic = before ++ root :: after →
        root ∈ g.entryPoints ∨ ∀ earlier ∈ before, ¬ g.Leads earlier root) ∧
      ∀ starts seen fuel, g.edgeCount + starts.length < fuel →
        g.collect fuel starts seen = g.cover starts seen := by
  have known : ∀ root ∈ g.treeRoots g.compileOrder.cyclic, root ∈ g.paths := fun root member =>
    coherent.treeRoots_subset member
  refine ⟨?_, fun p inside => ?_, fun root member => ⟨fun p => coherent.leads_iff (known root member),
    fun branch q => coherent.exists_line_iff (known root member),
      fun before line after split => ⟨TreeLine.branch_eq split, ?_⟩,
    fun fuel enough => ?_⟩, fun before root after split => ?_,
      fun starts seen fuel enough => Graph.collect_eq_cover enough⟩
  · unfold Graph.treesText Graph.treeText
    simp only [List.flatMap_assoc, Spelling.path_ofPath]
  · obtain ⟨root, member, walk⟩ := coherent.exists_treeRoot inside
    exact ⟨root, member, walk, (coherent.leads_iff (known root member)).mp walk⟩
  · have shown : line ∈ g.treeLines root := split ▸ List.mem_append_right before (List.mem_cons_self ..)
    rw [(Graph.Trail.start.of_mem_linesBelow shown).1, List.contains_iff_mem]
  · have room : g.nodes.length < fuel + [root].length := Nat.lt_add_right 1 enough
    exact Graph.Trail.start.linesBelow_eq coherent (known root member) room
      (Nat.lt_add_right 1 (Nat.lt_succ_self _)) []
  · exact Graph.entry_or_not_leads split

/-- Two documents that mention each other, and one that hangs below them and below an entry point. -/
def bowerStore : MemoryStore :=
  (((MemoryStore.empty.insert (.parse "/a.md".toList) "@b.md".toList).insert
    (.parse "/b.md".toList) "@a.md @c.md".toList).insert
    (.parse "/c.md".toList) "text".toList).insert (.parse "/e.md".toList) "@c.md".toList

def bower : Graph :=
  (DocumentGraph.build (FileStore.view bowerStore) ["md".toList]
    (["/a.md", "/b.md", "/c.md", "/e.md"].map (.parse ·.toList))).graph

theorem trees_show_every_document_bower : bower.Coherent ∧
    bower.treesText bower.compileOrder.cyclic .root =
      "e.md\n└── c.md\na.md\n└── b.md\n    ├── a.md (circular reference)\n    └── c.md\n".toList ∧
    bower.treeRoots bower.compileOrder.cyclic = ["/e.md", "/a.md"].map (.parse ·.toList) ∧
    ¬ bower.Leads (.parse "/e.md".toList) (.parse "/a.md".toList) ∧
    ∃ root ∈ bower.treeRoots bower.compileOrder.cyclic, bower.Leads root (.parse "/b.md".toList) := by
  have coherent : bower.Coherent := DocumentGraph.coherent_build
  have text : bower.treesText bower.compileOrder.cyclic .root =
      "e.md\n└── c.md\na.md\n└── b.md\n    ├── a.md (circular reference)\n    └── c.md\n".toList := by
    decide +kernel
  have roots : bower.treeRoots bower.compileOrder.cyclic =
      ["/e.md", "/a.md"].map (.parse ·.toList) := by
    decide +kernel
  obtain ⟨_, shown, _, apart, _⟩ := trees_show_every_document coherent .root
  refine ⟨coherent, text, roots, ?_, ?_⟩
  · exact (apart [.parse "/e.md".toList] _ [] roots).resolve_left (by decide +kernel) _
      (List.mem_singleton_self _)
  · obtain ⟨root, member, walk, _⟩ := shown (.parse "/b.md".toList) (by decide +kernel)
    exact ⟨root, member, walk⟩

end Transclusion

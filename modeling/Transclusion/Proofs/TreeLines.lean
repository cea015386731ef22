import Transclusion.Graph.Tree
import Transclusion.Proofs.Placement

namespace Transclusion

namespace Graph

/-- A walk along dependencies that meets no document twice, as the documents on it and the last of them. -/
inductive Trail (g : Graph) (root : Path) : List Path → Path → Prop
  | start : g.Trail root [root] root
  | step {branch p q} : g.Trail root branch p → g.Depends p q → q ∉ branch → g.Trail root (branch ++ [q]) q

variable {g : Graph} {root p q : Path} {branch : List Path}

namespace Trail

theorem nodup (trail : g.Trail root branch p) : branch.Nodup := by
  induction trail with
  | start => exact List.nodup_singleton root
  | step _ _ fresh ih =>
    rw [← List.concat_eq_append]
    exact (List.nodup_concat ..).mpr ⟨fresh, ih⟩

/-- A trail goes through each of its documents on a trail of its own. -/
theorem exists_of_mem (trail : g.Trail root branch p) (member : q ∈ branch) :
    ∃ front, g.Trail root front q := by
  induction trail with
  | start =>
    cases List.mem_singleton.mp member
    exact ⟨_, .start⟩
  | step trail edge fresh ih =>
    rcases List.mem_append.mp member with before | last
    · exact ih before
    · cases List.mem_singleton.mp last
      exact ⟨_, trail.step edge fresh⟩

theorem leads (trail : g.Trail root branch p) : g.Leads root p := by
  induction trail with
  | start => exact .refl
  | step _ edge _ ih => exact ih.tail edge

theorem subset_paths (trail : g.Trail root branch p) (coherent : g.Coherent)
    (known : root ∈ g.paths) : branch ⊆ g.paths := by
  induction trail with
  | start => exact fun q member => List.mem_singleton.mp member ▸ known
  | step _ edge _ ih =>
    intro q member
    rcases List.mem_append.mp member with before | last
    · exact ih before
    · exact List.mem_singleton.mp last ▸ coherent.inside edge

theorem length_le (trail : g.Trail root branch p) (coherent : g.Coherent) (known : root ∈ g.paths) :
    branch.length ≤ g.nodes.length :=
  length_le_nodes trail.nodup (trail.subset_paths coherent known)

end Trail

/-- A walk that comes back to a document can go on from there at once. -/
theorem exists_trail (walk : g.Leads root p) : ∃ branch, g.Trail root branch p := by
  induction walk with
  | refl => exact ⟨_, .start⟩
  | @tail p q _ edge ih =>
    obtain ⟨branch, trail⟩ := ih
    by_cases again : q ∈ branch
    · exact trail.exists_of_mem again
    · exact ⟨_, trail.step edge again⟩

/-- What is drawn in front of a document, and in front of what hangs below it. -/
def mark (last : Bool) : Text := (if last then "└── " else "├── ").toList

def indent (last : Bool) : Text := (if last then "    " else "│   ").toList

theorem length_mark (last : Bool) : (mark last).length = 4 := by
  cases last <;> rfl

theorem length_indent (last : Bool) : (indent last).length = 4 := by
  cases last <;> rfl

section LinesFor

variable {below below' : List Path → Text → Path → List TreeLine} {lead : Text} {rest : List Path}

theorem linesFor_cons : linesFor below branch lead (p :: rest) =
    ⟨lead ++ mark rest.isEmpty, branch, p, branch.contains p⟩ ::
      ((if branch.contains p then [] else below (branch ++ [p]) (lead ++ indent rest.isEmpty) p) ++
        linesFor below branch lead rest) := by
  rw [linesFor, mark, indent]
  cases rest.isEmpty <;> rfl

theorem mem_linesFor {line : TreeLine} {ps : List Path} (shown : line ∈ linesFor below branch lead ps) :
    line.branch = branch ∧ line.path ∈ ps ∧ line.circular = branch.contains line.path ∨
      ∃ p ∈ ps, p ∉ branch ∧ ∃ lead, line ∈ below (branch ++ [p]) lead p := by
  induction ps with
  | nil => cases shown
  | cons p rest ih =>
    rw [linesFor_cons, List.mem_cons, List.mem_append] at shown
    rcases shown with rfl | followed | later
    · exact Or.inl ⟨rfl, List.mem_cons_self .., rfl⟩
    · split at followed
      · cases followed
      · rename_i fresh
        exact Or.inr ⟨p, List.mem_cons_self ..,
          fun again => fresh (List.contains_iff_mem.mpr again), _, followed⟩
    · rcases ih later with ⟨same, member, marked⟩ | ⟨q, member, followed⟩
      · exact Or.inl ⟨same, List.mem_cons_of_mem p member, marked⟩
      · exact Or.inr ⟨q, List.mem_cons_of_mem p member, followed⟩

theorem exists_line_of_mem {ps : List Path} (member : p ∈ ps) :
    ∃ line ∈ linesFor below branch lead ps, line.branch = branch ∧ line.path = p := by
  induction ps with
  | nil => cases member
  | cons first rest ih =>
    rw [linesFor_cons]
    rcases List.mem_cons.mp member with rfl | later
    · exact ⟨_, List.mem_cons_self .., rfl, rfl⟩
    · obtain ⟨line, shown, same⟩ := ih later
      exact ⟨line, List.mem_cons_of_mem _ (List.mem_append_right _ shown), same⟩

theorem exists_followed_of_mem {ps : List Path} (member : p ∈ ps) (fresh : p ∉ branch) :
    ∃ lead', below (branch ++ [p]) lead' p ⊆ linesFor below branch lead ps := by
  induction ps with
  | nil => cases member
  | cons first rest ih =>
    rw [linesFor_cons]
    rcases List.mem_cons.mp member with rfl | later
    · rw [if_neg fun again => fresh (List.contains_iff_mem.mp again)]
      exact ⟨_, fun line shown => List.mem_cons_of_mem _ (List.mem_append_left _ shown)⟩
    · obtain ⟨lead', inside⟩ := ih later
      exact ⟨lead', fun line shown => List.mem_cons_of_mem _ (List.mem_append_right _ (inside shown))⟩

theorem linesFor_congr {ps : List Path}
    (same : ∀ p ∈ ps, p ∉ branch → ∀ lead, below (branch ++ [p]) lead p = below' (branch ++ [p]) lead p) :
    linesFor below branch lead ps = linesFor below' branch lead ps := by
  induction ps with
  | nil => rfl
  | cons p rest ih =>
    rw [linesFor_cons, linesFor_cons, ih fun q member => same q (List.mem_cons_of_mem p member)]
    by_cases again : p ∈ branch
    · rw [if_pos (List.contains_iff_mem.mpr again), if_pos (List.contains_iff_mem.mpr again)]
    · rw [same p (List.mem_cons_self ..) again]

end LinesFor

/-- Every line continues a trail by one dependency of its last document. -/
theorem Trail.of_mem_linesBelow {fuel : Nat} {lead : Text} {line : TreeLine}
    (trail : g.Trail root branch p) (shown : line ∈ g.linesBelow fuel branch lead p) :
    line.circular = line.branch.contains line.path ∧
      ∃ last, g.Trail root line.branch last ∧ g.Depends last line.path := by
  induction fuel generalizing branch p lead with
  | zero => cases shown
  | succ fuel ih =>
    rcases mem_linesFor shown with ⟨rfl, edge, marked⟩ | ⟨q, edge, fresh, lead, followed⟩
    · exact ⟨marked, p, trail, edge⟩
    · exact ih (trail.step edge fresh) followed

/-- A trail has as much fuel left at its end as it needs, and what hangs below it is part of the tree. -/
theorem Trail.exists_block (trail : g.Trail root branch p) (coherent : g.Coherent)
    (known : root ∈ g.paths) :
    ∃ fuel lead, fuel + branch.length = g.nodes.length + 1 ∧
      g.linesBelow (fuel + 1) branch lead p ⊆ g.treeLines root := by
  induction trail with
  | start => exact ⟨g.nodes.length, [], rfl, fun _ => id⟩
  | @step branch p q trail edge fresh ih =>
    obtain ⟨fuel, lead, left, inside⟩ := ih
    have room := (trail.step edge fresh).length_le coherent known
    rw [List.length_append, List.length_singleton] at room
    obtain ⟨lead', followed⟩ : ∃ lead',
        g.linesBelow fuel (branch ++ [q]) lead' q ⊆ g.linesBelow (fuel + 1) branch lead p :=
      exists_followed_of_mem edge fresh
    match fuel with
    | 0 => omega
    | fuel + 1 =>
      refine ⟨fuel, lead', ?_, fun line shown => inside (followed shown)⟩
      rw [List.length_append, List.length_singleton]
      omega

/-- The lines of a tree are the trails from its root, each with every dependency of its last document. -/
theorem Coherent.exists_line_iff (coherent : g.Coherent) (known : root ∈ g.paths) :
    (∃ line ∈ g.treeLines root, line.branch = branch ∧ line.path = q) ↔
      ∃ p, g.Trail root branch p ∧ g.Depends p q := by
  constructor
  · rintro ⟨line, shown, rfl, rfl⟩
    exact (Trail.start.of_mem_linesBelow shown).2
  · rintro ⟨p, trail, edge⟩
    obtain ⟨fuel, lead, _, inside⟩ := trail.exists_block coherent known
    obtain ⟨line, shown, same⟩ := exists_line_of_mem edge
    exact ⟨line, inside shown, same⟩

/-- No branch is longer than the graph, so no line is left out for want of fuel. -/
theorem Trail.linesBelow_eq (coherent : g.Coherent) (known : root ∈ g.paths) {fuel fuel' : Nat}
    (trail : g.Trail root branch p) (enough : g.nodes.length < fuel + branch.length)
    (enough' : g.nodes.length < fuel' + branch.length) (lead : Text) :
    g.linesBelow fuel branch lead p = g.linesBelow fuel' branch lead p := by
  induction fuel generalizing fuel' branch p lead with
  | zero =>
    have room := trail.length_le coherent known
    omega
  | succ fuel ih =>
    match fuel' with
    | 0 =>
      have room := trail.length_le coherent known
      omega
    | fuel' + 1 =>
      refine linesFor_congr fun q edge fresh lead => ?_
      have longer : (branch ++ [q]).length = branch.length + 1 := List.length_append
      exact ih (trail.step edge fresh) (by omega) (by omega) lead

end Graph

namespace TreeLine

/-- How far to the right a line stands, in steps of the four characters that each document on the
branch takes. -/
def depth (line : TreeLine) : Nat := line.lead.length / 4

/-- What a reader of the lines has in mind behind `line`: the documents that it hangs below, as they
were before, and its own. -/
def follow (seen : List Path) (line : TreeLine) : List Path := seen.take line.depth ++ [line.path]

/-- The branch of each line is what a reader finds above it, having `seen` in mind before the first one. -/
def Reads : List Path → List TreeLine → Prop
  | _, [] => True
  | seen, line :: rest => line.branch = seen.take line.depth ∧ Reads (follow seen line) rest

variable {seen : List Path}

theorem reads_append {lines more : List TreeLine} : Reads seen (lines ++ more) ↔
    Reads seen lines ∧ Reads (lines.foldl follow seen) more := by
  induction lines generalizing seen with
  | nil => simp [Reads]
  | cons line rest ih =>
    rw [List.cons_append, Reads, Reads, ih, List.foldl_cons, and_assoc]

/-- Lines that hang below `branch` leave it in the reader's mind. -/
theorem reads_linesFor {below : List Path → Text → Path → List TreeLine} {branch ps : List Path}
    {lead : Text} (width : lead.length + 4 = 4 * branch.length) (above : branch <+: seen)
    (deeper : ∀ p ∈ ps, ∀ last,
      Reads (branch ++ [p]) (below (branch ++ [p]) (lead ++ Graph.indent last) p) ∧
        branch ++ [p] <+:
          (below (branch ++ [p]) (lead ++ Graph.indent last) p).foldl follow (branch ++ [p])) :
    Reads seen (Graph.linesFor below branch lead ps) ∧
      branch <+: (Graph.linesFor below branch lead ps).foldl follow seen := by
  induction ps generalizing seen with
  | nil => exact ⟨trivial, above⟩
  | cons p rest ih =>
    have aside : (⟨lead ++ Graph.mark rest.isEmpty, branch, p, branch.contains p⟩ : TreeLine).depth =
        branch.length := by
      rw [depth, List.length_append, Graph.length_mark, width, Nat.mul_div_cancel_left _ (by decide)]
    have here : seen.take branch.length = branch := (List.prefix_iff_eq_take.mp above).symm
    obtain ⟨reads, kept⟩ : Reads (branch ++ [p])
          (if branch.contains p then [] else below (branch ++ [p]) (lead ++ Graph.indent rest.isEmpty) p) ∧
        branch <+: (if branch.contains p then []
          else below (branch ++ [p]) (lead ++ Graph.indent rest.isEmpty) p).foldl
          follow (branch ++ [p]) := by
      split
      · exact ⟨trivial, List.prefix_append ..⟩
      · obtain ⟨reads, kept⟩ := deeper p (List.mem_cons_self ..) rest.isEmpty
        exact ⟨reads, (List.prefix_append ..).trans kept⟩
    obtain ⟨readsLater, keptLater⟩ := ih kept fun q member => deeper q (List.mem_cons_of_mem p member)
    rw [Graph.linesFor_cons, Reads, List.foldl_cons, List.foldl_append, follow, aside, here]
    exact ⟨⟨rfl, reads_append.mpr ⟨reads, readsLater⟩⟩, keptLater⟩

theorem reads_linesBelow {g : Graph} {fuel : Nat} {branch : List Path} {lead : Text} {p : Path}
    (width : lead.length + 4 = 4 * branch.length) (above : branch <+: seen) :
    Reads seen (g.linesBelow fuel branch lead p) ∧
      branch <+: (g.linesBelow fuel branch lead p).foldl follow seen := by
  induction fuel generalizing branch lead p seen with
  | zero => exact ⟨trivial, above⟩
  | succ fuel ih =>
    refine reads_linesFor width above fun q _ last => ih ?_ (List.prefix_refl _)
    rw [List.length_append, List.length_append, Graph.length_indent, width,
      List.length_singleton, Nat.mul_succ]

/-- The branch that a line was drawn for is the one that a reader sees it on, who has read all lines
above it. -/
theorem branch_eq {g : Graph} {root : Path} {before after : List TreeLine} {line : TreeLine}
    (split : g.treeLines root = before ++ line :: after) :
    line.branch = (before.foldl follow [root]).take line.depth := by
  have reads : Reads [root] (g.treeLines root) := (reads_linesBelow rfl (List.prefix_refl _)).1
  rw [split] at reads
  exact (reads_append.mp reads).2.1

end TreeLine

end Transclusion

import Mathlib.Data.List.Chain
import Mathlib.Data.List.Nodup
import Transclusion.Proofs.Deduplication

namespace Transclusion

/-- Some record tells that a mention in the document `u` had `v` inlined. -/
def Encloses (records : List Record) (u v : Path) : Prop :=
  ∃ r ∈ records, r.importedFrom = u ∧ r.resolution.path = v ∧ r.outcome.content?.isSome

/-- The documents that are being expanded while the mentions of the one at `file` are dealt with: first the
one that is compiled, at last the one at `file`, none twice, and each inlined by the one before it, as the
records made so far tell. -/
structure Branch (records : List Record) (start file : Path) (documents : List Path) : Prop where
  starts : documents.head? = some start
  ends : documents.getLast? = some file
  distinct : documents.Nodup
  enclosed : documents.IsChain (Encloses records)

theorem Encloses.mono {records more : List Record} {u v : Path} (encloses : Encloses records u v)
    (subset : records ⊆ more) : Encloses more u v := by
  obtain ⟨r, member, about⟩ := encloses
  exact ⟨r, subset member, about⟩

namespace Branch

variable {records more : List Record} {start file p : Path} {documents : List Path}

theorem root (records : List Record) (p : Path) : Branch records p p [p] :=
  ⟨rfl, rfl, List.nodup_singleton p, List.isChain_singleton p⟩

theorem mono (branch : Branch records start file documents) (subset : records ⊆ more) :
    Branch more start file documents :=
  ⟨branch.starts, branch.ends, branch.distinct,
    branch.enclosed.imp fun _ _ encloses => encloses.mono subset⟩

/-- A document that is not on the branch yet is put at its end when the last one inlines it. -/
theorem below (branch : Branch records start file documents) (outside : p ∉ documents)
    (encloses : Encloses records file p) : Branch records start p (documents ++ [p]) where
  starts := by rw [List.head?_append, branch.starts, Option.some_or]
  ends := List.getLast?_concat
  distinct := by
    rw [← List.concat_eq_append]
    exact branch.distinct.concat outside
  enclosed := by
    refine branch.enclosed.append (List.isChain_singleton p) fun last isLast next isNext => ?_
    rw [branch.ends] at isLast
    cases isLast
    cases isNext
    exact encloses

/-- Every document of a branch lies between its ends in each relation that holds from one to the next. -/
theorem between (branch : Branch records start file documents) {step : Path → Path → Prop}
    (steps : ∀ u v, Encloses records u v → step u v) (member : p ∈ documents) :
    Relation.ReflTransGen step start p ∧ Relation.ReflTransGen step p file := by
  have walk : documents.IsChain step := branch.enclosed.imp steps
  obtain ⟨rest, first⟩ := List.head?_eq_some_iff.mp branch.starts
  obtain ⟨front, last⟩ := List.getLast?_eq_some_iff.mp branch.ends
  constructor
  · refine walk.induction (Relation.ReflTransGen step start) _
      (fun _ _ edge reach => reach.tail edge) ?_ p member
    intro _
    simp only [first, List.head_cons]
    exact .refl
  · refine walk.backwards_induction (Relation.ReflTransGen step · file) _
      (fun _ _ edge reach => reach.head edge) ?_ p member
    intro _
    simp only [last, List.getLast_concat]
    exact .refl

end Branch

/-- The mention `r`, recorded after `records`, is in the last document of a branch and leads back to a
document of that branch; `chain` is the branch with the way back. -/
def LeadsBack (records : List Record) (start : Path) (r : Record) (chain : List Path) : Prop :=
  ∃ documents p, r.resolution = .file p ∧ chain = documents ++ [p] ∧ p ∈ documents ∧
    Branch records start r.importedFrom documents

theorem Settles.of_circular {files : FileView} {options : CompileOptions} {room : Nat}
    {ancestors chain : List Path} {s s' : Session} {resolution : Resolution}
    (settles : Settles files options room ancestors s resolution (.circular chain) s') :
    ∃ p, resolution = .file p ∧ p ∈ ancestors ∧ chain = ancestors ++ [p] := by
  cases settles with
  | @circular p above => exact ⟨p, rfl, above, rfl⟩

/-- A record among those of two runs is in the first, or in the second behind all of the first. -/
theorem split_append {records more before after : List Record} {r : Record}
    (split : records ++ more = before ++ r :: after) :
    (∃ rest, records = before ++ r :: rest) ∨
      ∃ between, before = records ++ between ∧ more = between ++ r :: after := by
  rcases List.append_eq_append_iff.mp split with ⟨between, same, rest⟩ | ⟨rest, same, tail⟩
  · exact Or.inr ⟨between, same, rest⟩
  · cases rest with
    | nil =>
      rw [List.append_nil] at same
      exact Or.inr ⟨[], by rw [same, List.append_nil], tail.symm⟩
    | cons first rest =>
      cases tail
      exact Or.inl ⟨rest, same⟩

/-- Whatever was recorded before, a mention that turns out to be circular leads back along the
branch that is being expanded. The branch grows where the run goes into a document, and each step of
it was recorded right before. -/
theorem Unfolds.leadsBack {files : FileView} {options : CompileOptions} {room : Nat} {site : Site}
    {refs : List Reference} {s s' : Session} {records : List Record}
    (run : Unfolds files options room site refs s records s') {start : Path} {earlier : List Record}
    (branch : Branch earlier start site.file site.ancestors) {before after : List Record}
    {r : Record} {chain : List Path} (split : records = before ++ r :: after)
    (circular : r.outcome = .circular chain) : LeadsBack (earlier ++ before) start r chain := by
  induction run generalizing earlier before after with
  | done => simp at split
  | @settled _ site _ _ _ _ _ _ _ settles _ ih =>
    cases before with
    | nil =>
      obtain ⟨rfl, _⟩ := List.cons.inj split
      cases circular
      obtain ⟨p, leads, above, rfl⟩ := settles.of_circular
      exact ⟨site.ancestors, p, leads, rfl, above, branch.mono (List.subset_append_left ..)⟩
    | cons first before =>
      obtain ⟨rfl, rest⟩ := List.cons.inj split
      rw [List.append_cons]
      exact ih (branch.mono (List.subset_append_left ..)) rest
  | @inlined _ site mention _ s p _ content nested _ records _ leads outside _ _ _ _ nestedIH laterIH =>
    cases before with
    | nil =>
      obtain ⟨rfl, _⟩ := List.cons.inj split
      cases circular
    | cons first before =>
      obtain ⟨same, rest⟩ := List.cons.inj split
      rw [List.append_cons]
      have known : earlier ⊆ earlier ++ [first] := List.subset_append_left ..
      have encloses : Encloses (earlier ++ [first]) site.file p :=
        ⟨first, List.mem_append_right _ (List.mem_singleton_self _), by subst same; exact ⟨rfl, rfl, rfl⟩⟩
      rcases split_append rest with ⟨tail, inner⟩ | ⟨between, rfl, later⟩
      · exact nestedIH ((branch.mono known).below outside encloses) inner
      · rw [← List.append_assoc]
        exact laterIH ((branch.mono known).mono (List.subset_append_left ..)) later

theorem compileContent_leadsBack {files : FileView} {options : CompileOptions} {t : Text}
    {file : Path} {s : Session} {before after : List Record} {r : Record} {chain : List Path}
    (split : (compileContent files options t file s).1.records = before ++ r :: after)
    (circular : r.outcome = .circular chain) :
    LeadsBack before (compileContent files options t file s).1.path r chain :=
  (compileContent_unfolds files options t file s).leadsBack (Branch.root [] _) split circular

/-- Every chain that a compilation reports, of a text or of a stored document, leads back along a
branch from the compiled document: it ends where its mention leads, before that comes the document
of the mention, and what stands before the last step are documents without repetition, each of which
is on record, before the chain is, as inlined by the one in front of it. -/
theorem circular_chains_lead_back (files : FileView) (options : CompileOptions) (s : Session) :
    (∀ t file, let result := (compileContent files options t file s).1
      ∀ before r after chain, result.records = before ++ r :: after → r.outcome = .circular chain →
        LeadsBack before result.path r chain) ∧
    ∀ file result s', compileDocument files options file s = .ok (result, s') →
      ∀ before r after chain, result.records = before ++ r :: after → r.outcome = .circular chain →
        LeadsBack before result.path r chain := by
  constructor
  · intro t file result before r after chain split circular
    exact compileContent_leadsBack split circular
  · intro file result s' compiled before r after chain split circular
    obtain ⟨path, t, _, _, _, same⟩ := compileDocument_eq_ok.mp compiled
    obtain rfl : (compileContent files options t path s).1 = result := congrArg Prod.fst same
    exact compileContent_leadsBack split circular

/-- A document that mentions another, which is on a circle with a third. -/
def loopStore : MemoryStore :=
  ((MemoryStore.empty.insert (.parse "/a.md".toList) "@b.md".toList).insert (.parse "/b.md".toList)
    "see @c.md".toList).insert (.parse "/c.md".toList) "@none.md @b.md".toList

theorem compileDocument_loop (options : CompileOptions) :
    compileDocument (FileStore.view loopStore) options ⟨"/a.md".toList⟩ .empty =
      .ok (compileContent (FileStore.view loopStore) options "@b.md".toList
        (.parse "/a.md".toList) .empty) :=
  compileDocument_eq_ok.mpr ⟨_, _, by decide +kernel, by decide +kernel, by decide +kernel, rfl⟩

theorem circular_chain_of_loop :
    ∃ result s,
      compileDocument (FileStore.view loopStore) .default ⟨"/a.md".toList⟩ .empty = .ok (result, s) ∧
      ∃ before r after, result.records = before ++ r :: after ∧
        r.outcome = .circular (["/a.md", "/b.md", "/c.md", "/b.md"].map fun t => .parse t.toList) ∧
        LeadsBack before result.path r
          (["/a.md", "/b.md", "/c.md", "/b.md"].map fun t => .parse t.toList) := by
  have compiled := compileDocument_loop .default
  obtain ⟨r, outcome, split⟩ : ∃ r : Record,
      r.outcome = .circular (["/a.md", "/b.md", "/c.md", "/b.md"].map fun t => .parse t.toList) ∧
      (compileContent (FileStore.view loopStore) .default "@b.md".toList
        (.parse "/a.md".toList) .empty).1.records =
        (compileContent (FileStore.view loopStore) .default "@b.md".toList
          (.parse "/a.md".toList) .empty).1.records.take 3 ++ [r] :=
    ⟨⟨⟨"b.md".toList, 9, 0, 9⟩, .file (.parse "/b.md".toList), .circular _, .parse "/c.md".toList⟩, rfl,
      by decide +kernel⟩
  exact ⟨_, _, compiled, _, r, [], split, outcome,
    (circular_chains_lead_back (FileStore.view loopStore) .default .empty).2 _ _ _ compiled _ r [] _
      split outcome⟩

end Transclusion

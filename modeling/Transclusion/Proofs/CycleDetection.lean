import Transclusion.Proofs.Branch
import Transclusion.Proofs.Ring

namespace Transclusion

/-- A circle of mentions that can be reached from `start`. -/
def LeadsIntoCircle (files : FileView) (extensions : List Text) (start : Path) : Prop :=
  ∃ p, Relation.ReflTransGen (Mentions files extensions) start p ∧
    Relation.TransGen (Mentions files extensions) p p

section Walks

variable {files : FileView} {extensions : List Text} {p q : Path}

theorem Mentions.readable (mentions : Mentions files extensions p q) : ∃ t, files.read p = .ok t := by
  obtain ⟨t, read, _⟩ := mentions
  exact ⟨t, read⟩

/-- A walk goes on only from documents that can be read, so all of it can be read when its end can. -/
theorem reachable_of_mentions (walk : Relation.ReflTransGen (Mentions files extensions) p q)
    (readable : ∃ t, files.read q = .ok t) : Reachable files extensions p q := by
  induction walk with
  | refl => exact .refl
  | tail _ edge ih => exact (ih edge.readable).tail ⟨edge, readable⟩

theorem imports_of_mentions (walk : Relation.TransGen (Mentions files extensions) p q)
    (readable : ∃ t, files.read q = .ok t) : Relation.TransGen (Imports files extensions) p q := by
  obtain ⟨last, before, edge⟩ := Relation.TransGen.tail'_iff.mp walk
  exact .tail' (reachable_of_mentions before edge.readable) ⟨edge, readable⟩

theorem Within.mono {ring more : List Path} (subset : ring ⊆ more)
    (edge : Within files extensions ring p q) :
    Within files extensions more p q :=
  ⟨subset edge.1, edge.2⟩

/-- The documents of a walk, its first one left out: each is reached from where the walk starts and reaches
where it ends, all within the walk. -/
theorem exists_walked (walk : Relation.TransGen (Imports files extensions) p q) :
    ∃ ring, q ∈ ring ∧ ∀ r ∈ ring, Relation.TransGen (Within files extensions ring) p r ∧
      Relation.ReflTransGen (Within files extensions ring) r q := by
  induction walk with
  | @single q edge =>
    refine ⟨[q], List.mem_singleton_self q, fun r member => ?_⟩
    cases List.mem_singleton.mp member
    exact ⟨.single ⟨List.mem_singleton_self q, edge⟩, .refl⟩
  | @tail q next _ edge ih =>
    obtain ⟨ring, ends, walked⟩ := ih
    have wider : ∀ a b, Within files extensions ring a b → Within files extensions (next :: ring) a b :=
      fun _ _ => Within.mono (List.subset_cons_self ..)
    have last : Within files extensions (next :: ring) q next := ⟨List.mem_cons_self .., edge⟩
    refine ⟨next :: ring, List.mem_cons_self .., fun r member => ?_⟩
    rcases List.mem_cons.mp member with rfl | member
    · exact ⟨(Relation.TransGen.mono wider _ _ (walked q ends).1).tail last, .refl⟩
    · obtain ⟨reached, onward⟩ := walked r member
      exact ⟨Relation.TransGen.mono wider _ _ reached,
        (Relation.ReflTransGen.mono wider _ _ onward).tail last⟩

/-- A circle of mentions is a ring of documents. -/
theorem exists_isRing (circle : Relation.TransGen (Mentions files extensions) p p) :
    ∃ ring, p ∈ ring ∧ IsRing files extensions ring := by
  obtain ⟨_, edge, _⟩ := Relation.TransGen.head'_iff.mp circle
  obtain ⟨ring, member, walked⟩ := exists_walked (imports_of_mentions circle edge.readable)
  refine ⟨ring, member, fun r inside => ?_⟩
  obtain ⟨reached, onward⟩ := walked r inside
  exact .trans_right onward reached

end Walks

namespace Unfolds

variable {files : FileView} {options : CompileOptions} {room : Nat} {path : Path} {t : Text}
    {s s' : Session}
  {records : List Record}

theorem mentions_of_record
    (run : Unfolds files options room ⟨path, path.directory, [path]⟩
      (Reference.extract (FrontMatter.strip t) options.oneBased) s records s')
    (read : files.read path = .ok t) {r : Record} (member : r ∈ records) {p : Path}
    (leads : r.resolution = .file p) :
    Mentions files options.extensions r.importedFrom p := by
  rw [mentions_iff]
  rcases run.origin r member with ⟨home, held, resolved⟩ | ⟨_, u, readable, held, resolved⟩
  · exact ⟨t, home ▸ read, r.reference, held, home ▸ resolved.symm.trans leads⟩
  · exact ⟨u, readable, r.reference, held, resolved.symm.trans leads⟩

/-- The branch that a circular mention leads back along is a walk of mentions, and its part behind the
document that is met again is a circle. -/
theorem leadsIntoCircle
    (run : Unfolds files options room ⟨path, path.directory, [path]⟩
      (Reference.extract (FrontMatter.strip t) options.oneBased) s records s')
    (read : files.read path = .ok t) {r : Record} (member : r ∈ records) (circular : r.outcome.isCircular) :
    LeadsIntoCircle files options.extensions path := by
  obtain ⟨before, after, split⟩ := List.append_of_mem member
  obtain ⟨chain, outcome⟩ : ∃ chain, r.outcome = .circular chain := by
    cases same : r.outcome <;> simp_all [Outcome.isCircular]
  obtain ⟨documents, p, leads, _, above, branch⟩ := run.leadsBack (Branch.root [] path) split outcome
  have steps : ∀ u v, Encloses before u v → Mentions files options.extensions u v := by
    rintro u v ⟨e, earlier, rfl, rfl, full⟩
    have inside : e ∈ records := split ▸ List.mem_append_left _ earlier
    obtain ⟨q, target, _⟩ := run.ledger.inlined_of_settled inside (Outcome.not_isFailure_of_content full)
    rw [target]
    exact run.mentions_of_record read inside target
  obtain ⟨down, up⟩ := branch.between steps above
  exact ⟨p, down, .tail' up (run.mentions_of_record read member leads)⟩

/-- A circle of mentions is met by the run: at the compiled document, or where the first of its documents is
inlined. -/
theorem exists_circular
    (run : Unfolds files options room ⟨path, path.directory, [path]⟩
      (Reference.extract (FrontMatter.strip t) options.oneBased) s records s')
    (fresh : ∀ p, ¬ s.hasInlined p) (read : files.read path = .ok t) (roomy : Roomy records)
    (circle : LeadsIntoCircle files options.extensions path) : ∃ r ∈ records, r.outcome.isCircular := by
  obtain ⟨p, walk, round⟩ := circle
  obtain ⟨ring, member, isRing⟩ := exists_isRing round
  have closes : Closes records ring := by
    have reached := reachable_of_mentions walk (isRing.readable member)
    rcases (reachable_iff run fresh read roomy p).mp reached with rfl | full
    · exact run.closes_of_entered rfl (List.mem_singleton_self _) read roomy
        (fun q _ old => absurd old (fresh q)) (isRing p member)
    · exact run.closes_of_inlines isRing roomy (fun q _ => fresh q) ⟨p, member, full⟩
  obtain ⟨r, found, circular, _⟩ := closes
  exact ⟨r, found, circular⟩

end Unfolds

/-- A document compiled on its own, with room enough: some mention is recorded as circular just when
mentions lead from the document into a circle. Whether repeated imports are replaced makes no
difference. -/
theorem compileDocument_circular_iff {files : FileView} {options : CompileOptions} {file : Spelling}
    {result : Compilation} {s : Session}
    (compiled : compileDocument files options file .empty = .ok (result, s))
    (home : options.basePath = none) (roomy : Roomy result.records) :
    (∃ r ∈ result.records, r.outcome.isCircular) ↔
      LeadsIntoCircle files options.extensions result.path := by
  obtain ⟨t, run, read, _⟩ := compileDocument_unfolds compiled home
  constructor
  · rintro ⟨r, member, circular⟩
    exact run.leadsIntoCircle read member circular
  · exact run.exists_circular Session.not_hasInlined_empty read roomy

theorem compileDocument_circular_loop : ∃ result s,
    compileDocument (FileStore.view loopStore) .default ⟨"/a.md".toList⟩ .empty = .ok (result, s) ∧
      Roomy result.records ∧ result.records.map (·.outcome.isCircular) = [false, false, false, true] ∧
      LeadsIntoCircle (FileStore.view loopStore) CompileOptions.defaultExtensions result.path := by
  have compiled := compileDocument_loop .default
  have roomy : Roomy (compileContent (FileStore.view loopStore) .default "@b.md".toList
      (.parse "/a.md".toList) .empty).1.records := by
    decide +kernel
  have circular : ∃ r ∈ (compileContent (FileStore.view loopStore) .default "@b.md".toList
      (.parse "/a.md".toList) .empty).1.records, r.outcome.isCircular := by
    decide +kernel
  exact ⟨_, _, compiled, roomy, by decide +kernel,
    (compileDocument_circular_iff compiled rfl roomy).mp circular⟩

end Transclusion

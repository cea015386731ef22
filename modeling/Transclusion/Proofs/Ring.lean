import Transclusion.Proofs.ScannedGraph

namespace Transclusion

/-- `p` mentions the readable document `q` of `ring`. -/
def Within (files : FileView) (extensions : List Text) (ring : List Path) (p q : Path) : Prop :=
  q ∈ ring ∧ Imports files extensions p q

/-- From every document of `ring`, mentions within it lead back to where they started. -/
def IsRing (files : FileView) (extensions : List Text) (ring : List Path) : Prop :=
  ∀ p ∈ ring, Relation.TransGen (Within files extensions ring) p p

/-- Some record tells of a mention that leads back to a document of `ring` that is being expanded. -/
def Closes (records : List Record) (ring : List Path) : Prop :=
  ∃ r ∈ records, r.outcome.isCircular ∧ r.resolution.path ∈ ring

theorem IsRing.readable {files : FileView} {extensions : List Text} {ring : List Path}
    (isRing : IsRing files extensions ring) {p : Path} (member : p ∈ ring) : ∃ t, files.read p = .ok t := by
  cases isRing p member with
  | single edge => exact edge.2.2
  | tail _ edge => exact edge.2.2

/-- The cycles of a scanned graph are rings of files. -/
theorem isRing_of_mem_cycles {files : FileView} {extensions : List Text} {listed cycle : List Path}
    (found : cycle ∈ (DocumentGraph.build files extensions listed).graph.cycles) :
    IsRing files extensions cycle ∧ ∀ p ∈ cycle,
      p ∈ (DocumentGraph.build files extensions listed).graph.paths ∧ files.kind p = some .file := by
  obtain ⟨leader, _, members⟩ := Graph.exists_of_mem_cycles found
  have edges : ∀ {p q}, (DocumentGraph.build files extensions listed).graph.Depends p q →
      q ∈ (DocumentGraph.build files extensions listed).graph.paths ∧ Mentions files extensions p q :=
    fun edge => (DocumentGraph.depends_build.mp edge).2
  constructor
  · intro p member
    obtain ⟨_, before, after⟩ := (members p).mp member
    have walk := Graph.walk_in_cycle (fun edge => (edges edge).1) members before (after.trans before) after
    refine walk.lift id fun p q step => ?_
    obtain ⟨inside, edge⟩ := step
    obtain ⟨_, _, onward⟩ := (members q).mp inside
    obtain ⟨r, next, _⟩ := Relation.TransGen.head'_iff.mp onward
    obtain ⟨t, read, _⟩ := (edges next).2
    exact ⟨inside, (edges edge).2, t, read⟩
  · intro p member
    obtain ⟨document, before, _⟩ := (members p).mp member
    obtain ⟨r, _, last⟩ := Relation.TransGen.tail'_iff.mp before
    exact ⟨document, (edges last).2.kind⟩

theorem Closes.mono {records more : List Record} {ring : List Path} (closes : Closes records ring)
    (subset : records ⊆ more) : Closes more ring := by
  obtain ⟨r, member, about⟩ := closes
  exact ⟨r, subset member, about⟩

namespace Unfolds

variable {files : FileView} {options : CompileOptions} {room : Nat} {site : Site} {refs : List Reference}
  {s s' : Session} {records : List Record} {ring : List Path}

/-- When the first document of a ring is expanded, the others are expanded within it or meet the branch, so
the ring is closed before it is done. -/
theorem closes_of_entered {t : Text}
    (run : Unfolds files options room site
      (Reference.extract (FrontMatter.strip t) options.oneBased) s records s')
    (home : site.base = site.file.directory) (inside : site.file ∈ site.ancestors)
    (read : files.read site.file = .ok t) (roomy : Roomy records)
    (fresh : ∀ q ∈ ring, s.hasInlined q → q ∈ site.ancestors)
    (loop : Relation.TransGen (Within files options.extensions ring) site.file site.file) :
    Closes records ring := by
  by_contra opened
  have next : ∀ {p q}, p = site.file ∨ Inlines records p → Within files options.extensions ring p q →
      Inlines records q := by
    intro p q known edge
    obtain ⟨member, mentions, u, readable⟩ := edge
    obtain ⟨source, readP, r, held, leads⟩ := mentions_iff.mp mentions
    obtain ⟨record, found, _, _, resolved⟩ := run.reports_of_reached home read known readP r held
    have target : record.resolution = .file q := resolved.trans leads
    rcases run.above_or_inlined roomy (fresh q member) readable found target with above | full
    · have meets := run.isCircular_of_ancestor above record found target
      exact absurd ⟨record, found, meets, target ▸ member⟩ opened
    · exact full
  have reached : ∀ {q}, Relation.TransGen (Within files options.extensions ring) site.file q →
      Inlines records q := by
    intro q walk
    induction walk with
    | single edge => exact next (Or.inl rfl) edge
    | tail _ edge ih => exact next (Or.inr ih) edge
  -- The walk comes back to the site, which is on its own branch and cannot be inlined.
  obtain ⟨record, found, path, full⟩ := reached loop
  obtain ⟨q, target, _⟩ := run.ledger.inlined_of_settled found (Outcome.not_isFailure_of_content full)
  have same : q = site.file := by rw [target] at path; exact path
  have meets := run.isCircular_of_ancestor inside record found (same ▸ target)
  exact Outcome.not_isFailure_of_content full (Outcome.isFailure_of_isCircular meets)

/-- When nothing of a ring was inlined before, the first of its documents that is inlined closes it. -/
theorem closes_of_inlines (run : Unfolds files options room site refs s records s')
    (isRing : IsRing files options.extensions ring)
    (roomy : Roomy records) (fresh : ∀ q ∈ ring, ¬ s.hasInlined q)
    (touched : ∃ q ∈ ring, Inlines records q) : Closes records ring := by
  induction run with
  | done =>
    obtain ⟨q, _, r, found, _⟩ := touched
    cases found
  | @settled _ site r _ s outcome s' _ _ settles _ ih =>
    have still : ∀ q ∈ ring, ¬ s'.hasInlined q := by
      intro q member
      rw [(settles.enters true r site.file).hasInlined_iff]
      exact fun known => known.elim (fresh q member) fun here => settles.not_inlined here.2
    have later := touched.imp fun q => And.imp_right settles.inlines_iff.mp
    exact (ih (roomy.mono (List.subset_cons_self ..)) still later).mono (List.subset_cons_self ..)
  | @inlined _ site _ _ s p _ _ nested s' _ _ _ _ _ read below _ nestedIH laterIH =>
    have before : ∀ q, ((s.recordImport (.ofPath p)).markInlined p).hasInlined q ↔
        q = p ∨ s.hasInlined q := by
      intro q
      rw [Session.hasInlined_markInlined, Session.hasInlined_recordImport]
    have roomyBelow : Roomy nested := roomy.mono (subset_of_nested ..)
    by_cases entered : p ∈ ring
    · have known : ∀ q ∈ ring, ((s.recordImport (.ofPath p)).markInlined p).hasInlined q →
          q ∈ (site.below p).ancestors := by
        intro q member known
        rcases (before q).mp known with rfl | old
        · exact List.mem_append_right _ (List.mem_singleton_self q)
        · exact absurd old (fresh q member)
      have closes := below.closes_of_entered rfl
        (List.mem_append_right _ (List.mem_singleton_self p)) read roomyBelow
        known (isRing p entered)
      exact closes.mono (subset_of_nested ..)
    have freshBelow : ∀ q ∈ ring, ¬ ((s.recordImport (.ofPath p)).markInlined p).hasInlined q := by
      intro q member
      rw [before]
      rintro (rfl | old)
      · exact entered member
      · exact fresh q member old
    by_cases inner : ∃ q ∈ ring, Inlines nested q
    · exact (nestedIH roomyBelow freshBelow inner).mono (subset_of_nested ..)
    have freshLater : ∀ q ∈ ring, ¬ s'.hasInlined q := by
      intro q member
      rw [below.ledger.hasInlined_iff]
      exact fun known => known.elim (freshBelow q member) fun full => inner ⟨q, member, full⟩
    obtain ⟨q, member, full⟩ := touched
    rcases inlines_inlined.mp full with rfl | full | later
    · exact absurd member entered
    · exact absurd ⟨q, member, full⟩ inner
    · exact (laterIH (roomy.mono (subset_of_later ..)) freshLater ⟨q, member, later⟩).mono
        (subset_of_later ..)

end Unfolds

end Transclusion

import Transclusion.Proofs.Coverage

namespace Transclusion

instance (records : List Record) (p : Path) : Decidable (Inlines records p) :=
  inferInstanceAs (Decidable (∃ r ∈ records, r.resolution.path = p ∧ r.outcome.content?.isSome))

/-- The same options with repeated imports replaced by stubs. -/
def CompileOptions.replacing (options : CompileOptions) :
    CompileOptions := { options with optimizeDuplicates := true }

/-- The same options with every import inlined in full. -/
def CompileOptions.repeating (options : CompileOptions) :
    CompileOptions := { options with optimizeDuplicates := false }

/-- `p` imports `q`, which these records inline, and `q` is none of `above`. -/
def Passes (files : FileView) (extensions : List Text) (above : List Path) (records : List Record)
    (p q : Path) : Prop :=
  Imports files extensions p q ∧ q ∉ above ∧ Inlines records q

theorem Passes.walk_mono {files : FileView} {extensions : List Text} {above fewer : List Path}
    {records more : List Record} {p q : Path}
    (walk : Relation.ReflTransGen (Passes files extensions above records) p q)
    (free : fewer ⊆ above) (subset : records ⊆ more) :
    Relation.ReflTransGen (Passes files extensions fewer more) p q := by
  refine Relation.ReflTransGen.mono (fun u v passes => ?_) _ _ walk
  obtain ⟨edge, outside, inlined⟩ := passes
  exact ⟨edge, fun inside => outside (free inside), inlined.mono subset⟩

namespace Unfolds

variable {files : FileView} {options : CompileOptions} {room : Nat} {site : Site} {refs : List Reference}
  {s s' t t' : Session} {records full : List Record} {p : Path}

/-- Whatever a run inlines, the run that repeats its imports inlines at the same place, since all that could
keep it from that, a stub apart, is the same there. -/
theorem inlines_repeating (run : Unfolds files options room site refs s records s')
    (repeating : Unfolds files options.repeating room site refs t full t') (inlines : Inlines records p) :
    Inlines full p := by
  induction run generalizing t full t' with
  | done => obtain ⟨r, member, _⟩ := inlines; cases member
  | settled settles _ ih =>
    have later := settles.inlines_iff.mp inlines
    cases repeating with
    | settled _ rest => exact (ih rest later).mono (List.subset_cons_self ..)
    | inlined _ _ _ _ _ rest => exact (ih rest later).mono (subset_of_later ..)
  | @inlined room site r _ _ q source _ nested _ _ _ leads outside _ read _ _ nestedIH laterIH =>
    cases repeating with
    | settled settles _ =>
      have same : options.repeating.resolve files site.base r = .file q := leads
      rw [same] at settles
      cases settles with
      | circular above => exact absurd above outside
      | tooDeep _ none => exact absurd none (Nat.succ_ne_zero room)
      | stubbed _ _ dedup => cases dedup
      | unreadable _ _ _ unread => rw [read] at unread; cases unread
    | @inlined _ _ _ _ _ q' source' _ nested' _ _ _ leads' _ _ read' below rest =>
      obtain rfl : q = q' := Resolution.file.inj (leads.symm.trans leads')
      obtain rfl : source = source' := Except.ok.inj (read.symm.trans read')
      rcases inlines_inlined.mp inlines with here | inner | later
      · exact inlines_inlined.mpr (Or.inl here)
      · exact inlines_inlined.mpr (Or.inr (Or.inl (nestedIH below inner)))
      · exact inlines_inlined.mpr (Or.inr (Or.inr (laterIH rest later)))

/-- What a run inlines is reached from a mention of the site through documents that it inlines too,
and never through a document that is being expanded. -/
theorem walk_of_inlines (run : Unfolds files options room site refs s records s')
    (inlines : Inlines records p) :
    ∃ r ∈ refs, ∃ q, options.resolve files site.base r = .file q ∧ q ∉ site.ancestors ∧ Inlines records q ∧
      Relation.ReflTransGen (Passes files options.extensions site.ancestors records) q p := by
  induction run with
  | done => obtain ⟨r, member, _⟩ := inlines; cases member
  | settled settles _ ih =>
    obtain ⟨r, member, q, leads, outside, full, walk⟩ := ih (settles.inlines_iff.mp inlines)
    exact ⟨r, List.mem_cons_of_mem _ member, q, leads, outside, full.mono (List.subset_cons_self ..),
      Passes.walk_mono walk (List.Subset.refl _) (List.subset_cons_self ..)⟩
  | @inlined _ site mention _ _ q source _ nested _ records _ leads outside _ read below
      _ nestedIH laterIH =>
    rcases inlines_inlined.mp inlines with rfl | inner | later
    · exact ⟨mention, List.mem_cons_self .., p, leads, outside, inlines, .refl⟩
    · obtain ⟨r, member, next, leads', outside', full, walk⟩ := nestedIH inner
      obtain ⟨u, readable, _⟩ := below.reports_inlined full
      have higher : site.ancestors ⊆ (site.below q).ancestors := List.subset_append_left ..
      have edge : Imports files options.extensions q next :=
        ⟨mentions_iff.mpr ⟨source, read, r, member, leads'⟩, u, readable⟩
      refine ⟨mention, List.mem_cons_self .., q, leads, outside, inlines_inlined.mpr (Or.inl rfl), ?_⟩
      refine .head ⟨edge, fun above => outside' (higher above), full.mono (subset_of_nested ..)⟩ ?_
      exact Passes.walk_mono walk higher (subset_of_nested ..)
    · obtain ⟨r, member, next, leads', outside', full, walk⟩ := laterIH later
      exact ⟨r, List.mem_cons_of_mem _ member, next, leads', outside', full.mono (subset_of_later ..),
        Passes.walk_mono walk (List.Subset.refl _) (subset_of_later ..)⟩

/-- In a fresh session, a mention of a readable file off the branch that the run never inlines lies
too deep. -/
theorem isTooDeep_of_not_inlined (run : Unfolds files options room site refs s records s')
    (fresh : ∀ q, ¬ s.hasInlined q) {r : Record} (member : r ∈ records) (leads : r.resolution = .file p)
    (outside : p ∉ site.ancestors) (readable : ∃ u, files.read p = .ok u) (never : ¬ Inlines records p) :
    r.outcome.isTooDeep := by
  have fails : r.outcome.isFailure := by
    by_contra fine
    obtain ⟨q, target, old | inlined⟩ := run.ledger.inlined_of_settled member fine
    · exact fresh q old
    · rw [leads] at target
      cases target
      exact never inlined
  rcases run.failed_file r member leads fails with above | inlined | ⟨e, unread⟩ | deep
  · exact absurd above outside
  · exact absurd inlined never
  · obtain ⟨u, read⟩ := readable
    rw [read] at unread
    cases unread
  · exact deep

/-- When a file that this run mentions imports on, through files that `full` inlines, to one that
this run does not inline, the first such file on the way is mentioned too deep. -/
theorem exists_tooDeep (run : Unfolds files options room site refs s records s')
    (fresh : ∀ q, ¬ s.hasInlined q) {q : Path}
    (walk : Relation.ReflTransGen (Passes files options.extensions site.ancestors full) q p)
    (readable : ∃ u, files.read q = .ok u) (outside : q ∉ site.ancestors) (kept : Inlines full q)
    (mentioned : ∃ r ∈ records, r.resolution = .file q) (lost : ¬ Inlines records p) :
    ∃ r ∈ records, ∃ cut, r.outcome.isTooDeep ∧ r.resolution = .file cut ∧ Inlines full cut ∧
      ¬ Inlines records cut ∧ Reachable files options.extensions cut p := by
  induction walk using Relation.ReflTransGen.head_induction_on with
  | refl =>
    obtain ⟨r, member, leads⟩ := mentioned
    exact ⟨r, member, p, run.isTooDeep_of_not_inlined fresh member leads outside readable lost,
      leads, kept, lost, .refl⟩
  | @head q next passes rest ih =>
    obtain ⟨edge, outside', kept'⟩ := passes
    by_cases here : Inlines records q
    · obtain ⟨u, read, reports⟩ := run.reports_inlined here
      obtain ⟨u', read', r, held, leads⟩ := mentions_iff.mp edge.1
      cases Except.ok.inj (read.symm.trans read')
      obtain ⟨record, found, _, _, resolved⟩ := reports r held
      exact ih edge.2 outside' kept' ⟨record, found, resolved.trans leads⟩
    · obtain ⟨r, member, leads⟩ := mentioned
      refine ⟨r, member, q, run.isTooDeep_of_not_inlined fresh member leads outside readable here,
        leads, kept, here, ?_⟩
      exact .head edge (Relation.ReflTransGen.mono (fun _ _ passes => passes.1) _ _ rest)

/-- What only the run that repeats its imports inlines lies at or behind a file that this run
mentions too deep and never inlines. -/
theorem exists_tooDeep_of_lost (run : Unfolds files options room site refs s records s')
    (fresh : ∀ q, ¬ s.hasInlined q) (repeating : Unfolds files options.repeating room site refs t full t')
    (kept : Inlines full p) (lost : ¬ Inlines records p) :
    ∃ r ∈ records, ∃ cut, r.outcome.isTooDeep ∧ r.resolution = .file cut ∧ Inlines full cut ∧
      ¬ Inlines records cut ∧ Reachable files options.extensions cut p := by
  obtain ⟨r, member, q, leads, outside, inlined, walk⟩ := repeating.walk_of_inlines kept
  obtain ⟨u, readable, _⟩ := repeating.reports_inlined inlined
  obtain ⟨record, found, _, _, resolved⟩ := run.reports r member
  exact run.exists_tooDeep fresh walk ⟨u, readable⟩ outside inlined
    ⟨record, found, resolved.trans leads⟩ lost

end Unfolds

/-- Replacing repeated imports adds no target. A target is lost by it only at or behind a file that is
mentioned too deep in the run that replaces them and inlined nowhere in it; so none is lost where nothing
lies too deep. -/
theorem replacing_keeps_targets {files : FileView} {options : CompileOptions} {file : Spelling}
    {few : Compilation} {s : Session}
    (compiled : compileDocument files options.replacing file .empty = .ok (few, s)) :
    ∃ all s', compileDocument files options.repeating file .empty = .ok (all, s') ∧
      (∀ p, Inlines few.records p → Inlines all.records p) ∧
      (∀ p, Inlines all.records p → ¬ Inlines few.records p →
        ∃ r ∈ few.records, ∃ cut, r.outcome.isTooDeep ∧ r.resolution = .file cut ∧ Inlines all.records cut ∧
          ¬ Inlines few.records cut ∧ Reachable files options.extensions cut p) ∧
      (Roomy few.records → ∀ p, Inlines few.records p ↔ Inlines all.records p) := by
  obtain ⟨path, t, place, kind, read, same⟩ := compileDocument_eq_ok.mp compiled
  cases same
  have run := compileContent_unfolds files options.replacing t path .empty
  have repeating := compileContent_unfolds files options.repeating t path .empty
  refine ⟨_, _, compileDocument_eq_ok.mpr ⟨path, t, place, kind, read, rfl⟩, ?_, ?_, ?_⟩
  · exact fun p => run.inlines_repeating repeating
  · exact fun p => run.exists_tooDeep_of_lost Session.not_hasInlined_empty repeating
  · intro roomy p
    refine ⟨run.inlines_repeating repeating, fun kept => ?_⟩
    by_contra lost
    obtain ⟨r, member, _, deep, _⟩ :=
      run.exists_tooDeep_of_lost Session.not_hasInlined_empty repeating kept lost
    exact roomy r member deep

/-- A document that imports `/c.md` by way of `/a.md` first and then at once, and `/c.md` imports
one more. -/
def detourStore : MemoryStore :=
  (((MemoryStore.empty.insert (.parse "/r.md".toList) "@a.md @c.md".toList).insert (.parse "/a.md".toList)
    "@c.md".toList).insert (.parse "/c.md".toList) "@d.md".toList).insert
      (.parse "/d.md".toList) "end".toList

/-- Room for two documents within each other. -/
def CompileOptions.shallow : CompileOptions := { default with maxDepth := 2 }

theorem compileDocument_detour (options : CompileOptions) :
    compileDocument (FileStore.view detourStore) options ⟨"/r.md".toList⟩ .empty =
      .ok (compileContent (FileStore.view detourStore) options "@a.md @c.md".toList
        (.parse "/r.md".toList) .empty) :=
  compileDocument_eq_ok.mpr ⟨_, _, by decide +kernel, by decide +kernel, by decide +kernel, rfl⟩

theorem replacing_keeps_targets_detour :
    ∃ few s,
      compileDocument (FileStore.view detourStore) CompileOptions.shallow.replacing
          ⟨"/r.md".toList⟩ .empty = .ok (few, s) ∧
        few.records.map (·.outcome.isTooDeep) = [false, false, true, false] ∧
        ∃ all s', compileDocument (FileStore.view detourStore) CompileOptions.shallow.repeating
            ⟨"/r.md".toList⟩ .empty = .ok (all, s') ∧
          ∀ p, Inlines few.records p → Inlines all.records p := by
  obtain ⟨all, s', compiled, keeps, _⟩ :=
    replacing_keeps_targets (compileDocument_detour CompileOptions.shallow.replacing)
  exact ⟨_, _, compileDocument_detour _, by decide +kernel, all, s', compiled, keeps⟩

/-- The first import of `/c.md` lies too deep for what `/c.md` imports, and the second one, which
does not, is replaced by a stub. So replacing repeated imports can lose a target where room is
short. -/
theorem replacing_loses_target :
    ¬ ∀ (files : FileView) (options : CompileOptions) (file : Spelling) (few all : Compilation)
        (s s' : Session),
      compileDocument files options.replacing file .empty = .ok (few, s) →
        compileDocument files options.repeating file .empty = .ok (all, s') →
          ∀ p, Inlines few.records p ↔ Inlines all.records p := by
  intro same
  have kept : Inlines (compileContent (FileStore.view detourStore) CompileOptions.shallow.repeating
      "@a.md @c.md".toList (.parse "/r.md".toList) .empty).1.records (.parse "/d.md".toList) := by
    decide +kernel
  have lost : ¬ Inlines (compileContent (FileStore.view detourStore) CompileOptions.shallow.replacing
      "@a.md @c.md".toList (.parse "/r.md".toList) .empty).1.records (.parse "/d.md".toList) := by
    decide +kernel
  exact lost ((same _ _ _ _ _ _ _ (compileDocument_detour _) (compileDocument_detour _) _).mpr kept)

end Transclusion

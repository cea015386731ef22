import Mathlib.Data.List.Nodup
import Mathlib.Logic.Relation
import Transclusion.DocumentGraph
import Transclusion.Proofs.Deduplication
import Transclusion.Proofs.Mention
import Transclusion.Proofs.PathForm

namespace Transclusion

/-- The document at `p` can be read, and a mention in it leads to the file `q`. -/
def Mentions (files : FileView) (extensions : List Text) (p q : Path) : Prop :=
  ∃ t, files.read p = .ok t ∧ q ∈ DocumentGraph.targetsOf files extensions p t

/-- As `Mentions`, and `q` can be read as well. -/
def Imports (files : FileView) (extensions : List Text) (p q : Path) : Prop :=
  Mentions files extensions p q ∧ ∃ t, files.read q = .ok t

/-- What can be read from `start` on: itself, and every readable file that something reachable mentions. -/
def Reachable (files : FileView) (extensions : List Text) (start : Path) : Path → Prop :=
  Relation.ReflTransGen (Imports files extensions) start

theorem mentions_iff {files : FileView} {options : CompileOptions} {p q : Path} :
    Mentions files options.extensions p q ↔ ∃ t, files.read p = .ok t ∧
      ∃ r ∈ Reference.extract (FrontMatter.strip t) options.oneBased,
        options.resolve files p.directory r = .file q := by
  refine exists_congr fun t => and_congr_right fun _ => ?_
  unfold DocumentGraph.targetsOf CompileOptions.resolve
  rw [List.mem_filterMap]
  constructor
  · rintro ⟨r, member, leads⟩
    obtain ⟨r', inside, _, target⟩ := Reference.exists_mem_extract member options.oneBased
    refine ⟨r', inside, ?_⟩
    rw [target]
    split at leads
    · rename_i found
      rw [found, Option.some.inj leads]
    · cases leads
  · rintro ⟨r, member, leads⟩
    obtain ⟨r', inside, _, target⟩ := Reference.exists_mem_extract member false
    exact ⟨r', inside, by rw [target, leads]⟩

/-- Where the mention stands: the document and the byte at which it starts. -/
def Record.place (r : Record) : Path × Nat := (r.importedFrom, r.reference.start)

/-- The mention lies deeper than documents may nest. -/
def Outcome.isTooDeep : Outcome → Bool
  | tooDeep _ => true
  | _ => false

/-- Nothing on record was left out because it lies too deep. -/
def Roomy (records : List Record) : Prop := ∀ r ∈ records, ¬ r.outcome.isTooDeep

instance (records : List Record) : Decidable (Roomy records) :=
  inferInstanceAs (Decidable (∀ r ∈ records, ¬ r.outcome.isTooDeep))

theorem Roomy.mono {records more : List Record} (roomy : Roomy more) (subset : records ⊆ more) :
    Roomy records :=
  fun r member => roomy r (subset member)

/-- The mentions of the document at `file` are all on record, each with what it resolves to from `base`. -/
def Reports (files : FileView) (options : CompileOptions) (records : List Record) (file base : Path)
    (refs : List Reference) : Prop :=
  ∀ r ∈ refs, ∃ record ∈ records, record.importedFrom = file ∧ record.reference = r ∧
    record.resolution = options.resolve files base r

theorem Reports.mono {files : FileView} {options : CompileOptions} {records more : List Record}
    {file base : Path} {refs : List Reference}
    (reports : Reports files options records file base refs) (subset : records ⊆ more) :
    Reports files options more file base refs := by
  intro r member
  obtain ⟨record, inside, about⟩ := reports r member
  exact ⟨record, subset inside, about⟩

namespace Unfolds

variable {files : FileView} {options : CompileOptions} {room : Nat} {site : Site} {refs : List Reference}
  {s s' : Session} {records : List Record}

theorem reports (run : Unfolds files options room site refs s records s') :
    Reports files options records site.file site.base refs := by
  induction run with
  | done => intro r member; cases member
  | settled _ _ ih =>
    intro r member
    rcases List.mem_cons.mp member with rfl | member
    · exact ⟨_, List.mem_cons_self .., rfl, rfl, rfl⟩
    · exact ih.mono (List.subset_cons_self ..) r member
  | inlined leads _ _ _ _ _ _ ih =>
    intro r member
    rcases List.mem_cons.mp member with rfl | member
    · exact ⟨_, List.mem_cons_self .., rfl, rfl, leads.symm⟩
    · exact ih.mono (subset_of_later ..) r member

/-- A document that is inlined somewhere is read there, and all its mentions are dealt with. -/
theorem reports_inlined (run : Unfolds files options room site refs s records s') {p : Path}
    (full : Inlines records p) :
    ∃ t, files.read p = .ok t ∧ Reports files options records p p.directory
      (Reference.extract (FrontMatter.strip t) options.oneBased) := by
  induction run with
  | done => obtain ⟨r, member, _⟩ := full; cases member
  | settled settles _ ih =>
    obtain ⟨t, read, reports⟩ := ih (settles.inlines_iff.mp full)
    exact ⟨t, read, reports.mono (List.subset_cons_self ..)⟩
  | @inlined _ _ _ _ _ q source _ _ _ _ _ _ _ _ read inner _ nested later =>
    rcases inlines_inlined.mp full with rfl | below | after
    · exact ⟨source, read, inner.reports.mono (subset_of_nested ..)⟩
    · obtain ⟨t, read, reports⟩ := nested below
      exact ⟨t, read, reports.mono (subset_of_nested ..)⟩
    · obtain ⟨t, read, reports⟩ := later after
      exact ⟨t, read, reports.mono (subset_of_later ..)⟩

/-- A record is about a mention of the document at the site, or of one that is inlined. -/
theorem origin (run : Unfolds files options room site refs s records s') :
    ∀ record ∈ records,
      record.importedFrom = site.file ∧ record.reference ∈ refs ∧
        record.resolution = options.resolve files site.base record.reference ∨
      Inlines records record.importedFrom ∧ ∃ t, files.read record.importedFrom = .ok t ∧
        record.reference ∈ Reference.extract (FrontMatter.strip t) options.oneBased ∧
        record.resolution = options.resolve files record.importedFrom.directory record.reference := by
  induction run with
  | done => intro record member; cases member
  | settled _ _ ih =>
    intro record member
    rcases List.mem_cons.mp member with rfl | member
    · exact Or.inl ⟨rfl, List.mem_cons_self .., rfl⟩
    rcases ih record member with ⟨from_, about, leads⟩ | ⟨full, about⟩
    · exact Or.inl ⟨from_, List.mem_cons_of_mem _ about, leads⟩
    · exact Or.inr ⟨full.mono (List.subset_cons_self ..), about⟩
  | @inlined _ _ _ _ _ q source _ _ _ _ _ leads _ _ read _ _ nested later =>
    intro record member
    rcases List.mem_cons.mp member with rfl | member
    · exact Or.inl ⟨rfl, List.mem_cons_self .., leads.symm⟩
    rcases List.mem_append.mp member with below | member
    · rcases nested record below with ⟨from_, about, resolved⟩ | ⟨full, about⟩
      · have same : record.importedFrom = q := from_
        exact Or.inr ⟨inlines_inlined.mpr (Or.inl same), source, same ▸ read, about, same ▸ resolved⟩
      · exact Or.inr ⟨full.mono (subset_of_nested ..), about⟩
    · rcases later record member with ⟨from_, about, resolved⟩ | ⟨full, about⟩
      · exact Or.inl ⟨from_, List.mem_cons_of_mem _ about, resolved⟩
      · exact Or.inr ⟨full.mono (subset_of_later ..), about⟩

/-- A file on the branch that leads to the site is never expanded again. -/
theorem isCircular_of_ancestor (run : Unfolds files options room site refs s records s') {p : Path}
    (above : p ∈ site.ancestors) :
    ∀ record ∈ records, record.resolution = .file p → record.outcome.isCircular := by
  induction run with
  | done => intro record member; cases member
  | settled settles _ ih =>
    intro record member leads
    rcases List.mem_cons.mp member with rfl | member
    · simp only at leads
      rw [leads] at settles
      cases settles <;> first | rfl | contradiction
    · exact ih above record member leads
  | inlined _ outside _ _ _ _ nested later =>
    intro record member leads
    rcases List.mem_cons.mp member with rfl | member
    · cases leads
      exact absurd above outside
    rcases List.mem_append.mp member with below | member
    · exact nested (List.mem_append_left _ above) record below leads
    · exact later above record member leads

/-- A mention of a file comes to nothing only on the branch that leads to it, where the file cannot be
read, and where there is no room. -/
theorem failed_file (run : Unfolds files options room site refs s records s') {p : Path} :
    ∀ record ∈ records, record.resolution = .file p → record.outcome.isFailure →
      p ∈ site.ancestors ∨ Inlines records p ∨ (∃ e, files.read p = .error e) ∨
        record.outcome.isTooDeep := by
  induction run with
  | done => intro record member; cases member
  | settled settles _ ih =>
    intro record member leads fails
    rcases List.mem_cons.mp member with rfl | member
    · simp only at leads
      rw [leads] at settles
      cases settles with
      | circular above => exact Or.inl above
      | tooDeep => exact Or.inr (Or.inr (Or.inr rfl))
      | stubbed => cases fails
      | unreadable _ _ _ read => exact Or.inr (Or.inr (Or.inl ⟨_, read⟩))
    · exact (ih record member leads fails).imp_right
        (Or.imp_left (Inlines.mono · (List.subset_cons_self ..)))
  | @inlined _ site _ _ _ q _ _ _ _ _ _ _ _ _ _ _ _ nested later =>
    intro record member leads fails
    rcases List.mem_cons.mp member with rfl | member
    · cases fails
    rcases List.mem_append.mp member with below | member
    · rcases nested record below leads fails with above | full | other
      · have above : p ∈ site.ancestors ++ [q] := above
        rcases List.mem_append.mp above with above | here
        · exact Or.inl above
        · exact Or.inr (Or.inl (inlines_inlined.mpr (Or.inl (List.mem_singleton.mp here))))
      · exact Or.inr (Or.inl (full.mono (subset_of_nested ..)))
      · exact Or.inr (Or.inr other)
    · exact (later record member leads fails).imp_right (Or.imp_left (Inlines.mono · (subset_of_later ..)))

/-- A file on record that can be read is on the branch or inlined, when it was not inlined before and there
was room enough. -/
theorem above_or_inlined (run : Unfolds files options room site refs s records s')
    (roomy : Roomy records) {p : Path} (fresh : s.hasInlined p → p ∈ site.ancestors) {t : Text}
    (read : files.read p = .ok t) {record : Record} (member : record ∈ records)
    (leads : record.resolution = .file p) : p ∈ site.ancestors ∨ Inlines records p := by
  by_cases fails : record.outcome.isFailure
  · rcases run.failed_file record member leads fails with above | full | ⟨e, unread⟩ | deep
    · exact Or.inl above
    · exact Or.inr full
    · rw [read] at unread; cases unread
    · exact absurd deep (roomy record member)
  · obtain ⟨q, found, old | full⟩ := run.ledger.inlined_of_settled member fails
    · rw [leads] at found
      cases found
      exact Or.inl (fresh old)
    · rw [leads] at found
      cases found
      exact Or.inr full

theorem reachable_of_inlines (run : Unfolds files options room site refs s records s')
    (home : site.base = site.file.directory) {t : Text} (read : files.read site.file = .ok t)
    (held : refs ⊆ Reference.extract (FrontMatter.strip t) options.oneBased) {p : Path}
    (full : Inlines records p) :
    Reachable files options.extensions site.file p := by
  induction run generalizing t p with
  | done => obtain ⟨r, member, _⟩ := full; cases member
  | settled settles _ ih =>
    exact ih home read (List.subset_of_cons_subset held) (settles.inlines_iff.mp full)
  | @inlined _ site r _ _ q source _ _ _ _ _ leads _ _ readable _ _ nested later =>
    have edge : Reachable files options.extensions site.file q := by
      refine .single ⟨mentions_iff.mpr ⟨t, read, r, held (List.mem_cons_self ..), ?_⟩, source, readable⟩
      rw [← home, leads]
    rcases inlines_inlined.mp full with rfl | below | after
    · exact edge
    · exact edge.trans (nested rfl readable (List.Subset.refl _) below)
    · exact later home read (List.subset_of_cons_subset held) after

/-- The mentions of every document that was expanded here are on record. -/
theorem reports_of_reached {t : Text}
    (run : Unfolds files options room site
      (Reference.extract (FrontMatter.strip t) options.oneBased) s records s')
    (home : site.base = site.file.directory) (read : files.read site.file = .ok t) {p : Path}
    (known : p = site.file ∨ Inlines records p) {u : Text} (readable : files.read p = .ok u) :
    Reports files options records p
      p.directory (Reference.extract (FrontMatter.strip u) options.oneBased) := by
  rcases known with rfl | full
  · cases Except.ok.inj (read.symm.trans readable)
    exact home ▸ run.reports
  · obtain ⟨v, readV, reports⟩ := run.reports_inlined full
    cases Except.ok.inj (readV.symm.trans readable)
    exact reports

theorem start_mem_of_place (run : Unfolds files options room site refs s records s')
    (inside : site.file ∈ site.ancestors) {start : Nat}
    (member : (site.file, start) ∈ records.map Record.place) : start ∈ refs.map (·.start) := by
  obtain ⟨record, found, same⟩ := List.mem_map.mp member
  have file : record.importedFrom = site.file := congrArg Prod.fst same
  have place : record.reference.start = start := congrArg Prod.snd same
  rcases run.own_or_outside record found with ⟨_, about⟩ | outside
  · exact place ▸ List.mem_map_of_mem about
  · exact absurd (file ▸ inside) outside

/-- With repeated imports replaced, no mention of any document is dealt with twice. -/
theorem places_nodup (run : Unfolds files options room site refs s records s')
    (dedup : options.optimizeDuplicates) (inside : site.file ∈ site.ancestors)
    (apart : (refs.map (·.start)).Nodup) : (records.map Record.place).Nodup := by
  induction run with
  | done => exact .nil
  | @settled _ site r rest _ _ _ records _ _ run ih =>
    rw [List.map_cons, List.nodup_cons] at apart
    refine List.nodup_cons.mpr ⟨?_, ih inside apart.2⟩
    exact fun member => apart.1 (start_mem_of_place run inside member)
  | @inlined _ site r rest s p source _ nested s' records _ _ outside _ read below run nestedIH laterIH =>
    rw [List.map_cons, List.nodup_cons] at apart
    rw [List.cons_append, List.map_cons, List.map_append, List.nodup_cons, List.mem_append,
      List.nodup_append]
    have under : ∀ record ∈ nested, record.importedFrom ∉ site.ancestors := by
      intro record member
      rcases below.own_or_outside record member with ⟨same, _⟩ | away
      · exact same ▸ outside
      · exact fun above => away (List.mem_append_left _ above)
    have known : ∀ record ∈ nested, s'.hasInlined record.importedFrom := by
      intro record member
      rw [below.ledger.hasInlined_iff, Session.hasInlined_markInlined]
      rcases below.origin record member with ⟨same, _⟩ | ⟨full, _⟩
      · exact Or.inl (Or.inl same)
      · exact Or.inr full
    have laterLedger : Ledger true s' records _ := dedup ▸ run.ledger
    refine ⟨?_, nestedIH (List.mem_append_right _ (List.mem_singleton_self p)) (Reference.starts_nodup ..),
      laterIH inside apart.2, ?_⟩
    · rintro (member | member)
      · obtain ⟨record, inner, same⟩ := List.mem_map.mp member
        have file : record.importedFrom = site.file := congrArg Prod.fst same
        exact under record inner (file ▸ inside)
      · exact apart.1 (start_mem_of_place run inside member)
    · intro place first again later
      rintro rfl
      obtain ⟨record, inner, rfl⟩ := List.mem_map.mp first
      obtain ⟨other, after, same⟩ := List.mem_map.mp later
      have file : other.importedFrom = record.importedFrom := congrArg Prod.fst same
      rcases run.origin other after with ⟨home, _⟩ | ⟨full, _⟩
      · exact under record inner (file ▸ home ▸ inside)
      · exact laterLedger.fresh full (file ▸ known record inner)

end Unfolds

/-- What a document compiled in its own directory records. -/
theorem compileDocument_unfolds {files : FileView} {options : CompileOptions} {file : Spelling}
    {result : Compilation} {s s' : Session}
    (compiled : compileDocument files options file s = .ok (result, s'))
    (home : options.basePath = none) :
    ∃ t, Unfolds files options options.maxDepth ⟨result.path, result.path.directory, [result.path]⟩
        (Reference.extract (FrontMatter.strip t) options.oneBased) s result.records s' ∧
      files.read result.path = .ok t ∧ files.absolute file.path = .ok result.path := by
  obtain ⟨path, t, found, _, read, same⟩ := compileDocument_eq_ok.mp compiled
  obtain ⟨absolute, normal⟩ := FileView.absolute_eq_ok found
  simp only [compileContent, home, FileView.absoluteOr_of_normal absolute normal] at same
  cases same
  exact ⟨t, Expansion.unfolds_expand .., read, found⟩

/-- The documents of a compilation on its own are exactly those that can be read from the compiled document
on. -/
theorem reachable_iff {files : FileView} {options : CompileOptions} {room : Nat} {path : Path} {t : Text}
    {s s' : Session} {records : List Record}
    (run : Unfolds files options room ⟨path, path.directory, [path]⟩
      (Reference.extract (FrontMatter.strip t) options.oneBased) s records s')
    (fresh : ∀ p, ¬ s.hasInlined p) (read : files.read path = .ok t)
    (roomy : Roomy records) (p : Path) :
    Reachable files options.extensions path p ↔ p = path ∨ Inlines records p := by
  constructor
  · intro reach
    induction reach with
    | refl => exact Or.inl rfl
    | @tail p q _ edge ih =>
      obtain ⟨mentions, u, readable⟩ := edge
      obtain ⟨source, readP, r, member, leads⟩ := mentions_iff.mp mentions
      obtain ⟨record, found, _, _, resolved⟩ := run.reports_of_reached rfl read ih readP r member
      rcases run.above_or_inlined roomy (fun old => absurd old (fresh q)) readable found
          (resolved.trans leads) with
        above | full
      · exact Or.inl (List.mem_singleton.mp above)
      · exact Or.inr full
  · rintro (rfl | full)
    · exact .refl
    · exact run.reachable_of_inlines rfl read (List.Subset.refl _) full

/-- Every mention of every document that can be reached is on record, and no other is. -/
theorem mem_places_iff {files : FileView} {options : CompileOptions} {room : Nat} {path : Path}
    {t : Text} {s s' : Session} {records : List Record}
    (run : Unfolds files options room ⟨path, path.directory, [path]⟩
      (Reference.extract (FrontMatter.strip t) options.oneBased) s records s')
    (fresh : ∀ p, ¬ s.hasInlined p) (read : files.read path = .ok t) (roomy : Roomy records)
    (p : Path) (start : Nat) :
    (p, start) ∈ records.map Record.place ↔ Reachable files options.extensions path p ∧
      ∃ u, files.read p = .ok u ∧ ∃ r ∈ Reference.extract (FrontMatter.strip u) false, r.start = start := by
  rw [reachable_iff run fresh read roomy p, List.mem_map]
  constructor
  · rintro ⟨record, member, same⟩
    cases same
    have about : (record.importedFrom = path ∨ Inlines records record.importedFrom) ∧
        ∃ u, files.read record.importedFrom = .ok u ∧
          record.reference ∈ Reference.extract (FrontMatter.strip u) options.oneBased := by
      rcases run.origin record member with ⟨home, held, _⟩ | ⟨full, u, readable, held, _⟩
      · exact ⟨Or.inl home, t, home ▸ read, held⟩
      · exact ⟨Or.inr full, u, readable, held⟩
    obtain ⟨known, u, readable, held⟩ := about
    obtain ⟨r, inside, place, _⟩ := Reference.exists_mem_extract held false
    exact ⟨known, u, readable, r, inside, place⟩
  · rintro ⟨known, u, readable, r, held, rfl⟩
    obtain ⟨r', inside, place, _⟩ := Reference.exists_mem_extract held options.oneBased
    obtain ⟨record, found, home, about, _⟩ := run.reports_of_reached rfl read known readable r' inside
    exact ⟨record, found, by rw [Record.place, home, about, place]⟩

/-- A mention that leads to no readable file fails. -/
theorem Unfolds.isFailure_of_broken {files : FileView} {options : CompileOptions} {room : Nat}
    {site : Site} {refs : List Reference} {s s' : Session} {records : List Record}
    (run : Unfolds files options room site refs s records s') (fresh : ∀ p, ¬ s.hasInlined p)
    {record : Record} (member : record ∈ records)
    (broken : ∀ q u, record.resolution = .file q → files.read q ≠ .ok u) :
    record.outcome.isFailure := by
  by_contra fine
  obtain ⟨q, leads, old | full⟩ := run.ledger.inlined_of_settled member fine
  · exact fresh q old
  · obtain ⟨u, read, _⟩ := run.reports_inlined full
    exact broken q u leads read

/-- A document compiled on its own, with repeated imports replaced and room enough: every mention of every
document that can be reached from it is on record exactly once, and no other mention is. So each mention
that leads to no readable file is reported, once. -/
theorem compileDocument_covers {files : FileView} {options : CompileOptions} {file : Spelling}
    {result : Compilation} {s : Session}
    (compiled : compileDocument files options file .empty = .ok (result, s))
    (dedup : options.optimizeDuplicates) (home : options.basePath = none)
    (roomy : Roomy result.records) :
    (result.records.map Record.place).Nodup ∧
    (∀ p start, (p, start) ∈ result.records.map Record.place ↔
      Reachable files options.extensions result.path p ∧ ∃ t, files.read p = .ok t ∧
        ∃ r ∈ Reference.extract (FrontMatter.strip t) false, r.start = start) ∧
    ∀ p t, Reachable files options.extensions result.path p → files.read p = .ok t →
      ∀ r ∈ Reference.extract (FrontMatter.strip t) options.oneBased,
        (∀ q u, options.resolve files p.directory r = .file q → files.read q ≠ .ok u) →
        ∃ record ∈ result.records, record.importedFrom = p ∧ record.reference = r ∧
          record.outcome.isFailure ∧
          ∀ other ∈ result.records, other.importedFrom = p → other.reference.start = r.start →
            other = record := by
  obtain ⟨t, run, read, _⟩ := compileDocument_unfolds compiled home
  have fresh := Session.not_hasInlined_empty
  have distinct := run.places_nodup dedup (List.mem_singleton_self _) (Reference.starts_nodup ..)
  refine ⟨distinct, mem_places_iff run fresh read roomy, ?_⟩
  intro p u reached readable r held broken
  have known := (reachable_iff run fresh read roomy p).mp reached
  obtain ⟨record, found, home, about, resolved⟩ := run.reports_of_reached rfl read known readable r held
  refine ⟨record, found, home, about,
    run.isFailure_of_broken fresh found (fun q u leads => broken q u ?_), ?_⟩
  · rw [← resolved, leads]
  · intro other member sameFile sameStart
    have samePlace : other.place = record.place := by
      rw [Record.place, Record.place, sameFile, sameStart, home, about]
    exact List.inj_on_of_nodup_map distinct member found samePlace

theorem compileDocument_covers_mutual :
    ∃ result s,
      compileDocument (FileStore.view mutualStore) .default ⟨"/a.md".toList⟩ .empty = .ok (result, s) ∧
      Roomy result.records ∧
      (result.records.map fun r => (String.ofList r.importedFrom.text, r.reference.start)) =
        [("/a.md", 0), ("/b.md", 4), ("/a.md", 7)] ∧
      (result.records.map Record.place).Nodup := by
  have compiled : compileDocument (FileStore.view mutualStore) .default ⟨"/a.md".toList⟩ .empty =
      .ok (compileContent (FileStore.view mutualStore) .default "@b.md (@b.md)".toList
        (.parse "/a.md".toList) .empty) :=
    compileDocument_eq_ok.mpr ⟨_, _, by decide +kernel, by decide +kernel, by decide +kernel, rfl⟩
  have roomy : Roomy (compileContent (FileStore.view mutualStore) .default "@b.md (@b.md)".toList
      (.parse "/a.md".toList) .empty).1.records := by
    decide +kernel
  exact ⟨_, _, compiled, roomy, by decide +kernel, (compileDocument_covers compiled rfl rfl roomy).1⟩

end Transclusion

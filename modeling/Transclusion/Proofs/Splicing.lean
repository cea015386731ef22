import Transclusion.Proofs.Mention
import Transclusion.Proofs.Unfolding

namespace Transclusion

/-- `new` is the text `t`, which starts at byte `offset`, with the mentions of the records replaced: by the
wrapped content of an inlined document and by a stub for one that was inlined before, while those that
failed stand as they were written. All text between mentions is kept. -/
inductive Spliced : Nat → Text → List Record → Text → Prop
  | rest {offset t} : Spliced offset t [] t
  | inlined {offset before r content count t records new} : offset + Text.size before = r.reference.start →
      r.outcome = .inlined content count → Spliced r.reference.stop t records new →
      Spliced offset (before ++ r.reference.raw ++ t) (r :: records)
        (before ++ WrapperTag.wrap r.resolution.path.text content ++ new)
  | stubbed {offset before r t records new} : offset + Text.size before = r.reference.start →
      r.outcome.isStub → Spliced r.reference.stop t records new →
      Spliced offset (before ++ r.reference.raw ++ t) (r :: records)
        (before ++ WrapperTag.stubFor r.resolution.path.text ++ new)
  | failed {offset before r t records new} : offset + Text.size before = r.reference.start →
      r.outcome.isFailure → Spliced r.reference.stop t records new →
      Spliced offset (before ++ r.reference.raw ++ t) (r :: records) (before ++ r.reference.raw ++ new)

/-- The replacements that records ask for, with the spans of their mentions. -/
def replacements (records : List Record) : List (Span × Text) :=
  records.filterMap fun r => r.replacement?.map fun new => (⟨r.reference.start, r.reference.stop⟩, new)

theorem splice_replace {kept raw t : Text} {base start : Nat} (here : base + kept.size = start) (new : Text)
    (later : List (Span × Text)) :
    splice (kept ++ raw ++ t) base ((⟨start, start + raw.size⟩, new) :: later) =
      kept ++ new ++ splice t (start + raw.size) later := by
  have before : start - base = kept.size := by omega
  have behind : start + raw.size - base = (kept ++ raw).size := by rw [Text.size_append]; omega
  simp only [splice, before, behind, Text.dropBytes_append]
  rw [List.append_assoc kept raw t, Text.takeBytes_append]

/-- Splicing in one pass does what the records say. Text that is kept so far stays in front. -/
theorem Holds.spliced {offset : Nat} {t : Text} {refs : List Reference} (holds : Holds offset t refs)
    {records : List Record} (carry : records.map (·.reference) = refs) (kept : Text) (base : Nat)
    (here : base + kept.size = offset) :
    ∃ new, Spliced offset t records new ∧ splice (kept ++ t) base (replacements records) = kept ++ new := by
  induction holds generalizing records kept base with
  | @rest offset t =>
    cases List.map_eq_nil_iff.mp carry
    exact ⟨t, .rest, rfl⟩
  | @mention offset before first t refs at_ _ ih =>
    obtain ⟨r, others, rfl, rfl, rest⟩ := List.map_eq_cons_iff.mp carry
    have reached : base + (kept ++ before).size = r.reference.start := by rw [Text.size_append]; omega
    have assoc : kept ++ (before ++ r.reference.raw ++ t) = kept ++ before ++ r.reference.raw ++ t := by
      simp only [List.append_assoc]
    rw [assoc]
    obtain ⟨new, spliced, same⟩ := ih rest [] r.reference.stop rfl
    simp only [List.nil_append] at same
    cases outcome : r.outcome with
    | inlined content count =>
      refine ⟨_, .inlined at_ outcome spliced, ?_⟩
      have head : replacements (r :: others) =
          (⟨r.reference.start, r.reference.stop⟩, WrapperTag.wrap r.resolution.path.text content) ::
            replacements others := by
        simp [replacements, Record.replacement?, outcome]
      rw [head, Reference.stop, splice_replace reached, ← Reference.stop, same]
      simp only [List.append_assoc]
    | stubbed count =>
      refine ⟨_, .stubbed at_ (by rw [outcome]; rfl) spliced, ?_⟩
      have head : replacements (r :: others) =
          (⟨r.reference.start, r.reference.stop⟩, WrapperTag.stubFor r.resolution.path.text) ::
            replacements others := by
        simp [replacements, Record.replacement?, outcome]
      rw [head, Reference.stop, splice_replace reached, ← Reference.stop, same]
      simp only [List.append_assoc]
    | _ =>
      have fails : r.outcome.isFailure := by rw [outcome]; rfl
      have skipped : replacements (r :: others) = replacements others := by
        simp [replacements, Record.replacement?, outcome]
      obtain ⟨new, spliced, same⟩ := ih rest (kept ++ before ++ r.reference.raw) base
        (by rw [Text.size_append, Reference.stop, ← reached, Nat.add_assoc])
      refine ⟨_, .failed at_ fails spliced, ?_⟩
      rw [skipped, same]
      simp only [List.append_assoc]

/-- What is left of the records of some steps when only those of the document itself are kept. -/
theorem filter_flatMap_own {steps : List Step} {file : Path} {ancestors : List Path}
    (inside : file ∈ ancestors)
    (belong : ∀ step ∈ steps, step.record.importedFrom = file ∧
      ∀ r ∈ step.nested, r.importedFrom ∉ ancestors) :
    (steps.flatMap fun step => step.record :: step.nested).filter (·.importedFrom = file) =
      steps.map (·.record) := by
  induction steps with
  | nil => rfl
  | cons step rest ih =>
    obtain ⟨own, nested⟩ := belong step (List.mem_cons_self ..)
    have dropped : step.nested.filter (·.importedFrom = file) = [] := by
      refine List.filter_eq_nil_iff.mpr fun r member same => ?_
      exact nested r member (of_decide_eq_true same ▸ inside)
    rw [List.flatMap_cons, List.cons_append, List.filter_cons_of_pos (by simpa using own),
      List.filter_append, dropped,
      List.nil_append, ih fun other member => belong other (List.mem_cons_of_mem _ member), List.map_cons]

namespace Expansion

/-- The steps over the references of a document carry them in order, and every record that comes from
deeper down belongs to a document outside of the branch that leads here. -/
theorem expandAll_own {files : FileView} {options : CompileOptions} {deeper : Option Expander}
    {room : Nat} (full : deeper = none ↔ room = 0) (site : Site) (context : Reference → Nat)
    (below : ∀ expand, deeper = some expand → expand = Expansion.expand files options (room - 1))
    (refs : List Reference) (s : Session) :
    let steps := expandAll (fun r => expandReference files options deeper site (context r) r) refs s
    (steps.map (·.record)).map (·.reference) = refs ∧
      ∀ step ∈ steps, step.record.importedFrom = site.file ∧
        ∀ r ∈ step.nested, r.importedFrom ∉ site.ancestors := by
  induction refs generalizing s with
  | nil => exact ⟨rfl, by simp [expandAll]⟩
  | cons r rest ih =>
    obtain ⟨carry, own⟩ := ih (expandReference files options deeper site (context r) r s).session
    have first : (expandReference files options deeper site (context r) r s).record.reference = r ∧
        (expandReference files options deeper site (context r) r s).record.importedFrom = site.file ∧
        ∀ inner ∈ (expandReference files options deeper site (context r) r s).nested,
          inner.importedFrom ∉ site.ancestors := by
      rcases expandReference_cases files options deeper room full site (context r) r s with
        ⟨outcome, s', _, same⟩ | ⟨expand, p, source, there, _, outside, _, _, same⟩
      · rw [same]
        exact ⟨rfl, rfl, by simp⟩
      · rw [same]
        refine ⟨rfl, rfl, ?_⟩
        intro inner member
        have run := unfolds_expand files options (room - 1) (site.below p) (FrontMatter.strip source)
          ((s.recordImport (.ofPath p)).markInlined p)
        rw [← below expand there] at run
        rcases run.own_or_outside inner member with ⟨same, _⟩ | apart
        · exact same ▸ outside
        · exact fun above => apart (List.mem_append_left _ above)
    refine ⟨by simp only [expandAll, List.map_cons, first.1, carry], ?_⟩
    intro step member
    rcases List.mem_cons.mp member with rfl | member
    · exact first.2
    · exact own step member

theorem expand_eq_expandOnce (files : FileView) (options : CompileOptions) (room : Nat) :
    ∃ deeper, (deeper = none ↔ room = 0) ∧
      (∀ expand, deeper = some expand → expand = Expansion.expand files options (room - 1)) ∧
      expand files options room = expandOnce files options deeper := by
  cases room with
  | zero => exact ⟨none, by simp, by simp, rfl⟩
  | succ room => exact ⟨some (expand files options room), by simp, by simp, rfl⟩

/-- Where two ways to deal with a reference look the same in sessions that are alike, and leave
sessions that are, so do they for several references in a row. What the first way records has to be
`clear`. -/
theorem map_expandAll {α : Type} (view : Step → α) (alike : Session → Session → Prop)
    {clear : List Record → Prop}
    (mono : ∀ {records more}, clear more → records ⊆ more → clear records)
    {one other : Reference → Session → Step}
    (same : ∀ r s s', alike s' s → clear ((one r s).record :: (one r s).nested) →
      view (other r s') = view (one r s) ∧ alike (other r s').session (one r s).session)
    (refs : List Reference) (s s' : Session) (start : alike s' s)
    (all : clear ((expandAll one refs s).flatMap fun step => step.record :: step.nested)) :
    (expandAll other refs s').map view = (expandAll one refs s).map view := by
  induction refs generalizing s s' with
  | nil => rfl
  | cons r rest ih =>
    simp only [expandAll, List.flatMap_cons] at all
    obtain ⟨first, onward⟩ := same r s s' start (mono all (List.subset_append_left ..))
    have later := ih _ _ onward (mono all (List.subset_append_right ..))
    rw [expandAll, expandAll, List.map_cons, List.map_cons, first, later]

/-- Wherever there is room with `deeper`, there is with `deeper'`, for an expander that stands in
`relation` to the one that `deeper` has. -/
def Supports (relation : Expander → Expander → Prop)
    (deeper' deeper : Option Expander) : Prop :=
  ∀ expand, deeper = some expand → ∃ other, deeper' = some other ∧ relation other expand

/-- A relation that one level of an expansion keeps, as long as what lies below supports it, ties
expansions with more room to those with less. -/
theorem expand_related {relation : Expander → Expander → Prop} {files files' : FileView}
    {options options' : CompileOptions}
    (kept : ∀ {deeper deeper'}, Supports relation deeper' deeper →
      relation (expandOnce files' options' deeper') (expandOnce files options deeper))
    {room more : Nat} (fits : room ≤ more) :
    relation (expand files' options' more) (expand files options room) := by
  induction room generalizing more with
  | zero =>
    obtain ⟨deeper, _, _, same⟩ := expand_eq_expandOnce files' options' more
    rw [same]
    exact kept fun _ none => by cases none
  | succ room ih =>
    cases more with
    | zero => exact absurd fits (Nat.not_succ_le_zero room)
    | succ more =>
      refine kept fun expand same => ⟨_, rfl, ?_⟩
      cases same
      exact ih (Nat.le_of_succ_le_succ fits)

/-- Of the records of an expansion, those that come from its own document carry the references of its text
in order, and the text that they are spliced into is what the expansion gives. -/
theorem expand_spliced (files : FileView) (options : CompileOptions) (room : Nat) (site : Site)
    (inside : site.file ∈ site.ancestors) (t : Text) (s : Session) :
    let expansion := expand files options room site t s
    let own := expansion.records.filter (·.importedFrom = site.file)
    own.map (·.reference) = Reference.extract t options.oneBased ∧ Spliced 0 t own expansion.content := by
  obtain ⟨deeper, full, below, same⟩ := expand_eq_expandOnce files options room
  rw [same]
  intro expansion own
  let one (r : Reference) :=
    expandReference files options deeper site (Heading.contextLevel (Heading.extract t true) r.start) r
  let steps := expandAll one (Reference.extract t options.oneBased) s
  obtain ⟨carry, belong⟩ := expandAll_own full site
    (fun r => Heading.contextLevel (Heading.extract t true) r.start) below
      (Reference.extract t options.oneBased) s
  have kept : own = steps.map (·.record) := filter_flatMap_own inside belong
  have content : expansion.content = splice t 0 (replacements own) := by
    rw [kept, replacements, List.filterMap_map]
    rfl
  obtain ⟨new, spliced, result⟩ :=
    (Reference.holds_extract t options.oneBased).spliced (kept ▸ carry : own.map (·.reference) = _) [] 0 rfl
  rw [List.nil_append, List.nil_append, ← content] at result
  exact ⟨kept ▸ carry, result ▸ spliced⟩

end Expansion

/-- A compiled text is its body with every mention replaced as the record of that mention says, and the
records that come from the document itself are those of its mentions, in order, each inlined, a stub or
failed. -/
theorem compileContent_spliced (files : FileView) (options : CompileOptions) (t : Text)
    (file : Path) (s : Session) :
    let result := (compileContent files options t file s).1
    let body := FrontMatter.strip t
    let own := result.records.filter (·.importedFrom = result.path)
    own.map (·.reference) = Reference.extract body options.oneBased ∧
      (∀ r ∈ own, [r.outcome.content?.isSome, r.outcome.isStub, r.outcome.isFailure].count true = 1) ∧
      Spliced 0 body own result.content := by
  intro result body own
  obtain ⟨carry, spliced⟩ := Expansion.expand_spliced files options options.maxDepth
    ⟨result.path, _, [result.path]⟩ (List.mem_singleton_self _) body s
  refine ⟨carry, ?_, spliced⟩
  intro r _
  cases r.outcome <;> rfl

end Transclusion

import Transclusion.Proofs.Branch
import Transclusion.Proofs.Ending
import Transclusion.Proofs.Retention
import Transclusion.Proofs.Splicing

namespace Transclusion

namespace Outcome

/-- The outcome with nothing left of the imports counted before it. -/
def uncounted : Outcome → Outcome
  | inlined content _ => inlined content 0
  | stubbed _ => stubbed 0
  | unreadable message _ => unreadable message 0
  | other => other

end Outcome

namespace Record

def uncounted (r : Record) : Record := { r with outcome := r.outcome.uncounted }

@[simp]
theorem reference_uncounted (r : Record) : r.uncounted.reference = r.reference := rfl

@[simp]
theorem replacement?_uncounted (r : Record) : r.uncounted.replacement? = r.replacement? := by
  obtain ⟨_, _, outcome, _⟩ := r
  cases outcome <;> rfl

end Record

/-- Nothing on record leads back to a document that is being expanded or lies too deep, so the site that the
records were made at has no part in them. -/
def Unobstructed (records : List Record) : Prop :=
  ∀ r ∈ records, ¬ r.outcome.isCircular ∧ ¬ r.outcome.isTooDeep

instance (records : List Record) : Decidable (Unobstructed records) :=
  inferInstanceAs (Decidable (∀ r ∈ records, ¬ r.outcome.isCircular ∧ ¬ r.outcome.isTooDeep))

theorem Unobstructed.mono {records more : List Record} (clear : Unobstructed more)
    (subset : records ⊆ more) :
    Unobstructed records :=
  fun r member => clear r (subset member)

/-- What a step leaves in the text and on record. -/
def Step.uncounted (step : Step) : Step :=
  ⟨step.record.uncounted, step.nested.map Record.uncounted, step.clamps, .empty⟩

/-- A record of the document that some steps are over is that of one of them. What comes before the
next such record is what the step brought in. -/
theorem exists_step {steps : List Step} {file : Path} {ancestors : List Path}
    (inside : file ∈ ancestors)
    (belong : ∀ step ∈ steps, step.record.importedFrom = file ∧
      ∀ r ∈ step.nested, r.importedFrom ∉ ancestors)
    {before after : List Record} {r : Record}
    (split : (steps.flatMap fun step => step.record :: step.nested) = before ++ r :: after)
    (own : r.importedFrom = file) :
    ∃ step ∈ steps, step.record = r ∧ after.takeWhile (·.importedFrom ≠ file) = step.nested := by
  induction steps generalizing before with
  | nil => simp at split
  | cons step rest ih =>
    obtain ⟨home, nested⟩ := belong step (List.mem_cons_self ..)
    have away : ∀ inner ∈ step.nested, inner.importedFrom ≠ file :=
      fun inner member same => nested inner member (same ▸ inside)
    rw [List.flatMap_cons, List.cons_append] at split
    cases before with
    | nil =>
      obtain ⟨rfl, rfl⟩ := List.cons.inj split
      refine ⟨step, List.mem_cons_self .., rfl, ?_⟩
      have stops : ∀ next ∈ (rest.flatMap fun step => step.record :: step.nested).head?,
          ¬ decide (next.importedFrom ≠ file) := by
        cases rest with
        | nil => simp
        | cons next _ =>
          have again := (belong next (List.mem_cons_of_mem _ (List.mem_cons_self ..))).1
          simp [again]
      rw [takeWhile_append_of_head _ stops, List.takeWhile_eq_self_iff]
      exact fun inner member => decide_eq_true (away inner member)
    | cons first before =>
      rcases split_append (List.cons.inj split).2 with ⟨tail, inner⟩ | ⟨between, _, later⟩
      · exact absurd own (away r (by rw [inner]; simp))
      · obtain ⟨found, member, about⟩ :=
          ih (fun other member => belong other (List.mem_cons_of_mem _ member)) later
        exact ⟨found, List.mem_cons_of_mem _ member, about⟩

namespace Expansion

/-- What an expansion leaves in the text and on record. -/
def uncounted (e : Expansion) : Expansion := ⟨e.content, e.records.map Record.uncounted, e.clamps, .empty⟩

/-- `other` expands as `expand` does, but for the counts, in every session and with fewer documents being
expanded, wherever nothing stands in the way of `expand`. -/
def Follows (other expand : Expander) : Prop :=
  ∀ site fewer t s s', fewer ⊆ site.ancestors → Unobstructed (expand site t s).records →
    (other { site with ancestors := fewer } t s').uncounted = (expand site t s).uncounted

section Simulation

variable (files : FileView) {options : CompileOptions} {deeper deeper' : Option Expander}

/-- With repeated imports inlined, all that a reference takes from its site and its session is whether it is
circular or too deep, and the count. -/
theorem uncounted_expandReference (repeating : options.optimizeDuplicates = false)
    (follows : Supports Follows deeper' deeper) {site : Site} {fewer : List Path}
    (subset : fewer ⊆ site.ancestors) (context : Nat) (r : Reference) (s s' : Session)
    (clear : Unobstructed ((expandReference files options deeper site context r s).record ::
      (expandReference files options deeper site context r s).nested)) :
    (expandReference files options deeper' { site with ancestors := fewer } context r s').uncounted =
      (expandReference files options deeper site context r s).uncounted := by
  obtain ⟨passes, nested⟩ := List.forall_mem_cons.mp clear
  unfold expandReference at passes nested ⊢
  dsimp only at passes nested ⊢
  generalize resolve files site.base (options.extensions.map dotted) r.target =
    resolution at passes nested ⊢
  cases resolution with
  | missing p => rfl
  | directory p => rfl
  | file p =>
    -- only these two checks look at the site, and what is clear has passed both
    by_cases above : p ∈ site.ancestors
    · simp [above, Outcome.isCircular] at passes
    have outside : p ∉ fewer := fun member => above (subset member)
    cases deeper with
    | none => simp [above, Outcome.isTooDeep] at passes
    | some expand =>
      obtain ⟨other, there, similar⟩ := follows expand rfl
      subst there
      cases read : files.read p with
      | error e =>
        simp [above, outside, repeating, read, Step.uncounted, Record.uncounted, Outcome.uncounted]
      | ok source =>
        simp only [List.contains_iff_mem, above, outside, repeating, read, if_false, Bool.false_and,
          Bool.false_eq_true] at passes nested ⊢
        have below : fewer ++ [p] ⊆ site.ancestors ++ [p] :=
          List.append_subset.mpr ⟨List.subset_append_of_subset_left _ subset, List.subset_append_right ..⟩
        have same := similar (site.below p) (fewer ++ [p]) (FrontMatter.strip source)
          ((s.recordImport (.ofPath p)).markInlined p)
            ((s'.recordImport (.ofPath p)).markInlined p) below nested
        simp only [Site.below, uncounted, Expansion.mk.injEq] at same
        obtain ⟨content, records, clamps, _⟩ := same
        simp only [Step.uncounted, Record.uncounted, Outcome.uncounted, content, records, clamps]

/-- What steps leave in the text and on record is put together from what each of them leaves. -/
theorem uncounted_assemble (t : Text) (steps : List Step) (s : Session) :
    (assemble t steps s).uncounted = assemble t (steps.map Step.uncounted) .empty := by
  have content : (assemble t steps s).content = (assemble t (steps.map Step.uncounted) .empty).content := by
    simp only [assemble, List.filterMap_map]
    congr 2
    funext step
    simp [Step.uncounted]
  have records : (assemble t steps s).records.map Record.uncounted =
      (assemble t (steps.map Step.uncounted) .empty).records := by
    simp only [assemble, List.map_flatMap, List.flatMap_map, List.map_cons]
    rfl
  have clamps : (assemble t steps s).clamps = (assemble t (steps.map Step.uncounted) .empty).clamps := by
    simp only [assemble, List.map_map]
    rfl
  have session : (assemble t (steps.map Step.uncounted) .empty).session = .empty := by
    simp only [assemble, List.getLast?_map]
    cases steps.getLast? <;> rfl
  rw [uncounted, content, records, clamps]
  exact congrArg (Expansion.mk _ _ _) session.symm

theorem follows_expandOnce (repeating : options.optimizeDuplicates = false)
    (follows : Supports Follows deeper' deeper) :
    Follows (expandOnce files options deeper') (expandOnce files options deeper) := by
  intro site fewer t s s' subset clear
  -- any two sessions are alike
  have steps := map_expandAll Step.uncounted (fun _ _ => True) Unobstructed.mono
    (fun r s s' _ clear => ⟨uncounted_expandReference files repeating follows subset
      (Heading.contextLevel (Heading.extract t true) r.start) r s s' clear, trivial⟩)
    (Reference.extract t options.oneBased) s s' trivial clear
  unfold expandOnce
  dsimp only
  rw [uncounted_assemble, uncounted_assemble, steps]

/-- More room changes nothing where there was enough. -/
theorem follows_expand (repeating : options.optimizeDuplicates = false) {room more : Nat}
    (fits : room ≤ more) :
    Follows (expand files options more) (expand files options room) :=
  expand_related (follows_expandOnce files repeating) fits

end Simulation

theorem exists_session {one : Reference → Session → Step} {refs : List Reference} {s : Session}
    {step : Step} (member : step ∈ expandAll one refs s) : ∃ r s', step = one r s' := by
  induction refs generalizing s with
  | nil => cases member
  | cons r rest ih =>
    rcases List.mem_cons.mp member with rfl | member
    · exact ⟨r, s, rfl⟩
    · exact ih member

/-- A document that an expansion inlines is expanded at the site below, with less room: its text
with the headings renumbered is what is inlined, and its records are those up to the next one of the
outer document. -/
theorem expand_inlines {files : FileView} {options : CompileOptions} {room : Nat} {site : Site}
    (inside : site.file ∈ site.ancestors) {t : Text} {s : Session} {before after : List Record}
    {r : Record} {content : Text}
    (split : (expand files options room site t s).records = before ++ r :: after)
    (own : r.importedFrom = site.file) (full : r.outcome.content? = some content) :
    ∃ p source session, room ≠ 0 ∧ r.resolution = .file p ∧
      options.resolve files site.base r.reference = .file p ∧
      files.read p = .ok source ∧
      let child := expand files options (room - 1) (site.below p) (FrontMatter.strip source) session
      content = (HeadingShift.under child.content options.headingMode
        (Heading.contextLevel (Heading.extract t true) r.reference.start)).content ∧
      after.takeWhile (·.importedFrom ≠ site.file) = child.records := by
  obtain ⟨deeper, bottom, below, same⟩ := expand_eq_expandOnce files options room
  rw [same] at split
  obtain ⟨_, belong⟩ :=
    expandAll_own bottom site (fun r => Heading.contextLevel (Heading.extract t true) r.start) below
    (Reference.extract t options.oneBased) s
  obtain ⟨step, member, made, nested⟩ := exists_step inside belong split own
  obtain ⟨r', s', run⟩ := exists_session member
  subst made
  rcases expandReference_cases files options deeper room bottom site
      (Heading.contextLevel (Heading.extract t true) r'.start) r' s' with
    ⟨outcome, _, settles, inlined⟩ | ⟨expand', p, source, there, leads, outside, _, read, inlined⟩
  · rw [← run] at inlined
    rw [inlined] at full
    exact absurd (Option.isSome_of_eq_some full) settles.not_inlined
  have roomy : room ≠ 0 := fun none => by
    rw [bottom.mpr none] at there
    cases there
  rw [← run] at inlined
  obtain rfl := below expand' there
  rw [inlined] at full nested ⊢
  exact ⟨p, source, _, roomy, rfl, leads, read, (Option.some.inj full).symm, nested⟩

/-- Where nothing stands in the way, a document that an expansion inlines gives what it gives when
it is expanded alone, in any session and with at least as much room: its text with the headings
renumbered, and the records up to the next one of the outer document. -/
theorem expand_composes {files : FileView} {options : CompileOptions}
    (repeating : options.optimizeDuplicates = false) {room more : Nat} (fits : room ≤ more + 1)
    {site : Site} (inside : site.file ∈ site.ancestors) {t : Text} {s : Session}
    (clear : Unobstructed (expand files options room site t s).records) {before after : List Record}
    {r : Record} {content : Text}
    (split : (expand files options room site t s).records = before ++ r :: after)
    (own : r.importedFrom = site.file) (full : r.outcome.content? = some content) :
    ∃ p source, r.resolution = .file p ∧ options.resolve files site.base r.reference = .file p ∧
      files.read p = .ok source ∧
      ∀ session,
        let alone := expand files options more ⟨p, p.directory, [p]⟩ (FrontMatter.strip source) session
        content = (HeadingShift.under alone.content options.headingMode
          (Heading.contextLevel (Heading.extract t true) r.reference.start)).content ∧
        (after.takeWhile (·.importedFrom ≠ site.file)).map Record.uncounted =
          alone.records.map Record.uncounted := by
  obtain ⟨p, source, s', _, resolved, leads, read, shifted, nested⟩ := expand_inlines inside split own full
  have kept : after.takeWhile (·.importedFrom ≠ site.file) ⊆
      (expand files options room site t s).records := by
    rw [split]
    exact List.subset_append_of_subset_right _
      (List.subset_cons_of_subset _ (List.takeWhile_sublist _).subset)
  refine ⟨p, source, resolved, leads, read, fun session => ?_⟩
  have alone := follows_expand files repeating (Nat.sub_le_of_le_add fits) (site.below p) [p]
    (FrontMatter.strip source) s' session (List.subset_append_right ..) (clear.mono (nested ▸ kept))
  have text := congrArg Expansion.content alone
  have records := congrArg Expansion.records alone
  simp only [uncounted, Site.below] at text records
  exact ⟨text ▸ shifted, by rw [nested, records]; rfl⟩

end Expansion

/-- A document that inlines another, which inlines a third and mentions one that cannot be read. -/
def guideStore : FaultyStore where
  faults := ⟨[(.parse "/d.md".toList, ⟨.permissionDenied, "denied"⟩)], [], [], []⟩
  store := (((MemoryStore.empty.insert (.parse "/a.md".toList) "# A\n@b.md @c.md".toList).insert
    (.parse "/b.md".toList) "# B\n@c.md @d.md".toList).insert (.parse "/c.md".toList) "# C".toList).insert
    (.parse "/d.md".toList) "secret".toList

theorem compileDocument_guide (options : CompileOptions) :
    compileDocument (FileStore.view guideStore) options ⟨"/a.md".toList⟩ .empty =
      .ok (compileContent (FileStore.view guideStore) options "# A\n@b.md @c.md".toList
        (.parse "/a.md".toList) .empty) :=
  compileDocument_eq_ok.mpr ⟨_, _, by decide +kernel, by decide +kernel, by decide +kernel, rfl⟩

end Transclusion

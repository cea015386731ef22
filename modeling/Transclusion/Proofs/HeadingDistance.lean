import Transclusion.Proofs.Inlay
import Transclusion.Proofs.Position
import Transclusion.Proofs.Recompilation
import Transclusion.Proofs.Renumbering

namespace Transclusion

open WrapperTag Heading

namespace Reference

theorem isTokenChar_of_mem_token {t : Text} {c : Char} (member : c ∈ token t) : isTokenChar c :=
  List.all_eq_true.mp (List.all_takeWhile ..) c ((List.rdropWhile_prefix ..).subset member)

/-- A mention lies within a line and has neither a tag nor a fence in it. -/
theorem inlay_raw {t : Text} {oneBased : Bool} {r : Reference} (member : r ∈ extract t oneBased) :
    Inlay r.raw := by
  obtain ⟨_, _, _, meets⟩ := mem_extract_iff.mp member
  have clean {c : Char} (other : c ≠ '@') (apart : ¬ isTokenChar c) : c ∉ '@' :: r.target := by
    intro inside
    rcases List.mem_cons.mp inside with sign | inside
    · exact other sign
    · exact apart (isTokenChar_of_mem_token (meets.target ▸ inside))
  exact .of_plain (by decide) (clean (by decide) (by decide)) (clean (by decide) (by decide))
    (clean (by decide) (by decide))

end Reference

/-- What stands in place of a mention is a document or a stub. -/
theorem Record.replacement?_eq_some {r : Record} {markup : Text}
    (same : r.replacement? = some markup) :
    (∃ content, r.outcome.content? = some content ∧
      markup = WrapperTag.wrap r.resolution.path.text content) ∨
      markup = WrapperTag.stubFor r.resolution.path.text := by
  unfold replacement? at same
  split at same
  · rename_i content count outcome
    exact Or.inl ⟨content, by rw [outcome]; rfl, (Option.some.inj same).symm⟩
  · exact Or.inr (Option.some.inj same).symm
  · cases same

namespace Spliced

variable {offset : Nat} {t new : Text} {records : List Record}

/-- The first mention is replaced or stands as it was written, and what is done to the text behind
it is done on its own. -/
theorem of_cons {r : Record} (spliced : Spliced offset t (r :: records) new) :
    ∃ before behind later, t = before ++ r.reference.raw ++ behind ∧
      new = before ++ r.replacement?.getD r.reference.raw ++ later ∧
        Spliced r.reference.stop behind records later := by
  cases spliced with
  | inlined _ outcome rest => exact ⟨_, _, _, rfl, by rw [Record.replacement?, outcome]; rfl, rest⟩
  | stubbed _ stub rest => exact ⟨_, _, _, rfl, by rw [Record.replacement?_of_isStub stub]; rfl, rest⟩
  | failed _ fails rest => exact ⟨_, _, _, rfl, by rw [Record.replacement?_of_isFailure fails]; rfl, rest⟩

theorem wellTagged (spliced : Spliced offset t records new) (plain : '<' ∉ t)
    (replaced : ∀ r ∈ records, ∀ markup, r.replacement? = some markup → WellTagged markup) :
    WellTagged new := by
  induction records generalizing offset t new with
  | nil =>
    cases spliced
    exact .of_not_mem plain
  | cons r records ih =>
    obtain ⟨before, behind, later, rfl, rfl, rest⟩ := spliced.of_cons
    simp only [List.mem_append, not_or] at plain
    obtain ⟨here, others⟩ := List.forall_mem_cons.mp replaced
    have well : WellTagged (r.replacement?.getD r.reference.raw) := by
      cases same : r.replacement? with
      | none => exact .of_not_mem plain.1.2
      | some markup => exact here markup same
    exact ((WellTagged.of_not_mem plain.1.1).append well).append (ih rest plain.2 others)

/-- A text keeps its outline when its mentions are replaced by inlays. What is replaced so far stays
in front. -/
theorem outline_eq (spliced : Spliced offset t records new) (plain : '<' ∉ t)
    (mentions : ∀ r ∈ records, Inlay r.reference.raw)
    (replaced : ∀ r ∈ records, ∀ markup, r.replacement? = some markup → Inlay markup) {front : Text}
    (kept : Tagged front) :
    outline (front ++ t) = outline (front ++ new) := by
  induction records generalizing offset t new front with
  | nil =>
    cases spliced
    rfl
  | cons r records ih =>
    obtain ⟨before, behind, later, rfl, rfl, rest⟩ := spliced.of_cons
    simp only [List.mem_append, not_or] at plain
    obtain ⟨mention, mentions⟩ := List.forall_mem_cons.mp mentions
    obtain ⟨here, others⟩ := List.forall_mem_cons.mp replaced
    have inlay : Inlay (r.replacement?.getD r.reference.raw) := by
      cases same : r.replacement? with
      | none => exact mention
      | some markup => exact here markup same
    have longer : Tagged (front ++ before) := kept.append (.of_not_mem plain.1.1)
    exact mention.outline_replace_append inlay longer
      (ih rest plain.2 mentions others (longer.append inlay.well.tagged))

end Spliced

namespace Expansion

section Expand

variable {files : FileView} {options : CompileOptions}

/-- Every record of an expansion is made of a reference in a text that is expanded there, either the
text at hand or that of a document inlined at whatever depth, under the heading that the reference
stands below in that text. What dealing with it records besides is among the records of the outer
expansion. -/
theorem exists_expandReference_of_mem {room : Nat} {site : Site} {t : Text} {s : Session}
    {r : Record} (member : r ∈ (expand files options room site t s).records) :
    ∃ room' site' holder mention s' deeper, room' ≤ room ∧ (deeper = none ↔ room' = 0) ∧
      (∀ expand', deeper = some expand' → expand' = expand files options (room' - 1)) ∧
      (site' = site ∧ holder = t ∨ ∃ source, files.read site'.file = .ok source ∧
        holder = FrontMatter.strip source) ∧
      let context := Heading.contextLevel (Heading.extract holder true) mention.start
      let step := expandReference files options deeper site' context mention s'
      step.record = r ∧ step.nested ⊆ (expand files options room site t s).records := by
  induction room using Nat.strongRecOn generalizing site t s with
  | ind room ih =>
    obtain ⟨deeper, bottom, below, same⟩ := expand_eq_expandOnce files options room
    rw [same] at member ⊢
    obtain ⟨step, among, found⟩ := List.mem_flatMap.mp member
    obtain ⟨r', s', run⟩ := exists_session among
    have kept : step.nested ⊆ (expandOnce files options deeper site t s).records := fun other nested =>
      List.mem_flatMap.mpr ⟨step, among, List.mem_cons_of_mem _ nested⟩
    rcases List.mem_cons.mp found with rfl | nested
    · exact ⟨room, site, t, r', s', deeper, Nat.le_refl room, bottom, below, Or.inl ⟨rfl, rfl⟩,
        by rw [run], run ▸ kept⟩
    · rcases expandReference_cases files options deeper room bottom site
          (Heading.contextLevel (Heading.extract t true) r'.start) r' s' with
        ⟨_, _, _, made⟩ | ⟨expand', p, source, there, _, _, _, read, made⟩
      · rw [run, made] at nested
        cases nested
      · have roomy : room - 1 < room := Nat.sub_one_lt fun none => by
          rw [bottom.mpr none] at there
          cases there
        obtain rfl := below expand' there
        rw [run, made] at nested kept
        obtain ⟨room', site', holder, mention, s'', deeper', fits, bottom', below', held, record,
          inner⟩ := ih (room - 1) roomy nested
        refine ⟨room', site', holder, mention, s'', deeper', Nat.le_trans fits roomy.le, bottom',
          below', Or.inr ?_, record, List.Subset.trans inner kept⟩
        rcases held with ⟨rfl, rfl⟩ | held
        · exact ⟨source, read, rfl⟩
        · exact held

/-- What is inlined on record, at whatever depth, is an expansion with less room of the text that
its target holds, with the headings renumbered. Its records are among those of the outer one. -/
theorem exists_expand_of_mem {room : Nat} {site : Site} {t : Text} {s : Session} {r : Record}
    (member : r ∈ (expand files options room site t s).records) {content : Text}
    (full : r.outcome.content? = some content) :
    ∃ room' site' source s' context, room' < room ∧ site'.file ∈ site'.ancestors ∧
      site'.file = r.resolution.path ∧
      files.read site'.file = .ok source ∧
      let child := expand files options room' site' (FrontMatter.strip source) s'
      content = (HeadingShift.under child.content options.headingMode context).content ∧
      child.records ⊆ (expand files options room site t s).records := by
  obtain ⟨room', site', holder, mention, s', deeper, fits, bottom, below, _, rfl, kept⟩ :=
    exists_expandReference_of_mem member
  rcases expandReference_cases files options deeper room' bottom site'
      (Heading.contextLevel (Heading.extract holder true) mention.start) mention s' with
    ⟨_, _, settles, made⟩ | ⟨expand', p, source, there, _, _, _, read, made⟩
  · rw [made] at full
    exact absurd (Option.isSome_of_eq_some full) settles.not_inlined
  · have roomy : room' - 1 < room := by
      have some : room' ≠ 0 := fun none => by
        rw [bottom.mpr none] at there
        cases there
      omega
    obtain rfl := below expand' there
    rw [made] at full kept ⊢
    have branch : p ∈ (site'.below p).ancestors := List.mem_append_right _ (List.mem_singleton_self p)
    exact ⟨room' - 1, site'.below p, source, _, _, roomy, branch, rfl, read,
      (Option.some.inj full).symm, kept⟩

variable (plain : ∀ p source, files.read p = .ok source → '<' ∉ source) {site : Site}
    (inside : site.file ∈ site.ancestors)
  {t : Text} (clean : '<' ∉ t) {s : Session}

include plain inside clean

/-- Where no document has a tag in it, all tags of an expansion and of what is on its record belong
to what was inlined. -/
theorem wellTagged_expand {room : Nat}
    (named : ∀ r ∈ (expand files options room site t s).records, r.replacement?.isSome →
      Quotable r.resolution.path.text) :
    WellTagged (expand files options room site t s).content ∧
      ∀ r ∈ (expand files options room site t s).records, ∀ content, r.outcome.content? = some content →
        WellTagged content := by
  induction room using Nat.strongRecOn generalizing site t s with
  | ind room ih =>
    obtain ⟨_, spliced⟩ := expand_spliced files options room site inside t s
    have inlined : ∀ r ∈ (expand files options room site t s).records,
        ∀ content, r.outcome.content? = some content →
        WellTagged content := by
      intro r member content full
      obtain ⟨room', site', source, s', context, less, on, _, read, shifted, kept⟩ :=
        exists_expand_of_mem member full
      have body : '<' ∉ FrontMatter.strip source :=
        fun tag => plain _ source read (FrontMatter.strip_subset source tag)
      obtain ⟨child, _⟩ := ih room' less on body fun other member => named other (kept member)
      obtain ⟨_, _, alike⟩ := HeadingShift.exists_shift_under child.tagged options.headingMode context
      rw [shifted]
      exact alike.wellTagged child
    refine ⟨spliced.wellTagged clean fun r member markup same => ?_, inlined⟩
    have among := (List.mem_filter.mp member).1
    have quotable := named r among (Option.isSome_of_eq_some same)
    rcases Record.replacement?_eq_some same with ⟨content, full, rfl⟩ | rfl
    · exact wellTagged_wrap quotable (inlined r among content full)
    · exact wellTagged_stubFor quotable

/-- An expansion has the headings of its text, and no others, when the fences of whatever it inlines
pair up. -/
theorem outline_expand {room : Nat}
    (named : ∀ r ∈ (expand files options room site t s).records, r.replacement?.isSome →
      Quotable r.resolution.path.text)
    (paired : ∀ r ∈ (expand files options room site t s).records, r.importedFrom = site.file →
      ∀ markup ∈ r.replacement?, Even (fenceCount markup)) :
    outline t = outline (expand files options room site t s).content := by
  obtain ⟨carry, spliced⟩ := expand_spliced files options room site inside t s
  obtain ⟨_, inlined⟩ := wellTagged_expand plain inside clean named
  refine spliced.outline_eq clean (fun r member => ?_) (fun r member markup same => ?_) .nil
  · exact Reference.inlay_raw (carry ▸ List.mem_map_of_mem member)
  · obtain ⟨among, own⟩ := List.mem_filter.mp member
    have quotable := named r among (Option.isSome_of_eq_some same)
    have even := paired r among (of_decide_eq_true own) markup same
    rcases Record.replacement?_eq_some same with ⟨content, full, rfl⟩ | rfl
    · exact .wrap quotable (inlined r among content full) even
    · exact .stubFor quotable even

end Expand

end Expansion

/-- Where no document has a tag in it and all paths fit into tags, an inlined document keeps its own
headings: there are as many, in the same order, and all of them moved by the same amount up to the
bounds on levels. What it inlines itself may hold anything, as long as the fences in it pair up. -/
theorem inlined_headings_keep_distance {files : FileView} {options : CompileOptions}
    {file : Spelling} {result : Compilation} {s s' : Session}
    (plain : ∀ p source, files.read p = .ok source → '<' ∉ source)
    (compiled : compileDocument files options file s = .ok (result, s'))
    (named : ∀ r ∈ result.records, r.replacement?.isSome → Quotable r.resolution.path.text) :
    ∀ r ∈ result.records, ∀ content, r.outcome.content? = some content →
      (∀ inner ∈ result.records, inner.importedFrom = r.resolution.path →
        ∀ markup ∈ inner.replacement?, Even (fenceCount markup)) →
      ∃ source, files.read r.resolution.path = .ok source ∧ ∃ shift : Int,
        (Heading.extract content true).map (·.level) =
          (Heading.extract (FrontMatter.strip source) true).map
            fun heading => HeadingShift.clampLevel heading.level shift := by
  intro r member content full paired
  obtain ⟨path, t, _, _, _, same⟩ := compileDocument_eq_ok.mp compiled
  obtain rfl : (compileContent files options t path s).1 = result := congrArg Prod.fst same
  let root : Site :=
    ⟨files.absoluteOr path, options.baseOf files (files.absoluteOr path), [files.absoluteOr path]⟩
  obtain ⟨room, site, source, s'', context, _, inside, target, read, shifted, kept⟩ :=
    Expansion.exists_expand_of_mem member full
  have body : '<' ∉ FrontMatter.strip source :=
    fun tag => plain _ source read (FrontMatter.strip_subset source tag)
  have named' := fun inner among => named inner (kept among)
  obtain ⟨well, _⟩ := Expansion.wellTagged_expand plain inside body named'
  have own := Expansion.outline_expand plain inside body named' fun inner among home =>
    paired inner (kept among) (home.trans target)
  obtain ⟨shift, moved, alike⟩ := HeadingShift.exists_shift_under well.tagged options.headingMode context
  refine ⟨source, target ▸ read, shift, ?_⟩
  calc (Heading.extract content true).map (·.level)
      = outline content := Heading.map_level_extract (shifted ▸ alike.tagged')
    _ = (outline (FrontMatter.strip source)).map (HeadingShift.clampLevel · shift) := by
      rw [shifted, moved, own]
    _ = ((Heading.extract (FrontMatter.strip source) true).map (·.level)).map
        (HeadingShift.clampLevel · shift) := by
      rw [Heading.map_level_extract (.of_not_mem body)]
    _ = _ := by rw [List.map_map]; rfl

/-- A manual that inlines a chapter of two headings, between which the chapter inlines a listing
with headings in and behind its code. -/
def manualStore : MemoryStore :=
  ((MemoryStore.empty.insert (.parse "/manual.md".toList) "@chapter.md\n".toList).insert
    (.parse "/chapter.md".toList) "---\ntitle: A\n---\n## A\nsee @listing.md\n#### B\n".toList).insert
    (.parse "/listing.md".toList) "\x60\x60\x60\n# code\n\x60\x60\x60\n# Listing\n".toList

def compiledManual : Compilation × Session :=
  compileContent (FileStore.view manualStore) .default "@chapter.md\n".toList
    (.parse "/manual.md".toList) .empty

theorem compileDocument_manual :
    compileDocument (FileStore.view manualStore) .default ⟨"/manual.md".toList⟩ .empty =
      .ok compiledManual :=
  compileDocument_eq_ok.mpr ⟨_, _, by decide +kernel, by decide +kernel, by decide +kernel, rfl⟩

/-- The chapter's headings go up by one, and those of the listing, its code closed, stay out of it. -/
theorem inlined_headings_keep_distance_manual :
    let content := String.toList
      "# A\nsee <file path=\"/listing.md\">\n\x60\x60\x60\n# code\n\x60\x60\x60\n## Listing\n</file>\n### B\n"
    ∃ r ∈ compiledManual.1.records, r.resolution.path = .parse "/chapter.md".toList ∧
      r.outcome.content? = some content ∧
      ∃ source, (FileStore.view manualStore).read r.resolution.path = .ok source ∧
        (Heading.extract (FrontMatter.strip source) true).map (·.level) = [2, 4] ∧ ∃ shift : Int,
          (Heading.extract content true).map (·.level) =
            (Heading.extract (FrontMatter.strip source) true).map
              fun heading => HeadingShift.clampLevel heading.level shift := by
  intro content
  have plain (p : Path) (source : Text) (read : (FileStore.view manualStore).read p = .ok source) :
      '<' ∉ source := by
    have clean : ∀ stored ∈ manualStore.files, '<' ∉ stored.2 := by decide +kernel
    exact clean _ (MemoryStore.mem_of_read read)
  have inlined : ∃ r ∈ compiledManual.1.records, r.resolution.path = .parse "/chapter.md".toList ∧
      r.outcome.content? = some content ∧
        ∀ inner ∈ compiledManual.1.records, inner.importedFrom = r.resolution.path →
        ∀ markup ∈ inner.replacement?, Even (fenceCount markup) := by
    decide +kernel
  obtain ⟨r, member, chapter, full, paired⟩ := inlined
  obtain ⟨source, read, distance⟩ :=
    inlined_headings_keep_distance plain compileDocument_manual
      (by decide +kernel) r member content full paired
  have levels : ((FileStore.view manualStore).read (.parse "/chapter.md".toList)).toOption.map
      (fun source => (Heading.extract (FrontMatter.strip source) true).map (·.level)) = some [2, 4] := by
    decide +kernel
  rw [← chapter, read] at levels
  exact ⟨r, member, chapter, full, source, read, Option.some.inj levels, distance⟩

-- a fence that an inlined document leaves open hides the headings behind it
example :
    let view := FileStore.view
      ((MemoryStore.empty.insert (.parse "/p.md".toList) "## A\n@q.md\n## B\n".toList).insert
        (.parse "/q.md".toList) "\x60\x60\x60\n".toList)
    let result := (compileContent view .default "@p.md".toList (.parse "/r.md".toList) .empty).1
    (Heading.extract "## A\n@q.md\n## B\n".toList true).map (·.level) = [2, 2] ∧
      result.records.map (fun r =>
        r.outcome.content?.map fun content => (Heading.extract content true).map (·.level)) =
        [some [1], some []] := by
  decide +kernel

end Transclusion

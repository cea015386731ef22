import Transclusion.Proofs.Composition
import Transclusion.Proofs.InertText
import Transclusion.Proofs.ListedReferences

namespace Transclusion

open Reference

theorem FrontMatter.strip_subset (t : Text) : strip t ⊆ t := by
  unfold strip
  cases found : split? t with
  | none => exact List.Subset.refl t
  | some matter =>
    obtain ⟨whole, _⟩ := split?_eq_some found
    intro c member
    rw [whole]
    exact List.mem_append_right _ member

namespace Reference

variable {code : SpanSet} {first : Nat} {place : Place} {before : Option Char} {u t : Text} {r : Reference}
  {refs : List Reference}

/-- Outside of code, what stands before the first mention is inert. -/
theorem isInert_of_first (plain : ∀ offset, code.contains offset = false)
    (starts : place.offset + u.size = r.start)
    (found : scan code first place before (u ++ (r.raw ++ t)) = r :: refs) : isInert before u := by
  have apart : ∀ c ∈ (r.raw ++ t).head?, ¬ isTokenChar c := fun c head => Option.some.inj head ▸ by decide
  have holds := holds_scan code first place before (u ++ (r.raw ++ t))
  rw [found] at holds
  refine isInert_of_scan plain first place apart fun other member => ?_
  rw [found] at member
  rcases List.mem_cons.mp member with rfl | later
  · exact starts.le
  · have ascending : r.start < other.start :=
      (List.pairwise_cons.mp holds.starts_ascending).1 _ (List.mem_map_of_mem later)
    omega

/-- The scan goes on behind the first mention, since there is no other one in it. -/
theorem scan_behind (starts : place.offset + u.size = r.start)
    (found : scan code first place before (u ++ (r.raw ++ t)) = r :: refs) :
    ∃ place' before', place'.offset = r.stop ∧ scan code first place' before' t = refs := by
  obtain ⟨front, here, offset, passed, same⟩ := scan_front code first place before u (r.raw ++ t)
  rw [found] at same
  cases front with
  | cons other front =>
    obtain ⟨rfl, _⟩ := List.cons.inj same
    have early := passed r (List.mem_cons_self ..)
    omega
  | nil =>
    rw [List.nil_append, raw, List.cons_append, scan] at same
    split at same
    · obtain ⟨about, later⟩ := List.cons.inj same
      have clean : '@' ∉ r.target := by rw [about]; exact at_not_mem_token _
      obtain ⟨place', before', moved, behind⟩ :=
        scan_append code first (here.advance first '@') (some '@') clean t
      refine ⟨place', before', ?_, behind.symm.trans later.symm⟩
      rw [moved, Place.offset_advance, offset, starts, stop, raw, Text.size, Nat.add_assoc]
    -- were the mention not the one at its place, all that is found would start behind it
    · have behind := (holds_scan code first (here.advance first '@') (some '@') (r.target ++ t)).offset_le
      rw [← same, Place.offset_advance] at behind
      have late := behind r (List.mem_cons_self ..)
      have width := Char.utf8Size_pos '@'
      omega

/-- A text stays inert behind the place of its first mention, whatever replaces that, when what
comes later is inert. -/
theorem isInert_replaced (plain : ∀ offset, code.contains offset = false)
    (starts : place.offset + u.size = r.start)
    (found : scan code first place before (u ++ r.raw ++ t) = r :: refs) {before' : Option Char}
    (weaker : mayFollow before' → mayFollow before) {markup new : Text}
    (separates : Separates markup)
    (later : ∀ place' before', place'.offset = r.stop → scan code first place' before' t = refs →
      isInert (some '>') new) :
    isInert before' (u ++ markup ++ new) := by
  rw [List.append_assoc] at found
  obtain ⟨place', before'', reached, behind⟩ := scan_behind starts found
  exact (separates ..).mpr
    ⟨isInert_of_follows weaker (isInert_of_first plain starts found), later place' before'' reached behind⟩

end Reference

namespace Record

variable {r : Record} {content : Text}

theorem replacement?_of_content (full : r.outcome.content? = some content) :
    r.replacement? = some (WrapperTag.wrap r.resolution.path.text content) := by
  unfold replacement?
  cases outcome : r.outcome <;> simp_all [Outcome.content?]

theorem replacement?_of_isStub (stub : r.outcome.isStub) :
    r.replacement? = some (WrapperTag.stubFor r.resolution.path.text) := by
  unfold replacement?
  cases outcome : r.outcome <;> simp_all [Outcome.isStub]

theorem replacement?_of_isFailure (fails : r.outcome.isFailure) : r.replacement? = none := by
  unfold replacement?
  cases outcome : r.outcome <;> simp_all [Outcome.isFailure]

end Record

/-- A text without code in which every mention is replaced by something that keeps its surroundings
apart is inert: what is left of it between the mentions was no mention and does not become one. -/
theorem Spliced.isInert {offset : Nat} {t new : Text} {records : List Record}
    (spliced : Spliced offset t records new) {code : SpanSet}
    (plain : ∀ offset, code.contains offset = false) {first : Nat} {place : Place}
    {before : Option Char} (here : place.offset = offset)
    (found : scan code first place before t = records.map (·.reference))
    (replaced : ∀ r ∈ records, ∃ markup, r.replacement? = some markup ∧ Separates markup)
    {before' : Option Char} (weaker : mayFollow before' → mayFollow before) :
    isInert before' new := by
  have closed : ¬ mayFollow (some '>') := by decide
  induction spliced generalizing place before before' with
  | @rest offset t =>
    refine isInert_of_follows weaker
      (isInert_of_scan plain first place (t := []) (by simp) fun r member => ?_)
    rw [List.append_nil, found] at member
    cases member
  | @inlined _ gap r content _ t records _ starts outcome _ ih =>
    obtain ⟨⟨markup, same, separates⟩, rest⟩ := List.forall_mem_cons.mp replaced
    rw [Record.replacement?, outcome] at same
    obtain rfl := Option.some.inj same
    exact isInert_replaced plain (here ▸ starts) found weaker separates
        fun place' before'' reached behind =>
      ih reached behind rest fun follows => absurd follows closed
  | @stubbed _ gap r t records _ starts stub _ ih =>
    obtain ⟨⟨markup, same, separates⟩, rest⟩ := List.forall_mem_cons.mp replaced
    obtain rfl := Option.some.inj ((Record.replacement?_of_isStub stub).symm.trans same)
    exact isInert_replaced plain (here ▸ starts) found weaker separates
        fun place' before'' reached behind =>
      ih reached behind rest fun follows => absurd follows closed
  | @failed _ gap r t records _ starts fails _ ih =>
    obtain ⟨markup, same, _⟩ := replaced _ (List.mem_cons_self ..)
    cases (Record.replacement?_of_isFailure fails).symm.trans same

namespace Expansion

theorem expand_of_extract_eq_nil (files : FileView) {options : CompileOptions} (room : Nat)
    (site : Site) {t : Text} (still : Reference.extract t options.oneBased = []) (s : Session) :
    expand files options room site t s = ⟨t, [], 0, s⟩ := by
  obtain ⟨deeper, _, _, same⟩ := expand_eq_expandOnce files options room
  rw [same, expandOnce, still]
  rfl

/-- Where no document has code in it, no path has an `@` and every mention is replaced, nothing that
is inlined brings in a mention. The induction is on how deep documents may nest. -/
theorem isInert_expand {files : FileView} {options : CompileOptions}
    (plain : ∀ p source, files.read p = .ok source → backtick ∉ source) (room : Nat) {site : Site}
    (inside : site.file ∈ site.ancestors) {t : Text} (clean : backtick ∉ t) (s : Session)
    (settled : ∀ r ∈ (expand files options room site t s).records,
      ¬ r.outcome.isFailure ∧ '@' ∉ r.resolution.path.text) :
    isInert none (expand files options room site t s).content := by
  induction room using Nat.strongRecOn generalizing site t s with
  | ind room ih =>
    obtain ⟨carry, spliced⟩ := expand_spliced files options room site inside t s
    have uncoded (offset : Nat) : (codeSpans t).contains offset = false := by
      rw [codeSpans_of_plain clean]; rfl
    refine spliced.isInert uncoded rfl carry.symm (fun r member => ?_) id
    obtain ⟨member, own⟩ := List.mem_filter.mp member
    obtain ⟨fine, named⟩ := settled r member
    rcases Outcome.inlined_or_stub fine with ⟨full, _⟩ | ⟨stub, _⟩
    · obtain ⟨content, full⟩ := Option.isSome_iff_exists.mp full
      obtain ⟨before, after, split⟩ := List.append_of_mem member
      obtain ⟨p, source, s', roomy, _, _, read, shifted, nested⟩ :=
        expand_inlines inside split (of_decide_eq_true own) full
      have below : isInert none (expand files options (room - 1) (site.below p)
          (FrontMatter.strip source) s').content := by
        refine ih (room - 1) (Nat.sub_one_lt roomy) (List.mem_append_right _ (List.mem_singleton_self p))
          (fun code => plain p source read (FrontMatter.strip_subset source code)) s'
            fun inner inside => settled inner ?_
        rw [← nested] at inside
        rw [split]
        exact List.mem_append_right _ (List.mem_cons_of_mem _ ((List.takeWhile_sublist _).subset inside))
      refine ⟨_, Record.replacement?_of_content full, WrapperTag.separates_wrap named ?_⟩
      rw [shifted]
      exact HeadingShift.isInert_under below ..
    · exact ⟨_, Record.replacement?_of_isStub stub, WrapperTag.separates_stubFor named⟩

end Expansion

theorem compileContent_of_extract_eq_nil (files : FileView) {options : CompileOptions} {t : Text}
    (bare : FrontMatter.split? t = none) (still : Reference.extract t options.oneBased = [])
    (file : Path) (s : Session) :
    let result := (compileContent files options t file s).1
    result.content = t ∧ result.records = [] := by
  have body : FrontMatter.strip t = t := by rw [FrontMatter.strip, bare]
  dsimp only [compileContent]
  rw [body, Expansion.expand_of_extract_eq_nil files options.maxDepth _ still]
  exact ⟨rfl, rfl⟩

namespace FaultyStore

/-- In a session that has inlined nothing yet, every record of a compilation without failures leads
to a stored file. -/
theorem mem_of_record {store : FaultyStore} {options : CompileOptions}
    (accepted : ∀ ext ∈ options.extensions, Config.isExtension ext) {t : Text} {file : Path}
    {r : Record}
    (member : r ∈ (compileContent (FileStore.view store) options t file .empty).1.records)
    (fine : ¬ r.outcome.isFailure) :
    ∃ source, (r.resolution.path, source) ∈ store.store.files := by
  have run := compileContent_unfolds (FileStore.view store) options t file .empty
  obtain ⟨p, leads, old | full⟩ := run.ledger.inlined_of_settled member fine
  · exact absurd old (Session.not_hasInlined_empty p)
  obtain ⟨source, readable, _⟩ := run.reports_inlined full
  have normal : p.normalize = p := by
    rcases run.origin r member with ⟨_, _, resolved⟩ | ⟨_, _, _, _, resolved⟩
    · exact normalize_of_accepted accepted (resolved.symm.trans leads)
    · exact normalize_of_accepted accepted (resolved.symm.trans leads)
  rw [leads]
  exact ⟨source, normal ▸ MemoryStore.mem_of_read (read_eq_ok readable)⟩

end FaultyStore

/-- Compiled text has nothing in it to compile: where the files hold no code and their paths no `@`,
what a compilation without failures makes stays as it is when it is compiled again in the same
place, unless it begins with front matter. -/
theorem compiled_content_is_stable {store : FaultyStore} {options : CompileOptions}
    {file : Spelling} {result : Compilation} {s' : Session}
    (plain : ∀ stored ∈ store.store.files, backtick ∉ stored.2)
    (named : ∀ stored ∈ store.store.files, '@' ∉ stored.1.text)
    (accepted : ∀ ext ∈ options.extensions, Config.isExtension ext)
    (compiled : compileDocument (FileStore.view store) options file .empty = .ok (result, s'))
    (fine : ¬ result.hasFailures) (bare : FrontMatter.split? result.content = none) (s : Session) :
    let again := (compileContent (FileStore.view store) options result.content result.path s).1
    again.content = result.content ∧ again.records = [] := by
  obtain ⟨path, t, _, _, readable, same⟩ := compileDocument_eq_ok.mp compiled
  obtain rfl : (compileContent (FileStore.view store) options t path .empty).1 = result :=
    congrArg Prod.fst same
  have settled : ∀ r ∈ (compileContent (FileStore.view store) options t path .empty).1.records,
      ¬ r.outcome.isFailure ∧ '@' ∉ r.resolution.path.text := by
    intro r member
    have done : ¬ r.outcome.isFailure := fun fails => fine (List.any_eq_true.mpr ⟨r, member, fails⟩)
    obtain ⟨source, stored⟩ := FaultyStore.mem_of_record accepted member done
    exact ⟨done, named _ stored⟩
  have clean (p : Path) (source : Text) (readable : (FileStore.view store).read p = .ok source) :
      backtick ∉ source :=
    plain _ (MemoryStore.mem_of_read (FaultyStore.read_eq_ok readable))
  have inert : isInert none (compileContent (FileStore.view store) options t path .empty).1.content :=
    Expansion.isInert_expand clean options.maxDepth (List.mem_singleton_self _)
      (fun code => clean path t readable (FrontMatter.strip_subset t code)) .empty settled
  exact compileContent_of_extract_eq_nil _ bare (scan_eq_nil inert) _ s

/-- A document that inlines another one twice, which has front matter and inlines a third. All of
them have an `@` in them that is no mention. -/
def letterStore : FaultyStore where
  faults := ⟨[], [], [], []⟩
  store :=
    ((MemoryStore.empty.insert (.parse "/a.md".toList)
      "# A\nask @everyone (@b.md) or @b.md.\n".toList).insert
    (.parse "/b.md".toList) "---\ntitle: B\n---\n# B\n@c.md\nby @somebody\n".toList).insert
    (.parse "/c.md".toList) "write to c@b.md\n\n".toList

theorem compileDocument_letter (options : CompileOptions) :
    compileDocument (FileStore.view letterStore) options ⟨"/a.md".toList⟩ .empty =
      .ok (compileContent (FileStore.view letterStore) options
        "# A\nask @everyone (@b.md) or @b.md.\n".toList (.parse "/a.md".toList) .empty) :=
  compileDocument_eq_ok.mpr ⟨_, _, by decide +kernel, by decide +kernel, by decide +kernel, rfl⟩

theorem compiled_content_is_stable_letter : ∃ result s,
    compileDocument (FileStore.view letterStore) .default ⟨"/a.md".toList⟩ .empty = .ok (result, s) ∧
      result.records.map (·.outcome.isStub) = [false, false, true] ∧ result.content.count '@' = 3 ∧
      let again := (compileContent (FileStore.view letterStore) .default result.content result.path s).1
      again.content = result.content ∧ again.records = [] :=
  ⟨_, _, compileDocument_letter .default, by decide +kernel, by decide +kernel,
    compiled_content_is_stable (by decide +kernel) (by decide +kernel) (by decide +kernel)
      (compileDocument_letter .default) (by decide +kernel) (by decide +kernel) _⟩

-- a fence that is inlined opens what was code behind it
example :
    let fence := "\x60\x60\x60\n".toList
    let t := "@b.md\n".toList ++ fence ++ "@c.md\n".toList ++ fence
    let view := FileStore.view (MemoryStore.empty.insert (.parse "/b.md".toList) fence)
    let first := (compileContent view .default t (.parse "/a.md".toList) .empty).1
    (first.records.map (·.reference.target)) = ["b.md".toList] ∧
      ((compileContent view .default first.content first.path .empty).1.records.map (·.reference.target)) =
        ["c.md".toList] := by
  decide +kernel

end Transclusion

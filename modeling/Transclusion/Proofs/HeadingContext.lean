import Transclusion.Proofs.HeadingDistance
import Transclusion.Proofs.RepeatedShift

namespace Transclusion

open Heading HeadingShift

/-- Text that is shifted onto a level begins with a heading of that level, or of the bound next to it. -/
theorem HeadingShift.level_of_first_toLevel {t : Text} {target : Nat} {exceptWrapped : Bool}
    {first : Heading}
    (begins : first ∈ (extract (toLevel t target exceptWrapped).content exceptWrapped).head?) :
    first.level = min maxLevel (max minLevel target) := by
  cases found : extract t exceptWrapped with
  | nil =>
    rw [toLevel_of_nil found, found] at begins
    cases begins
  | cons own more =>
    rw [toLevel_of_cons found] at begins
    have levels := map_level_adjust t (target - own.level) exceptWrapped
    obtain ⟨rest, same⟩ := List.head?_eq_some_iff.mp begins
    rw [same, found, List.map_cons, List.map_cons] at levels
    exact (List.cons.inj levels).1.trans (clampLevel_sub own.level target)

/-- A document on record is inlined with its headings renumbered for the heading that its mention
stands below, in the text of the document that mentions it. -/
theorem Expansion.exists_under_of_mem {files : FileView} {options : CompileOptions} {room : Nat}
    {site : Site} {t : Text} {s : Session} {r : Record}
    (member : r ∈ (expand files options room site t s).records) {content : Text}
    (full : r.outcome.content? = some content) :
    ∃ holder inner, (r.importedFrom = site.file ∧ holder = t ∨
        ∃ source, files.read r.importedFrom = .ok source ∧ holder = FrontMatter.strip source) ∧
      content = (under inner options.headingMode
        (contextLevel (extract holder true) r.reference.start)).content := by
  obtain ⟨room', site', holder, mention, s', deeper, _, bottom, _, held, rfl, _⟩ :=
    exists_expandReference_of_mem member
  rcases expandReference_cases files options deeper room' bottom site'
      (contextLevel (extract holder true) mention.start) mention s' with
    ⟨_, _, settles, made⟩ | ⟨expand', p, source, _, _, _, _, _, made⟩
  · rw [made] at full
    exact absurd (Option.isSome_of_eq_some full) settles.not_inlined
  · rw [made] at full ⊢
    refine ⟨holder, _, ?_, (Option.some.inj full).symm⟩
    rcases held with ⟨rfl, rfl⟩ | read
    · exact Or.inl ⟨rfl, rfl⟩
    · exact Or.inr read

def bookText : Text := "# Book\n## Parts\n\x60\x60\x60\n# code\n\x60\x60\x60\n@part.md\n".toList

/-- A book that mentions a part behind a listing, and a part that begins with a mention of a leaf. -/
def bookStore : MemoryStore :=
  ((MemoryStore.empty.insert (.parse "/book.md".toList) bookText).insert
    (.parse "/part.md".toList) "---\ntitle: Part\n---\n@leaf.md\n# Part\n".toList).insert
    (.parse "/leaf.md".toList) "##### Leaf\n".toList

def compiledBook : Compilation × Session :=
  compileContent (FileStore.view bookStore) .default bookText (.parse "/book.md".toList) .empty

theorem compileDocument_book :
    compileDocument (FileStore.view bookStore) .default ⟨"/book.md".toList⟩ .empty = .ok compiledBook :=
  compileDocument_eq_ok.mpr ⟨_, _, by decide +kernel, by decide +kernel, by decide +kernel, rfl⟩

example :
    compiledBook.1.records.map
        (fun r => r.outcome.content?.map fun content => (extract content false).map (·.level)) =
      [some [3, 3], some [1]] := by
  decide +kernel

end Transclusion

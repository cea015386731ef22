import Transclusion.Proofs.FolderPass
import Transclusion.Proofs.StoreHistory
import Transclusion.Proofs.Subpath

namespace Transclusion

namespace Path

variable {dir file rest : Path}

theorem stripStart?_eq_some_iff :
    dir.stripStart? file = some rest ↔ file.components = dir.components ++ rest.components := by
  constructor
  · intro cut
    unfold stripStart? at cut
    split at cut
    · rename_i below
      cases Option.some.inj cut
      exact (List.prefix_iff_eq_append.mp (List.isPrefixOf_iff_prefix.mp below)).symm
    · cases cut
  · intro same
    obtain ⟨found, cut, steps⟩ := exists_stripStart same
    rw [cut, Path.ext steps]

theorem Settled.of_append {front more : List Component} (settled : Settled (front ++ more)) :
    Settled front := by
  induction more using List.reverseRecOn with
  | nil => rwa [List.append_nil] at settled
  | append_singleton more c ih => exact ih (Settled.front (by rwa [List.append_assoc])).1

/-- What lies below a directory as it is spelled is in normal form only if the directory is spelled so. -/
theorem normalize_of_stripStart? (normal : file.normalize = file) (cut : dir.stripStart? file = some rest) :
    dir.normalize = dir := by
  rw [normalize_eq_self_iff] at normal ⊢
  rw [stripStart?_eq_some_iff.mp cut] at normal
  exact normal.of_append

/-- A stored file below a directory is seen from there by its further steps if the directory is
spelled in normal form, and as a whole if not. -/
theorem stripStart?_getD (normal : file.normalize = file)
    (below : file.components = dir.normalize.components ++ rest.components) :
    (dir.stripStart? file).getD file = if dir.normalize = dir then rest else file := by
  split
  · rename_i same
    rw [same] at below
    rw [stripStart?_eq_some_iff.mpr below, Option.getD_some]
  · rename_i other
    cases cut : dir.stripStart? file with
    | none => rfl
    | some rest => exact absurd (normalize_of_stripStart? normal cut) other

theorem isBelow_iff_exists_rest : dir.IsBelow file ↔
    ∃ rest : Path, rest.components ≠ [] ∧ file.components = dir.components ++ rest.components := by
  constructor
  · rintro ⟨steps, more, same⟩
    obtain ⟨rest, _, rfl⟩ := exists_stripStart same
    exact ⟨rest, more, same⟩
  · rintro ⟨rest, more, same⟩
    exact ⟨rest.components, more, same⟩

end Path

theorem isExcluded_eq_false_iff {patterns : List Glob} {dir file : Path} :
    isExcluded patterns dir file = false ↔
      ∀ g ∈ patterns, ¬ g.fits ((dir.stripStart? file).getD file).text := by
  simp [isExcluded]

/-- The documents below a directory are found in whatever spelling it is given: there is a listing
just if the normal form is a directory, and it has, in ascending order and each of them once, the
stored documents below that directory which no pattern fits. Patterns are tried on the path of a
document from the directory on if the directory is given in normal form; in any other spelling they
are tried on its whole path. -/
theorem listDocuments_finds_below (updates : List Update) (dir : Spelling) {exclude : List Text}
    {patterns : List Glob} (valid : parsePatterns exclude = .ok patterns) :
    let m := MemoryStore.after updates
    let top := dir.path.normalize
    let listing := listDocuments (FileStore.view m) dir exclude
    ((∃ found, listing = .ok found) ↔ m.kind top = some .directory) ∧
      ∀ found, listing = .ok found → (Ascending found ∧ found.Nodup) ∧
        ∀ p, p ∈ found ↔ (p ∈ m.files.map (·.1) ∧ p.isDocument) ∧ ∃ rest : Path,
          (rest.components ≠ [] ∧ p.components = top.components ++ rest.components) ∧
            ∀ g ∈ patterns, ¬ g.fits (if top = dir.path then rest else p).text := by
  intro m top listing
  have orderly : m.Orderly := MemoryStore.orderly_after updates
  have listed (found : List Path) : listing = .ok found ↔ ∃ all, m.list dir.path = .ok all ∧
      found = sortBy (fun p q => (compare p q).isLE)
        (all.filter fun file => file.isDocument && !isExcluded patterns dir.path file) := by
    simp only [listing, listDocuments_eq_ok_iff, valid, Except.ok.injEq, exists_and_left, exists_eq_left']
    rfl
  have directory : m.kind top = some .directory ↔ ∃ all, m.list dir.path = .ok all := by
    simp only [MemoryStore.list_eq_ok_iff, exists_and_left, exists_eq, and_true]
    exact iff_of_eq (congrArg (· = _) (MemoryStore.kind_normalize m dir.path))
  refine ⟨?_, fun found answer => ?_⟩
  · rw [directory]
    constructor
    · rintro ⟨found, answer⟩
      obtain ⟨all, list, _⟩ := (listed found).mp answer
      exact ⟨all, list⟩
    · rintro ⟨all, list⟩
      exact ⟨_, (listed _).mpr ⟨all, list, rfl⟩⟩
  · obtain ⟨all, list, rfl⟩ := (listed found).mp answer
    have distinct : all.Nodup := (orderly.ascending_list list).nodup
    have ascending := ascending_sortBy
      (distinct.filter fun file => file.isDocument && !isExcluded patterns dir.path file)
    refine ⟨⟨ascending, ascending.nodup⟩, fun p => ?_⟩
    rw [mem_sortBy, List.mem_filter, MemoryStore.mem_of_list list, Path.isBelow_iff_exists_rest,
      Bool.and_eq_true, Bool.not_eq_true', isExcluded_eq_false_iff]
    constructor
    · rintro ⟨⟨stored, rest, more, below⟩, document, unfit⟩
      rw [Path.stripStart?_getD (orderly.normal p stored) below] at unfit
      exact ⟨⟨stored, document⟩, rest, ⟨more, below⟩, unfit⟩
    · rintro ⟨⟨stored, document⟩, rest, ⟨more, below⟩, unfit⟩
      rw [← Path.stripStart?_getD (orderly.normal p stored) below] at unfit
      exact ⟨⟨stored, rest, more, below⟩, document, unfit⟩

/-- A folder with a draft in it, which is written through another spelling of its path. -/
def binder : List Update :=
  [.insert (.parse "/p/a.md".toList) "A".toList, .write ⟨"/p/./drafts//wip.md".toList⟩ "B".toList,
  .insert (.parse "/p/notes.txt".toList) []]

/-- The pattern for drafts keeps the one of the folder out of its listing, but not where the folder
is spelled with a detour. -/
theorem listDocuments_finds_below_binder :
    let draft := Path.parse "/p/drafts/wip.md".toList
    let listing (dir : String) := listDocuments (FileStore.view (MemoryStore.after binder))
      ⟨dir.toList⟩ ["drafts/**".toList]
    (∃ patterns, parsePatterns ["drafts/**".toList] = .ok patterns) ∧
      (∃ found, listing "/p" = .ok found ∧ draft ∉ found) ∧
        ∃ found, listing "/p/x/.." = .ok found ∧ draft ∈ found := by
  intro draft listing
  have valid : parsePatterns ["drafts/**".toList] =
    .ok [⟨"drafts/".toList.map .char ++ [.anyFolders]⟩] := by decide +kernel
  have folder : (MemoryStore.after binder).kind (.parse "/p".toList) = some .directory := by decide +kernel
  have below : draft.components =
      (Path.parse "/p".toList).components ++ (Path.parse "drafts/wip.md".toList).components := by
    decide +kernel
  refine ⟨⟨_, valid⟩, ?_, ?_⟩
  · obtain ⟨there, members⟩ := listDocuments_finds_below binder ⟨"/p".toList⟩ valid
    obtain ⟨found, answer⟩ := there.mpr folder
    refine ⟨found, answer, fun member => ?_⟩
    obtain ⟨_, rest, ⟨_, same⟩, unfit⟩ := ((members found answer).2 draft).mp member
    have further : rest = .parse "drafts/wip.md".toList :=
      Path.ext (List.append_cancel_left (same.symm.trans below))
    subst further
    exact unfit _ (List.mem_singleton_self _) (by decide +kernel)
  · obtain ⟨there, members⟩ := listDocuments_finds_below binder ⟨"/p/x/..".toList⟩ valid
    obtain ⟨found, answer⟩ := there.mpr folder
    refine ⟨found, answer, ((members found answer).2 draft).mpr ⟨⟨by decide +kernel, by decide +kernel⟩,
      .parse "drafts/wip.md".toList, ⟨by decide +kernel, below⟩, ?_⟩⟩
    intro g member
    cases List.mem_singleton.mp member
    decide +kernel

end Transclusion

import Transclusion.Proofs.Composition

namespace Transclusion

/-- Views that show the same, but for what is read at the path `p`. Of the others only those in
normal form matter, since nothing else is led to. -/
structure FileView.AgreesOff (p : Path) (files files' : FileView) : Prop where
  cwd : files'.cwd = files.cwd
  kind : files'.kind = files.kind
  read : ∀ q, q.normalize = q → q ≠ p → files'.read q = files.read q

theorem Resolution.locate_congr {files files' : FileView} (kind : files'.kind = files.kind)
    (candidate : Path) (extensions : List Text) :
    locate files' candidate extensions = locate files candidate extensions := by
  unfold locate alternatives
  rw [kind]

/-- Where a reference leads hangs on what there is and not on what is in it. -/
theorem resolve_congr {files files' : FileView} (cwd : files'.cwd = files.cwd)
    (kind : files'.kind = files.kind) (base : Path) (extensions : List Text) (target : Text) :
    resolve files' base extensions target = resolve files base extensions target := by
  unfold resolve
  simp only [cwd, Resolution.locate_congr kind]

namespace FileView

variable {files : FileView} {p : Path}

theorem absolute_of_isAbsolute (absolute : p.isAbsolute) : files.absolute p = .ok p.normalize := by
  simp only [FileView.absolute, Path.absolute?, absolute, if_true]

theorem absoluteOr_of_isAbsolute (absolute : p.isAbsolute) : files.absoluteOr p = p.normalize := by
  simp only [absoluteOr, Path.absolute?, absolute, if_true, Option.getD_some]

end FileView

namespace Expansion

section Unread

variable {files files' : FileView} {options : CompileOptions} {p : Path}
  {deeper deeper' : Option Expander}

/-- Both expand to the same wherever the document at `p` is being expanded. -/
def SameBelow (p : Path) (expand expand' : Expander) : Prop :=
  ∀ site t s, p ∈ site.ancestors → expand' site t s = expand site t s

/-- A document that is being expanded is not read again. -/
theorem expandReference_unread (agrees : files.AgreesOff p files')
    (accepted : ∀ ext ∈ options.extensions, Config.isExtension ext)
    (same : Option.Rel (SameBelow p) deeper deeper') {site : Site} (inside : p ∈ site.ancestors)
    (context : Nat) (r : Reference) (s : Session) :
    expandReference files' options deeper' site context r s =
      expandReference files options deeper site context r s := by
  unfold expandReference
  dsimp only
  rw [resolve_congr agrees.cwd agrees.kind]
  cases target : resolve files site.base (options.extensions.map dotted) r.target with
  | missing q => rfl
  | directory q => rfl
  | file q =>
    by_cases above : q ∈ site.ancestors
    · simp [above]
    have other : q ≠ p := fun here => above (here ▸ inside)
    have readable := agrees.read q (normalize_of_accepted accepted target) other
    cases same with
    | none => simp only [List.contains_iff_mem, above, if_false]
    | @some expand expand' same =>
      simp only [List.contains_iff_mem, above, readable, if_false]
      cases files.read q with
      | error e => rfl
      | ok source =>
        have below (t : Text) (s : Session) := same (site.below q) t s (List.mem_append_left _ inside)
        simp only [Site.below] at below
        simp only [below]

theorem expandOnce_unread (agrees : files.AgreesOff p files')
    (accepted : ∀ ext ∈ options.extensions, Config.isExtension ext)
    (same : Option.Rel (SameBelow p) deeper deeper') :
    SameBelow p (expandOnce files options deeper) (expandOnce files' options deeper') := by
  intro site t s inside
  unfold expandOnce
  have step (r : Reference) := funext (expandReference_unread agrees accepted same inside
    (Heading.contextLevel (Heading.extract t true) r.start) r)
  simp only [step]

theorem expand_unread (agrees : files.AgreesOff p files')
    (accepted : ∀ ext ∈ options.extensions, Config.isExtension ext) (room : Nat) :
    SameBelow p (expand files options room) (expand files' options room) := by
  induction room with
  | zero => exact expandOnce_unread agrees accepted .none
  | succ room ih => exact expandOnce_unread agrees accepted (.some ih)

end Unread

end Expansion

section Documents

variable {files files' : FileView} {options : CompileOptions}

/-- What stands at the place of a text that is compiled has no part in it. -/
theorem compileContent_unread {file : Path} (agrees : files.AgreesOff (files.absoluteOr file) files')
    (accepted : ∀ ext ∈ options.extensions, Config.isExtension ext) (t : Text) (s : Session) :
    compileContent files' options t file s = compileContent files options t file s := by
  have place (p : Path) : files'.absoluteOr p = files.absoluteOr p := by
    unfold FileView.absoluteOr
    rw [agrees.cwd]
  have same (base : Path) := Expansion.expand_unread agrees accepted options.maxDepth
    ⟨files.absoluteOr file, base, [files.absoluteOr file]⟩ (FrontMatter.strip t) s
      (List.mem_singleton_self _)
  unfold compileContent
  simp only [place, same]

theorem compileContent_normalize {file : Path} (absolute : file.isAbsolute) (t : Text) (s : Session) :
    compileContent files options t file.normalize s = compileContent files options t file s := by
  have home : files.absoluteOr file.normalize = file.normalize :=
    FileView.absoluteOr_of_normal (Path.isAbsolute_normalize absolute) (Path.normalize_normalize file)
  unfold compileContent
  rw [home, FileView.absoluteOr_of_isAbsolute absolute]

end Documents

namespace MemoryStore

variable {m : MemoryStore} {p : Path}

theorem normalize_mem_of_get? (stored : (m.get? p).isSome) : p.normalize ∈ m.files.map (·.1) := by
  obtain ⟨u, found⟩ := Option.isSome_iff_exists.mp stored
  exact List.mem_map_of_mem (mem_of_get? found)

/-- Another text in a file leaves the files where they are. -/
theorem reaches_insert_of_stored (stored : (m.get? p).isSome) (t : Text) (q : Path) :
    (m.insert p t).reaches q = m.reaches q := by
  have keys : (m.insert p t).files.map (·.1) = insertNew compare p.normalize (m.files.map (·.1)) :=
    keys_put ..
  have through (m : MemoryStore) : m.reaches q = (m.files.map (·.1)).any (·.startsWith q) := by
    rw [List.any_map]
    rfl
  rw [through, through, keys, Bool.eq_iff_iff, List.any_eq_true, List.any_eq_true]
  simp only [mem_insertNew]
  constructor
  · rintro ⟨k, rfl | member, below⟩
    · exact ⟨_, normalize_mem_of_get? stored, below⟩
    · exact ⟨k, member, below⟩
  · rintro ⟨k, member, below⟩
    exact ⟨k, Or.inr member, below⟩

theorem kind_insert_of_stored (stored : (m.get? p).isSome) (t : Text) : (m.insert p t).kind = m.kind := by
  funext q
  have there : ((m.insert p t).get? q).isSome = (m.get? q).isSome := by
    rw [get?_insert]
    split
    · rename_i same
      rw [get?, same, ← get?, stored]
      rfl
    · rfl
  rw [kind, kind, there, reaches_insert_of_stored stored]

theorem agreesOff_insert (stored : (m.get? p).isSome) (t : Text) :
    (FileStore.view m).AgreesOff p.normalize (FileStore.view (m.insert p t)) where
  cwd := rfl
  kind := kind_insert_of_stored stored t
  read q normal other := by
    change (m.insert p t).read q = m.read q
    rw [← normal] at other
    rw [read, read, get?_insert, if_neg other, reaches_insert_of_stored stored]

/-- A file that is there but cannot be read. -/
def locked (m : MemoryStore) (p : Path) (e : AccessError) : FaultyStore :=
  ⟨⟨[(p.normalize, e)], [], [], []⟩, m⟩

theorem agreesOff_locked (m : MemoryStore) (p : Path) (e : AccessError) :
    (FileStore.view m).AgreesOff p.normalize (FileStore.view (m.locked p e)) where
  cwd := rfl
  kind := rfl
  read q normal other := by
    have free : [(p.normalize, e)].lookup q.normalize = none := by
      rw [lookup_cons_ite, normal, if_neg other]
      rfl
    dsimp only [FileStore.view, FaultyStore.view, locked]
    rw [free]
    rfl

end MemoryStore

/-- A text that stands for a stored document compiles to what the document compiles to once the text
is saved, with the same session afterwards. What was stored before is not read: it makes no
difference if it cannot be. -/
theorem unsaved_text_compiles_as_saved {m : MemoryStore} {options : CompileOptions} {file : Spelling}
    (absolute : file.path.isAbsolute) (stored : (m.get? file.path).isSome)
    (accepted : ∀ ext ∈ options.extensions, Config.isExtension ext) (t : Text) (s : Session) :
    compileDocument (FileStore.view (m.insert file.path t)) options file s =
        .ok (compileContent (FileStore.view m) options t file.path s) ∧
      ∀ e, compileContent (FileStore.view (m.locked file.path e)) options t file.path s =
        compileContent (FileStore.view m) options t file.path s := by
  have home : (FileStore.view m).absoluteOr file.path = file.path.normalize :=
    FileView.absoluteOr_of_isAbsolute absolute
  constructor
  · have saved : (m.insert file.path t).get? file.path.normalize = some t := by
      rw [MemoryStore.get?_insert, if_pos (Path.normalize_normalize _)]
    refine compileDocument_eq_ok.mpr ⟨_, t, FileView.absolute_of_isAbsolute absolute, ?_, ?_, ?_⟩
    · change (m.insert file.path t).kind file.path.normalize = some .file
      rw [MemoryStore.kind, saved]
      rfl
    · change (m.insert file.path t).read file.path.normalize = .ok t
      rw [MemoryStore.read, saved]
    · rw [compileContent_normalize absolute]
      exact compileContent_unread (home ▸ MemoryStore.agreesOff_insert stored t) accepted t s
  · exact fun e => compileContent_unread (home ▸ m.agreesOff_locked file.path e) accepted t s

/-- A document that is edited, and one that leads back to it under two other spellings. -/
def draftStore : MemoryStore :=
  (MemoryStore.empty.insert (.parse "/d/a.md".toList) "# Old\n@none.md".toList).insert
    (.parse "/d/b.md".toList) "@../d/./a.md (@/d/a)".toList

theorem unsaved_text_compiles_as_saved_draft :
    ∃ result s,
      compileContent (FileStore.view draftStore) .default "# New\n@b.md".toList
          (.parse "/d/../d/a.md".toList) .empty = (result, s) ∧
        result.records.map (fun r => (r.resolution.path, r.outcome.isCircular)) =
          [("/d/b.md", false), ("/d/a.md", true), ("/d/a.md", true)].map
            (fun (target, back) => (.parse target.toList, back)) ∧
        compileDocument
            (FileStore.view (draftStore.insert (.parse "/d/../d/a.md".toList) "# New\n@b.md".toList))
            .default ⟨"/d/../d/a.md".toList⟩ .empty = .ok (result, s) ∧
        ∀ e, compileContent
            (FileStore.view (draftStore.locked (.parse "/d/../d/a.md".toList) e)) .default
            "# New\n@b.md".toList (.parse "/d/../d/a.md".toList) .empty = (result, s) := by
  have same := @unsaved_text_compiles_as_saved draftStore .default ⟨"/d/../d/a.md".toList⟩
    (by decide +kernel) (by decide +kernel) (by decide +kernel) "# New\n@b.md".toList .empty
  exact ⟨_, _, rfl, by decide +kernel, same⟩

end Transclusion

import Transclusion.Proofs.Coverage
import Transclusion.Proofs.CodeLayout
import Transclusion.ReferenceListing
import Transclusion.Config

namespace Transclusion

namespace FrontMatter

/-- The block as it stands at the start of its document. -/
def block (matter : FrontMatter) : Text := matter.opening ++ matter.raw ++ matter.closing

theorem size_block (matter : FrontMatter) : matter.block.size = matter.size := by
  rw [block, Text.size_append, Text.size_append, size]

/-- The document is the block and what follows it, and where something follows the block ends with a
line. -/
theorem split?_eq_some {t : Text} {matter : FrontMatter} (found : split? t = some matter) :
    t = matter.block ++ matter.body ∧ (matter.body ≠ [] → EndsLine matter.block) := by
  have whole := Text.flatten_linesInclusive t
  unfold split? at found
  cases lines : t.linesInclusive with
  | nil =>
    rw [lines] at found
    cases found
  | cons opening rest =>
    rw [lines] at found whole
    dsimp only at found
    split at found
    · split at found
      · rename_i closing body behind
        cases found
        have cut : rest = rest.takeWhile (!isFence ·) ++ closing :: body := by
          rw [← behind, List.takeWhile_append_dropWhile]
        have same : (opening :: rest).flatten =
            block ⟨opening, (rest.takeWhile (!isFence ·)).flatten, closing, body.flatten⟩ ++
            body.flatten := by
          refine (congrArg (fun lines => (opening :: lines).flatten) cut).trans ?_
          simp [block]
        refine ⟨whole.symm.trans same, fun some => Or.inr ?_⟩
        have more : body ≠ [] := fun none => some (by rw [none]; rfl)
        have front : t.linesInclusive = (opening :: rest.takeWhile (!isFence ·) ++ [closing]) ++ body := by
          rw [lines]
          simpa using cut
        obtain ⟨u, line⟩ := Text.exists_newline front (by simp) more
        exact ⟨u, by rw [← line]; simp [block]⟩
      · cases found
    · cases found

/-- Runs of backticks in the front matter that would be fences if it were part of the text. -/
def fences (t : Text) : List Span :=
  match split? t with
  | some matter => fenceRuns 0 0 matter.block
  | none => []

end FrontMatter

/-- Behind text whose fences all find their partner the same mentions are found as without it. -/
theorem Reference.extract_append {m t : Text} (ends : t ≠ [] → EndsLine m)
    (even : Even (fenceRuns 0 0 m).length) (oneBased : Bool) :
    ((extract (m ++ t) oneBased).filter fun r => m.size ≤ r.start).map (fun r => (r.start, r.target)) =
      (extract t oneBased).map fun r => (m.size + r.start, r.target) := by
  obtain ⟨front, place, reached, before, same⟩ :=
    scan_front (codeSpans (m ++ t)) (if oneBased then 1 else 0)
      (.origin (if oneBased then 1 else 0)) none m t
  have offset : place.offset = m.size := reached.trans (Nat.zero_add _)
  have dropped : front.filter (fun r => m.size ≤ r.start) = [] := by
    refine List.filter_eq_nil_iff.mpr fun r member => ?_
    have bound := before r member
    simp only [decide_eq_true_eq]
    omega
  have kept (last : Option Char) :
      (scan (codeSpans (m ++ t)) (if oneBased then 1 else 0) place last t).filter
      (fun r => m.size ≤ r.start) = scan (codeSpans (m ++ t)) (if oneBased then 1 else 0) place last t := by
    refine List.filter_eq_self.mpr fun r member => ?_
    have bound := (holds_scan _ _ _ _ _).offset_le r member
    simp only [decide_eq_true_eq]
    omega
  unfold extract
  dsimp only
  rw [same, List.filter_append, dropped, kept, List.nil_append]
  rcases Decidable.em (t = []) with rfl | some
  · rfl
  · have line := ends some
    have opens : mayFollow (m.getLast?.or none) = mayFollow none := by
      rcases line with rfl | ⟨u, rfl⟩
      · rfl
      · rw [List.getLast?_append]
        rfl
    exact scan_shift (contains_codeSpans_append line even t) _ _ offset opens t

/-- The records of a document itself are those of its mentions in order, each resolved where the
document stands. -/
theorem Unfolds.own {files : FileView} {options : CompileOptions} {room : Nat} {site : Site}
    {refs : List Reference} {s s' : Session} {records : List Record}
    (run : Unfolds files options room site refs s records s')
    (inside : site.file ∈ site.ancestors) :
    (records.filter (·.importedFrom = site.file)).map (fun r => (r.reference, r.resolution)) =
      refs.map fun r => (r, options.resolve files site.base r) := by
  induction run with
  | done => rfl
  | settled _ _ ih =>
    rw [List.filter_cons_of_pos (by simp), List.map_cons, List.map_cons, ih inside]
  | @inlined _ site r rest _ p _ _ nested _ records _ leads outside _ _ below _ _ ih =>
    have dropped : nested.filter (·.importedFrom = site.file) = [] := by
      refine List.filter_eq_nil_iff.mpr fun record member same => ?_
      have own : record.importedFrom = site.file := of_decide_eq_true same
      rcases below.own_or_outside record member with ⟨there, _⟩ | apart
      · have same : site.file = p := own.symm.trans there
        exact outside (same ▸ inside)
      · exact apart (List.mem_append_left _ (own ▸ inside))
    rw [List.cons_append, List.filter_cons_of_pos (by simp), List.filter_append, dropped,
      List.nil_append, List.map_cons, List.map_cons, ih inside, leads]

/-- Every absolute path but the root has a step to take away. -/
theorem Path.exists_parent {p : Path} (absolute : p.isAbsolute) (apart : p ≠ .root) :
    ∃ q, p.parent? = some q := by
  obtain ⟨rest, steps⟩ := isAbsolute_iff.mp absolute
  rcases List.eq_nil_or_concat' rest with rfl | ⟨front, last, rfl⟩
  · exact absurd (Path.ext steps) apart
  · have plain : last.isPlain := by
      have all := Component.all_isPlain_tail (steps ▸ p.spelled)
      rw [List.all_append, Bool.and_eq_true] at all
      simpa using all.2
    have ends : p.components.getLast? = some last := by rw [steps, ← List.cons_append, List.getLast?_concat]
    unfold parent?
    split
    · rename_i none
      cases none.symm.trans ends
    · rename_i top
      cases top.symm.trans ends
      exact absurd plain (by decide)
    · exact ⟨_, rfl⟩

theorem listReferences_eq_ok {files : FileView} {options : CompileOptions} {file : Spelling}
    {listed : List ListedReference} :
    listReferences files options file = .ok listed ↔
      ∃ path t, files.absolute file.path = .ok path ∧ files.kind path = some .file ∧
        files.read path = .ok t ∧
        referencesIn files options path t = listed :=
  openDocument_eq_ok

/-- What is listed for a text are the mentions of its body, moved on by the front matter. -/
theorem map_referencesIn (files : FileView) (options : CompileOptions) (p : Path) {t : Text}
    (even : Even (FrontMatter.fences t).length) :
    (referencesIn files options p t).map (fun l => (l.reference.start, l.reference.target, l.resolution)) =
      (Reference.extract (FrontMatter.strip t) options.oneBased).map fun r =>
        (FrontMatter.sizeIn t + r.start, r.target, options.resolve files (p.parent?.getD .root) r) := by
  have places : ((Reference.extract t options.oneBased).filter fun r => FrontMatter.sizeIn t ≤ r.start).map
        (fun r => (r.start, r.target)) =
      (Reference.extract (FrontMatter.strip t) options.oneBased).map
        fun r => (FrontMatter.sizeIn t + r.start, r.target) := by
    unfold FrontMatter.fences at even
    unfold FrontMatter.sizeIn FrontMatter.strip
    cases found : FrontMatter.split? t with
    | none => simp
    | some matter =>
      obtain ⟨whole, ends⟩ := FrontMatter.split?_eq_some found
      rw [found] at even
      have same := Reference.extract_append ends even options.oneBased
      rwa [← whole, FrontMatter.size_block] at same
  have leads := congrArg (List.map fun place : Nat × Text =>
    (place.1, place.2, resolve files (p.parent?.getD .root) (options.extensions.map dotted) place.2)) places
  simp only [List.map_map, Function.comp_def] at leads
  rw [referencesIn, List.map_map]
  exact leads

/-- The references that are listed for a document are those that are dealt with when it is compiled,
in order, with their positions moved on by the front matter. The fences in the front matter have to
pair up: it is looked at for code only when references are listed, where an open fence reaches into
the body. -/
theorem listReferences_follows_records {files : FileView} {config : Config} {file : Spelling}
    {listed : List ListedReference} (rooted : files.kind .root ≠ some .file)
    (found : listReferences files config.commandOptions file = .ok listed) (s : Session) :
    ∃ t result s', files.absolute file.path = .ok result.path ∧ files.read result.path = .ok t ∧
      compileDocument files config.commandOptions file s = .ok (result, s') ∧
      (Even (FrontMatter.fences t).length →
        listed.map (fun l => (l.reference.raw, l.reference.target, l.resolution, l.reference.start)) =
          (result.records.filter (·.importedFrom = result.path)).map fun r =>
            (r.reference.raw, r.reference.target, r.resolution,
              FrontMatter.sizeIn t + r.reference.start)) := by
  obtain ⟨path, t, place, kind, read, rfl⟩ := listReferences_eq_ok.mp found
  cases pair : compileContent files config.commandOptions t path s with
  | mk result s' =>
    have compiled : compileDocument files config.commandOptions file s = .ok (result, s') :=
      compileDocument_eq_ok.mpr ⟨path, t, place, kind, read, pair⟩
    obtain ⟨u, run, held, there⟩ := compileDocument_unfolds compiled rfl
    obtain rfl : path = result.path := Except.ok.inj (place.symm.trans there)
    obtain rfl : t = u := Except.ok.inj (read.symm.trans held)
    refine ⟨t, result, s', place, read, compiled, fun even => ?_⟩
    have absolute := (FileView.absolute_eq_ok place).1
    have apart : result.path ≠ .root := fun top => rooted (top ▸ kind)
    obtain ⟨parent, above⟩ := Path.exists_parent absolute apart
    have base : result.path.parent?.getD .root = result.path.directory := by rw [Path.directory, above]; rfl
    have own := congrArg (List.map fun found : Reference × Resolution =>
      (found.1.raw, found.1.target, found.2, FrontMatter.sizeIn t + found.1.start))
        (run.own (List.mem_singleton_self _))
    have listed := congrArg (List.map fun found : Nat × Text × Resolution =>
      ('@' :: found.2.1, found.2.1, found.2.2, found.1))
        (map_referencesIn files config.commandOptions result.path even)
    rw [base] at listed
    simp only [List.map_map, Function.comp_def] at own listed
    exact listed.trans own.symm

/-- A document with code in its title, which refers to another one. -/
def notebook : MemoryStore :=
  (MemoryStore.empty.insert (.parse "/d/a.md".toList) "---\ntitle: ```sh```\n---\n@b.md".toList).insert
    (.parse "/d/b.md".toList) "text".toList

theorem listReferences_follows_notebook :
    ∃ listed result s',
      listReferences (FileStore.view notebook) Config.empty.commandOptions ⟨"/d/a.md".toList⟩ =
          .ok listed ∧
        compileDocument (FileStore.view notebook) Config.empty.commandOptions ⟨"/d/a.md".toList⟩ .empty =
          .ok (result, s') ∧
        listed.map (·.reference.start) = [24] ∧
        listed.map (fun l => (l.reference.raw, l.reference.target, l.resolution, l.reference.start)) =
          (result.records.filter (·.importedFrom = result.path)).map fun r =>
            (r.reference.raw, r.reference.target, r.resolution, 24 + r.reference.start) := by
  have fine : (listReferences (FileStore.view notebook) Config.empty.commandOptions
      ⟨"/d/a.md".toList⟩).toOption.any
      (fun listed => listed.map (·.reference.start) = [24]) = true := by
    decide +kernel
  match found : listReferences (FileStore.view notebook) Config.empty.commandOptions ⟨"/d/a.md".toList⟩ with
  | .error _ =>
    rw [found] at fine
    cases fine
  | .ok listed =>
    rw [found] at fine
    obtain ⟨t, result, s', place, read, compiled, follows⟩ :=
      listReferences_follows_records (by decide +kernel) found .empty
    have home : result.path = .parse "/d/a.md".toList :=
      (Except.ok.inj place).symm.trans (by decide +kernel)
    rw [home] at read
    obtain rfl : t = "---\ntitle: ```sh```\n---\n@b.md".toList :=
      (Except.ok.inj read).symm.trans (by decide +kernel)
    exact ⟨listed, result, s', rfl, compiled, of_decide_eq_true fine, follows (by decide +kernel)⟩

-- behind a fence that is left open in the front matter nothing is listed
example :
    let t := "---\ntitle: ```sh\n---\n@b.md".toList
    referencesIn (FileStore.view notebook) .default (.parse "/d/a.md".toList) t = [] ∧
      (compileContent (FileStore.view notebook) .default t
        (.parse "/d/a.md".toList) .empty).1.records.length = 1 := by
  decide +kernel

end Transclusion

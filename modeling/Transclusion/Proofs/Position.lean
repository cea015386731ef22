import Transclusion.Proofs.ListedReferences

namespace Transclusion

namespace Place

/-- The place at the end of a text whose lines and columns are counted from `first`: as many lines
down as it has newlines, and as many columns along as it has characters behind the last of them. -/
def endOf (first : Nat) (t : Text) : Place :=
  ⟨t.size, first + t.count '\n', first + (t.reverse.takeWhile (· ≠ '\n')).length⟩

theorem advance_endOf (first : Nat) (t : Text) (c : Char) :
    (endOf first t).advance first c = endOf first (t ++ [c]) := by
  have size : Text.size (t ++ [c]) = t.size + c.utf8Size := by rw [Text.size_append]; rfl
  unfold advance
  split
  · rename_i newline
    subst newline
    simp [endOf, size, Nat.add_assoc]
  · rename_i other
    simp [endOf, size, other, Nat.add_assoc]

/-- Whole lines in front move a place down and leave its column. -/
theorem endOf_append {m : Text} (ends : EndsLine m) (first : Nat) (t : Text) :
    endOf first (m ++ t) =
      ⟨m.size + (endOf first t).offset, m.count '\n' + (endOf first t).line, (endOf first t).column⟩ := by
  have column : ((m ++ t).reverse.takeWhile (· ≠ '\n')).length =
      (t.reverse.takeWhile (· ≠ '\n')).length := by
    rw [List.reverse_append, List.takeWhile_append]
    split
    · rename_i whole
      rcases ends with rfl | ⟨u, rfl⟩
      · simpa using whole.symm
      · simpa using whole.symm
    · rfl
  simp only [endOf, Text.size_append, List.count_append, column, Place.mk.injEq, true_and, and_true]
  omega

end Place

/-- `raw` stands in the text `t` at a place, lines and columns counted from `first`. -/
def StandsAt (first : Nat) (t raw : Text) (place : Place) : Prop :=
  ∃ before after, t = before ++ raw ++ after ∧ Place.endOf first before = place

instance (first : Nat) (t raw : Text) (place : Place) : Decidable (StandsAt first t raw place) :=
  decidable_of_iff ((List.range (t.length + 1)).any fun n =>
      raw.isPrefixOf (t.drop n) && Place.endOf first (t.take n) = place) <| by
    simp only [List.any_eq_true, List.mem_range, Bool.and_eq_true, List.isPrefixOf_iff_prefix,
      decide_eq_true_eq]
    constructor
    · rintro ⟨n, _, ⟨after, rest⟩, there⟩
      exact ⟨t.take n, after, by rw [List.append_assoc, rest, List.take_append_drop], there⟩
    · rintro ⟨before, after, rfl, there⟩
      have front : (before ++ raw ++ after).take before.length = before := by
        rw [List.append_assoc, List.take_left]
      have behind : (before ++ raw ++ after).drop before.length = raw ++ after := by
        rw [List.append_assoc, List.drop_left]
      exact ⟨before.length, by rw [List.length_append, List.length_append]; omega, ⟨after, behind.symm⟩,
        by rw [front, there]⟩

theorem StandsAt.below {first : Nat} {m t raw : Text} {place : Place} (stands : StandsAt first t raw place)
    (ends : EndsLine m) :
    StandsAt first (m ++ t) raw ⟨m.size + place.offset, m.count '\n' + place.line, place.column⟩ := by
  obtain ⟨before, after, rfl, rfl⟩ := stands
  exact ⟨m ++ before, after, by simp, Place.endOf_append ends first before⟩

namespace Reference

/-- Where the scan met the mention. -/
def place (r : Reference) : Place := ⟨r.start, r.line, r.column⟩

/-- The scan finds `r` at a sign between `front` and `rest`, where it has met `before` last. -/
structure Meets (code : SpanSet) (first : Nat) (front : Text) (before : Option Char) (rest : Text)
    (r : Reference) : Prop where
  follows : mayFollow before
  outside : code.contains front.size = false
  pathLike : isPathLike (token rest)
  target : r.target = token rest
  place : r.place = .endOf first front

section Meets

variable {code : SpanSet} {first : Nat} {front : Text} {before : Option Char} {t : Text} {r : Reference}

theorem mem_scan_cons {c : Char} :
    r ∈ scan code first (.endOf first front) before (c :: t) ↔
      (c = '@' ∧ Meets code first front before t r) ∨
        r ∈ scan code first (.endOf first (front ++ [c])) (some c) t := by
  rw [scan, ← Place.advance_endOf]
  have offset : (Place.endOf first front).offset = front.size := rfl
  split
  · rename_i found
    simp only [Bool.and_eq_true, Bool.not_eq_true', decide_eq_true_eq, offset] at found
    obtain ⟨⟨⟨sign, follows⟩, outside⟩, pathLike⟩ := found
    rw [List.mem_cons]
    refine or_congr_left ⟨?_, ?_⟩
    · rintro rfl
      exact ⟨sign, follows, outside, pathLike, rfl, rfl⟩
    · rintro ⟨-, meets⟩
      obtain ⟨target, start, line, column⟩ := r
      obtain ⟨rfl, rfl, rfl⟩ := Place.mk.inj meets.place
      rw [show target = token t from meets.target]
      rfl
  · rename_i missed
    refine (or_iff_right ?_).symm
    rintro ⟨sign, meets⟩
    exact missed (by simp [sign, offset, meets.follows, meets.outside, meets.pathLike])

/-- What the scan finds is what stands at one of the signs, whatever is found at the others. -/
theorem mem_scan_iff : r ∈ scan code first (.endOf first front) before t ↔
    ∃ u v, t = u ++ '@' :: v ∧ Meets code first (front ++ u) (u.getLast?.or before) v r := by
  induction t generalizing front before with
  | nil => exact iff_of_false List.not_mem_nil (by simp)
  | cons c t ih =>
    rw [mem_scan_cons, ih]
    constructor
    · rintro (⟨rfl, meets⟩ | ⟨u, v, rfl, meets⟩)
      · exact ⟨[], t, rfl, by rwa [List.append_nil]⟩
      · exact ⟨c :: u, v, rfl, by rwa [getLast?_cons_or, List.append_cons]⟩
    · rintro ⟨u, v, split, meets⟩
      cases u with
      | nil =>
        obtain ⟨rfl, rfl⟩ := List.cons.inj split
        exact Or.inl ⟨rfl, by rwa [List.append_nil] at meets⟩
      | cons d u =>
        obtain ⟨rfl, rfl⟩ := List.cons.inj split
        exact Or.inr ⟨u, v, rfl, by rwa [getLast?_cons_or, List.append_cons] at meets⟩

end Meets

/-- What positions are counted from. -/
def firstPosition (oneBased : Bool) : Nat := if oneBased then 1 else 0

theorem mem_extract_iff {t : Text} {oneBased : Bool} {r : Reference} : r ∈ extract t oneBased ↔
    ∃ u v, t = u ++ '@' :: v ∧ Meets (codeSpans t) (firstPosition oneBased) u u.getLast? v r := by
  have whole : extract t oneBased =
      scan (codeSpans t) (firstPosition oneBased) (.endOf (firstPosition oneBased) []) none t := rfl
  rw [whole, mem_scan_iff]
  simp only [List.nil_append, Option.or_none]

theorem standsAt_of_mem_extract {t : Text} {oneBased : Bool} {r : Reference}
    (member : r ∈ extract t oneBased) :
    StandsAt (firstPosition oneBased) t r.raw r.place := by
  obtain ⟨u, v, rfl, meets⟩ := mem_extract_iff.mp member
  obtain ⟨rest, split⟩ := token_prefix v
  exact ⟨u, rest, by rw [List.append_assoc, raw, meets.target, List.cons_append, split], meets.place.symm⟩

end Reference

/-- The lines that the front matter of a document takes. -/
def FrontMatter.linesIn (t : Text) : Nat :=
  match split? t with
  | some matter => matter.block.count '\n'
  | none => 0

/-- A mention found in the body of a document stands in the document itself further down by the
front matter. -/
theorem Reference.standsAt_of_mem_body {t : Text} {oneBased : Bool} {r : Reference}
    (member : r ∈ extract (FrontMatter.strip t) oneBased) :
    StandsAt (firstPosition oneBased) t r.raw ⟨FrontMatter.sizeIn t + r.start,
      FrontMatter.linesIn t + r.line, r.column⟩ := by
  have stands := standsAt_of_mem_extract member
  unfold FrontMatter.strip at stands
  unfold FrontMatter.sizeIn FrontMatter.linesIn
  cases found : FrontMatter.split? t with
  | none =>
    rw [found] at stands
    simpa [place] using stands
  | some matter =>
    rw [found] at stands
    obtain ⟨whole, ends⟩ := FrontMatter.split?_eq_some found
    have more : matter.body ≠ [] := by
      obtain ⟨before, after, same, _⟩ := stands
      simp [same, raw]
    have moved := stands.below (ends more)
    rwa [← whole, FrontMatter.size_block] at moved

/-- The positions on record are those in the text of each document behind its front matter: in the
stored document the mention stands as many lines further down as the front matter takes, in the same
column. So they point into the stored documents where there is none. -/
theorem compileDocument_positions {files : FileView} {options : CompileOptions} {file : Spelling}
    {result : Compilation} {s s' : Session}
    (compiled : compileDocument files options file s = .ok (result, s')) :
    ∀ r ∈ result.records, ∃ t, files.read r.importedFrom = .ok t ∧
      StandsAt (Reference.firstPosition options.oneBased) t r.reference.raw
        ⟨FrontMatter.sizeIn t + r.reference.start, FrontMatter.linesIn t + r.reference.line,
          r.reference.column⟩ ∧
      (FrontMatter.split? t = none →
        StandsAt (Reference.firstPosition options.oneBased) t r.reference.raw r.reference.place) := by
  obtain ⟨path, t, place, _, read, same⟩ := compileDocument_eq_ok.mp compiled
  obtain ⟨absolute, normal⟩ := FileView.absolute_eq_ok place
  have run := compileContent_unfolds files options t path s
  rw [same, FileView.absoluteOr_of_normal absolute normal] at run
  intro r member
  obtain ⟨u, readable, held⟩ : ∃ u, files.read r.importedFrom = .ok u ∧
      r.reference ∈ Reference.extract (FrontMatter.strip u) options.oneBased := by
    rcases run.origin r member with ⟨home, held, _⟩ | ⟨_, u, readable, held, _⟩
    · exact ⟨t, home ▸ read, held⟩
    · exact ⟨u, readable, held⟩
  refine ⟨u, readable, Reference.standsAt_of_mem_body held, fun bare => ?_⟩
  rw [FrontMatter.strip, bare] at held
  exact Reference.standsAt_of_mem_extract held

/-- A document with a title, which mentions another one with a title, which mentions one that is not
there. -/
def titledStore : MemoryStore :=
  (MemoryStore.empty.insert (.parse "/a.md".toList) "---\ntitle: A\n---\nsee @b.md".toList).insert
    (.parse "/b.md".toList) "---\ntitle: B\n---\n\n@none.md".toList

theorem compileDocument_titled (options : CompileOptions) :
    compileDocument (FileStore.view titledStore) options ⟨"/a.md".toList⟩ .empty =
      .ok (compileContent (FileStore.view titledStore) options "---\ntitle: A\n---\nsee @b.md".toList
        (.parse "/a.md".toList) .empty) :=
  compileDocument_eq_ok.mpr ⟨_, _, by decide +kernel, by decide +kernel, by decide +kernel, rfl⟩

/-- Line 1 of the second body is line 4 of its document. -/
theorem compileDocument_positions_titled :
    ∃ result s r t,
      compileDocument (FileStore.view titledStore) .default ⟨"/a.md".toList⟩ .empty = .ok (result, s) ∧
        r ∈ result.records ∧
        r.importedFrom = .parse "/b.md".toList ∧ r.reference.place = ⟨1, 1, 0⟩ ∧
        (FileStore.view titledStore).read r.importedFrom = .ok t ∧
        StandsAt 0 t "@none.md".toList ⟨18, 4, 0⟩ := by
  have fine : (compileContent (FileStore.view titledStore) .default "---\ntitle: A\n---\nsee @b.md".toList
      (.parse "/a.md".toList) .empty).1.records.any (fun r =>
        r.importedFrom = .parse "/b.md".toList && r.reference = ⟨"none.md".toList, 1, 1, 0⟩) = true := by
    decide +kernel
  obtain ⟨r, member, about⟩ := List.any_eq_true.mp fine
  simp only [Bool.and_eq_true, decide_eq_true_eq] at about
  obtain ⟨home, reference⟩ := about
  obtain ⟨t, read, stands, _⟩ := compileDocument_positions (compileDocument_titled .default) r member
  have text : t = "---\ntitle: B\n---\n\n@none.md".toList := by
    rw [home] at read
    exact Except.ok.inj (read.symm.trans (by decide +kernel))
  refine ⟨_, _, r, t, compileDocument_titled .default, member, home, by rw [reference]; rfl, read, ?_⟩
  rw [reference, text] at stands
  rw [text]
  exact stands

-- in the stored document the position on record is one in the front matter
example :
    let t := "---\ntitle: A\n---\nsee @b.md".toList
    (Reference.extract (FrontMatter.strip t) false).map Reference.place = [⟨4, 0, 4⟩] ∧
      ¬ StandsAt 0 t "@b.md".toList ⟨4, 0, 4⟩ ∧ StandsAt 0 t "@b.md".toList ⟨21, 3, 4⟩ := by
  decide +kernel

end Transclusion

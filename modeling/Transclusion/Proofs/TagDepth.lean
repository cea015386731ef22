import Mathlib.Data.List.Infix
import Transclusion.Proofs.CodeLayout
import Transclusion.Wrapper

namespace Transclusion

/-- A path that can stand in a tag: neither its quotes nor its line end before the path does. -/
def Quotable (path : Text) : Prop := '"' ∉ path ∧ '\n' ∉ path

instance (path : Text) : Decidable (Quotable path) := inferInstanceAs (Decidable (_ ∧ _))

namespace WrapperTag

/-- How a tag is written for the document at `path`. -/
def spell (path : Text) : WrapperTag → Text
  | opening => ['<'] ++ name ++ [' '] ++ pathAttribute ++ path ++ ['"', '>']
  | closing => ['<', '/'] ++ name ++ ['>']
  | stub => stubFor path

/-- A document without the newlines at its end, as it is inlined. -/
def trimmed (content : Text) : Text := Text.dropEndWhile (fun c => c = '\n' || c = '\r') content

theorem wrap_eq (path content : Text) :
    wrap path content = spell path opening ++ '\n' :: (trimmed content ++ '\n' :: spell path closing) := by
  simp [wrap, spell, trimmed]

/-- Tags stand in brackets. -/
theorem exists_spell (path : Text) (tag : WrapperTag) :
    ∃ inside, tag.spell path = '<' :: (inside ++ ['>']) := by
  cases tag with
  | opening => exact ⟨name ++ [' '] ++ pathAttribute ++ path ++ ['"'], by simp [spell]⟩
  | closing => exact ⟨'/' :: name, rfl⟩
  | stub => exact ⟨name ++ [' '] ++ pathAttribute ++ path ++ ['"', ' ', '/'], by simp [spell, stubFor]⟩

theorem exists_wrap (path content : Text) : ∃ inside, wrap path content = '<' :: (inside ++ ['>']) :=
  ⟨name ++ [' '] ++ pathAttribute ++ path ++ ['"', '>', '\n'] ++ trimmed content ++
      ['\n', '<', '/'] ++ name, by
    simp [wrap, trimmed]⟩

theorem newline_not_mem_spell {path : Text} (quotable : Quotable path) (tag : WrapperTag) :
    '\n' ∉ tag.spell path := by
  cases tag <;> simp [spell, stubFor, name, pathAttribute, quotable.2]

theorem atStart?_spell {path : Text} (unquoted : '"' ∉ path) (tag : WrapperTag) (t : Text) :
    atStart? (tag.spell path ++ t) = some (tag, t) := by
  -- the value ends at the first quote behind it, and that is the attribute's own
  have value (behind : Text) : (path ++ '"' :: behind).dropWhile (· ≠ '"') = '"' :: behind := by
    rw [List.dropWhile_append_of_pos fun c inside => ?_]
    · simp
    · exact decide_eq_true fun same => unquoted (same ▸ inside)
  have named (behind : Text) :
      atStart? (['<'] ++ name ++ [' '] ++ pathAttribute ++ path ++ '"' :: behind) = tail? behind := by
    have start : ['<'] ++ name ++ [' '] ++ pathAttribute ++ path ++ '"' :: behind =
        '<' :: name ++ (' ' :: (pathAttribute ++ (path ++ '"' :: behind))) := by simp
    have other : (['<', '/'] ++ name ++ ['>']).isPrefixOf?
        ('<' :: name ++ (' ' :: (pathAttribute ++ (path ++ '"' :: behind)))) = none := rfl
    have blank : (' ' :: (pathAttribute ++ (path ++ '"' :: behind))).dropWhile isBlank =
        pathAttribute ++ (path ++ '"' :: behind) := rfl
    rw [start, atStart?, other]
    simp only [List.isPrefixOf?_eq_some_iff_append_eq.mpr rfl, Option.bind_eq_bind, Option.bind_some, blank, value]
    rw [if_neg (by simp)]
  cases tag with
  | opening =>
    have split : spell path opening ++ t =
        ['<'] ++ name ++ [' '] ++ pathAttribute ++ path ++ '"' :: '>' :: t := by
      simp [spell]
    rw [split, named]
    rfl
  | closing =>
    rw [spell, atStart?, List.isPrefixOf?_eq_some_iff_append_eq.mpr rfl]
  | stub =>
    have split : spell path stub ++ t =
        ['<'] ++ name ++ [' '] ++ pathAttribute ++ path ++ '"' :: ' ' :: '/' :: '>' :: t := by
      simp [spell, stubFor]
    rw [split, named]
    rfl

theorem scan_skip (offset : Nat) (u t : Text) :
    scan offset u.length (u ++ t) = scan (offset + u.size) 0 t := by
  induction u generalizing offset with
  | nil => rfl
  | cons c u ih => rw [List.length_cons, List.cons_append, scan, ih, Text.size, Nat.add_assoc]

theorem scan_spell {path : Text} (unquoted : '"' ∉ path) (tag : WrapperTag) (offset : Nat) (t : Text) :
    scan offset 0 (tag.spell path ++ t) =
      (tag, ⟨offset, offset + (tag.spell path).size⟩) :: scan (offset + (tag.spell path).size) 0 t := by
  obtain ⟨inside, bracket⟩ := exists_spell path tag
  have found := atStart?_spell unquoted tag t
  have width : offset + Text.size ('<' :: (inside ++ ['>']) ++ t) - t.size =
      offset + Text.size ('<' :: (inside ++ ['>'])) := by
    rw [Text.size_append, ← Nat.add_assoc, Nat.add_sub_cancel]
  have passed : (inside ++ ['>'] ++ t).length - t.length = (inside ++ ['>']).length := by
    rw [List.length_append, Nat.add_sub_cancel]
  rw [bracket] at found ⊢
  rw [List.cons_append] at found width ⊢
  rw [scan, found]
  dsimp only
  rw [width, passed, scan_skip, Text.size, Nat.add_assoc]

theorem scan_cons {c : Char} (other : c ≠ '<') (offset : Nat) (t : Text) :
    scan offset 0 (c :: t) = scan (offset + c.utf8Size) 0 t := by
  have none : atStart? (c :: t) = none := by
    simp [atStart?, List.isPrefixOf?, Ne.symm other]
  rw [scan, none]

theorem scan_append_of_not_mem {t : Text} (plain : '<' ∉ t) (offset : Nat) (u : Text) :
    scan offset 0 (t ++ u) = scan (offset + t.size) 0 u := by
  induction t generalizing offset with
  | nil => rfl
  | cons c t ih =>
    simp only [List.mem_cons, not_or] at plain
    rw [List.cons_append, scan_cons (Ne.symm plain.1), ih plain.2, Text.size, Nat.add_assoc]

/-- The tags of a text from left to right. -/
def tags (t : Text) : List WrapperTag := (scan 0 0 t).map (·.1)

/-- Where a text stands says nothing about its tags. -/
theorem map_scan (offset skip : Nat) (t : Text) :
    (scan offset skip t).map (·.1) = (scan 0 skip t).map (·.1) := by
  induction t generalizing offset skip with
  | nil => rfl
  | cons c t ih =>
    cases skip with
    | succ skip =>
      simp only [scan]
      rw [ih, ih (0 + c.utf8Size)]
    | zero =>
      simp only [scan]
      cases atStart? (c :: t) with
      | none => exact (ih ..).trans (ih (0 + c.utf8Size) 0).symm
      | some found =>
        simp only [List.map_cons]
        rw [ih, ih (0 + c.utf8Size)]

/-- How many blocks are open behind tags when `n` are open before them. -/
def depth (n : Nat) : List WrapperTag → Nat
  | [] => n
  | stub :: rest => depth n rest
  | opening :: rest => depth (n + 1) rest
  | closing :: rest => depth (n - 1) rest

theorem depth_append (n : Nat) (front rest : List WrapperTag) :
    depth n (front ++ rest) = depth (depth n front) rest := by
  induction front generalizing n with
  | nil => rfl
  | cons tag front ih => cases tag <;> exact ih _

/-- Tags that close what they open and nothing else. -/
structure Balanced (tags : List WrapperTag) : Prop where
  level : ∀ n, depth n tags = n
  above : ∀ n front, front <+: tags → n ≤ depth n front

namespace Balanced

theorem nil : Balanced [] :=
  ⟨fun _ => rfl, fun n front within => by rw [List.prefix_nil.mp within]; exact Nat.le_refl n⟩

theorem stub : Balanced [.stub] := by
  refine ⟨fun _ => rfl, fun n front within => ?_⟩
  rcases List.prefix_concat_iff.mp (show front <+: [] ++ [.stub] from within) with rfl | within
  · exact Nat.le_refl n
  · exact nil.above n front within

theorem append {front rest : List WrapperTag} (first : Balanced front) (later : Balanced rest) :
    Balanced (front ++ rest) := by
  refine ⟨fun n => by rw [depth_append, first.level, later.level], fun n part within => ?_⟩
  rcases List.prefix_or_prefix_of_prefix within (List.prefix_append front rest) with short | ⟨more, rfl⟩
  · exact first.above n part short
  · rw [depth_append, first.level]
    exact later.above n more ((List.prefix_append_right_inj front).mp within)

theorem block {inner : List WrapperTag} (inside : Balanced inner) :
    Balanced (.opening :: (inner ++ [.closing])) := by
  refine ⟨fun n => ?_, fun n part within => ?_⟩
  · rw [depth, depth_append, inside.level]
    rfl
  · cases part with
    | nil => exact Nat.le_refl n
    | cons tag part =>
      obtain ⟨rfl, short⟩ := List.cons_prefix_cons.mp within
      rw [depth]
      rcases List.prefix_concat_iff.mp short with rfl | short
      · rw [depth_append, inside.level]
        exact Nat.le_refl n
      · exact Nat.le_of_succ_le (inside.above (n + 1) part short)

end Balanced

section Blocks

variable {stop offset : Nat}

/-- Behind all tags before an offset, the blocks that contain it are those that are open and begin
no later. -/
theorem any_blocks_behind (reached : offset < stop) {late : List (WrapperTag × Span)}
    (behind : ∀ tag ∈ late, offset < tag.2.start ∧ tag.2.start < tag.2.stop) (opened : List Nat) :
    (blocks stop opened late).any (·.contains offset) = opened.any (· ≤ offset) := by
  have contained {stop : Nat} (reached : offset < stop) (start : Nat) :
      Span.contains ⟨start, stop⟩ offset = decide (start ≤ offset) := by
    simp [Span.contains, reached]
  induction late generalizing opened with
  | nil =>
    rw [blocks, List.any_map]
    exact congrArg (opened.any ·) (funext fun start => contained reached start)
  | cons tag late ih =>
    obtain ⟨⟨begins, filled⟩, others⟩ := List.forall_mem_cons.mp behind
    obtain ⟨kind, s⟩ := tag
    cases kind with
    | stub => exact ih others opened
    | opening =>
      rw [blocks, ih others, List.any_cons, decide_eq_false (Nat.not_le_of_lt begins), Bool.false_or]
    | closing =>
      cases opened with
      | nil => exact ih others []
      | cons start outer =>
        rw [blocks, List.any_cons, ih others, contained (Nat.lt_trans begins filled), List.any_cons]

/-- What contains an offset that no closing tag goes over are the blocks that the tags before it
leave open. -/
theorem any_blocks (reached : offset < stop) {opened : List Nat}
    (before : ∀ start ∈ opened, start ≤ offset) {early late : List (WrapperTag × Span)}
    (front : ∀ tag ∈ early, tag.2.start ≤ offset ∧ (tag.1 = closing → tag.2.stop ≤ offset))
    (behind : ∀ tag ∈ late, offset < tag.2.start ∧ tag.2.start < tag.2.stop) :
    (blocks stop opened (early ++ late)).any (·.contains offset) =
      decide (depth opened.length (early.map (·.1)) ≠ 0) := by
  induction early generalizing opened with
  | nil =>
    rw [List.nil_append, any_blocks_behind reached behind]
    cases opened with
    | nil => rfl
    | cons start outer =>
      have first : start ≤ offset := before start (List.mem_cons_self ..)
      simp [depth, first]
  | cons tag early ih =>
    obtain ⟨⟨begins, ends⟩, others⟩ := List.forall_mem_cons.mp front
    obtain ⟨kind, s⟩ := tag
    cases kind with
    | stub => exact ih before others
    | opening => exact ih (List.forall_mem_cons.mpr ⟨begins, before⟩) others
    | closing =>
      cases opened with
      | nil => exact ih before others
      | cons start opened =>
        have outside : Span.contains ⟨start, s.stop⟩ offset = false :=
          Bool.eq_false_iff.mpr fun inside =>
            absurd (Span.contains_iff.mp inside).2 (Nat.not_lt_of_le (ends rfl))
        rw [List.cons_append, blocks, List.any_cons, outside, Bool.false_or]
        exact ih (fun start member => before start (List.mem_cons_of_mem _ member)) others

end Blocks

end WrapperTag

open WrapperTag

/-- Text in which every `<` begins a tag, written as the compiler writes it. -/
inductive Tagged : Text → Prop
  | nil : Tagged []
  | char {c t} : c ≠ '<' → Tagged t → Tagged (c :: t)
  | tag {tag : WrapperTag} {path t} : Quotable path → Tagged t → Tagged (tag.spell path ++ t)

namespace Tagged

variable {t u : Text}

theorem of_not_mem (plain : '<' ∉ t) : Tagged t := by
  induction t with
  | nil => exact .nil
  | cons c t ih =>
    simp only [List.mem_cons, not_or] at plain
    exact .char (Ne.symm plain.1) (ih plain.2)

theorem spell {path : Text} (quotable : Quotable path) (tag : WrapperTag) : Tagged (tag.spell path) := by
  have alone : Tagged (tag.spell path ++ []) := .tag quotable .nil
  rwa [List.append_nil] at alone

theorem append (first : Tagged t) (later : Tagged u) : Tagged (t ++ u) := by
  induction first with
  | nil => exact later
  | char other _ ih => exact .char other ih
  | tag quotable _ ih =>
    rw [List.append_assoc]
    exact .tag quotable ih

theorem scan_append (first : Tagged t) (offset : Nat) (u : Text) :
    scan offset 0 (t ++ u) = scan offset 0 t ++ scan (offset + t.size) 0 u := by
  induction first generalizing offset with
  | nil => rfl
  | char other _ ih => rw [List.cons_append, scan_cons other, scan_cons other, ih, Text.size, Nat.add_assoc]
  | tag quotable _ ih =>
    rw [List.append_assoc, scan_spell quotable.1, scan_spell quotable.1, ih, Text.size_append,
      Nat.add_assoc, List.cons_append]

theorem tags_append (first : Tagged t) (u : Text) : tags (t ++ u) = tags t ++ tags u := by
  rw [tags, first.scan_append, List.map_append, map_scan _ 0 u]
  rfl

theorem bounds (tagged : Tagged t) (offset : Nat) :
    ∀ tag ∈ scan offset 0 t, offset ≤ tag.2.start ∧ tag.2.start < tag.2.stop ∧
      tag.2.stop ≤ offset + t.size := by
  induction tagged generalizing offset with
  | nil => exact fun tag none => absurd none List.not_mem_nil
  | @char c t other _ ih =>
    intro tag member
    rw [scan_cons other] at member
    have inner := ih _ tag member
    rw [Text.size]
    omega
  | @tag tag path t quotable _ ih =>
    intro found member
    have filled : 0 < (tag.spell path).size := by
      obtain ⟨inside, bracket⟩ := exists_spell path tag
      rw [bracket]
      exact Nat.add_pos_left (Char.utf8Size_pos _) _
    rw [scan_spell quotable.1] at member
    rw [Text.size_append]
    rcases List.mem_cons.mp member with rfl | member
    · dsimp only
      omega
    · have inner := ih _ found member
      omega

/-- Both parts of a tagged text are tagged when it is cut where there is no tag. -/
theorem of_cut (tagged : Tagged (t ++ u)) (apart : ∀ (tag : WrapperTag) (path y z : Text), Quotable path →
    tag.spell path = y ++ z → y ≠ [] → z ≠ [] → y <:+ t → ¬ z <+: u) : Tagged t ∧ Tagged u := by
  generalize same : t ++ u = whole at tagged
  induction tagged generalizing t with
  | nil =>
    obtain ⟨rfl, rfl⟩ := List.append_eq_nil_iff.mp same
    exact ⟨.nil, .nil⟩
  | @char c whole other later ih =>
    cases t with
    | nil =>
      rw [List.nil_append] at same
      exact ⟨.nil, same ▸ .char other later⟩
    | cons d t =>
      obtain ⟨rfl, rest⟩ := List.cons.inj same
      obtain ⟨front, behind⟩ := ih (fun tag path y z quotable split some more ends =>
        apart tag path y z quotable split some more (ends.trans (List.suffix_cons d t))) rest
      exact ⟨.char other front, behind⟩
  | @tag tag path whole quotable later ih =>
    rcases List.append_eq_append_iff.mp same with ⟨inside, split, rfl⟩ | ⟨inside, rfl, rest⟩
    · by_cases first : t = []
      · rw [first, List.nil_append] at split
        exact ⟨first ▸ .nil, split ▸ .tag quotable later⟩
      · by_cases last : inside = []
        · rw [last, List.append_nil] at split
          exact ⟨split ▸ spell quotable tag, last ▸ later⟩
        · exact absurd (List.prefix_append inside whole)
            (apart tag path t inside quotable split first last (List.suffix_refl t))
    · obtain ⟨front, behind⟩ := ih (fun tag' path' y z quotable split some more ends =>
        apart tag' path' y z quotable split some more (ends.trans (List.suffix_append ..))) rest.symm
      exact ⟨.tag quotable front, behind⟩

/-- Text without a tag can be taken off in front. -/
theorem of_plain_append (tagged : Tagged (t ++ u)) (plain : '<' ∉ t) : Tagged u := by
  refine (tagged.of_cut fun tag path y z _ split some _ ends _ => plain (ends.subset ?_)).2
  obtain ⟨inside, bracket⟩ := exists_spell path tag
  obtain ⟨c, y, rfl⟩ := List.exists_cons_of_ne_nil some
  obtain ⟨rfl, _⟩ := List.cons.inj (bracket.symm.trans split)
  exact List.mem_cons_self ..

/-- Text that no tag can end in can be taken off behind. -/
theorem of_append (tagged : Tagged (t ++ u)) (apart : '>' ∉ u) : Tagged t := by
  refine (tagged.of_cut fun tag path y z _ split _ more _ begins => apart (begins.subset ?_)).1
  obtain ⟨inside, bracket⟩ := exists_spell path tag
  rcases List.eq_nil_or_concat' z with rfl | ⟨z, c, rfl⟩
  · exact absurd rfl more
  · rw [bracket, ← List.cons_append, ← List.append_assoc] at split
    obtain ⟨rfl, _⟩ := List.cons.inj (List.append_inj' split rfl).2
    exact List.mem_append_right _ (List.mem_singleton_self _)

/-- No tag goes over the end of a line. -/
theorem of_line (tagged : Tagged (t ++ '\n' :: u)) : Tagged t ∧ Tagged u := by
  obtain ⟨front, behind⟩ := tagged.of_cut fun tag path y z quotable split _ more _ begins => by
    obtain ⟨c, z, rfl⟩ := List.exists_cons_of_ne_nil more
    obtain ⟨rfl, _⟩ := List.cons_prefix_cons.mp begins
    refine newline_not_mem_spell quotable tag ?_
    rw [split]
    exact List.mem_append_right _ (List.mem_cons_self ..)
  exact ⟨front, behind.of_plain_append (t := ['\n']) (by decide)⟩

theorem of_endsLine (tagged : Tagged (t ++ u)) (ends : EndsLine t) : Tagged t ∧ Tagged u := by
  rcases ends with rfl | ⟨line, rfl⟩
  · exact ⟨.nil, tagged⟩
  · rw [List.append_assoc] at tagged
    obtain ⟨front, behind⟩ := tagged.of_line
    exact ⟨front.append (.char (by decide) .nil), behind⟩

end Tagged

theorem tags_of_not_mem {t : Text} (plain : '<' ∉ t) : tags t = [] := by
  have none := scan_append_of_not_mem plain 0 []
  rw [List.append_nil] at none
  rw [tags, none]
  rfl

theorem tags_cons {c : Char} (other : c ≠ '<') (t : Text) : tags (c :: t) = tags t := by
  have alone := (Tagged.char other .nil).tags_append t
  rwa [tags_of_not_mem (t := [c]) (by simpa using Ne.symm other)] at alone

/-- A place at which no tag begins is inside of an inlined document when the tags before it leave a
block open. -/
theorem contains_wrapperSpans {front : Text} (before : Tagged front) {c : Char} (other : c ≠ '<')
    {rest : Text} (behind : Tagged rest) :
    (wrapperSpans (front ++ c :: rest)).contains front.size = decide (depth 0 (tags front) ≠ 0) := by
  have reached : front.size < Text.size (front ++ c :: rest) := by
    have width := c.utf8Size_pos
    rw [Text.size_append, Text.size]
    omega
  rw [wrapperSpans, SpanSet.contains_ofSpans, before.scan_append, scan_cons other, Nat.zero_add]
  refine any_blocks reached (by simp) (fun tag member => ?_) fun tag member => ?_
  · have inner := before.bounds 0 tag member
    exact ⟨by omega, fun _ => by omega⟩
  · have inner := behind.bounds _ tag member
    have width := c.utf8Size_pos
    omega

/-- A tagged text that opens no block without closing it, and closes none that it has not opened. -/
structure WellTagged (t : Text) : Prop where
  tagged : Tagged t
  balanced : Balanced (tags t)

namespace WellTagged

variable {t u : Text}

theorem of_not_mem (plain : '<' ∉ t) : WellTagged t := ⟨.of_not_mem plain, tags_of_not_mem plain ▸ .nil⟩

theorem append (first : WellTagged t) (later : WellTagged u) : WellTagged (t ++ u) :=
  ⟨first.tagged.append later.tagged, first.tagged.tags_append u ▸ first.balanced.append later.balanced⟩

theorem dropEndWhile {p : Char → Bool} (apart : ∀ c, p c → c ≠ '<' ∧ c ≠ '>') (well : WellTagged t) :
    WellTagged (Text.dropEndWhile p t) := by
  obtain ⟨tail, same, dropped⟩ := Text.exists_dropEndWhile p t
  have front : Tagged (Text.dropEndWhile p t) :=
    (same ▸ well.tagged).of_append fun member => (apart _ (dropped _ member)).2 rfl
  have kept : tags t = tags (Text.dropEndWhile p t) := by
    rw [same, front.tags_append, tags_of_not_mem fun member => (apart _ (dropped _ member)).1 rfl,
      List.append_nil, ← same]
  exact ⟨front, kept ▸ well.balanced⟩

end WellTagged

namespace WrapperTag

theorem tags_spell {path : Text} (quotable : Quotable path) (tag : WrapperTag) :
    tags (tag.spell path) = [tag] := by
  have alone := scan_spell quotable.1 tag 0 []
  rw [List.append_nil] at alone
  rw [tags, alone]
  rfl

theorem wellTagged_stubFor {path : Text} (quotable : Quotable path) : WellTagged (stubFor path) :=
  ⟨.spell quotable stub, (tags_spell quotable stub).symm ▸ .stub⟩

theorem wellTagged_trimmed {content : Text} (well : WellTagged content) : WellTagged (trimmed content) := by
  refine well.dropEndWhile fun c newline => ?_
  rcases Bool.or_eq_true_iff.mp newline with same | same
  · exact of_decide_eq_true same ▸ by decide
  · exact of_decide_eq_true same ▸ by decide

section Wrap

variable {path content : Text}

theorem wellTagged_wrap (quotable : Quotable path) (well : WellTagged content) :
    WellTagged (wrap path content) := by
  have inner := wellTagged_trimmed well
  have tagged : Tagged (trimmed content ++ '\n' :: spell path closing) :=
    inner.tagged.append (.char (by decide) (.spell quotable closing))
  have found : tags (wrap path content) = opening :: (tags (trimmed content) ++ [closing]) := by
    rw [wrap_eq, (Tagged.spell quotable opening).tags_append, tags_spell quotable, tags_cons (by decide),
      inner.tagged.tags_append, tags_cons (by decide), tags_spell quotable]
    rfl
  refine ⟨?_, found ▸ inner.balanced.block⟩
  rw [wrap_eq]
  exact (Tagged.spell quotable opening).append (.char (by decide) tagged)

/-- Where a line of an inlined document ends, or the document itself, no block of it is closed that
is not its own. -/
theorem le_depth_front (quotable : Quotable path) (well : WellTagged content) {y z : Text}
    (ends : EndsLine y) (split : trimmed content ++ '\n' :: spell path closing = y ++ z) (n : Nat) :
    n ≤ depth n (tags y) := by
  have inner := wellTagged_trimmed well
  rcases List.append_eq_append_iff.mp split with ⟨more, rfl, rest⟩ | ⟨more, whole, _⟩
  · rw [inner.tagged.tags_append, depth_append, inner.balanced.level]
    cases more with
    | nil => exact Nat.le_refl n
    | cons c more =>
      obtain ⟨rfl, behind⟩ := List.cons.inj rest
      cases more with
      | nil => exact Nat.le_refl n
      | cons d more =>
        -- the closing tag is all on one line
        refine absurd ends ?_
        rw [List.append_cons]
        refine not_endsLine (List.cons_ne_nil d more) fun line => newline_not_mem_spell quotable closing ?_
        rw [behind]
        exact List.mem_append_left _ line
  · have front := ((whole ▸ inner.tagged).of_endsLine ends).1
    refine inner.balanced.above n (tags y) ?_
    rw [whole, front.tags_append]
    exact List.prefix_append ..

end Wrap

end WrapperTag

end Transclusion

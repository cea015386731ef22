import Transclusion.Proofs.FenceCount
import Transclusion.Proofs.TagDepth

namespace Transclusion

open WrapperTag

theorem fenceCount_append {front : Text} (ends : EndsLine front) (t : Text) :
    fenceCount (front ++ t) = fenceCount front + fenceCount t := by
  rcases ends with rfl | ⟨u, rfl⟩
  · exact (Nat.zero_add _).symm
  · have other : '\n' ≠ backtick := by decide
    have alone := fenceCount_append_cons other u []
    rw [show fenceCount [] = 0 from rfl, Nat.add_zero] at alone
    rw [List.append_assoc, List.singleton_append, fenceCount_append_cons other, alone]

namespace Heading

/-- The level of the heading that a text begins with. What follows the first line does not matter. -/
def level? (t : Text) : Option Nat := (ofLine? t).map (·.1)

theorem exists_marks (t : Text) : ∃ n rest, t = List.replicate n '#' ++ rest ∧ '#' ∉ rest.head? := by
  induction t with
  | nil => exact ⟨0, [], rfl, by simp⟩
  | cons c t ih =>
    by_cases mark : c = '#'
    · obtain ⟨n, rest, rfl, other⟩ := ih
      exact ⟨n + 1, rest, by rw [mark]; rfl, other⟩
    · exact ⟨0, c :: t, rfl, by simpa using mark⟩

theorem ofLine?_marks (n : Nat) {c : Char} (other : c ≠ '#') (rest : Text) :
    ofLine? (List.replicate n '#' ++ c :: rest) =
      if minLevel ≤ n ∧ n ≤ maxLevel ∧ (c = ' ' ∨ c = '\t') then some (n, c :: rest) else none := by
  have behind : (List.replicate n '#' ++ c :: rest).dropWhile (· = '#') = c :: rest := by
    rw [List.dropWhile_append_of_pos fun d member => decide_eq_true (List.eq_of_mem_replicate member),
      List.dropWhile_cons_of_neg (by simpa using other)]
  have width : (List.replicate n '#' ++ c :: rest).length - (c :: rest).length = n := by
    rw [List.length_append, List.length_replicate, Nat.add_sub_cancel]
  unfold ofLine?
  rw [behind]
  dsimp only
  rw [width]
  simp only [Bool.and_eq_true, Bool.or_eq_true, decide_eq_true_eq, and_assoc]

theorem ofLine?_replicate (n : Nat) : ofLine? (List.replicate n '#') = none := by
  have behind : (List.replicate n '#').dropWhile (· = '#') = [] := by
    rw [List.dropWhile_replicate, if_pos (by decide)]
  unfold ofLine?
  rw [behind]

theorem ofLine?_eq_some {line rest : Text} {level : Nat} (heading : ofLine? line = some (level, rest)) :
    line = List.replicate level '#' ++ rest ∧ (minLevel ≤ level ∧ level ≤ maxLevel) ∧
      ∃ c behind, rest = c :: behind ∧ (c = ' ' ∨ c = '\t') := by
  obtain ⟨n, more, rfl, other⟩ := exists_marks line
  cases more with
  | nil => rw [List.append_nil, ofLine?_replicate] at heading; cases heading
  | cons c more =>
    rw [ofLine?_marks n (by simpa using other)] at heading
    split at heading
    · rename_i fits
      cases heading
      exact ⟨rfl, ⟨fits.1, fits.2.1⟩, c, more, rfl, fits.2.2⟩
    · cases heading

theorem level?_marks {n : Nat} (low : minLevel ≤ n) (high : n ≤ maxLevel) {c : Char}
    (blank : c = ' ' ∨ c = '\t') (rest : Text) :
    level? (List.replicate n '#' ++ c :: rest) = some n := by
  have other : c ≠ '#' := by rcases blank with rfl | rfl <;> decide
  rw [level?, ofLine?_marks n other, if_pos ⟨low, high, blank⟩]
  rfl

/-- A character that neither is a mark nor may stand behind the marks ends what says whether there
is a heading. -/
theorem level?_append_cons {c : Char} (apart : c ∉ ['#', ' ', '\t']) (u t : Text) :
    level? (u ++ c :: t) = level? u := by
  simp only [List.mem_cons, not_or] at apart
  obtain ⟨mark, blank, tab, _⟩ := apart
  obtain ⟨n, rest, rfl, other⟩ := exists_marks u
  cases rest with
  | nil =>
    rw [List.append_nil, level?, level?, ofLine?_marks n mark, ofLine?_replicate,
      if_neg (by simp [blank, tab])]
  | cons d rest =>
    have next : d ≠ '#' := by simpa using other
    rw [List.append_assoc, List.cons_append, level?, level?, ofLine?_marks n next, ofLine?_marks n next]
    split <;> rfl

theorem level?_bounds {t : Text} {level : Nat} (heading : level? t = some level) :
    minLevel ≤ level ∧ level ≤ maxLevel := by
  obtain ⟨⟨_, rest⟩, found, rfl⟩ := Option.map_eq_some_iff.mp heading
  exact (ofLine?_eq_some found).2.1

end Heading

open Heading

/-- Goes through a text and asks at every character for what stands there, given what lies before
and behind. -/
def walk (emit : Text → Text → List Nat) (front : Text) : Text → List Nat
  | [] => []
  | c :: t => emit front (c :: t) ++ walk emit (front ++ [c]) t

section Walk

variable {emit emit' : Text → Text → List Nat} {front front' t : Text}

theorem walk_append (emit : Text → Text → List Nat) (front u t : Text) :
    walk emit front (u ++ t) = walk (fun before behind => emit before (behind ++ t)) front u ++
      walk emit (front ++ u) t := by
  induction u generalizing front with
  | nil => rw [List.append_nil]; rfl
  | cons c u ih => rw [List.cons_append, walk, walk, ih, List.append_assoc, List.append_assoc]; rfl

theorem walk_congr
    (same : ∀ u c v, t = u ++ c :: v → emit (front ++ u) (c :: v) = emit' (front' ++ u) (c :: v)) :
    walk emit front t = walk emit' front' t := by
  induction t generalizing front front' with
  | nil => rfl
  | cons c t ih =>
    have here := same [] c t rfl
    rw [List.append_nil, List.append_nil] at here
    have later : walk emit (front ++ [c]) t = walk emit' (front' ++ [c]) t := by
      refine ih fun u d v split => ?_
      rw [List.append_assoc, List.append_assoc]
      exact same (c :: u) d v (congrArg (c :: ·) split)
    rw [walk, walk, here, later]

theorem walk_eq_nil (none : ∀ u c v, t = u ++ c :: v → emit (front ++ u) (c :: v) = []) :
    walk emit front t = [] := by
  induction t generalizing front with
  | nil => rfl
  | cons c t ih =>
    have here := none [] c t rfl
    rw [List.append_nil] at here
    rw [walk, here, List.nil_append]
    refine ih fun u d v split => ?_
    rw [List.append_assoc]
    exact none (c :: u) d v (congrArg (c :: ·) split)

theorem forall_mem_walk {p : Nat → Prop} (holds : ∀ before behind, ∀ n ∈ emit before behind, p n) :
    ∀ n ∈ walk emit front t, p n := by
  induction t generalizing front with
  | nil => exact fun n none => absurd none List.not_mem_nil
  | cons c t ih =>
    intro n member
    rcases List.mem_append.mp member with here | later
    · exact holds _ _ n here
    · exact ih n later

end Walk

/-- A text leaves nothing open for what follows it: no fenced block and no inlined document. -/
def Clear (t : Text) : Prop := Even (fenceCount t) ∧ depth 0 (tags t) = 0

instance (t : Text) : Decidable (Clear t) := inferInstanceAs (Decidable (_ ∧ _))

/-- The level of the heading that a line is behind `front`. -/
def visible (front line : Text) : List Nat := if Clear front then (level? line).toList else []

def headingAt (front rest : Text) : List Nat := if EndsLine front then visible front rest else []

/-- The levels of the headings of a text that lie neither in fenced code nor in an inlined document. -/
def outline (t : Text) : List Nat := walk headingAt [] t

theorem visible_of_none {line : Text} (none : level? line = none) (front : Text) :
    visible front line = [] := by
  rw [visible, none]
  exact ite_self []

section Lines

variable {front line : Text}

theorem walk_headingAt_line (ends : EndsLine front) (clean : '\n' ∉ line) {t : Text}
    (next : ∀ c ∈ t.head?, c = '\n') :
    walk headingAt front (line ++ t) = visible front line ++ walk headingAt (front ++ line) t := by
  have whole : level? (line ++ t) = level? line := by
    cases t with
    | nil => rw [List.append_nil]
    | cons c t => exact next c rfl ▸ level?_append_cons (by decide) line t
  rw [walk_append]
  congr 1
  cases line with
  | nil => exact (visible_of_none rfl front).symm
  | cons c line =>
    rw [walk, headingAt, if_pos ends, walk_eq_nil, List.append_nil, visible, whole, visible]
    intro u d v split
    rw [headingAt, if_neg]
    rw [List.append_assoc]
    refine not_endsLine (by simp) fun inside => clean ?_
    rw [split]
    rcases List.mem_append.mp inside with first | later
    · exact List.mem_cons.mpr (Or.inl (List.mem_singleton.mp first))
    · exact List.mem_cons_of_mem _ (List.mem_append_left _ later)

theorem walk_headingAt_last (ends : EndsLine front) (clean : '\n' ∉ line) :
    walk headingAt front line = visible front line := by
  have last := walk_headingAt_line ends clean (t := []) (by simp)
  rwa [List.append_nil, walk, List.append_nil] at last

theorem walk_headingAt_cons (ends : EndsLine front) (clean : '\n' ∉ line) (more : Text) :
    walk headingAt front (line ++ '\n' :: more) =
      visible front line ++ walk headingAt (front ++ line ++ ['\n']) more := by
  have newline : headingAt (front ++ line) ('\n' :: more) = [] := by
    have none : level? ('\n' :: more) = none := level?_append_cons (by decide) [] more
    rw [headingAt, visible_of_none none, ite_self]
  rw [walk_headingAt_line ends clean (by simp), walk, newline, List.nil_append]

end Lines

namespace Heading

theorem exists_of_level?_eq_some {line : Text} {level : Nat} (heading : level? line = some level) :
    ∃ behind, line = '#' :: behind := by
  obtain ⟨⟨_, rest⟩, found, rfl⟩ := Option.map_eq_some_iff.mp heading
  obtain ⟨same, ⟨low, _⟩, _⟩ := ofLine?_eq_some found
  obtain ⟨n, more⟩ := Nat.exists_eq_add_one_of_ne_zero (Nat.ne_of_gt low)
  rw [more, List.replicate_succ] at same
  exact ⟨_, same⟩

theorem map_level_ofLines_cons {excluded : SpanSet} {front line : Text}
    (judged : (level? line).isSome → excluded.contains front.size = decide (¬ Clear front))
    (number : Nat) (more : List Text) :
    (ofLines excluded front.size number (line :: more)).map (·.level) =
      visible front line ++
        (ofLines excluded (front.size + line.size + 1) (number + 1) more).map (·.level) := by
  rw [ofLines, visible]
  unfold level? at judged ⊢
  cases heading : ofLine? line with
  | none => rw [Option.map_none, Option.toList_none, ite_self, List.nil_append]
  | some found =>
    rw [heading] at judged
    by_cases clear : Clear front <;> simp [judged, clear]

theorem intercalate_line (line : Text) {more : List Text} (nonempty : more ≠ []) :
    ['\n'].intercalate (line :: more) = line ++ '\n' :: ['\n'].intercalate more := by
  rw [List.intercalate_cons_of_ne_nil nonempty, List.append_assoc, List.singleton_append]

theorem size_line (front line : Text) : (front ++ line ++ ['\n']).size = front.size + line.size + 1 := by
  rw [Text.size_append, Text.size_append]
  rfl

section Extraction

variable {front : Text} (ends : EndsLine front) (before : Tagged front)

include ends before

/-- The line of a heading is passed over when something is open in front of it. -/
theorem contains_excludedSpans {rest : Text} (behind : Tagged rest) :
    (excludedSpans (front ++ '#' :: rest) true).contains front.size = decide (¬ Clear front) := by
  have other : '#' ≠ backtick ∧ '#' ≠ '<' := by decide
  rw [excludedSpans, if_pos rfl, SpanSet.contains_union, contains_codeSpans other.1 ends,
    contains_wrapperSpans before other.2 behind, ← Bool.decide_or, decide_eq_decide]
  exact Decidable.not_and_iff_not_or_not.symm

theorem map_level_ofLines {lines : List Text} (nonempty : lines ≠ [])
    (clean : ∀ line ∈ lines, '\n' ∉ line) (behind : Tagged (['\n'].intercalate lines))
    (number : Nat) :
    (ofLines (excludedSpans (front ++ ['\n'].intercalate lines) true) front.size number
      lines).map (·.level) =
      walk headingAt front (['\n'].intercalate lines) := by
  generalize whole : front ++ ['\n'].intercalate lines = t
  induction lines generalizing front number with
  | nil => exact absurd rfl nonempty
  | cons line more ih =>
    obtain ⟨first, later⟩ := List.forall_mem_cons.mp clean
    have judged : (level? line).isSome →
        (excludedSpans t true).contains front.size = decide (¬ Clear front) := by
      intro heading
      obtain ⟨level, heading⟩ := Option.isSome_iff_exists.mp heading
      obtain ⟨rest, rfl⟩ := exists_of_level?_eq_some heading
      rw [List.intercalate_cons_cons_left] at behind whole
      rw [← whole]
      exact contains_excludedSpans ends before (behind.of_plain_append (t := ['#']) (by decide))
    rw [map_level_ofLines_cons judged]
    cases more with
    | nil =>
      rw [ofLines, List.map_nil, List.append_nil, List.intercalate_singleton,
        walk_headingAt_last ends first]
    | cons next rest =>
      rw [intercalate_line line (by simp)] at behind whole ⊢
      have ends' : EndsLine (front ++ line ++ ['\n']) := Or.inr ⟨_, rfl⟩
      obtain ⟨tagged, others⟩ := behind.of_line
      have before' : Tagged (front ++ line ++ ['\n']) :=
        (before.append tagged).append (.char (by decide) .nil)
      rw [walk_headingAt_cons ends first,
        ← ih ends' before' (by simp) later others (number + 1) (by rw [← whole]; simp), size_line]

end Extraction

/-- What is extracted from a text, blocks inlined earlier left out, is its outline. -/
theorem map_level_extract {t : Text} (tagged : Tagged t) : (extract t true).map (·.level) = outline t := by
  have found := map_level_ofLines (Or.inl rfl) .nil t.lines_ne_nil
    (fun line member => Text.newline_not_mem_line member) (t.intercalate_lines.symm ▸ tagged) 0
  rwa [List.nil_append, Text.intercalate_lines] at found

end Heading

theorem bounds_of_mem_outline {t : Text} : ∀ level ∈ outline t, minLevel ≤ level ∧ level ≤ maxLevel := by
  refine forall_mem_walk fun before behind level member => ?_
  unfold headingAt visible at member
  split at member
  · split at member
    · exact level?_bounds (Option.mem_toList.mp member)
    · cases member
  · cases member

end Transclusion

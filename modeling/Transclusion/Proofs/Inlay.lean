import Transclusion.Proofs.Outline

namespace Transclusion

open WrapperTag Heading

theorem not_endsLine_front {y z : Text} (clean : '\n' ∉ y ++ z) (nonempty : y ≠ []) : ¬ EndsLine y :=
  not_endsLine (u := []) nonempty fun line => clean (List.mem_append_left z line)

/-- Text that can stand in place of a mention without a heading of the text around it appearing or
vanishing: it is no part of the marks of a heading, leaves nothing open behind it, and a line that
begins in it begins in a block of its own. -/
structure Inlay (x : Text) : Prop where
  starts : ∃ c rest, x = c :: rest ∧ c ∉ ['#', ' ', '\t']
  ends : ¬ EndsLine x
  well : WellTagged x
  even : Even (fenceCount x)
  fences : ∀ u t, fenceCount (u ++ x ++ t) = fenceCount u + fenceCount x + fenceCount t
  hidden : ∀ y z, x = y ++ z → y ≠ [] → EndsLine y → ∀ n, n < depth n (tags y)

namespace Inlay

variable {x x' u t : Text}

theorem ne_nil (inlay : Inlay x) : x ≠ [] := fun none => inlay.ends (Or.inl none)

theorem endsLine_iff (inlay : Inlay x) (u t : Text) : EndsLine (u ++ x ++ t) ↔ t ≠ [] ∧ EndsLine t := by
  cases t with
  | nil =>
    rw [List.append_nil, endsLine_append inlay.ne_nil]
    exact iff_of_false inlay.ends fun none => none.1 rfl
  | cons c t =>
    rw [endsLine_append (List.cons_ne_nil c t)]
    exact (and_iff_right (List.cons_ne_nil c t)).symm

/-- What is open behind an inlay is what is open without it. -/
theorem clear_iff (inlay : Inlay x) (before : Tagged u) (t : Text) :
    Clear (u ++ x ++ t) ↔ Even (fenceCount u + fenceCount t) ∧ depth 0 (tags u ++ tags t) = 0 := by
  have opened : depth 0 (tags (u ++ x ++ t)) = depth 0 (tags u ++ tags t) := by
    rw [(before.append inlay.well.tagged).tags_append, before.tags_append, depth_append,
      depth_append, depth_append, inlay.well.balanced.level]
  have parity : Even (fenceCount (u ++ x ++ t)) ↔ Even (fenceCount u + fenceCount t) := by
    rw [inlay.fences, Nat.add_right_comm, Nat.even_add]
    exact iff_true_right inlay.even
  rw [Clear, opened, parity]

/-- An inlay adds nothing to the outline, so what comes before it and what comes behind make it up. -/
theorem outline_eq (inlay : Inlay x) (before : Tagged u) (t : Text) :
    outline (u ++ x ++ t) = outline u ++ walk headingAt (u ++ x) t := by
  obtain ⟨c, rest, same, apart⟩ := inlay.starts
  have front : walk (fun before behind => headingAt before (behind ++ (x ++ t))) [] u = outline u := by
    refine walk_congr fun v d w _ => ?_
    have level : level? (d :: w ++ (x ++ t)) = level? (d :: w) := by
      rw [same]
      exact level?_append_cons apart (d :: w) (rest ++ t)
    rw [headingAt, headingAt, visible, visible, level]
  have inside : walk (fun before behind => headingAt before (behind ++ t)) u x = [] := by
    refine walk_eq_nil fun y d z split => ?_
    cases y with
    | nil =>
      rw [List.nil_append] at split
      have none : level? (d :: z ++ t) = none := by
        rw [← split, same]
        exact level?_append_cons apart [] (rest ++ t)
      rw [headingAt, visible_of_none none, ite_self]
    | cons e y =>
      rw [headingAt]
      split
      · rename_i ends
        have ends' := (endsLine_append (List.cons_ne_nil e y)).mp ends
        have opened := inlay.hidden (e :: y) (d :: z) split (List.cons_ne_nil e y) ends' (depth 0 (tags u))
        rw [visible, if_neg]
        rw [Clear, before.tags_append, depth_append]
        omega
      · rfl
  rw [outline, List.append_assoc, walk_append, front, List.nil_append, walk_append, inside, List.nil_append]

theorem outline_replace (inlay : Inlay x) (inlay' : Inlay x') (before : Tagged u) (t : Text) :
    outline (u ++ x ++ t) = outline (u ++ x' ++ t) := by
  rw [inlay.outline_eq before, inlay'.outline_eq before]
  congr 1
  refine walk_congr fun v c w _ => ?_
  simp only [headingAt, visible, inlay.endsLine_iff, inlay'.endsLine_iff, inlay.clear_iff before,
    inlay'.clear_iff before]

/-- Replacing a mention keeps the outline when what is done to the text behind it does. -/
theorem outline_replace_append {front gap new : Text} (inlay : Inlay x) (inlay' : Inlay x')
    (before : Tagged (front ++ gap))
    (later : outline (front ++ gap ++ x' ++ t) = outline (front ++ gap ++ x' ++ new)) :
    outline (front ++ (gap ++ x ++ t)) = outline (front ++ (gap ++ x' ++ new)) := by
  have same := (inlay.outline_replace inlay' before t).trans later
  simpa only [List.append_assoc] using same

/-- Text within a line, without a tag or a fence. -/
theorem of_plain {c : Char} {rest : Text} (apart : c ∉ ['#', ' ', '\t']) (line : '\n' ∉ c :: rest)
    (tag : '<' ∉ c :: rest)
    (tick : backtick ∉ c :: rest) : Inlay (c :: rest) where
  starts := ⟨c, rest, rfl, apart⟩
  ends := not_endsLine (u := []) (List.cons_ne_nil c rest) line
  well := .of_not_mem tag
  even := by rw [fenceCount, fenceRuns_of_plain tick]; exact Even.zero
  fences u t := by
    have first : c ≠ backtick := fun same => tick (same ▸ List.mem_cons_self ..)
    have later : backtick ∉ rest := fun inside => tick (List.mem_cons_of_mem _ inside)
    rw [List.append_assoc, List.cons_append, fenceCount_append_cons first,
      fenceCount_plain_append later, fenceCount, fenceCount, fenceCount, fenceRuns_of_plain tick]
    rfl
  hidden y z split some ends := absurd ends (not_endsLine_front (split ▸ line) some)

/-- Text in brackets, all of whose lines but the first begin in a block of its own. -/
theorem of_brackets {inside : Text} (brackets : x = '<' :: (inside ++ ['>'])) (well : WellTagged x)
    (even : Even (fenceCount x))
    (hidden : ∀ y z, x = y ++ z → y ≠ [] → EndsLine y → ∀ n, n < depth n (tags y)) : Inlay x where
  starts := ⟨'<', inside ++ ['>'], brackets, by decide⟩
  ends := by
    rw [brackets, ← List.cons_append, endsLine_concat]
    decide
  well := well
  even := even
  fences u t := by rw [brackets, fenceCount_between (by decide) (by decide)]
  hidden := hidden

theorem stubFor {path : Text} (quotable : Quotable path)
    (even : Even (fenceCount (WrapperTag.stubFor path))) :
    Inlay (WrapperTag.stubFor path) := by
  obtain ⟨inside, brackets⟩ := exists_spell path .stub
  have line : '\n' ∉ WrapperTag.stubFor path := newline_not_mem_spell quotable .stub
  exact of_brackets brackets (wellTagged_stubFor quotable) even fun y z split some ends =>
    absurd ends (not_endsLine_front (split ▸ line) some)

/-- The lines of an inlined document begin in its block. -/
theorem wrap {path content : Text} (quotable : Quotable path) (well : WellTagged content)
    (even : Even (fenceCount (WrapperTag.wrap path content))) : Inlay (WrapperTag.wrap path content) := by
  obtain ⟨inside, brackets⟩ := exists_wrap path content
  refine of_brackets brackets (wellTagged_wrap quotable well) even fun y z split some ends n => ?_
  have line := newline_not_mem_spell quotable .opening
  rw [wrap_eq] at split
  rcases List.append_eq_append_iff.mp split with ⟨more, rfl, rest⟩ | ⟨more, whole, _⟩
  · cases more with
    | nil =>
      rw [List.append_nil] at some ends
      exact absurd ends (not_endsLine (u := []) some line)
    | cons c more =>
      obtain ⟨rfl, behind⟩ := List.cons.inj rest
      have ends' : EndsLine more := by
        rw [List.append_cons] at ends
        exact ends.of_append
      rw [(Tagged.spell quotable .opening).tags_append, tags_spell quotable, tags_cons (by decide),
        List.singleton_append, depth]
      exact le_depth_front quotable well ends' behind (n + 1)
  · exact absurd ends (not_endsLine_front (whole ▸ line) some)

end Inlay

end Transclusion

import Transclusion.Proofs.MarkRuns
import Transclusion.Proofs.TagDepth

namespace Transclusion

namespace WrapperTag

theorem tail?_eq_some {t rest : Text} {tag : WrapperTag} (found : tail? t = some (tag, rest)) :
    tag ≠ closing ∧ ∃ more, t = more ++ rest := by
  have whole : t = t.takeWhile isBlank ++ t.dropWhile isBlank := List.takeWhile_append_dropWhile.symm
  unfold tail? at found
  split at found
  · rename_i behind same
    cases found
    rw [same] at whole
    exact ⟨by decide, t.takeWhile isBlank ++ ['/', '>'], by rwa [List.append_assoc]⟩
  · rename_i behind same
    cases found
    rw [same] at whole
    exact ⟨by decide, t.takeWhile isBlank ++ ['>'], by rwa [List.append_assoc]⟩
  · cases found

/-- A tag begins with a bracket, and a closing one is always written in the same way. -/
theorem atStart?_eq_some {t rest : Text} {tag : WrapperTag} (found : atStart? t = some (tag, rest)) :
    ∃ more, t = '<' :: (more ++ rest) ∧ (tag = closing → '<' :: more = ['<', '/'] ++ name ++ ['>']) := by
  unfold atStart? at found
  split at found
  · rename_i behind same
    cases found
    exact ⟨'/' :: name ++ ['>'], (List.append_eq_of_isPrefixOf?_eq_some same).symm, fun _ => rfl⟩
  · obtain ⟨named, start, found⟩ := Option.bind_eq_some_iff.mp found
    dsimp only at found
    split at found
    · cases found
    · obtain ⟨value, assigned, found⟩ := Option.bind_eq_some_iff.mp found
      split at found
      · rename_i behind quote
        obtain ⟨other, more, rfl⟩ := tail?_eq_some found
        have blanks : named = named.takeWhile isBlank ++ named.dropWhile isBlank :=
          List.takeWhile_append_dropWhile.symm
        have path : value = value.takeWhile (· ≠ '"') ++ value.dropWhile (· ≠ '"') :=
          List.takeWhile_append_dropWhile.symm
        rw [quote] at path
        rw [← List.append_eq_of_isPrefixOf?_eq_some assigned] at blanks
        refine ⟨name ++ named.takeWhile isBlank ++ pathAttribute ++ value.takeWhile (· ≠ '"') ++
          '"' :: more, ?_, fun same => absurd same other⟩
        calc t = '<' :: name ++ named := (List.append_eq_of_isPrefixOf?_eq_some start).symm
          _ = '<' :: name ++ (named.takeWhile isBlank ++ (pathAttribute ++
              (value.takeWhile (· ≠ '"') ++ '"' :: (more ++ rest)))) := by rw [← path, ← blanks]
          _ = _ := by simp
      · cases found

/-- The tags that begin in `front` when `rest` follows it. The last of them may end in `rest`, and
`skip` is as for `scan`. -/
def begun (skip : Nat) : Text → Text → List WrapperTag
  | [], _ => []
  | c :: front, rest =>
    match skip with
    | skip + 1 => begun skip front rest
    | 0 =>
      match atStart? (c :: front ++ rest) with
      | some (tag, behind) => tag :: begun ((front ++ rest).length - behind.length) front rest
      | none => begun 0 front rest

theorem begun_skip (u front rest : Text) : begun u.length (u ++ front) rest = begun 0 front rest := by
  induction u with
  | nil => rfl
  | cons c u ih => rw [List.length_cons, List.cons_append, begun, ih]

theorem begun_of_le {skip : Nat} {front : Text} (passed : front.length ≤ skip) (rest : Text) :
    begun skip front rest = [] := by
  induction front generalizing skip with
  | nil => rfl
  | cons c front ih =>
    obtain ⟨skip, rfl⟩ := Nat.exists_eq_add_one_of_ne_zero
      (Nat.ne_of_gt (Nat.lt_of_lt_of_le (Nat.succ_pos _) passed))
    rw [begun]
    exact ih (Nat.le_of_succ_le_succ passed)

/-- A tag that begins in front of the rest ends there as well, or what it reaches over is more than
the front. -/
theorem begun_of_atStart? {front rest behind : Text} {tag : WrapperTag}
    (found : atStart? ('<' :: front ++ rest) = some (tag, behind)) :
    (∃ more front', front = more ++ front' ∧ behind = front' ++ rest ∧
      begun 0 ('<' :: front) rest = tag :: begun 0 front' rest) ∨
      ∃ more, rest = more ++ behind ∧ begun 0 ('<' :: front) rest = [tag] := by
  obtain ⟨inside, whole, _⟩ := atStart?_eq_some found
  have split : front ++ rest = inside ++ behind := (List.cons.inj whole).2
  have step : begun 0 ('<' :: front) rest = tag :: begun inside.length front rest := by
    rw [begun, found]
    dsimp only
    rw [split, List.length_append, Nat.add_sub_cancel]
  rcases List.append_eq_append_iff.mp split with ⟨more, rfl, rfl⟩ | ⟨front', rfl, rfl⟩
  · refine Or.inr ⟨more, rfl, ?_⟩
    rw [step, begun_of_le (by rw [List.length_append]; exact Nat.le_add_right ..)]
  · exact Or.inl ⟨inside, front', rfl, rfl, by rw [step, begun_skip]⟩

/-- The number of marks in a text changes neither which tags begin in front of a line nor which are
found there. The induction is on the front, which a tag takes a part of or reaches over. -/
theorem begun_squeeze {front : Text} (ends : EndsLine front) (rest : Text) :
    begun 0 (squeeze front) (squeeze rest) = begun 0 front rest := by
  induction size : front.length using Nat.strongRecOn generalizing front with
  | ind n ih =>
    cases front with
    | nil => rfl
    | cons c front =>
      rw [List.length_cons] at size
      have ends' : EndsLine front := EndsLine.of_append (u := [c]) ends
      have whole := squeeze_append_of_endsLine ends rest
      cases found : atStart? (c :: front ++ rest) with
      | none =>
        have step : begun 0 (c :: front) rest = begun 0 front rest := by rw [begun, found]
        have later := ih front.length (by omega) ends' rfl
        by_cases marks : c = '#' ∧ front.head? = some '#'
        · rw [squeeze, if_pos marks, step, later]
        · have none : atStart? (c :: squeeze front ++ squeeze rest) = none := by
            rw [squeeze, if_neg marks] at whole
            rw [← whole, atStart?_squeeze, found, Option.map_none]
          rw [squeeze, if_neg marks, begun, none, step, ← later]
      | some pair =>
        obtain ⟨tag, behind⟩ := pair
        obtain ⟨_, bracket, _⟩ := atStart?_eq_some found
        obtain rfl : c = '<' := (List.cons.inj bracket).1
        have found' : atStart? ('<' :: squeeze front ++ squeeze rest) = some (tag, squeeze behind) := by
          rw [squeeze_cons (by decide)] at whole
          rw [← whole, atStart?_squeeze, found]
          rfl
        rw [squeeze_cons (by decide)]
        rcases begun_of_atStart? found with ⟨more, front', rfl, rfl, step⟩ | ⟨more, rfl, step⟩
        · have inner : EndsLine front' := EndsLine.of_append ends'
          have later := ih front'.length (by rw [List.length_append] at size; omega) inner rfl
          rw [squeeze_append_of_endsLine inner] at found'
          rcases begun_of_atStart? found' with ⟨_, front'', _, same, step'⟩ | ⟨_, same, step'⟩
          · rw [step', step, ← List.append_cancel_right same, later]
          · -- the tag ends where the front does
            have none : squeeze front' = [] := by
              have size := congrArg List.length same
              rw [List.length_append, List.length_append] at size
              exact List.eq_nil_of_length_eq_zero (by omega)
            rw [step', step, ← later, none]
            rfl
        · rcases begun_of_atStart? found' with ⟨_, front'', _, same, step'⟩ | ⟨_, _, step'⟩
          · have none : front'' = [] := by
              have size := congrArg List.length same
              have shorter := (squeeze_suffix more behind).length_le
              rw [List.length_append] at size
              exact List.eq_nil_of_length_eq_zero (by omega)
            rw [step', step, none]
            rfl
          · rw [step', step]

theorem bounds_scan (offset skip : Nat) (t : Text) :
    ∀ tag ∈ scan offset skip t, offset ≤ tag.2.start ∧ tag.2.start < tag.2.stop := by
  induction t generalizing offset skip with
  | nil => exact fun tag none => absurd none List.not_mem_nil
  | cons c t ih =>
    have later (skip : Nat) (tag : WrapperTag × Span) (member : tag ∈ scan (offset + c.utf8Size) skip t) :
        offset ≤ tag.2.start ∧ tag.2.start < tag.2.stop := by
      obtain ⟨begins, filled⟩ := ih _ _ tag member
      exact ⟨Nat.le_of_add_right_le begins, filled⟩
    intro tag member
    cases skip with
    | succ skip => exact later skip tag member
    | zero =>
      rw [scan] at member
      cases found : atStart? (c :: t) with
      | none =>
        rw [found] at member
        exact later 0 tag member
      | some pair =>
        rw [found] at member
        rcases List.mem_cons.mp member with rfl | member
        · obtain ⟨more, whole, _⟩ := atStart?_eq_some found
          have width := Char.utf8Size_pos '<'
          rw [whole, Text.size, Text.size_append]
          dsimp only
          omega
        · exact later _ tag member

/-- What is scanned of a text up to a mark are the tags that begin there, no closing one of which
goes over the mark. -/
theorem exists_scan_append (offset skip : Nat) (front rest : Text) :
    ∃ early skip',
      scan offset skip (front ++ '#' :: rest) =
        early ++ scan (offset + front.size) skip' ('#' :: rest) ∧
      early.map (·.1) = begun skip front ('#' :: rest) ∧
      ∀ tag ∈ early, tag.2.start < offset + front.size ∧
        (tag.1 = closing → tag.2.stop ≤ offset + front.size) := by
  induction front generalizing offset skip with
  | nil => exact ⟨[], skip, rfl, rfl, fun tag none => absurd none List.not_mem_nil⟩
  | cons c front ih =>
    rw [Text.size, ← Nat.add_assoc]
    cases skip with
    | succ skip => exact ih (offset + c.utf8Size) skip
    | zero =>
      rw [List.cons_append, scan, begun, List.cons_append]
      cases found : atStart? (c :: (front ++ '#' :: rest)) with
      | none => exact ih (offset + c.utf8Size) 0
      | some pair =>
        obtain ⟨tag, behind⟩ := pair
        obtain ⟨early, skip', split, tags, bounds⟩ :=
          ih (offset + c.utf8Size) ((front ++ '#' :: rest).length - behind.length)
        refine ⟨_ :: early, skip', congrArg (_ :: ·) split, congrArg (_ :: ·) tags,
          List.forall_mem_cons.mpr
            ⟨⟨Nat.lt_add_right _ (Nat.lt_add_of_pos_right c.utf8Size_pos), fun closes => ?_⟩, bounds⟩⟩
        obtain ⟨more, whole, spelt⟩ := atStart?_eq_some found
        have cut : c :: front ++ '#' :: rest = '<' :: more ++ behind := whole
        have inside : Text.size ('<' :: more) ≤ Text.size (c :: front) := by
          rcases List.append_eq_append_iff.mp cut with ⟨past, tag, rest'⟩ | ⟨past, same, _⟩
          · cases past with
            | nil => rw [tag, List.append_nil]
            | cons d past =>
              obtain ⟨rfl, _⟩ := List.cons.inj rest'
              have mark : '#' ∈ ['<', '/'] ++ name ++ ['>'] := spelt closes ▸ tag ▸ by simp
              exact absurd mark (by decide)
          · rw [same, Text.size_append]
            exact Nat.le_add_right ..
        have total : Text.size (c :: (front ++ '#' :: rest)) = Text.size ('<' :: more) + behind.size := by
          rw [← Text.size_append]
          exact congrArg Text.size whole
        simp only [Text.size] at inside total ⊢
        omega

/-- No tag begins at a mark, so the tags of a text are those that begin before the mark and those
behind it. -/
theorem exists_scan_mark (front rest : Text) :
    ∃ early late, scan 0 0 (front ++ '#' :: rest) = early ++ late ∧
      early.map (·.1) = begun 0 front ('#' :: rest) ∧
      (∀ tag ∈ early, tag.2.start < front.size ∧ (tag.1 = closing → tag.2.stop ≤ front.size)) ∧
      ∀ tag ∈ late, front.size < tag.2.start ∧ tag.2.start < tag.2.stop := by
  obtain ⟨early, skip, split, tags, bounds⟩ := exists_scan_append 0 0 front rest
  rw [Nat.zero_add] at split bounds
  refine ⟨early, _, split, tags, bounds, fun tag member => ?_⟩
  obtain ⟨skip', later⟩ : ∃ skip', scan front.size skip ('#' :: rest) =
      scan (front.size + 1) skip' rest := by
    cases skip with
    | zero => exact ⟨0, scan_cons (by decide) ..⟩
    | succ skip => exact ⟨skip, rfl⟩
  rw [later] at member
  exact bounds_scan _ _ _ tag member

/-- A mark stands in an inlined document when the tags that begin before it leave a block open. -/
theorem contains_wrapperSpans_mark (front rest : Text) :
    (wrapperSpans (front ++ '#' :: rest)).contains front.size =
      decide (depth 0 (begun 0 front ('#' :: rest)) ≠ 0) := by
  obtain ⟨early, late, split, tags, before, behind⟩ := exists_scan_mark front rest
  have reached : front.size < Text.size (front ++ '#' :: rest) := by
    have width := Char.utf8Size_pos '#'
    rw [Text.size_append, Text.size]
    omega
  rw [wrapperSpans, SpanSet.contains_ofSpans, split, ← tags]
  exact any_blocks reached (by simp) (fun tag member => (before tag member).imp_left Nat.le_of_lt) behind

end WrapperTag

end Transclusion

import Mathlib.Data.List.DropRight
import Transclusion.Proofs.MentionPattern

namespace Transclusion

namespace Text

variable {p : Char → Bool} {t : Text}

theorem dropEndWhile_eq_rdropWhile (p : Char → Bool) (t : Text) : dropEndWhile p t = t.rdropWhile p := rfl

theorem dropEndWhile_eq_iff {u : Text} :
    dropEndWhile p t = u ↔ ∃ tail, t = u ++ tail ∧ (∀ c ∈ tail, p c) ∧ ∀ c ∈ u.getLast?, ¬ p c := by
  constructor
  · rintro rfl
    obtain ⟨tail, whole, dropped⟩ := exists_dropEndWhile p t
    refine ⟨tail, whole, dropped, ?_⟩
    rw [dropEndWhile_eq_rdropWhile]
    intro c last
    obtain ⟨some, same⟩ := List.mem_getLast?_eq_getLast last
    exact same ▸ List.rdropWhile_last_not p t some
  · rintro ⟨tail, rfl, dropped, kept⟩
    have behind : dropEndWhile p (u ++ tail) = u.rdropWhile p := by
      rw [dropEndWhile_eq_rdropWhile, List.rdropWhile, List.reverse_append,
        List.dropWhile_append_of_pos fun c member => dropped c (List.mem_reverse.mp member),
        List.rdropWhile]
    rw [behind, List.rdropWhile_eq_self_iff]
    exact fun some => kept _ (List.getLast?_eq_some_getLast some)

end Text

theorem Holds.apart {offset : Nat} {t : Text} {refs : List Reference} (holds : Holds offset t refs) :
    refs.Pairwise fun r s => r.stop ≤ s.start := by
  induction holds with
  | rest => exact .nil
  | mention _ later ih => exact List.pairwise_cons.mpr ⟨later.offset_le, ih⟩

namespace Reference

theorem hasExtension_iff {t : Text} :
    hasExtension t ↔ ∃ stem ending, t = stem ++ '.' :: ending ∧ ending ≠ [] ∧
      ∀ c ∈ ending, c.isAlphanum := by
  unfold hasExtension
  dsimp only
  rw [Bool.and_eq_true, Bool.not_eq_true', List.isEmpty_eq_false_iff, decide_eq_true_iff]
  constructor
  · rintro ⟨some, dot⟩
    obtain ⟨rest, split⟩ := List.takeWhile_prefix (l := t.reverse) Char.isAlphanum
    rw [← congrArg (List.drop _) split, List.drop_left] at dot
    obtain ⟨stem, rfl⟩ := List.head?_eq_some_iff.mp dot
    refine ⟨stem.reverse, (t.reverse.takeWhile Char.isAlphanum).reverse, ?_, by simpa using some,
      fun c member => ?_⟩
    · have whole := congrArg List.reverse split
      rw [List.reverse_reverse, List.reverse_append, List.reverse_cons, List.append_assoc] at whole
      exact whole.symm
    · exact List.all_eq_true.mp (List.all_takeWhile ..) c (List.mem_reverse.mp member)
  · rintro ⟨stem, ending, rfl, some, all⟩
    have run : (stem ++ '.' :: ending).reverse.takeWhile Char.isAlphanum = ending.reverse := by
      rw [List.reverse_append, List.reverse_cons, List.append_assoc,
        List.takeWhile_append_of_pos fun c member => all c (List.mem_reverse.mp member)]
      simp
    rw [run]
    refine ⟨by simpa using some, ?_⟩
    rw [List.reverse_append, List.reverse_cons, List.append_assoc, List.drop_left]
    rfl

theorem token_eq_iff {t u : Text} :
    token t = u ↔ ∃ dots rest, t = u ++ dots ++ rest ∧ (∀ c ∈ u ++ dots, isTokenChar c) ∧
      (∀ c ∈ rest.head?, ¬ isTokenChar c) ∧ (∀ c ∈ dots, c = '.') ∧ u.getLast? ≠ some '.' := by
  have dotted {dots : Text} : (∀ c ∈ dots, decide (c = '.')) ↔
    ∀ c ∈ dots, c = '.' := by simp only [decide_eq_true_eq]
  have kept {u : Text} : (∀ c ∈ u.getLast?, ¬ decide (c = '.')) ↔ u.getLast? ≠ some '.' := by
    cases u.getLast? <;> simp
  rw [token, Text.dropEndWhile_eq_iff]
  constructor
  · rintro ⟨dots, split, dropped, last⟩
    have whole := run_append_afterRun t
    rw [run, split] at whole
    refine ⟨dots, afterRun t, whole.symm, ?_, ?_, dotted.mp dropped, kept.mp last⟩
    · exact split ▸ fun c member => isTokenChar_of_mem_run member
    · intro c head
      have other := List.head?_dropWhile_not isTokenChar t
      rw [show (t.dropWhile isTokenChar).head? = some c from head] at other
      exact Bool.eq_false_iff.mp other
  · rintro ⟨dots, rest, rfl, all, ends, dropped, last⟩
    refine ⟨dots, ?_, dotted.mpr dropped, kept.mpr last⟩
    rw [takeWhile_append_of_head _ ends]
    exact List.takeWhile_eq_self_iff.mpr all

end Reference

/-- `target` is mentioned between `before` and `after`: the sign begins the text or follows a blank
or an opening bracket and does not lie in code, and what may belong to a path behind it is the
target and dots, which end a sentence. -/
structure Mentioned (before after target : Text) : Prop where
  follows : ∀ c ∈ before.getLast?, isBlank c ∨ c = '(' ∨ c = '[' ∨ c = '\x7b'
  outside : (codeSpans (before ++ '@' :: after)).contains before.size = false
  token : ∃ dots rest, after = target ++ dots ++ rest ∧ (∀ c ∈ target ++ dots, Reference.isTokenChar c) ∧
    (∀ c ∈ rest.head?, ¬ Reference.isTokenChar c) ∧ (∀ c ∈ dots, c = '.') ∧ target.getLast? ≠ some '.'
  pathLike : '/' ∈ target ∨ ∃ stem ending, target = stem ++ '.' :: ending ∧ ending ≠ [] ∧
    ∀ c ∈ ending, c.isAlphanum

open Reference

theorem mentioned_iff {before after target : Text} : Mentioned before after target ↔
    mayFollow before.getLast? ∧ (codeSpans (before ++ '@' :: after)).contains before.size = false ∧
      isPathLike (token after) ∧ target = token after := by
  have follows : mayFollow before.getLast? ↔
      ∀ c ∈ before.getLast?, isBlank c ∨ c = '(' ∨ c = '[' ∨ c = '\x7b' := by
    cases before.getLast? with
    | none => simp [mayFollow]
    | some c => simp [mayFollow, or_assoc]
  have pathLike : isPathLike target ↔
      '/' ∈ target ∨ ∃ stem ending, target = stem ++ '.' :: ending ∧ ending ≠ [] ∧
        ∀ c ∈ ending, c.isAlphanum := by
    rw [isPathLike, Bool.or_eq_true, List.contains_iff_mem, hasExtension_iff]
  constructor
  · intro mentioned
    have same := token_eq_iff.mpr mentioned.token
    exact ⟨follows.mpr mentioned.follows, mentioned.outside,
      same ▸ pathLike.mpr mentioned.pathLike, same.symm⟩
  · rintro ⟨may, outside, path, same⟩
    exact ⟨follows.mp may, outside, token_eq_iff.mp same.symm, pathLike.mp (same ▸ path)⟩

/-- The mentions of a text are exactly those that its grammar tells at each sign on its own,
although the search for them goes on behind what it has found. They stand one behind the other, each
where it says. -/
theorem extract_finds_mentions (t : Text) (oneBased : Bool) :
    extract t oneBased =
      (captures 0 0 none t).filterMap (fun found => ofCapture? t oneBased found.1 found.2) ∧
      (∀ r, r ∈ extract t oneBased ↔
        ∃ before after, t = before ++ '@' :: after ∧ Mentioned before after r.target ∧
        r.place = .endOf (firstPosition oneBased) before) ∧
      (extract t oneBased).Pairwise (fun r s => r.stop ≤ s.start) ∧
      ∀ r ∈ extract t oneBased, t.slice r.start r.stop = r.raw ∧
        ∃ before after, t = before ++ r.raw ++ after ∧ before.size = r.start ∧ Text.size
          (before ++ r.raw) = r.stop := by
  have found (r : Reference) : r ∈ extract t oneBased ↔ ∃ before after, t = before ++ '@' :: after ∧
      Mentioned before after r.target ∧ r.place = .endOf (firstPosition oneBased) before := by
    rw [mem_extract_iff]
    refine exists_congr fun before => exists_congr fun after => and_congr_right fun whole => ?_
    rw [mentioned_iff, ← whole]
    exact ⟨fun meets => ⟨⟨meets.follows, meets.outside, meets.pathLike, meets.target⟩, meets.place⟩,
      fun ⟨⟨follows, outside, pathLike, target⟩, place⟩ => ⟨follows, outside, pathLike, target, place⟩⟩
  refine ⟨extract_eq_captures t oneBased, found, (holds_extract t oneBased).apart, fun r member => ?_⟩
  obtain ⟨before, after, whole, there⟩ := standsAt_of_mem_extract member
  have starts : before.size = r.start := congrArg Place.offset there
  have stops : r.start + r.raw.size = r.stop := rfl
  refine ⟨slice_eq (by rw [whole, List.append_assoc]) starts stops, before, after, whole, starts, ?_⟩
  rw [Text.size_append, starts, stops]

end Transclusion

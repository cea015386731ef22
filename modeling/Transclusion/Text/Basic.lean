namespace Transclusion

/-- A document, a path or a markup tag as its characters. Positions in it are counted in bytes of
its UTF-8 form, since that is what editors and reports exchange. -/
abbrev Text := List Char

namespace Text

/-- Bytes that the text takes in UTF-8. -/
def size : Text → Nat
  | [] => 0
  | c :: t => c.utf8Size + size t

/-- The text from byte `n` on, for an `n` on a character boundary. -/
def dropBytes : Nat → Text → Text
  | 0, t => t
  | _ + 1, [] => []
  | n + 1, c :: t => dropBytes (n + 1 - c.utf8Size) t

/-- The text before byte `n`, for an `n` on a character boundary. -/
def takeBytes : Nat → Text → Text
  | 0, _ => []
  | _ + 1, [] => []
  | n + 1, c :: t => c :: takeBytes (n + 1 - c.utf8Size) t

@[simp]
theorem size_append (t u : Text) : size (t ++ u) = size t + size u := by
  induction t with
  | nil => simp [size]
  | cons c t ih => simp only [List.cons_append, size, ih, Nat.add_assoc]

theorem takeBytes_append (t u : Text) : takeBytes (size t) (t ++ u) = t := by
  induction t with
  | nil => simp [size, takeBytes]
  | cons c t ih =>
    obtain ⟨n, more⟩ := Nat.exists_eq_add_one_of_ne_zero
      (Nat.ne_of_gt (Nat.add_pos_left c.utf8Size_pos (size t)))
    simp only [size, more, List.cons_append, takeBytes]
    rw [← more, Nat.add_sub_cancel_left, ih]

theorem dropBytes_size_add (t u : Text) (n : Nat) : dropBytes (size t + n) (t ++ u) = dropBytes n u := by
  induction t with
  | nil => rw [size, Nat.zero_add, List.nil_append]
  | cons c t ih =>
    obtain ⟨k, more⟩ := Nat.exists_eq_add_one_of_ne_zero
      (Nat.ne_of_gt (Nat.add_pos_left c.utf8Size_pos (size t + n)))
    simp only [size, Nat.add_assoc, more, List.cons_append, dropBytes]
    rw [← more, Nat.add_sub_cancel_left, ih]

theorem dropBytes_append (t u : Text) : dropBytes (size t) (t ++ u) = u := by
  have same := dropBytes_size_add t u 0
  rwa [Nat.add_zero, dropBytes] at same

/-- The bytes from `start` up to `stop`; nothing when the bounds are reversed. -/
def slice (start stop : Nat) (t : Text) : Text := takeBytes (stop - start) (dropBytes start t)

theorem sep_not_mem_splitOn {sep : Char} {t piece : Text} (member : piece ∈ t.splitOn sep) :
    sep ∉ piece := by
  induction t generalizing piece with
  | nil => simp_all [List.splitOn_nil]
  | cons c t ih =>
    obtain ⟨first, more, split⟩ := List.exists_cons_of_ne_nil (List.splitOn_ne_nil sep t)
    rw [split] at ih
    rw [List.splitOn_cons_eq_if_modifyHead, split] at member
    split at member
    · rcases List.mem_cons.mp member with rfl | old
      · exact List.not_mem_nil
      · exact ih old
    · rename_i other
      rw [List.modifyHead_cons] at member
      rcases List.mem_cons.mp member with rfl | old
      · have clean := ih (List.mem_cons_self ..)
        rw [List.mem_cons, not_or]
        exact ⟨fun same => other (beq_iff_eq.mpr same.symm), clean⟩
      · exact ih (List.mem_cons_of_mem _ old)

/-- Lines without their newlines, the part after the last newline included. -/
def lines (t : Text) : List Text := t.splitOn '\n'

theorem lines_ne_nil (t : Text) : t.lines ≠ [] := List.splitOn_ne_nil '\n' t

theorem newline_not_mem_line {t line : Text} (member : line ∈ t.lines) : '\n' ∉ line :=
  sep_not_mem_splitOn member

theorem intercalate_lines (t : Text) : ['\n'].intercalate t.lines = t := List.intercalate_splitOn '\n'

/-- Lines with their newlines; an empty part after the last newline is no line. -/
def linesInclusive : Text → List Text
  | [] => []
  | c :: t =>
    if c = '\n' then [c] :: linesInclusive t
    else match linesInclusive t with
      | [] => [[c]]
      | line :: more => (c :: line) :: more

theorem flatten_linesInclusive (t : Text) : (linesInclusive t).flatten = t := by
  induction t with
  | nil => rfl
  | cons c t ih =>
    unfold linesInclusive
    split
    · exact congrArg (c :: ·) ih
    · cases lines : linesInclusive t with
      | nil =>
        rw [lines] at ih
        exact congrArg (c :: ·) ih
      | cons line more =>
        rw [lines] at ih
        exact congrArg (c :: ·) ih

/-- Only the last line may be without a newline at its end. -/
theorem exists_newline {t : Text} {before behind : List Text} (cut : linesInclusive t = before ++ behind)
    (some : before ≠ []) (more : behind ≠ []) : ∃ u, before.flatten = u ++ ['\n'] := by
  induction t generalizing before with
  | nil => exact absurd (List.append_eq_nil_iff.mp cut.symm).1 some
  | cons c t ih =>
    obtain ⟨line, lines, rfl⟩ := List.exists_cons_of_ne_nil some
    unfold linesInclusive at cut
    split at cut
    · rename_i newline
      obtain ⟨rfl, rest⟩ := List.cons.inj cut
      cases lines with
      | nil => exact ⟨[], by rw [newline]; rfl⟩
      | cons next lines =>
        obtain ⟨u, same⟩ := ih rest (by simp)
        exact ⟨c :: u, congrArg (c :: ·) same⟩
    · cases inner : linesInclusive t with
      | nil =>
        rw [inner] at cut
        have none := (List.cons.inj cut).2
        exact absurd (List.append_eq_nil_iff.mp none.symm).2 more
      | cons next others =>
        rw [inner] at cut
        obtain ⟨rfl, rest⟩ := List.cons.inj cut
        have shorter : linesInclusive t = (next :: lines) ++ behind :=
          inner.trans (congrArg (next :: ·) rest)
        obtain ⟨u, same⟩ := ih shorter (by simp)
        exact ⟨c :: u, congrArg (c :: ·) same⟩

/-- The text without its longest tail of characters that satisfy `p`. -/
def dropEndWhile (p : Char → Bool) (t : Text) : Text := (t.reverse.dropWhile p).reverse

theorem dropEndWhile_append (p : Char → Bool) (t u : Text) :
    dropEndWhile p (t ++ u) =
      if dropEndWhile p u = [] then dropEndWhile p t else t ++ dropEndWhile p u := by
  unfold dropEndWhile
  simp only [List.reverse_append, List.dropWhile_append, List.isEmpty_iff, List.reverse_eq_nil_iff]
  split
  · rfl
  · rw [List.reverse_append, List.reverse_reverse]

/-- What is dropped is a tail of such characters. -/
theorem exists_dropEndWhile (p : Char → Bool) (t : Text) :
    ∃ tail, t = dropEndWhile p t ++ tail ∧ ∀ c ∈ tail, p c := by
  refine ⟨(t.reverse.takeWhile p).reverse, ?_, fun c member => ?_⟩
  · rw [dropEndWhile, ← List.reverse_append, List.takeWhile_append_dropWhile, List.reverse_reverse]
  · exact List.all_eq_true.mp List.all_takeWhile c (List.mem_reverse.mp member)

end Text

end Transclusion

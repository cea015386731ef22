import Mathlib.Data.List.DropRight
import Transclusion.Reference

namespace Transclusion

/-- A part that begins with something else adds nothing to what satisfies `p` at the front. -/
theorem takeWhile_append_of_head {α : Type} {p : α → Bool} (xs : List α) {ys : List α}
    (stops : ∀ y ∈ ys.head?, ¬ p y) :
    (xs ++ ys).takeWhile p = xs.takeWhile p := by
  induction xs with
  | nil =>
    cases ys with
    | nil => rfl
    | cons y ys => exact List.takeWhile_cons_of_neg (stops y rfl)
  | cons x xs ih => rw [List.cons_append, List.takeWhile_cons, List.takeWhile_cons, ih]

/-- A text that starts at byte `offset` holds mentions one behind the other, with other text before,
between and behind them. -/
inductive Holds : Nat → Text → List Reference → Prop
  | rest {offset t} : Holds offset t []
  | mention {offset before r t refs} : offset + Text.size before = r.start → Holds r.stop t refs →
      Holds offset (before ++ r.raw ++ t) (r :: refs)

namespace Holds

theorem prepend {offset : Nat} {t : Text} {refs : List Reference} (u : Text)
    (holds : Holds (offset + u.size) t refs) :
    Holds offset (u ++ t) refs := by
  cases holds with
  | rest => exact .rest
  | @mention _ before r t refs at_ later =>
    rw [← List.append_assoc, ← List.append_assoc]
    exact .mention (by rw [Text.size_append, ← at_, Nat.add_assoc]) later

theorem offset_le {offset : Nat} {t : Text} {refs : List Reference} (holds : Holds offset t refs) :
    ∀ r ∈ refs, offset ≤ r.start := by
  induction holds with
  | rest => intro r member; cases member
  | @mention offset before first t refs at_ _ ih =>
    have bound : offset ≤ first.start := by omega
    intro r member
    rcases List.mem_cons.mp member with rfl | member
    · exact bound
    · have after := ih r member
      simp only [Reference.stop] at after
      omega

/-- No two mentions start at the same byte. -/
theorem starts_ascending {offset : Nat} {t : Text} {refs : List Reference} (holds : Holds offset t refs) :
    (refs.map (·.start)).Pairwise (· < ·) := by
  induction holds with
  | rest => exact .nil
  | @mention offset before first t refs at_ later ih =>
    refine List.pairwise_cons.mpr ⟨?_, ih⟩
    intro start member
    obtain ⟨r, inside, rfl⟩ := List.mem_map.mp member
    show first.start < r.start
    have after := later.offset_le r inside
    have width : 0 < first.raw.size := Nat.add_pos_left (Char.utf8Size_pos _) _
    simp only [Reference.stop] at after
    omega

end Holds

namespace Reference

theorem at_not_mem_token (t : Text) : '@' ∉ token t := by
  intro member
  have inside := (List.rdropWhile_prefix ..).subset member
  have isToken := List.all_eq_true.mp (List.all_takeWhile ..) _ inside
  exact absurd isToken (by decide)

theorem token_prefix (t : Text) : token t <+: t :=
  (List.rdropWhile_prefix ..).trans (List.takeWhile_prefix _)

/-- Text without an `@` holds no mention and only moves the place on. -/
theorem scan_append (code : SpanSet) (first : Nat) (place : Place) (before : Option Char) {u : Text}
    (clean : '@' ∉ u) (t : Text) :
    ∃ place' before', place'.offset = place.offset + u.size ∧
      scan code first place before (u ++ t) = scan code first place' before' t := by
  induction u generalizing place before with
  | nil => exact ⟨place, before, rfl, rfl⟩
  | cons c u ih =>
    simp only [List.mem_cons, not_or] at clean
    obtain ⟨place', before', offset, same⟩ := ih (place.advance first c) (some c) clean.2
    refine ⟨place', before', by rw [offset, Place.offset_advance, Text.size, Nat.add_assoc], ?_⟩
    simp only [List.cons_append, scan, Ne.symm clean.1, decide_false, Bool.false_and,
      Bool.false_eq_true, if_false]
    exact same

theorem getLast?_cons_or (c : Char) (u : Text) (before : Option Char) :
    (c :: u).getLast?.or before = u.getLast?.or (some c) := by
  rw [List.getLast?_cons]
  cases u.getLast? <;> rfl

/-- Scanning past some text leaves its mentions behind, all of which start in it. -/
theorem scan_front (code : SpanSet) (first : Nat) (place : Place) (before : Option Char) (u t : Text) :
    ∃ front place', place'.offset = place.offset + u.size ∧ (∀ r ∈ front, r.start < place'.offset) ∧
      scan code first place before (u ++ t) = front ++ scan code first place' (u.getLast?.or before) t := by
  induction u generalizing place before with
  | nil => exact ⟨[], place, rfl, fun r none => absurd none List.not_mem_nil, rfl⟩
  | cons c u ih =>
    obtain ⟨front, place', offset, inside, same⟩ := ih (place.advance first c) (some c)
    have passed : place'.offset = place.offset + Text.size (c :: u) := by
      rw [offset, Place.offset_advance, Text.size, Nat.add_assoc]
    rw [getLast?_cons_or]
    simp only [List.cons_append, scan, same]
    split
    · refine ⟨_ :: front, place', passed, fun r member => ?_, rfl⟩
      rcases List.mem_cons.mp member with rfl | member
      · have width : 0 < Text.size (c :: u) := Nat.add_pos_left c.utf8Size_pos _
        dsimp only
        omega
      · exact inside r member
    · exact ⟨front, place', passed, inside, rfl⟩

/-- The scan finds its mentions where they stand. The induction is on the length of the text, since after a
mention it goes on behind its token, in which there is no other. -/
theorem holds_scan (code : SpanSet) (first : Nat) (place : Place) (before : Option Char) (t : Text) :
    Holds place.offset t (scan code first place before t) := by
  induction size : t.length using Nat.strongRecOn generalizing place before t with
  | ind n ih =>
    cases t with
    | nil => exact .rest
    | cons c t =>
      have shorter : t.length < n := by simp [← size]
      have passed : (place.advance first c).offset = place.offset + Text.size [c] :=
        place.offset_advance first c
      unfold scan
      simp only
      split
      · rename_i isMention
        have sign : c = '@' := by
          simp only [Bool.and_eq_true, decide_eq_true_eq] at isMention; exact isMention.1.1.1
        obtain ⟨rest, split⟩ := token_prefix t
        obtain ⟨place', before', offset, same⟩ :=
          scan_append code first (place.advance first c) (some c) (at_not_mem_token t) rest
        have later :=
          ih rest.length (by rw [← split, List.length_append] at shorter; omega) place' before' rest rfl
        rw [split] at same
        rw [offset, passed, sign] at later
        rw [same]
        have found : Holds place.offset
            ([] ++ raw ⟨token t, place.offset, place.line, place.column⟩ ++ rest)
            (⟨token t, place.offset, place.line, place.column⟩ :: scan code first place' before' rest) :=
          .mention rfl (by simpa [stop, raw, Text.size, Nat.add_assoc] using later)
        simpa [raw, sign, split] using found
      · have later := ih t.length shorter (place.advance first c) (some c) t rfl
        rw [passed] at later
        exact later.prepend [c]

theorem holds_extract (t : Text) (oneBased : Bool) : Holds 0 t (extract t oneBased) :=
  holds_scan (codeSpans t) _ (.origin _) none t

theorem starts_nodup (t : Text) (oneBased : Bool) : ((extract t oneBased).map (·.start)).Nodup :=
  (holds_extract t oneBased).starts_ascending.imp Nat.ne_of_lt

/-- How positions are counted says nothing about where the mentions stand and lead, and moving a
text on moves them by as much, if its code moves with it. -/
theorem scan_shift {n : Nat} {code code' : SpanSet}
    (moved : ∀ offset, code'.contains (n + offset) = code.contains offset) (first first' : Nat)
    {place place' : Place} (on : place'.offset = n + place.offset) {before before' : Option Char}
    (same : mayFollow before' = mayFollow before) (t : Text) :
    (scan code' first' place' before' t).map (fun r => (r.start, r.target)) =
      (scan code first place before t).map (fun r => (n + r.start, r.target)) := by
  induction t generalizing place place' before before' with
  | nil => rfl
  | cons c t ih =>
    have passed : (place'.advance first' c).offset = n + (place.advance first c).offset := by
      simp only [Place.offset_advance, on, Nat.add_assoc]
    have later := @ih (place.advance first c) (place'.advance first' c) passed (some c) (some c) rfl
    simp only [scan, on, moved, same]
    split
    · rw [List.map_cons, List.map_cons, later]
    · exact later

theorem exists_mem_extract {t : Text} {oneBased : Bool} {r : Reference}
    (member : r ∈ extract t oneBased) (other : Bool) :
    ∃ r' ∈ extract t other, r'.start = r.start ∧ r'.target = r.target := by
  have same : (extract t other).map (fun r => (r.start, r.target)) =
      (extract t oneBased).map (fun r => (0 + r.start, r.target)) :=
    scan_shift (fun offset => congrArg _ (Nat.zero_add offset)) _ _ rfl rfl t
  have inside : (0 + r.start, r.target) ∈ (extract t other).map (fun r => (r.start, r.target)) :=
    same ▸ List.mem_map_of_mem member
  obtain ⟨r', inside, pair⟩ := List.mem_map.mp inside
  exact ⟨r', inside, (congrArg Prod.fst pair).trans (Nat.zero_add _), congrArg Prod.snd pair⟩

end Reference

end Transclusion

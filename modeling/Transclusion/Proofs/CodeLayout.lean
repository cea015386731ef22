import Mathlib.Algebra.Group.Nat.Even
import Mathlib.Data.List.Basic
import Transclusion.CodeSpan
import Transclusion.Proofs.SpanCover

namespace Transclusion

/-- A text that starts at byte `offset` is cut by spans one behind the other, each from one of its
characters to another. -/
inductive Cuts : Nat → Text → List Span → Prop
  | rest {offset t} : Cuts offset t []
  | span {offset before inside t s spans} : offset + Text.size before = s.start →
      s.start + Text.size inside = s.stop →
      Cuts s.stop t spans → Cuts offset (before ++ inside ++ t) (s :: spans)

namespace Cuts

variable {offset : Nat} {t : Text} {spans : List Span}

theorem prepend (u : Text) (cuts : Cuts (offset + u.size) t spans) : Cuts offset (u ++ t) spans := by
  cases cuts with
  | rest => exact .rest
  | @span _ before inside t s spans starts stops later =>
    rw [← List.append_assoc, ← List.append_assoc]
    exact .span (by rw [Text.size_append, ← starts, Nat.add_assoc]) stops later

theorem bounds (cuts : Cuts offset t spans) : ∀ s ∈ spans, offset ≤ s.start ∧ s.stop ≤ offset + t.size := by
  induction cuts with
  | rest => exact fun s none => absurd none List.not_mem_nil
  | span starts stops _ ih =>
    intro s member
    simp only [Text.size_append]
    rcases List.mem_cons.mp member with rfl | member
    · omega
    · have inner := ih s member
      omega

end Cuts

/-- A text in which nothing follows the last newline. -/
def EndsLine (t : Text) : Prop := t = [] ∨ ∃ u, t = u ++ ['\n']

theorem EndsLine.of_append {u t : Text} (ends : EndsLine (u ++ t)) : EndsLine t := by
  rcases List.eq_nil_or_concat' t with rfl | ⟨v, c, rfl⟩
  · exact Or.inl rfl
  · rcases ends with none | ⟨w, same⟩
    · simp at none
    · rw [← List.append_assoc] at same
      exact Or.inr ⟨v, by rw [(List.append_inj' same rfl).2]⟩

theorem endsLine_concat {t : Text} {c : Char} : EndsLine (t ++ [c]) ↔ c = '\n' := by
  constructor
  · rintro (none | ⟨u, same⟩)
    · simp at none
    · exact (List.cons.inj (List.append_inj' same rfl).2).1
  · rintro rfl
    exact Or.inr ⟨t, rfl⟩

theorem endsLine_append {u t : Text} (nonempty : t ≠ []) : EndsLine (u ++ t) ↔ EndsLine t := by
  rcases List.eq_nil_or_concat' t with rfl | ⟨t, c, rfl⟩
  · exact absurd rfl nonempty
  · rw [← List.append_assoc, endsLine_concat, endsLine_concat]

theorem not_endsLine {u t : Text} (nonempty : t ≠ []) (clean : '\n' ∉ t) : ¬ EndsLine (u ++ t) := by
  rcases List.eq_nil_or_concat' t with rfl | ⟨t, c, rfl⟩
  · exact absurd rfl nonempty
  · rw [← List.append_assoc, endsLine_concat]
    rintro rfl
    simp at clean

theorem endsLine_iff {t : Text} : EndsLine t ↔ t.getLast?.all (· = '\n') := by
  rcases List.eq_nil_or_concat' t with rfl | ⟨t, c, rfl⟩
  · exact iff_of_true (Or.inl rfl) (by simp)
  · simp [endsLine_concat]

instance (t : Text) : Decidable (EndsLine t) := decidable_of_iff' _ endsLine_iff

section Fences

theorem size_replicate {c : Char} (single : c.utf8Size = 1) (n : Nat) :
    Text.size (List.replicate n c) = n := by
  induction n with
  | zero => rfl
  | succ n ih => rw [List.replicate_succ, Text.size, ih, single, Nat.add_comm]

/-- The runs lie in the text together with the backticks that stand right before it. -/
theorem cuts_fenceRuns {offset pending : Nat} (room : pending ≤ offset) (t : Text) :
    Cuts (offset - pending) (List.replicate pending backtick ++ t) (fenceRuns offset pending t) := by
  have width : offset - pending + Text.size (List.replicate pending backtick) = offset := by
    rw [size_replicate rfl]
    omega
  induction t generalizing offset pending with
  | nil =>
    unfold fenceRuns
    split
    · have run : Cuts (offset - pending)
          ([] ++ List.replicate pending backtick ++ []) [⟨offset - pending, offset⟩] :=
        .span rfl width .rest
      exact run
    · exact .rest
  | cons c t ih =>
    unfold fenceRuns
    split
    · rename_i tick
      have longer := @ih (offset + 1) (pending + 1) (Nat.add_le_add_right room 1)
        (by rw [size_replicate rfl]; omega)
      rw [Nat.add_sub_add_right, List.replicate_succ'] at longer
      subst tick
      simpa using longer
    · have later : Cuts (offset + c.utf8Size) t (fenceRuns (offset + c.utf8Size) 0 t) :=
        ih (Nat.zero_le _) (Nat.add_zero _)
      have rest : Cuts offset (c :: t) (fenceRuns (offset + c.utf8Size) 0 t) := later.prepend [c]
      dsimp only
      split
      · have run : Cuts (offset - pending) ([] ++ List.replicate pending backtick ++ c :: t)
            (⟨offset - pending, offset⟩ :: fenceRuns (offset + c.utf8Size) 0 t) := .span rfl width rest
        exact run
      · exact Cuts.prepend _ (width.symm ▸ rest)

theorem apart_fenceRuns {offset pending : Nat} (room : pending ≤ offset) (t : Text) :
    Apart (fenceRuns offset pending t) := by
  induction t generalizing offset pending with
  | nil =>
    unfold fenceRuns
    split
    · rename_i long
      refine ⟨fun s member => ?_, List.pairwise_singleton ..⟩
      cases List.mem_singleton.mp member
      unfold fenceLength at long
      dsimp only
      omega
    · exact ⟨fun s none => absurd none List.not_mem_nil, .nil⟩
  | cons c t ih =>
    unfold fenceRuns
    split
    · exact ih (Nat.add_le_add_right room 1)
    · obtain ⟨filled, gaps⟩ := @ih (offset + c.utf8Size) 0 (Nat.zero_le _)
      have behind := (cuts_fenceRuns (Nat.zero_le (offset + c.utf8Size)) t).bounds
      have width := c.utf8Size_pos
      dsimp only
      split
      · rename_i long
        refine ⟨fun s member => ?_, List.pairwise_cons.mpr ⟨fun s member => ?_, gaps⟩⟩
        · rcases List.mem_cons.mp member with rfl | member
          · unfold fenceLength at long
            dsimp only
            omega
          · exact filled s member
        · have start := (behind s member).1
          dsimp only
          omega
      · exact ⟨filled, gaps⟩

theorem fenceRuns_shift (n : Nat) {offset pending : Nat} (room : pending ≤ offset) (t : Text) :
    fenceRuns (n + offset) pending t = (fenceRuns offset pending t).map (·.shift n) := by
  have start : n + offset - pending = n + (offset - pending) := Nat.add_sub_assoc room n
  induction t generalizing offset pending with
  | nil =>
    unfold fenceRuns
    split
    · rw [start]
      rfl
    · rfl
  | cons c t ih =>
    unfold fenceRuns
    split
    · exact ih (Nat.add_le_add_right room 1) (by omega)
    · have later := @ih (offset + c.utf8Size) 0 (Nat.zero_le _) rfl
      rw [← Nat.add_assoc] at later
      dsimp only
      rw [later, start]
      split <;> rfl

/-- A newline ends every run. -/
theorem fenceRuns_line (offset pending : Nat) (u t : Text) :
    fenceRuns offset pending (u ++ ['\n'] ++ t) =
      fenceRuns offset pending (u ++ ['\n']) ++ fenceRuns (offset + Text.size (u ++ ['\n'])) 0 t := by
  induction u generalizing offset pending with
  | nil =>
    have other : '\n' ≠ backtick := by decide
    simp only [List.nil_append, List.singleton_append, fenceRuns, if_neg other, Text.size, Nat.add_zero]
    split <;> rfl
  | cons c u ih =>
    simp only [List.cons_append, fenceRuns, Text.size]
    split
    · rename_i tick
      subst tick
      rw [ih, Nat.add_assoc]
      rfl
    · rw [ih, Nat.add_assoc]
      split <;> rfl

theorem fenceRuns_append {m : Text} (ends : EndsLine m) (t : Text) :
    fenceRuns 0 0 (m ++ t) = fenceRuns 0 0 m ++ (fenceRuns 0 0 t).map (·.shift m.size) := by
  rw [← fenceRuns_shift m.size (Nat.le_refl 0)]
  rcases ends with rfl | ⟨u, rfl⟩
  · rfl
  · rw [fenceRuns_line, Nat.zero_add, Nat.add_zero]

end Fences

section Pairs

variable {runs : List Span}

theorem cuts_pairFences {offset : Nat} {t : Text} (cuts : Cuts offset t runs) :
    Cuts offset t (pairFences (offset + t.size) runs) := by
  induction runs using pairFences.induct generalizing offset t with
  | case1 => exact .rest
  | case2 opening =>
    cases cuts with
    | @span _ before inside t s _ starts stops _ =>
      have block : Cuts offset (before ++ (inside ++ t) ++ [])
          [⟨opening.start, offset + Text.size (before ++ inside ++ t)⟩] := by
        refine .span starts ?_ .rest
        simp only [Text.size_append]
        omega
      simpa [pairFences] using block
  | case3 opening closing rest ih =>
    cases cuts with
    | @span _ before inside t s _ starts stops later =>
      cases later with
      | @span _ between inner t' s' _ starts' stops' later' =>
        have stop : offset + Text.size (before ++ inside ++ (between ++ inner ++ t')) =
            closing.stop + t'.size := by
          simp only [Text.size_append]
          omega
        have block : Cuts offset (before ++ (inside ++ between ++ inner) ++ t')
            (⟨opening.start, closing.stop⟩ :: pairFences (closing.stop + t'.size) rest) := by
          refine .span starts ?_ (ih later')
          simp only [Text.size_append]
          omega
        rw [pairFences, stop]
        simpa using block

theorem Apart.pairFences {stop : Nat} (apart : Apart runs) (inside : ∀ s ∈ runs, s.stop ≤ stop) :
    Apart (pairFences stop runs) ∧ ∀ s ∈ pairFences stop runs, ∃ r ∈ runs, r.start = s.start := by
  induction runs using pairFences.induct with
  | case1 => exact ⟨apart, fun s none => absurd none List.not_mem_nil⟩
  | case2 opening =>
    have filled := apart.filled opening (List.mem_cons_self ..)
    have ends := inside opening (List.mem_cons_self ..)
    refine ⟨⟨fun s member => ?_, List.pairwise_singleton ..⟩, fun s member => ?_⟩
    · cases List.mem_singleton.mp member
      exact Nat.lt_of_lt_of_le filled ends
    · cases List.mem_singleton.mp member
      exact ⟨opening, List.mem_cons_self .., rfl⟩
  | case3 opening closing rest ih =>
    obtain ⟨first, later⟩ := List.pairwise_cons.mp apart.gaps
    obtain ⟨second, last⟩ := List.pairwise_cons.mp later
    have filled : ∀ s ∈ rest, s.start < s.stop := fun s member =>
      apart.filled s (List.mem_cons_of_mem _ (List.mem_cons_of_mem _ member))
    obtain ⟨tail, starts⟩ := ih ⟨filled, last⟩ fun s member =>
      inside s (List.mem_cons_of_mem _ (List.mem_cons_of_mem _ member))
    refine ⟨⟨fun s member => ?_, List.pairwise_cons.mpr ⟨fun s member => ?_, tail.gaps⟩⟩,
      fun s member => ?_⟩
    · rcases List.mem_cons.mp member with rfl | member
      · have gap := first closing (List.mem_cons_self ..)
        have long := apart.filled opening (List.mem_cons_self ..)
        have long' := apart.filled closing (List.mem_cons_of_mem _ (List.mem_cons_self ..))
        dsimp only
        omega
      · exact tail.filled s member
    · obtain ⟨r, there, same⟩ := starts s member
      exact same ▸ second r there
    · rcases List.mem_cons.mp member with rfl | member
      · exact ⟨opening, List.mem_cons_self .., rfl⟩
      · obtain ⟨r, there, same⟩ := starts s member
        exact ⟨r, List.mem_cons_of_mem _ (List.mem_cons_of_mem _ there), same⟩

/-- Behind runs that all find their partner, pairing starts anew. -/
theorem pairFences_append (even : Even runs.length) (n stop : Nat) (later : List Span) :
    pairFences (n + stop) (runs ++ later.map (·.shift n)) =
      pairFences n runs ++ (pairFences stop later).map (·.shift n) := by
  induction runs using pairFences.induct with
  | case1 =>
    induction later using pairFences.induct with
    | case1 => rfl
    | case2 opening => rfl
    | case3 opening closing rest ih => exact congrArg (_ :: ·) ih
  | case2 opening => exact absurd even (by simp)
  | case3 opening closing rest ih => exact congrArg (_ :: ·) (ih (by simpa [Nat.even_add_one] using even))

end Pairs

theorem spans_fencedSpans (t : Text) : (fencedSpans t).spans = pairFences t.size (fenceRuns 0 0 t) := by
  have inside : ∀ s ∈ fenceRuns 0 0 t, s.stop ≤ t.size := fun s member => by
    have bound := ((cuts_fenceRuns (Nat.le_refl 0) t).bounds s member).2
    simpa using bound
  exact SpanSet.spans_ofSpans ((apart_fenceRuns (Nat.le_refl 0) t).pairFences inside).1

theorem cuts_fencedSpans (t : Text) : Cuts 0 t (fencedSpans t).spans := by
  have cuts : Cuts 0 t (pairFences (0 + t.size) (fenceRuns 0 0 t)) :=
    cuts_pairFences (cuts_fenceRuns (Nat.le_refl 0) t)
  rwa [Nat.zero_add, ← spans_fencedSpans] at cuts

/-- Text whose fences all find their partner leaves those behind it in place. -/
theorem spans_fencedSpans_append {m : Text} (ends : EndsLine m)
    (even : Even (fenceRuns 0 0 m).length) (t : Text) :
    (fencedSpans (m ++ t)).spans = (fencedSpans m).spans ++ (fencedSpans t).spans.map (·.shift m.size) := by
  rw [spans_fencedSpans, spans_fencedSpans, spans_fencedSpans, fenceRuns_append ends, Text.size_append,
    pairFences_append even]

section Inline

theorem inlineRuns_shift (n offset : Nat) (opened : Option Nat) (t : Text) :
    inlineRuns (n + offset) (opened.map (n + ·)) t = (inlineRuns offset opened t).map (·.shift n) := by
  induction t generalizing offset opened with
  | nil => rfl
  | cons c t ih =>
    unfold inlineRuns
    split
    · exact ih (offset + 1) none
    · split
      · cases opened with
        | none => exact ih (offset + 1) (some offset)
        | some start =>
          have gap : n + start + 1 < n + offset ↔ start + 1 < offset := by omega
          simp only [Option.map_some, gap]
          split
          · exact congrArg (_ :: ·) (ih (offset + 1) none)
          · exact ih (offset + 1) (some offset)
      · rw [Nat.add_assoc]
        exact ih (offset + c.utf8Size) opened

theorem stop_le_of_mem_inlineRuns {offset : Nat} {opened : Option Nat} {t : Text} {s : Span}
    (member : s ∈ inlineRuns offset opened t) : s.stop ≤ offset + t.size := by
  induction t generalizing offset opened with
  | nil => cases member
  | cons c t ih =>
    have step : offset + 1 ≤ offset + c.utf8Size := Nat.add_le_add_left c.utf8Size_pos offset
    rw [Text.size, ← Nat.add_assoc]
    have later {opened : Option Nat} (inside : s ∈ inlineRuns (offset + 1) opened t) :
        s.stop ≤ offset + c.utf8Size + Text.size t := Nat.le_trans (ih inside) (Nat.add_le_add_right step _)
    unfold inlineRuns at member
    split at member
    · exact later member
    · split at member
      · cases opened with
        | none => exact later member
        | some start =>
          dsimp only at member
          split at member
          · rcases List.mem_cons.mp member with rfl | member
            · exact Nat.le_trans step (Nat.le_add_right ..)
            · exact later member
          · exact later member
      · exact ih member

/-- A newline ends every stretch. -/
theorem inlineRuns_line (offset : Nat) (opened : Option Nat) (u t : Text) :
    inlineRuns offset opened (u ++ ['\n'] ++ t) =
      inlineRuns offset opened (u ++ ['\n']) ++ inlineRuns (offset + Text.size (u ++ ['\n'])) none t := by
  induction u generalizing offset opened with
  | nil => rfl
  | cons c u ih =>
    have width : offset + Text.size (c :: u ++ ['\n']) = offset + c.utf8Size + Text.size (u ++ ['\n']) := by
      rw [Nat.add_assoc]
      rfl
    rw [width]
    simp only [List.cons_append, inlineRuns]
    split
    · rename_i newline
      subst newline
      exact ih (offset + 1) none
    · split
      · rename_i tick
        subst tick
        cases opened with
        | none => exact ih (offset + 1) (some offset)
        | some start =>
          dsimp only
          split
          · exact congrArg (_ :: ·) (ih (offset + 1) none)
          · exact ih (offset + 1) (some offset)
      · exact ih (offset + c.utf8Size) opened

theorem inlineRuns_append {m : Text} (ends : EndsLine m) (offset : Nat) (t : Text) :
    inlineRuns offset none (m ++ t) = inlineRuns offset none m ++ inlineRuns (offset + m.size) none t := by
  rcases ends with rfl | ⟨u, rfl⟩
  · rfl
  · exact inlineRuns_line ..

/-- The stretches of inline code in the gaps of a text. -/
def inlineIn (t : Text) (gaps : List Span) : List Span :=
  gaps.flatMap fun gap => inlineRuns gap.start none (t.slice gap.start gap.stop)

theorem inlineIn_cons (t : Text) (gap : Span) (gaps : List Span) :
    inlineIn t (gap :: gaps) = inlineRuns gap.start none (t.slice gap.start gap.stop) ++
      inlineIn t gaps := rfl

theorem gaps_shift (n stop start : Nat) (spans : List Span) :
    SpanSet.gaps.go (n + stop) (n + start) (spans.map (·.shift n)) =
      (SpanSet.gaps.go stop start spans).map (·.shift n) := by
  induction spans generalizing start with
  | nil => rfl
  | cons s rest ih => exact congrArg (_ :: ·) (ih s.stop)

theorem inlineIn_shift (m t : Text) (gaps : List Span) :
    inlineIn (m ++ t) (gaps.map (·.shift m.size)) = (inlineIn t gaps).map (·.shift m.size) := by
  rw [inlineIn, inlineIn, List.flatMap_map, List.map_flatMap]
  refine congrArg (gaps.flatMap ·) (funext fun gap => ?_)
  have width : m.size + gap.stop - (m.size + gap.start) = gap.stop - gap.start := Nat.add_sub_add_left ..
  simp only [Span.shift, Text.slice, width, Text.dropBytes_size_add]
  exact inlineRuns_shift m.size gap.start none _

theorem slice_eq {t u v w : Text} {start stop : Nat} (cut : t = u ++ (v ++ w)) (starts : u.size = start)
    (stops : start + v.size = stop) : t.slice start stop = v := by
  subst cut starts stops
  rw [Text.slice, Nat.add_sub_cancel_left, Text.dropBytes_append, Text.takeBytes_append]

/-- Of the stretches in a gap that reaches over the end of a line, those behind that end are the
ones found there. -/
theorem any_inlineRuns_append {m : Text} (ends : EndsLine m) (start : Nat) (t : Text) (offset : Nat) :
    (inlineRuns start none (m ++ t)).any (·.contains (start + m.size + offset)) =
      (inlineRuns 0 none t).any (·.contains offset) := by
  have before : (inlineRuns start none m).any (·.contains (start + m.size + offset)) = false :=
    Span.any_contains_eq_false fun s member =>
      Nat.le_trans (stop_le_of_mem_inlineRuns member) (Nat.le_add_right ..)
  have behind := inlineRuns_shift (start + m.size) 0 none t
  rw [inlineRuns_append ends, List.any_append, before, Bool.false_or,
    ← Span.any_contains_shift (start + m.size) (inlineRuns 0 none t), ← behind]
  rfl

/-- What is inline code behind a line's end is found there on its own, whatever is cut out before.
The induction is on the cuts before it: the first of the gaps behind them reaches over the line's
end. -/
theorem any_inlineIn_append {start : Nat} {m t : Text} {front spans : List Span} (ends : EndsLine m)
    (inside : Cuts start m front) (cuts : Cuts 0 t spans) {head : Text} (here : head.size = start)
    (offset : Nat) :
    (inlineIn (head ++ m ++ t) (SpanSet.gaps.go (start + m.size + t.size) start
        (front ++ spans.map (·.shift (start + m.size))))).any (·.contains (start + m.size + offset)) =
      (inlineIn t (SpanSet.gaps.go t.size 0 spans)).any (·.contains offset) := by
  induction inside generalizing head with
  | @rest start m =>
    subst here
    cases cuts with
    | rest =>
      have reached : (head ++ m ++ t).slice head.size (head.size + m.size + t.size) = m ++ t :=
        slice_eq (w := []) (by simp) rfl (by rw [Text.size_append, Nat.add_assoc])
      have whole : t.slice 0 t.size = t := slice_eq (u := []) (w := []) (by simp) rfl (Nat.zero_add _)
      simp only [List.map_nil, List.append_nil, SpanSet.gaps.go, inlineIn, List.flatMap_singleton,
        reached, whole]
      exact any_inlineRuns_append ends ..
    | @span _ before inner t s spans starts stops later =>
      have reached : (head ++ m ++ (before ++ inner ++ t)).slice head.size
          (head.size + m.size + s.start) = m ++ before :=
        slice_eq (w := inner ++ t) (by simp) rfl (by rw [Text.size_append, ← starts]; omega)
      have alone : (before ++ inner ++ t).slice 0 s.start = before :=
        slice_eq (u := []) (w := inner ++ t) (by simp) rfl starts
      have behind := inlineIn_shift (head ++ m) (before ++ inner ++ t)
        (SpanSet.gaps.go (Text.size (before ++ inner ++ t)) s.stop spans)
      rw [← gaps_shift, Text.size_append head m] at behind
      simp only [List.nil_append, List.map_cons, SpanSet.gaps.go, inlineIn_cons, List.any_append,
        Span.start_shift, Span.stop_shift, reached, alone]
      rw [any_inlineRuns_append ends, behind, Span.any_contains_shift]
  | @span start before inner m s front starts stops later ih =>
    have ends' : EndsLine m := ends.of_append
    have here' : Text.size (head ++ before ++ inner) = s.stop := by
      simp only [Text.size_append]
      omega
    have reached : (head ++ (before ++ inner ++ m) ++ t).slice start s.start = before :=
      slice_eq (w := inner ++ m ++ t) (by simp) here starts
    have total : start + Text.size (before ++ inner ++ m) = s.stop + m.size := by
      simp only [Text.size_append]
      omega
    have rest := ih ends' here'
    have assoc : head ++ before ++ inner ++ m ++ t = head ++ (before ++ inner ++ m) ++ t := by simp
    rw [assoc] at rest
    have first : (inlineRuns start none before).any (·.contains (s.stop + m.size + offset)) = false := by
      refine Span.any_contains_eq_false fun r member => ?_
      have bound := stop_le_of_mem_inlineRuns member
      omega
    rw [total, List.cons_append, SpanSet.gaps.go, inlineIn_cons, List.any_append, reached, first,
      Bool.false_or]
    exact rest

end Inline

/-- Code in front whose fences all find their partner leaves the code behind it as it is. -/
theorem contains_codeSpans_append {m : Text} (ends : EndsLine m)
    (even : Even (fenceRuns 0 0 m).length) (t : Text) (offset : Nat) :
    (codeSpans (m ++ t)).contains (m.size + offset) = (codeSpans t).contains offset := by
  have fences := spans_fencedSpans_append ends even t
  have fenced : (fencedSpans (m ++ t)).contains (m.size + offset) = (fencedSpans t).contains offset := by
    have before : (fencedSpans m).spans.any (·.contains (m.size + offset)) = false := by
      refine Span.any_contains_eq_false fun s member => ?_
      have bound := ((cuts_fencedSpans m).bounds s member).2
      omega
    rw [SpanSet.contains, fences, List.any_append, before, Bool.false_or, Span.any_contains_shift]
    rfl
  have inline : (inlineSpans (m ++ t) (fencedSpans (m ++ t))).contains (m.size + offset) =
      (inlineSpans t (fencedSpans t)).contains offset := by
    have same := any_inlineIn_append ends (cuts_fencedSpans m) (cuts_fencedSpans t)
      (show Text.size [] = 0 from rfl) offset
    rw [Nat.zero_add, ← fences, List.nil_append, ← Text.size_append] at same
    rw [inlineSpans, inlineSpans, SpanSet.contains_ofSpans, SpanSet.contains_ofSpans]
    exact same
  rw [codeSpans, codeSpans, SpanSet.contains_union, SpanSet.contains_union, fenced, inline]

end Transclusion

import Transclusion.Proofs.InlineCode

namespace Transclusion

/-- A maximal run of at least three backticks. -/
def IsFence (t : Text) (s : Span) : Prop :=
  ∃ before n after, t = before ++ (List.replicate n backtick ++ after) ∧ 3 ≤ n ∧
    before.getLast? ≠ some backtick ∧
    after.head? ≠ some backtick ∧ s = ⟨before.size, before.size + n⟩

section Fences

theorem isFence_replicate {n : Nat} {s : Span} :
    IsFence (List.replicate n backtick) s ↔ 3 ≤ n ∧ s = ⟨0, n⟩ := by
  constructor
  · rintro ⟨before, m, after, whole, long, front, back, rfl⟩
    have ticks : ∀ c ∈ before ++ (List.replicate m backtick ++ after), c = backtick := fun c member =>
      List.eq_of_mem_replicate (whole ▸ member)
    have none : before = [] := by
      rcases List.eq_nil_or_concat' before with none | ⟨u, c, rfl⟩
      · exact none
      · exact absurd (by simp [ticks c (by simp)]) front
    have none' : after = [] := by
      cases after with
      | nil => rfl
      | cons c u => exact absurd (by simp [ticks c (by simp)]) back
    subst none none'
    have width : n = m := by simpa using congrArg List.length whole
    exact ⟨width ▸ long, by simp [width, Text.size]⟩
  · rintro ⟨long, rfl⟩
    exact ⟨[], n, [], by simp, long, by simp, by simp, by simp [Text.size]⟩

/-- Any other character ends a run: each lies before it or behind it. -/
theorem isFence_append_cons {u t : Text} {c : Char} (other : c ≠ backtick) {s : Span} :
    IsFence (u ++ c :: t) s ↔ IsFence u s ∨ ∃ r, IsFence t r ∧ s = r.shift (u.size + c.utf8Size) := by
  constructor
  · rintro ⟨before, n, after, whole, long, front, back, rfl⟩
    -- the run begins behind `u`, where it cannot begin with `c`, or in it, where it cannot reach `c`
    rcases List.append_eq_append_iff.mp whole with ⟨v, rfl, rest⟩ | ⟨v, rfl, rest⟩
    · cases v with
      | nil =>
        obtain ⟨n, rfl⟩ := Nat.exists_eq_add_of_le' long
        exact absurd (List.cons.inj rest).1 other
      | cons d v =>
        obtain ⟨rfl, rfl⟩ := List.cons.inj rest
        refine Or.inr ⟨_, ⟨v, n, after, rfl, long, fun last => front ?_, back, rfl⟩, ?_⟩
        · simp [List.getLast?_append, List.getLast?_cons, last]
        · simp [Span.shift, Text.size, Nat.add_assoc]
    · rcases List.append_eq_append_iff.mp rest with ⟨w, rfl, rfl⟩ | ⟨w, ticks, same⟩
      · refine Or.inl ⟨before, n, w, by simp, long, front, fun first => back ?_, rfl⟩
        simp [List.head?_append, first]
      · cases w with
        | nil => exact Or.inl ⟨before, n, [], by simpa using ticks.symm, long, front, by simp, rfl⟩
        | cons d w =>
          have tick : d = backtick := List.eq_of_mem_replicate (by rw [ticks]; simp)
          exact absurd ((List.cons.inj same).1.trans tick) other
  · rintro (⟨before, n, after, rfl, long, front, back, rfl⟩ |
      ⟨r, ⟨before, n, after, rfl, long, front, back, rfl⟩, rfl⟩)
    · refine ⟨before, n, after ++ c :: t, by simp, long, front, ?_, rfl⟩
      cases after with
      | nil => simpa using other
      | cons d after => simpa using back
    · refine ⟨u ++ c :: before, n, after, by simp, long, ?_, back, ?_⟩
      · rcases List.eq_nil_or_concat' before with rfl | ⟨v, d, rfl⟩
        · simpa using other
        · have last : u ++ c :: (v ++ [d]) = (u ++ c :: v) ++ [d] := by simp
          rw [List.getLast?_concat] at front
          rwa [last, List.getLast?_concat]
      · simp [Span.shift, Text.size, Nat.add_assoc]

/-- The scan finds the runs, those included that begin with the backticks right before the text. -/
theorem mem_fenceRuns_pending (pending : Nat) (t : Text) (s : Span) :
    s ∈ fenceRuns pending pending t ↔ IsFence (List.replicate pending backtick ++ t) s := by
  induction t generalizing pending s with
  | nil =>
    rw [List.append_nil, isFence_replicate, fenceRuns, Nat.sub_self, fenceLength]
    split <;> simp [*]
  | cons c t ih =>
    by_cases tick : c = backtick
    · subst tick
      have longer := ih (pending + 1) s
      rw [List.replicate_succ', List.append_assoc, List.singleton_append] at longer
      rwa [fenceRuns, if_pos rfl]
    · have later := fenceRuns_shift (pending + c.utf8Size) (Nat.le_refl 0) t
      rw [Nat.add_zero] at later
      rw [isFence_append_cons tick, isFence_replicate, size_replicate rfl, fenceRuns, if_neg tick,
        later, Nat.sub_self, fenceLength]
      have behind : s ∈ (fenceRuns 0 0 t).map (·.shift (pending + c.utf8Size)) ↔
          ∃ r, IsFence t r ∧ s = r.shift (pending + c.utf8Size) := by
        simp only [List.mem_map, ih 0, List.replicate_zero, List.nil_append, eq_comm]
      dsimp only
      split <;> simp [*]

theorem mem_fenceRuns (t : Text) (s : Span) : s ∈ fenceRuns 0 0 t ↔ IsFence t s :=
  mem_fenceRuns_pending 0 t s

theorem getElem?_pairFences (stop i : Nat) (runs : List Span) : (pairFences stop runs)[i]? =
    runs[2 * i]?.map fun opening => ⟨opening.start, (runs[2 * i + 1]?.map Span.stop).getD stop⟩ := by
  induction runs using pairFences.induct generalizing i with
  | case1 => simp [pairFences]
  | case2 opening =>
    cases i with
    | zero => simp [pairFences]
    | succ i => simp [pairFences, Nat.mul_add]
  | case3 opening closing rest ih =>
    cases i with
    | zero => simp [pairFences]
    | succ i => simpa [pairFences, Nat.mul_add] using ih i

end Fences

/-- A place between two characters of a text, or at one of its ends. -/
def IsBoundary (t : Text) (offset : Nat) : Prop :=
  ∃ before after, t = before ++ after ∧ before.size = offset

theorem Cuts.isBoundary {offset : Nat} {t : Text} {spans : List Span} (cuts : Cuts offset t spans) :
    ∀ s ∈ spans, ∀ front : Text, front.size = offset →
      IsBoundary (front ++ t) s.start ∧ IsBoundary (front ++ t) s.stop := by
  induction cuts with
  | rest => exact fun s none => absurd none List.not_mem_nil
  | @span offset before inside t first spans starts stops _ ih =>
    intro s member front here
    have start : Text.size (front ++ before) = first.start := by rw [Text.size_append, here, starts]
    have stop : Text.size (front ++ before ++ inside) = first.stop := by rw [Text.size_append, start, stops]
    rcases List.mem_cons.mp member with rfl | later
    · exact ⟨⟨front ++ before, inside ++ t, by simp, start⟩, ⟨front ++ before ++ inside, t, by simp, stop⟩⟩
    · simpa using ih s later _ stop

/-- What a text that starts at byte `offset` has between the given blocks, in front of them and
behind them: each stretch with the place where it starts. -/
inductive Stretches : Nat → Text → List Span → List (Nat × Text) → Prop
  | last {offset t} : Stretches offset t [] [(offset, t)]
  | next {offset before inside t block blocks stretches} : offset + Text.size before = block.start →
      block.start + Text.size inside = block.stop → Stretches block.stop t blocks stretches →
      Stretches offset (before ++ inside ++ t) (block :: blocks) ((offset, before) :: stretches)

theorem Cuts.exists_stretches {offset : Nat} {t : Text} {blocks : List Span} (cuts : Cuts offset t blocks) :
    ∃ stretches, Stretches offset t blocks stretches := by
  induction cuts with
  | rest => exact ⟨_, .last⟩
  | span starts stops _ ih =>
    obtain ⟨stretches, later⟩ := ih
    exact ⟨_, .next starts stops later⟩

namespace Stretches

variable {offset : Nat} {t : Text} {blocks : List Span} {stretches : List (Nat × Text)}

theorem cuts (cut : Stretches offset t blocks stretches) : Cuts offset t blocks := by
  induction cut with
  | last => exact .rest
  | next starts stops _ ih => exact .span starts stops ih

theorem inside (cut : Stretches offset t blocks stretches) : ∀ stretch ∈ stretches,
    ∃ before after, t = before ++ (stretch.2 ++ after) ∧ offset + Text.size before = stretch.1 := by
  induction cut with
  | @last offset t =>
    intro stretch member
    cases List.mem_singleton.mp member
    exact ⟨[], [], by simp, rfl⟩
  | @next offset before inside t block blocks stretches starts stops _ ih =>
    intro stretch member
    rcases List.mem_cons.mp member with rfl | later
    · exact ⟨[], inside ++ t, by simp, rfl⟩
    · obtain ⟨front, back, rfl, here⟩ := ih stretch later
      refine ⟨before ++ inside ++ front, back, by simp, ?_⟩
      simp only [Text.size_append]
      omega

/-- A stretch ends before a block or starts behind it. -/
theorem apart (cut : Stretches offset t blocks stretches) : ∀ stretch ∈ stretches, ∀ block ∈ blocks,
    stretch.1 + stretch.2.size ≤ block.start ∨ block.stop ≤ stretch.1 := by
  induction cut with
  | last => exact fun _ _ _ none => absurd none List.not_mem_nil
  | @next offset before inside t block blocks stretches starts stops cut ih =>
    intro stretch member other among
    rcases List.mem_cons.mp member with rfl | later
    · rcases List.mem_cons.mp among with rfl | behind
      · exact Or.inl starts.le
      · have bound := (cut.cuts.bounds other behind).1
        refine Or.inl (Nat.le_trans starts.le ?_)
        omega
    · rcases List.mem_cons.mp among with rfl | behind
      · obtain ⟨_, _, _, here⟩ := cut.inside stretch later
        exact Or.inr (here ▸ Nat.le_add_right ..)
      · exact ih stretch later other behind

/-- The search between the blocks is the search in each stretch. -/
theorem inlineIn_gaps (cut : Stretches offset t blocks stretches) {front : Text}
    (here : front.size = offset) :
    inlineIn (front ++ t) (SpanSet.gaps.go (offset + t.size) offset blocks) =
      stretches.flatMap fun stretch => inlineRuns stretch.1 none stretch.2 := by
  induction cut generalizing front with
  | @last offset t =>
    have whole : Text.slice offset (offset + t.size) (front ++ t) = t :=
      slice_eq (w := []) (by simp) here rfl
    simp only [SpanSet.gaps.go, inlineIn, List.flatMap_singleton, whole]
  | @next offset before inside t block blocks stretches starts stops cut ih =>
    have reached : Text.slice offset block.start (front ++ (before ++ inside ++ t)) = before :=
      slice_eq (w := inside ++ t) (by simp) here starts
    have total : offset + Text.size (before ++ inside ++ t) = block.stop + t.size := by
      simp only [Text.size_append]
      omega
    have behind := @ih (front ++ before ++ inside) (by simp only [Text.size_append]; omega)
    have assoc : front ++ before ++ inside ++ t = front ++ (before ++ inside ++ t) := by simp
    rw [assoc] at behind
    rw [total, SpanSet.gaps.go, inlineIn_cons, reached, behind, List.flatMap_cons]

end Stretches

theorem Leftmost.exists_match {P : Text → Prop} {offset : Nat} {t : Text} {found : List Span}
    (search : Leftmost P offset t found) :
    ∀ s ∈ found, ∃ before m after, t = before ++ (m ++ after) ∧ P m ∧ offset + before.size = s.start ∧
      s.start + m.size = s.stop := by
  induction search with
  | done => exact fun s none => absurd none List.not_mem_nil
  | @pass offset c t found _ _ ih =>
    intro s member
    obtain ⟨before, m, after, rfl, fits, starts, stops⟩ := ih s member
    exact ⟨c :: before, m, after, rfl, fits, by rw [← starts, Text.size, Nat.add_assoc], stops⟩
  | @take offset m t found fits _ ih =>
    intro s member
    rcases List.mem_cons.mp member with rfl | later
    · exact ⟨[], m, t, rfl, fits, rfl, rfl⟩
    · obtain ⟨before, m', after, rfl, fits', starts, stops⟩ := ih s later
      exact ⟨m ++ before, m', after, by simp, fits',
        by rw [← starts, Text.size_append, Nat.add_assoc], stops⟩

/-- A character that starts within a part of a text is one of that part. -/
theorem mem_of_within {before m after u v : Text} {c : Char} (whole : before ++ (m ++ after) = u ++ c :: v)
    (starts : before.size ≤ u.size) (stops : u.size < before.size + m.size) : c ∈ m := by
  have width := c.utf8Size_pos
  have first {w w' : Text} (same : w ++ w' = c :: v) (some : w ≠ []) : c ∈ w := by
    cases w with
    | nil => exact absurd rfl some
    | cons d w => exact List.mem_cons.mpr (Or.inl (List.cons.inj same).1.symm)
  rcases List.append_eq_append_iff.mp whole with ⟨w, rfl, rest⟩ | ⟨w, rfl, rest⟩
  · rcases List.append_eq_append_iff.mp rest with ⟨x, rfl, _⟩ | ⟨x, rfl, last⟩
    · simp only [Text.size_append] at stops
      omega
    · refine List.mem_append_right _ (first last.symm ?_)
      rintro rfl
      simp at stops
  · cases w with
    | nil =>
      refine first rest.symm ?_
      rintro rfl
      simp [Text.size] at stops
    | cons d w =>
      obtain ⟨rfl, _⟩ := List.cons.inj rest
      simp only [Text.size_append, Text.size] at starts
      omega

section Inline

variable (t : Text)

/-- Between the blocks the search for inline code goes through each stretch on its own. -/
theorem exists_stretches_inlineIn :
    ∃ stretches, Stretches 0 t (fencedSpans t).spans stretches ∧
      inlineIn t ((fencedSpans t).gaps t.size) = stretches.flatMap
        fun stretch => inlineRuns stretch.1 none stretch.2 := by
  obtain ⟨stretches, cut⟩ := (cuts_fencedSpans t).exists_stretches
  have same := cut.inlineIn_gaps (show Text.size [] = 0 from rfl)
  rw [Nat.zero_add, List.nil_append] at same
  exact ⟨stretches, cut, same⟩

theorem leftmost_stretch (stretch : Nat × Text) :
    Leftmost IsInlineCode stretch.1 stretch.2 (inlineRuns stretch.1 none stretch.2) :=
  (leftmost_inlineRuns stretch.2).1 stretch.1

theorem exists_of_mem_inlineIn :
    ∀ s ∈ inlineIn t ((fencedSpans t).gaps t.size),
      (∃ before m after, t = before ++ (m ++ after) ∧ IsInlineCode m ∧ before.size = s.start ∧
        s.start + m.size = s.stop) ∧
        ∀ block ∈ (fencedSpans t).spans, s.stop ≤ block.start ∨ block.stop ≤ s.start := by
  obtain ⟨stretches, cut, same⟩ := exists_stretches_inlineIn t
  intro s member
  rw [same] at member
  obtain ⟨stretch, among, run⟩ := List.mem_flatMap.mp member
  obtain ⟨before, m, after, whole, code, starts, stops⟩ := (leftmost_stretch stretch).exists_match s run
  obtain ⟨front, back, rest, here⟩ := cut.inside stretch among
  have width := congrArg Text.size whole
  simp only [Text.size_append] at width
  refine ⟨⟨front ++ before, m, after ++ back, ?_, code, ?_, stops⟩, fun block other => ?_⟩
  · rw [rest, whole]
    simp only [List.append_assoc]
  · rw [Text.size_append]
    omega
  · have apart := cut.apart stretch among block other
    omega

theorem contains_inlineSpans (offset : Nat) : (inlineSpans t (fencedSpans t)).contains offset ↔
    ∃ s ∈ inlineIn t ((fencedSpans t).gaps t.size), s.contains offset := by
  rw [← List.any_eq_true, ← SpanSet.contains_ofSpans]
  rfl

end Inline

/-- The code in a text: every first one of its fences opens a block that the next one closes, or
that goes on to the end of the text; between the blocks inline code is what the search for it takes;
and there is no other code. -/
theorem codeSpans_are_exact (t : Text) :
    (∃ fences : List Span, (∀ s, s ∈ fences ↔ IsFence t s) ∧ (fences.Pairwise fun a b => a.stop < b.start) ∧
      ∀ i : Nat, (fencedSpans t).spans[i]? = fences[2 * i]?.map fun opening =>
        ⟨opening.start, (fences[2 * i + 1]?.map Span.stop).getD t.size⟩) ∧
    (∃ stretches, Stretches 0 t (fencedSpans t).spans stretches ∧
      ∀ offset, (inlineSpans t (fencedSpans t)).contains offset ↔
        ∃ stretch ∈ stretches, ∃ found, Leftmost IsInlineCode stretch.1 stretch.2 found ∧
          ∃ s ∈ found, s.contains offset) ∧
    (∀ offset, (codeSpans t).contains offset ↔
      (fencedSpans t).contains offset ∨ (inlineSpans t (fencedSpans t)).contains offset) ∧
    (∀ offset, (inlineSpans t (fencedSpans t)).contains offset →
      (fencedSpans t).contains offset = false ∧
        ∀ before after, t = before ++ '\n' :: after → before.size ≠ offset) ∧
    ∀ s ∈ (fencedSpans t).spans ++ (inlineSpans t (fencedSpans t)).spans ++ (codeSpans t).spans,
      IsBoundary t s.start ∧ IsBoundary t s.stop := by
  have inside := exists_of_mem_inlineIn t
  have fenced : ∀ s ∈ (fencedSpans t).spans, IsBoundary t s.start ∧ IsBoundary t s.stop :=
    fun s member => (cuts_fencedSpans t).isBoundary s member [] rfl
  have inline : ∀ s ∈ (inlineSpans t (fencedSpans t)).spans,
      IsBoundary t s.start ∧ IsBoundary t s.stop := by
    refine SpanSet.bounds_ofSpans fun s member => ?_
    obtain ⟨⟨before, m, after, whole, _, starts, stops⟩, _⟩ := inside s member
    exact ⟨⟨before, m ++ after, whole, starts⟩, before ++ m, after, by simpa using whole,
      by rw [Text.size_append, starts, stops]⟩
  have both := List.forall_mem_append.mpr ⟨fenced, inline⟩
  refine ⟨⟨fenceRuns 0 0 t, mem_fenceRuns t, (apart_fenceRuns (Nat.le_refl 0) t).gaps, fun i => ?_⟩,
    ?_, fun offset => ?_, fun offset found => ?_,
    List.forall_mem_append.mpr ⟨both, SpanSet.bounds_ofSpans both⟩⟩
  · rw [spans_fencedSpans, getElem?_pairFences]
  · obtain ⟨stretches, cut, same⟩ := exists_stretches_inlineIn t
    refine ⟨stretches, cut, fun offset => ?_⟩
    rw [contains_inlineSpans, same]
    constructor
    · rintro ⟨s, member, covers⟩
      obtain ⟨stretch, among, run⟩ := List.mem_flatMap.mp member
      exact ⟨stretch, among, _, leftmost_stretch stretch, s, run, covers⟩
    · rintro ⟨stretch, among, found, search, s, run, covers⟩
      rw [search.unique (leftmost_stretch stretch)] at run
      exact ⟨s, List.mem_flatMap.mpr ⟨stretch, among, run⟩, covers⟩
  · rw [codeSpans, SpanSet.contains_union, Bool.or_eq_true]
  · obtain ⟨s, member, covers⟩ := (contains_inlineSpans t offset).mp found
    obtain ⟨⟨before, m, after, whole, code, starts, stops⟩, apart⟩ := inside s member
    obtain ⟨least, less⟩ := Span.contains_iff.mp covers
    refine ⟨List.any_eq_false.mpr fun block other within => ?_, fun front back cut here => ?_⟩
    · have bounds := Span.contains_iff.mp within
      have free := apart block other
      omega
    · exact code.newline_not_mem (mem_of_within (whole.symm.trans cut) (by omega) (by omega))

/-- The backtick in front of the block opens no inline code, as the one that could close it is
behind the block. -/
example : (codeSpans "`a```b```ä`c`".toList).spans = [⟨2, 9⟩, ⟨11, 14⟩] := by decide

end Transclusion

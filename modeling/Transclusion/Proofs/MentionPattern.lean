import Transclusion.Proofs.Position

namespace Transclusion

/-- What a search in a text can look for. -/
inductive Pattern
  | start
  | nothing
  | one (p : Char → Bool)
  | many (p : Char → Bool)
  | seq (a b : Pattern)
  | either (a b : Pattern)

namespace Pattern

def optional (a : Pattern) : Pattern := .either a .nothing

/-- All characters at the front that satisfy `p`, then one fewer, and so on. -/
def greedy (p : Char → Bool) : Text → List (Text × Text)
  | [] => [([], [])]
  | c :: t =>
    if p c then (greedy p t).map (fun way => (c :: way.1, way.2)) ++ [([], c :: t)] else [([], c :: t)]

/-- The ways to take a pattern from the front of a text that follows `before`: what is taken, and
what is left. They stand in the order in which they are tried. -/
def ways : Pattern → Option Char → Text → List (Text × Text)
  | .start, before, t => if before.isNone then [([], t)] else []
  | .nothing, _, t => [([], t)]
  | .one _, _, [] => []
  | .one p, _, c :: t => if p c then [([c], t)] else []
  | .many p, _, t => greedy p t
  | .seq a b, before, t =>
    (a.ways before t).flatMap fun first =>
      (b.ways (first.1.getLast?.or before) first.2).map fun later => (first.1 ++ later.1, later.2)
  | .either a b, before, t => a.ways before t ++ b.ways before t

/-- All characters that the pattern can take satisfy `p`. -/
def Takes (p : Char → Bool) : Pattern → Prop
  | .start => True
  | .nothing => True
  | .one q => ∀ c, q c → p c
  | .many q => ∀ c, q c → p c
  | .seq a b => a.Takes p ∧ b.Takes p
  | .either a b => a.Takes p ∧ b.Takes p

theorem head?_greedy (p : Char → Bool) (t : Text) :
    (greedy p t).head? = some (t.takeWhile p, t.dropWhile p) := by
  induction t with
  | nil => rfl
  | cons c t ih =>
    unfold greedy
    split
    · rename_i taken
      rw [List.head?_append, List.head?_map, ih, List.takeWhile_cons_of_pos taken,
        List.dropWhile_cons_of_pos taken]
      rfl
    · rename_i other
      rw [List.takeWhile_cons_of_neg other, List.dropWhile_cons_of_neg other]
      rfl

theorem mem_greedy {p : Char → Bool} {t : Text} :
    ∀ way ∈ greedy p t, t = way.1 ++ way.2 ∧ ∀ c ∈ way.1, p c := by
  induction t with
  | nil => simp [greedy]
  | cons c t ih =>
    intro way member
    unfold greedy at member
    split at member
    · rename_i taken
      rcases List.mem_append.mp member with longer | last
      · obtain ⟨shorter, inside, rfl⟩ := List.mem_map.mp longer
        obtain ⟨whole, all⟩ := ih shorter inside
        exact ⟨congrArg (c :: ·) whole, List.forall_mem_cons.mpr ⟨taken, all⟩⟩
      · cases List.mem_singleton.mp last
        exact ⟨rfl, by simp⟩
    · cases List.mem_singleton.mp member
      exact ⟨rfl, by simp⟩

/-- What is taken and what is left make up the text. -/
theorem mem_ways {a : Pattern} {p : Char → Bool} (takes : a.Takes p) {before : Option Char} {t : Text} :
    ∀ way ∈ a.ways before t, t = way.1 ++ way.2 ∧ ∀ c ∈ way.1, p c := by
  induction a generalizing before t with
  | start =>
    intro way member
    unfold ways at member
    split at member
    · cases List.mem_singleton.mp member
      exact ⟨rfl, by simp⟩
    · cases member
  | nothing =>
    intro way member
    cases List.mem_singleton.mp member
    exact ⟨rfl, by simp⟩
  | one q =>
    intro way member
    cases t with
    | nil => cases member
    | cons c t =>
      unfold ways at member
      split at member
      · rename_i taken
        cases List.mem_singleton.mp member
        exact ⟨rfl, by simpa using takes c taken⟩
      · cases member
  | many q =>
    intro way member
    obtain ⟨whole, all⟩ := mem_greedy way member
    exact ⟨whole, fun c inside => takes c (all c inside)⟩
  | seq a b first later =>
    intro way member
    obtain ⟨front, taken, member⟩ := List.mem_flatMap.mp member
    obtain ⟨behind, rest, rfl⟩ := List.mem_map.mp member
    obtain ⟨whole, all⟩ := first takes.1 front taken
    obtain ⟨whole', all'⟩ := later takes.2 behind rest
    refine ⟨by rw [List.append_assoc, ← whole', ← whole], fun c inside => ?_⟩
    exact (List.mem_append.mp inside).elim (all c) (all' c)
  | either a b first later =>
    intro way member
    exact (List.mem_append.mp member).elim (first takes.1 way) (later takes.2 way)

/-- Of ways that all lead to the same end, should they lead anywhere, the first one to do so is as
good as any other. -/
theorem findSome?_of_agree {α β : Type} {f : α → Option β} {xs : List α} {y : β}
    (agree : ∀ x ∈ xs, f x = none ∨ f x = some y) {x : α} (member : x ∈ xs) (leads : f x = some y) :
    xs.findSome? f = some y := by
  cases found : xs.findSome? f with
  | none =>
    rw [List.findSome?_eq_none_iff.mp found x member] at leads
    cases leads
  | some z =>
    obtain ⟨x', inside, same⟩ := List.exists_of_findSome?_eq_some found
    rcases agree x' inside with none | other
    · rw [none] at same
      cases same
    · rw [← same, other]

theorem head?_run (p : Char → Bool) (before : Option Char) (t : Text) :
    ((Pattern.seq (.one p) (.many p)).ways before t).head? =
      if t.takeWhile p = [] then none else some (t.takeWhile p, t.dropWhile p) := by
  cases t with
  | nil => rfl
  | cons c t =>
    unfold ways ways
    split
    · rename_i taken
      rw [List.takeWhile_cons_of_pos taken, List.dropWhile_cons_of_pos taken, if_neg (List.cons_ne_nil _ _)]
      rw [List.flatMap_singleton, List.head?_map, head?_greedy]
      rfl
    · rename_i other
      rw [List.takeWhile_cons_of_neg other]
      rfl

/-- Whatever of a run is taken by what may precede it, the first way takes the whole run. -/
theorem head?_optional_run {a : Pattern} {p : Char → Bool} (takes : a.Takes p)
    (before : Option Char) (t : Text) :
    ((Pattern.seq a.optional (.seq (.one p) (.many p))).ways before t).head? =
      if t.takeWhile p = [] then none else some (t.takeWhile p, t.dropWhile p) := by
  rw [ways, List.head?_flatMap]
  have each : ∀ way ∈ a.optional.ways before t,
      (((Pattern.seq (.one p) (.many p)).ways (way.1.getLast?.or before) way.2).map
        fun later => (way.1 ++ later.1, later.2)).head? =
        if way.2.takeWhile p = [] then none else some (t.takeWhile p, t.dropWhile p) := by
    intro way member
    obtain ⟨whole, all⟩ := mem_ways (a := a.optional) ⟨takes, trivial⟩ way member
    rw [List.head?_map, head?_run, whole, List.takeWhile_append_of_pos all,
      List.dropWhile_append_of_pos all]
    split <;> rfl
  split
  · rename_i none
    refine List.findSome?_eq_none_iff.mpr fun way member => ?_
    obtain ⟨whole, all⟩ := mem_ways (a := a.optional) ⟨takes, trivial⟩ way member
    rw [whole, List.takeWhile_append_of_pos all] at none
    rw [each way member, if_pos (List.append_eq_nil_iff.mp none).2]
  · rename_i run
    have last : ([], t) ∈ a.optional.ways before t := List.mem_append_right _ (List.mem_singleton_self _)
    refine findSome?_of_agree (fun way member => ?_) last ((each _ last).trans (if_neg run))
    rw [each way member]
    split
    · exact Or.inl rfl
    · exact Or.inr rfl

end Pattern

namespace Reference

/-- What may stand in front of the sign: the beginning of the text, a blank or an opening bracket. -/
def lead : Pattern := .either .start (.one fun c => isBlank c || ['(', '[', '\x7b'].contains c)

/-- Up to two dots and a slash. -/
def climb : Pattern :=
  .seq (.optional (.seq (.one (· = '.')) (.optional (.one (· = '.'))))) (.one (· = '/'))

/-- The path behind the sign: as many characters of one as there are. -/
def path : Pattern := .seq climb.optional (.seq (.one isTokenChar) (.many isTokenChar))

/-- The mention that a text begins with: what stands up to the sign, the path behind it, and what is
left. -/
def match? (before : Option Char) (t : Text) : Option (Text × Text × Text) :=
  (((Pattern.seq lead (.one (· = '@'))).ways before t).flatMap fun front =>
    (path.ways (front.1.getLast?.or before) front.2).map fun found => (front.1, found.1, found.2)).head?

/-- The places and the paths of the mentions, searched for from left to right: the search goes on
behind what it has found. `skip` is how many characters of a mention found earlier are still to be
passed. -/
def captures (offset skip : Nat) (before : Option Char) : Text → List (Nat × Text)
  | [] => []
  | c :: t =>
    match skip with
    | skip + 1 => captures (offset + c.utf8Size) skip (some c) t
    | 0 =>
      match match? before (c :: t) with
      | some (front, found, behind) =>
        (offset + front.size, found) :: captures (offset + c.utf8Size) (t.length - behind.length) (some c) t
      | none => captures (offset + c.utf8Size) 0 (some c) t

/-- What is made of a path found at `offset`, unless it lies in code or is none. -/
def ofCapture? (t : Text) (oneBased : Bool) (offset : Nat) (found : Text) : Option Reference :=
  let target := Text.dropEndWhile (· = '.') found
  if (codeSpans t).contains (offset - 1) || !isPathLike target then none
  else
    let place := Place.endOf (firstPosition oneBased) (t.takeBytes (offset - 1))
    some ⟨target, offset - 1, place.line, place.column⟩

/-- The numbers of the blanks. -/
def blankNumbers : List Nat :=
  List.range' 9 5 ++ List.range' 0x2000 11 ++
    [0x20, 0x85, 0xa0, 0x1680, 0x2028, 0x2029, 0x202f, 0x205f, 0x3000]

/-- No blank and no bracket belongs to a path, so a mention never follows one directly. -/
theorem not_mayFollow {c : Char} (token : isTokenChar c) : mayFollow (some c) = false := by
  rw [Bool.eq_false_iff]
  intro follows
  simp only [mayFollow, Bool.or_eq_true, decide_eq_true_eq, or_assoc] at follows
  rcases follows with blank | rfl | rfl | rfl
  · have number : c.toNat ∈ blankNumbers := by
      simp only [isBlank, Bool.or_eq_true, Bool.and_eq_true, decide_eq_true_eq] at blank
      simp only [blankNumbers, List.mem_append, List.mem_range'_1, List.mem_cons,
        List.not_mem_nil, or_false]
      omega
    have apart : ∀ n ∈ blankNumbers, ¬ isTokenChar (Char.ofNat n) := by decide +kernel
    exact apart _ number ((Char.ofNat_toNat c).symm ▸ token)
  · exact absurd token (by decide)
  · exact absurd token (by decide)
  · exact absurd token (by decide)

/-- The characters of a path that a text begins with. -/
def run (t : Text) : Text := t.takeWhile isTokenChar

def afterRun (t : Text) : Text := t.dropWhile isTokenChar

theorem run_append_afterRun (t : Text) : run t ++ afterRun t = t := List.takeWhile_append_dropWhile

theorem isTokenChar_of_mem_run {t : Text} {c : Char} (member : c ∈ run t) : isTokenChar c :=
  List.all_eq_true.mp (List.all_takeWhile ..) c member

theorem head?_path (before : Option Char) (t : Text) :
    (path.ways before t).head? = if run t = [] then none else some (run t, afterRun t) := by
  have dot : ∀ c, decide (c = '.') → isTokenChar c := fun c same => of_decide_eq_true same ▸ by decide
  have slash : ∀ c, decide (c = '/') → isTokenChar c := fun c same => of_decide_eq_true same ▸ by decide
  have takes : climb.Takes isTokenChar := ⟨⟨⟨dot, dot, trivial⟩, trivial⟩, slash⟩
  exact Pattern.head?_optional_run takes before t

section Front

variable {before : Option Char} {c : Char}

theorem ways_lead (before : Option Char) (c : Char) (t : Text) :
    lead.ways before (c :: t) =
      (if before.isNone then [([], c :: t)] else []) ++ if mayFollow (some c) then [([c], t)] else [] := by
  have follows : mayFollow (some c) = (isBlank c || ['(', '[', '\x7b'].contains c) := by
    simp [mayFollow, Bool.or_assoc]
  rw [follows]
  rfl

theorem ways_sign (before : Option Char) {t : Text} (other : t.head? ≠ some '@') :
    (Pattern.one (· = '@')).ways before t = [] := by
  cases t with
  | nil => rfl
  | cons c t => exact if_neg fun sign => other (congrArg some (of_decide_eq_true sign))

theorem ways_begin (t : Text) :
    (Pattern.seq lead (.one (· = '@'))).ways none ('@' :: t) = [(['@'], t)] := by
  rw [Pattern.ways, ways_lead, if_neg (by decide : ¬ mayFollow (some '@') = true)]
  rfl

theorem ways_after (follows : mayFollow (some c)) (before : Option Char) (t : Text) :
    (Pattern.seq lead (.one (· = '@'))).ways before (c :: '@' :: t) = [([c, '@'], t)] := by
  have other : (c :: '@' :: t).head? ≠ some '@' := by
    intro sign
    rw [Option.some.inj sign] at follows
    exact absurd follows (by decide)
  rw [Pattern.ways, ways_lead, if_pos follows]
  split
  · rw [List.flatMap_append, List.flatMap_singleton, ways_sign _ other]
    rfl
  · rfl

theorem ways_none (first : ¬ (before = none ∧ c = '@')) {t : Text}
    (later : mayFollow (some c) → t.head? ≠ some '@') :
    (Pattern.seq lead (.one (· = '@'))).ways before (c :: t) = [] := by
  rw [Pattern.ways, ways_lead, List.flatMap_append, List.append_eq_nil_iff]
  constructor
  · split
    · rename_i begins
      have other : (c :: t).head? ≠ some '@' :=
        fun sign => first ⟨Option.isNone_iff_eq_none.mp begins, Option.some.inj sign⟩
      rw [List.flatMap_singleton, ways_sign _ other]
      rfl
    · rfl
  · split
    · rename_i follows
      rw [List.flatMap_singleton, ways_sign _ (later follows)]
      rfl
    · rfl

theorem match?_of_ways {t front rest : Text}
    (ways : (Pattern.seq lead (.one (· = '@'))).ways before t = [(front, rest)]) :
    match? before t = if run rest = [] then none else some (front, run rest, afterRun rest) := by
  rw [match?, ways, List.flatMap_singleton, List.head?_map, head?_path]
  split <;> rfl

theorem match?_none {t : Text} (first : before = none → c = '@' → run t = [])
    (later : mayFollow (some c) → ∀ rest, t = '@' :: rest → run rest = []) :
    match? before (c :: t) = none := by
  by_cases begins : before = none ∧ c = '@'
  · obtain ⟨rfl, rfl⟩ := begins
    rw [match?_of_ways (ways_begin t), if_pos (first rfl rfl)]
  by_cases sign : mayFollow (some c) ∧ t.head? = some '@'
  · obtain ⟨follows, sign⟩ := sign
    obtain ⟨rest, rfl⟩ := List.head?_eq_some_iff.mp sign
    rw [match?_of_ways (ways_after follows before rest), if_pos (later follows rest rfl)]
  · rw [match?, ways_none begins fun follows head => sign ⟨follows, head⟩]
    rfl

end Front

/-- What a search finds when every sign is looked at on its own, whatever was found in front of it. -/
def sites (offset : Nat) (before : Option Char) : Text → List (Nat × Text)
  | [] => []
  | c :: t =>
    let later := sites (offset + c.utf8Size) (some c) t
    if c = '@' ∧ mayFollow before ∧ run t ≠ [] then (offset + 1, run t) :: later else later

theorem captures_skip (offset : Nat) (before : Option Char) (u t : Text) :
    captures offset u.length before (u ++ t) = captures (offset + u.size) 0 (u.getLast?.or before) t := by
  induction u generalizing offset before with
  | nil => rfl
  | cons c u ih =>
    rw [List.length_cons, List.cons_append, captures, ih, getLast?_cons_or, Text.size, Nat.add_assoc]

theorem sites_skip (offset : Nat) (before : Option Char) {u : Text} (clean : '@' ∉ u) (t : Text) :
    sites offset before (u ++ t) = sites (offset + u.size) (u.getLast?.or before) t := by
  induction u generalizing offset before with
  | nil => rfl
  | cons c u ih =>
    simp only [List.mem_cons, not_or] at clean
    rw [List.cons_append, sites, if_neg fun mention => clean.1 mention.1.symm, ih _ _ clean.2,
      getLast?_cons_or, Text.size, Nat.add_assoc]

section Steps

variable (offset : Nat) {before : Option Char} {c : Char} {t : Text}

theorem captures_run (t : Text) :
    captures offset (t.length - (afterRun t).length) (some '@') t =
      captures (offset + (run t).size) 0 ((run t).getLast?.or (some '@')) (afterRun t) := by
  have length : t.length - (afterRun t).length = (run t).length := by
    have both := congrArg List.length (run_append_afterRun t)
    rw [List.length_append] at both
    omega
  have passed := captures_skip offset (some '@') (run t) (afterRun t)
  rwa [run_append_afterRun, ← length] at passed

theorem captures_begin (filled : run t ≠ []) :
    captures offset 0 none ('@' :: t) = (offset + 1, run t) ::
      captures (offset + 1 + (run t).size) 0 ((run t).getLast?.or (some '@')) (afterRun t) := by
  rw [captures, match?_of_ways (ways_begin t), if_neg filled, ← captures_run]
  rfl

theorem captures_after (follows : mayFollow (some c)) (before : Option Char) (filled : run t ≠ []) :
    captures offset 0 before (c :: '@' :: t) = (offset + c.utf8Size + 1, run t) ::
      captures (offset + c.utf8Size + 1 + (run t).size)
        0 ((run t).getLast?.or (some '@')) (afterRun t) := by
  have shorter : (afterRun t).length ≤ t.length := (List.dropWhile_suffix _).length_le
  rw [captures, match?_of_ways (ways_after follows before t), if_neg filled, ← captures_run]
  dsimp only
  rw [List.length_cons, Nat.sub_add_comm shorter, captures]
  rfl

theorem sites_begin (follows : mayFollow before) (filled : run t ≠ []) :
    sites offset before ('@' :: t) = (offset + 1, run t) ::
      sites (offset + 1 + (run t).size) ((run t).getLast?.or (some '@')) (afterRun t) := by
  have clean : '@' ∉ run t := fun sign => absurd (isTokenChar_of_mem_run sign) (by decide)
  have passed := sites_skip (offset + 1) (some '@') clean (afterRun t)
  rw [run_append_afterRun] at passed
  rw [sites, if_pos ⟨rfl, follows, filled⟩, ← passed]
  rfl

theorem sites_none (none : ¬ (c = '@' ∧ mayFollow before ∧ run t ≠ [])) :
    sites offset before (c :: t) = sites (offset + c.utf8Size) (some c) t := by
  rw [sites, if_neg none]

end Steps

theorem not_mayFollow_run {t : Text} (filled : run t ≠ []) (before : Option Char) :
    mayFollow ((run t).getLast?.or before) = false := by
  rw [List.getLast?_eq_some_getLast filled]
  exact not_mayFollow (isTokenChar_of_mem_run (List.getLast_mem filled))

/-- Going on behind a mention misses none. The induction is on the length of the text, and what was
looked at in front of it leaves no path that begins here behind a character that it may follow. -/
theorem captures_eq_sites (offset : Nat) {before : Option Char} {t : Text}
    (fresh : mayFollow before → before ≠ none → ∀ rest, t = '@' :: rest → run rest = []) :
    captures offset 0 before t = sites offset before t := by
  induction size : t.length using Nat.strongRecOn generalizing offset before t with
  | ind n ih =>
    cases t with
    | nil => rfl
    | cons c t =>
      rw [List.length_cons] at size
      -- behind a path no mention begins directly
      have behind (offset : Nat) {u : Text} (short : u.length ≤ t.length) (filled : run u ≠ []) :
          captures offset 0 ((run u).getLast?.or (some '@')) (afterRun u) =
            sites offset ((run u).getLast?.or (some '@')) (afterRun u) := by
        have shorter : (afterRun u).length ≤ u.length := (List.dropWhile_suffix _).length_le
        refine ih (afterRun u).length (by omega) offset (fun follows => ?_) rfl
        rw [not_mayFollow_run filled] at follows
        cases follows
      by_cases first : before = none ∧ c = '@' ∧ run t ≠ []
      · obtain ⟨rfl, rfl, filled⟩ := first
        rw [captures_begin offset filled, sites_begin offset rfl filled, behind _ (Nat.le_refl _) filled]
      by_cases second : mayFollow (some c) ∧ ∃ rest, t = '@' :: rest ∧ run rest ≠ []
      · obtain ⟨follows, rest, rfl, filled⟩ := second
        have other : c ≠ '@' := by
          rintro rfl
          exact absurd follows (by decide)
        rw [captures_after offset follows before filled, sites_none offset fun mention => other mention.1,
          sites_begin _ follows filled, behind _ (Nat.le_succ _) filled]
      · have later : mayFollow (some c) →
            ∀ rest, t = '@' :: rest → run rest = [] := fun follows rest same =>
          Decidable.byContradiction fun filled => second ⟨follows, rest, same, filled⟩
        have none : match? before (c :: t) = none := match?_none
          (fun begins sign => Decidable.byContradiction fun filled => first ⟨begins, sign, filled⟩) later
        have none' : ¬ (c = '@' ∧ mayFollow before ∧ run t ≠ []) := by
          rintro ⟨rfl, follows, filled⟩
          exact filled (fresh follows (fun begins => first ⟨begins, rfl, filled⟩) t rfl)
        rw [captures, none, sites_none offset none']
        exact ih t.length (by omega) _ (fun follows _ => later follows) rfl

theorem run_ne_nil {t : Text} (pathLike : isPathLike (token t)) : run t ≠ [] := by
  intro none
  rw [token, show t.takeWhile isTokenChar = [] from none] at pathLike
  exact absurd pathLike (by decide)

/-- The scan keeps those of the paths that are found which lie outside code and are like paths. -/
theorem scan_eq_filterMap {t : Text} (oneBased : Bool) (before : Option Char) {front rest : Text}
    (whole : t = front ++ rest) :
    scan (codeSpans t) (firstPosition oneBased) (.endOf (firstPosition oneBased) front) before rest =
      (sites front.size before rest).filterMap fun site => ofCapture? t oneBased site.1 site.2 := by
  induction rest generalizing front before with
  | nil => rfl
  | cons c rest ih =>
    have later := @ih (some c) (front ++ [c]) (by rw [whole, List.append_assoc]; rfl)
    rw [Text.size_append, ← Place.advance_endOf] at later
    by_cases site : c = '@' ∧ mayFollow before ∧ run rest ≠ []
    · obtain ⟨rfl, follows, filled⟩ := site
      have here : t.takeBytes front.size = front := whole ▸ Text.takeBytes_append front _
      have made : ofCapture? t oneBased (front.size + 1) (run rest) =
          if !(codeSpans t).contains front.size && isPathLike (token rest) then
            some ⟨token rest, front.size, (Place.endOf (firstPosition oneBased) front).line,
              (Place.endOf (firstPosition oneBased) front).column⟩
          else none := by
        rw [ofCapture?, Nat.add_sub_cancel, here,
          ← show token rest = Text.dropEndWhile (· = '.') (run rest) from rfl]
        cases (codeSpans t).contains front.size <;> cases isPathLike (token rest) <;> rfl
      rw [sites, if_pos ⟨rfl, follows, filled⟩, List.filterMap_cons, made, scan, later, follows]
      change (if !(codeSpans t).contains front.size && isPathLike (token rest) then _ else _) = _
      cases !(codeSpans t).contains front.size && isPathLike (token rest) <;> rfl
    · have none : ¬ (c = '@' && mayFollow before &&
          !(codeSpans t).contains (Place.endOf (firstPosition oneBased) front).offset &&
          isPathLike (token rest)) := by
        simp only [Bool.and_eq_true, decide_eq_true_eq]
        rintro ⟨⟨⟨sign, follows⟩, _⟩, pathLike⟩
        exact site ⟨sign, follows, run_ne_nil pathLike⟩
      rw [sites_none _ site, scan, if_neg none]
      exact later

/-- The scan finds what a search finds that prefers the first way to take the pattern at each place
and goes on behind it. -/
theorem extract_eq_captures (t : Text) (oneBased : Bool) :
    extract t oneBased = (captures 0 0 none t).filterMap
      fun found => ofCapture? t oneBased found.1 found.2 := by
  rw [captures_eq_sites 0 fun _ other => absurd rfl other]
  exact scan_eq_filterMap oneBased none (List.nil_append t).symm

example : captures 0 0 none "@./ (@../b.md. x@c.d".toList =
    [(1, "./".toList), (6, "../b.md.".toList)] := by decide +kernel

end Reference

end Transclusion

import Transclusion.Proofs.FirstHit
import Transclusion.Proofs.Subpath

namespace Transclusion

namespace Path

/-- Lone dots take no step. -/
theorem foldl_step_filter (steps done : List Component) :
    (steps.filter (· ≠ .current)).foldl step done = steps.foldl step done := by
  induction steps generalizing done with
  | nil => rfl
  | cons c rest ih => cases c <;> exact ih _

/-- In normal form the root, or the `..` that lead out of where a relative path starts, come first,
and all else are names. -/
theorem exists_normalForm (p : Path) : ∃ ups names, AreNames names ∧
    p.normalize.components = (if p.isAbsolute then [.root] else List.replicate ups .parent) ++ names := by
  by_cases absolute : p.isAbsolute
  · obtain ⟨rest, steps⟩ := isAbsolute_iff.mp absolute
    have plain : rest.all Component.isPlain := Component.all_isPlain_tail (steps ▸ p.spelled)
    obtain ⟨names, below, same⟩ := exists_names_foldl plain
    refine ⟨0, names.reverse, fun c member => below c (List.mem_reverse.mp member), ?_⟩
    have taken : p.components.foldl step [] = names ++ [.root] := by rw [steps]; exact same
    simp [normalize, taken, absolute]
  · have start : Reached (List.replicate · .parent) [] :=
      ⟨0, [], fun c none => absurd none List.not_mem_nil, rfl⟩
    obtain ⟨ups, names, below, same⟩ :=
      start.run (fun ups => ⟨ups + 1, by cases ups <;> rfl⟩) (all_isPlain_filter absolute)
    refine ⟨ups, names.reverse, fun c member => below c (List.mem_reverse.mp member), ?_⟩
    rw [foldl_step_filter] at same
    simp [normalize, same, absolute]

theorem foldl_step_normalize (p : Path) :
    p.normalize.components.foldl step [] = p.components.foldl step [] :=
  foldl_step_reverse rfl p.components

/-- Behind a directory a relative path takes its own steps from where the directory leads to. -/
theorem normalize_join {p q : Path} (relative : ¬ q.isAbsolute) :
    (p.join q).normalize.components = (q.components.foldl step (p.components.foldl step [])).reverse := by
  unfold join
  split
  · rename_i alone
    rw [Bool.or_eq_true] at alone
    have nowhere : p.components = [] := List.isEmpty_iff.mp (alone.resolve_left relative)
    rw [nowhere]
    rfl
  · change ((p.components ++ q.components.filter (· ≠ .current)).foldl step []).reverse = _
    rw [List.foldl_append, foldl_step_filter]

theorem join_of_absolute {p q : Path} (absolute : q.isAbsolute) : p.join q = q :=
  dif_pos (by rw [absolute, Bool.true_or])

/-- The steps behind a directory may be taken from its normal form. -/
theorem normalize_normalize_join (p q : Path) : (p.normalize.join q).normalize = (p.join q).normalize := by
  by_cases absolute : q.isAbsolute
  · rw [join_of_absolute absolute, join_of_absolute absolute]
  · exact Path.ext (by rw [normalize_join absolute, normalize_join absolute, foldl_step_normalize])

theorem components_parse (t : Text) :
    (parse t).components = lead t ++ (t.splitOn '/').filterMap Component.ofPiece? := rfl

/-- A text that does not begin with a slash spells the same steps with `./` in front. -/
theorem foldl_step_parse_dot {t : Text} (relative : t.head? ≠ some '/') (done : List Component) :
    (parse ('.' :: '/' :: t)).components.foldl step done = (parse t).components.foldl step done := by
  have pieces : List.splitOn '/' ('.' :: '/' :: t) = ['.'] :: t.splitOn '/' :=
    List.splitOn_append_cons_self_of_not_mem (by decide : '/' ∉ ['.']) t
  have dotted : (parse ('.' :: '/' :: t)).components =
      .current :: (t.splitOn '/').filterMap Component.ofPiece? := by
    rw [components_parse, pieces, lead, pieces]
    rfl
  have plain : lead t = [.current] ∨ lead t = [] := by
    unfold lead
    rw [if_neg relative]
    split
    · exact Or.inl rfl
    · exact Or.inr rfl
  rw [dotted, components_parse]
  rcases plain with dot | none
  · rw [dot]
    rfl
  · rw [none]
    rfl

end Path

/-- A reference that does not begin with a slash is looked for in its directory only. -/
theorem resolve_of_relative (files : FileView) (base : Path) (extensions : List Text) {t : Text}
    (relative : t.head? ≠ some '/') : resolve files base extensions t =
      .locate files ((startOf files base).join (.parse t)).normalize extensions := by
  have bare : t.dropWhile (· = '/') = t := by
    cases t with
    | nil => rfl
    | cons c rest => exact List.dropWhile_cons_of_neg (by simpa using relative)
  rw [resolve_eq_ite, if_neg fun top => relative ((Path.isAbsolute_parse t).mp top.1), bare]

/-- A reference leads to the same place with `./` in front. -/
theorem resolve_dot (files : FileView) (base : Path) (extensions : List Text) {t : Text}
    (relative : t.head? ≠ some '/') :
    resolve files base extensions ('.' :: '/' :: t) = resolve files base extensions t := by
  have dotted : ('.' :: '/' :: t).head? ≠ some '/' := by simp
  have joined : ((startOf files base).join (.parse ('.' :: '/' :: t))).normalize =
      ((startOf files base).join (.parse t)).normalize := by
    refine Path.ext ?_
    rw [Path.normalize_join (mt (Path.isAbsolute_parse _).mp dotted),
      Path.normalize_join (mt (Path.isAbsolute_parse t).mp relative),
      Path.foldl_step_parse_dot relative]
  rw [resolve_of_relative files base extensions dotted,
    resolve_of_relative files base extensions relative, joined]

/-- What normal forms are and how they go together with joining: no lone dot is left in one and no
`..` but in front of a relative one, a path in normal form is its own, and a directory may be
brought into normal form before anything is joined to it. So a reference that begins with no slash
leads to the same place with `./` in front. -/
theorem normal_forms_join (p : Path) :
    (∃ ups names, AreNames names ∧
        p.normalize.components = (if p.isAbsolute then [.root] else List.replicate ups .parent) ++ names) ∧
      p.normalize.normalize = p.normalize ∧
      (∀ q : Path, (p.join q).normalize = (p.normalize.join q).normalize) ∧
      ∀ (files : FileView) (extensions : List Text) (t : Text), t.head? ≠ some '/' →
        resolve files p extensions ('.' :: '/' :: t) = resolve files p extensions t :=
  ⟨p.exists_normalForm, p.normalize_normalize, fun q => (p.normalize_normalize_join q).symm,
    fun files extensions _ relative => resolve_dot files p extensions relative⟩

-- a path that leads out of where it starts, and one that would lead out of the root
example : (Path.parse "x/../../y/./z/..".toList).normalize = .parse "../y".toList ∧
    (Path.parse "/x/../../y//z".toList).normalize = .parse "/y/z".toList := by decide

end Transclusion

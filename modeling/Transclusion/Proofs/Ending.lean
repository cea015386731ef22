import Mathlib.Data.List.TakeWhile
import Transclusion.Config
import Transclusion.Proofs.MemoryForm
import Transclusion.Proofs.ScannedGraph

namespace Transclusion

theorem intercalate_concat_append (sep : Text) (pieces : List Text) (last more : Text) :
    sep.intercalate (pieces ++ [last]) ++ more = sep.intercalate (pieces ++ [last ++ more]) := by
  induction pieces with
  | nil => simp
  | cons piece rest ih =>
    obtain ⟨next, others, same⟩ := List.exists_cons_of_ne_nil (List.concat_ne_nil (last ++ more) rest)
    obtain ⟨next', others', same'⟩ := List.exists_cons_of_ne_nil (List.concat_ne_nil last rest)
    rw [same, same'] at ih
    simp only [List.cons_append, same, same', List.intercalate_cons_cons, List.append_assoc, ih]

/-- What may stand behind a name: it has no slash in it and is more than dots. -/
def IsEnding (t : Text) : Prop := '/' ∉ t ∧ ∃ c ∈ t, c ≠ '.'

theorem IsEnding.append {t : Text} (ending : IsEnding t) {before : Text} (clean : '/' ∉ before) :
    IsEnding (before ++ t) := by
  obtain ⟨inside, c, member, visible⟩ := ending
  refine ⟨?_, c, List.mem_append_right _ member, visible⟩
  rw [List.mem_append, not_or]
  exact ⟨clean, inside⟩

theorem IsEnding.isPlain {t : Text} (ending : IsEnding t) : (Component.name t).isPlain := by
  obtain ⟨clean, c, member, visible⟩ := ending
  have read : Component.ofPiece? t = some (.name t) := by
    unfold Component.ofPiece?
    split
    · cases member
    · exact absurd (List.mem_singleton.mp member) visible
    · simp only [List.mem_cons, List.not_mem_nil, or_false, or_self] at member
      exact absurd member visible
    · rfl
  exact Path.isPlain_iff.mpr ⟨clean, read⟩

theorem dotted_dotted (ext : Text) : dotted (dotted ext) = dotted ext := by
  have dot : (dotted ext).head? = some '.' := by
    unfold dotted
    split
    · assumption
    · rfl
  exact if_pos dot

theorem isEnding_dotted {ext : Text} (accepted : Config.isExtension ext) : IsEnding (dotted ext) := by
  unfold Config.isExtension at accepted
  simp only [Bool.and_eq_true, Bool.not_eq_true', List.isEmpty_eq_false_iff, List.any_eq_false,
    Bool.or_eq_true, decide_eq_true_eq, not_or] at accepted
  obtain ⟨visible, bare⟩ := accepted
  have clean : '/' ∉ ext := by
    intro member
    have parts : ext.takeWhile (· = '.') ++ ext.dropWhile (· = '.') = ext := List.takeWhile_append_dropWhile
    rw [← parts] at member
    rcases List.mem_append.mp member with dots | rest
    · exact absurd (List.all_eq_true.mp (List.all_takeWhile ..) _ dots) (by decide)
    · exact (bare _ rest).1 rfl
  have shown : ∃ c ∈ ext, c ≠ '.' := by
    by_contra hidden
    simp only [not_exists, not_and, not_not] at hidden
    exact visible (List.dropWhile_eq_nil_iff.mpr fun c member => decide_eq_true (hidden c member))
  unfold dotted
  split
  · exact ⟨clean, shown⟩
  · have dot : '/' ∉ ['.'] := by decide
    exact IsEnding.append ⟨clean, shown⟩ dot

namespace Path

/-- Steps of which none takes back another or means nothing. -/
def Settled (steps : List Component) : Prop := steps.foldl step [] = steps.reverse

theorem normalize_eq_self_iff {p : Path} : p.normalize = p ↔ Settled p.components := by
  rw [Path.ext_iff]
  exact List.reverse_eq_iff

theorem step_cases (done : List Component) (c : Component) :
    step done c = c :: done ∨ (step done c).length ≤ done.length := by
  unfold step
  split
  · exact Or.inr le_rfl
  · split
    · exact Or.inr (Nat.le_succ _)
    · exact Or.inr le_rfl
    · exact Or.inl rfl
  · exact Or.inl rfl

theorem length_foldl_step (steps done : List Component) :
    (steps.foldl step done).length ≤ done.length + steps.length := by
  induction steps generalizing done with
  | nil => exact le_rfl
  | cons c rest ih =>
    have later := ih (step done c)
    rw [List.foldl_cons, List.length_cons]
    rcases step_cases done c with same | shorter
    · rw [same, List.length_cons] at later
      rw [same]
      omega
    · omega

/-- All steps of settled ones are taken, so those in front of the last are settled too. -/
theorem Settled.front {front : List Component} {c : Component} (settled : Settled (front ++ [c])) :
    Settled front ∧ step front.reverse c = c :: front.reverse := by
  unfold Settled at settled ⊢
  rw [List.foldl_append, List.reverse_append, List.reverse_singleton, List.singleton_append] at settled
  have taken : step (front.foldl step []) c = c :: front.reverse := settled
  have short := length_foldl_step front []
  rcases step_cases (front.foldl step []) c with same | shorter
  · have before : front.foldl step [] = front.reverse := (List.cons.inj (same.symm.trans taken)).2
    exact ⟨before, before ▸ taken⟩
  · rw [taken, List.length_cons, List.length_reverse] at shorter
    rw [List.length_nil] at short
    omega

theorem Settled.name {front : List Component} (settled : Settled front) (t : Text) :
    Settled (front ++ [.name t]) := by
  unfold Settled at settled ⊢
  rw [List.foldl_append, List.reverse_append, settled]
  rfl

theorem text_name (t : Text) (spelled : Component.areSpelled [.name t]) :
    (⟨[.name t], spelled⟩ : Path).text = t :=
  List.intercalate_singleton

theorem text_root_name (t : Text) (spelled : Component.areSpelled [.root, .name t]) :
    (⟨[.root, .name t], spelled⟩ : Path).text = '/' :: t :=
  congrArg (List.cons '/') List.intercalate_singleton

/-- The spelling of a path with more behind its last step. -/
theorem text_append {p q : Path} {front : List Component} {c : Component} {more : Text}
    (steps : p.components = front ++ [c]) (below : c ≠ .root)
    (longer : q.components = front ++ [.name (c.text ++ more)]) :
    p.text ++ more = q.text := by
  have joined := intercalate_concat_append ['/'] (front.map Component.text) c.text more
  unfold text
  rw [steps, longer]
  match front with
  | [] => cases c <;> first | exact absurd rfl below | simp [Component.text]
  | .root :: rest =>
    have joined := intercalate_concat_append ['/'] (rest.map Component.text) c.text more
    simpa [Component.text] using joined
  | .current :: rest => simpa [Component.text] using joined
  | .parent :: rest => simpa [Component.text] using joined
  | .name t :: rest => simpa [Component.text] using joined

theorem isPlain_last {front : List Component} {c : Component}
    (spelled : Component.areSpelled (front ++ [c])) (below : c ≠ .root) (visible : c ≠ .current) :
    c.isPlain := by
  cases front with
  | nil =>
    have alone : Component.areSpelled [c] := spelled
    cases c <;> simp_all [Component.areSpelled]
  | cons first rest =>
    exact List.all_eq_true.mp (Component.all_isPlain_tail spelled) c
      (List.mem_append_right _ (List.mem_singleton_self c))

theorem areSpelled_concat {front : List Component} {c d : Component}
    (spelled : Component.areSpelled (front ++ [c])) (plain : d.isPlain) :
    Component.areSpelled (front ++ [d]) := by
  have before : Component.areSpelled front := by
    have cut := Component.areSpelled_dropLast spelled
    rwa [List.dropLast_concat] at cut
  have last : [d].all Component.isPlain := by rw [List.all_cons, plain]; rfl
  cases front with
  | nil => exact Component.areSpelled_of_all last
  | cons first rest => exact Component.areSpelled_append before (by simp) last

/-- An ending written behind a path in normal form lengthens its last step, or adds a step where
there is none to lengthen, and the result is in normal form. -/
theorem exists_ending {p : Path} (settled : Settled p.components) {e : Text} (ending : IsEnding e) :
    ∃ q : Path, p.text ++ e = q.text ∧ Settled q.components := by
  rcases List.eq_nil_or_concat' p.components with none | ⟨front, c, steps⟩
  · have spelled : Component.areSpelled [.name e] :=
      Component.areSpelled_of_all (by rw [List.all_cons, ending.isPlain]; rfl)
    exact ⟨⟨[.name e], spelled⟩, by rw [text_name, text, none]; rfl, rfl⟩
  have spelled : Component.areSpelled (front ++ [c]) := steps ▸ p.spelled
  rw [steps] at settled
  obtain ⟨before, taken⟩ := settled.front
  by_cases top : c = .root
  · subst top
    have first : front = [] := by
      cases front with
      | nil => rfl
      | cons d rest =>
        exact absurd (List.all_eq_true.mp (Component.all_isPlain_tail spelled) .root (by simp))
          (by decide)
    subst first
    have longer : Component.areSpelled [.root, .name e] := by
      rw [Component.areSpelled, List.all_cons, ending.isPlain]
      rfl
    exact ⟨⟨[.root, .name e], longer⟩, by rw [text_root_name, text, steps]; rfl, rfl⟩
  have visible : c ≠ .current := by
    rintro rfl
    have idle : front.reverse = .current :: front.reverse := taken
    exact absurd idle.symm (List.cons_ne_self _ _)
  have longer := ending.append (isPlain_iff.mp (isPlain_last spelled top visible)).1
  exact ⟨⟨front ++ [.name (c.text ++ e)], areSpelled_concat spelled longer.isPlain⟩,
    text_append steps top rfl, before.name _⟩

/-- A text that is one name is the path of one step. -/
theorem parse_ending {e : Text} (ending : IsEnding e) : (parse e).components = [.name e] := by
  have spelled : Component.areSpelled [.name e] :=
    Component.areSpelled_of_all (by rw [List.all_cons, ending.isPlain]; rfl)
  have read := parse_text ⟨[.name e], spelled⟩
  rw [text_name] at read
  rw [read]

theorem normalize_join_ending {p : Path} (normal : p.normalize = p) {e : Text} (ending : IsEnding e) :
    (p.join (parse e)).normalize = p.join (parse e) := by
  rw [normalize_eq_self_iff] at normal ⊢
  have steps := parse_ending ending
  have relative : (parse e).isAbsolute = false := by rw [isAbsolute, steps]; rfl
  unfold join
  split
  · rw [steps]
    rfl
  · simp only [steps]
    exact normal.name e

end Path

namespace Resolution

variable {files : FileView} {candidate p : Path} {ext : Text} {extensions : List Text}

theorem normalize_withEnding (normal : candidate.normalize = candidate) (ending : IsEnding (dotted ext)) :
    (withEnding candidate ext).normalize = withEnding candidate ext := by
  obtain ⟨q, spells, settled⟩ := Path.exists_ending (Path.normalize_eq_self_iff.mp normal) ending
  rw [withEnding, spells, Path.parse_text]
  exact Path.normalize_eq_self_iff.mpr settled

theorem normalize_indexIn (normal : candidate.normalize = candidate) (ending : IsEnding (dotted ext)) :
    (indexIn candidate ext).normalize = indexIn candidate ext :=
  Path.normalize_join_ending normal (ending.append (by decide : '/' ∉ indexName))

theorem normalize_of_locate (normal : candidate.normalize = candidate)
    (endings : ∀ ext ∈ extensions, IsEnding (dotted ext))
    (found : locate files candidate extensions = .file p) : p.normalize = p := by
  unfold locate at found
  split at found
  · cases found
    exact normal
  dsimp only at found
  split at found
  · rename_i q first
    cases found
    rcases List.mem_append.mp (List.mem_of_find?_eq_some first) with ended | index
    · split at ended
      · obtain ⟨ext, member, rfl⟩ := List.mem_map.mp ended
        exact normalize_withEnding normal (endings ext member)
      · cases ended
    · obtain ⟨ext, member, rfl⟩ := List.mem_map.mp index
      exact normalize_indexIn normal (endings ext member)
  · split at found <;> cases found

end Resolution

/-- A reference leads to files in normal form when nothing that is tried has a slash or only dots
behind a name. -/
theorem normalize_of_resolve {files : FileView} {base p : Path} {extensions : List Text}
    {target : Text} (endings : ∀ ext ∈ extensions, IsEnding (dotted ext))
    (found : resolve files base extensions target = .file p) :
    p.normalize = p := by
  unfold resolve at found
  dsimp only at found
  split at found
  · split at found
    · exact Resolution.normalize_of_locate (Path.normalize_normalize _) endings found
    · exact Resolution.normalize_of_locate (Path.normalize_normalize _) endings found
  · exact Resolution.normalize_of_locate (Path.normalize_normalize _) endings found

/-- Writing the dot of an ending out makes no difference to what it is. -/
theorem isEnding_of_accepted {extensions : List Text}
    (accepted : ∀ ext ∈ extensions, Config.isExtension ext) :
    ∀ ext ∈ extensions.map dotted, IsEnding (dotted ext) := by
  intro ext member
  obtain ⟨written, inside, rfl⟩ := List.mem_map.mp member
  rw [dotted_dotted]
  exact isEnding_dotted (accepted written inside)

/-- A reference leads to files in normal form when the endings to try are those that a configuration
accepts. -/
theorem normalize_of_accepted {files : FileView} {base p : Path} {extensions : List Text}
    (accepted : ∀ ext ∈ extensions, Config.isExtension ext) {target : Text}
    (leads : resolve files base (extensions.map dotted) target = .file p) : p.normalize = p :=
  normalize_of_resolve (isEnding_of_accepted accepted) leads

namespace FaultyStore

variable {store : FaultyStore} {base p : Path} {extensions : List Text} {target : Text}

/-- Where kinds are told as they are, references lead to what is stored. -/
theorem mem_of_endings (steady : store.faults.kind = [])
    (endings : ∀ ext ∈ extensions, IsEnding (dotted ext))
    (leads : resolve (FileStore.view store) base extensions target = .file p) :
    p ∈ store.store.files.map (·.1) := by
  have stored := MemoryStore.normalize_mem_of_kind
    ((kind_of_steady steady p).symm.trans (kind_of_resolve leads))
  rwa [normalize_of_resolve endings leads] at stored

theorem mem_of_resolve (steady : store.faults.kind = [])
    (accepted : ∀ ext ∈ extensions, Config.isExtension ext)
    (leads : resolve (FileStore.view store) base (extensions.map dotted) target = .file p) :
    p ∈ store.store.files.map (·.1) :=
  mem_of_endings steady (isEnding_of_accepted accepted) leads

/-- In a store whose files all have absolute paths, references lead to absolute paths in normal
form, where a compilation looks for a document. -/
theorem absolute_of_resolve (steady : store.faults.kind = [])
    (rooted : ∀ file ∈ store.store.files, file.1.isAbsolute)
    (accepted : ∀ ext ∈ extensions, Config.isExtension ext)
    (leads : resolve (FileStore.view store) base (extensions.map dotted) target = .file p) :
    (FileStore.view store).absolute p = .ok p := by
  obtain ⟨file, member, rfl⟩ := List.mem_map.mp (mem_of_resolve steady accepted leads)
  exact FileView.absolute_of_normal (rooted file member) (normalize_of_accepted accepted leads)

end FaultyStore

end Transclusion

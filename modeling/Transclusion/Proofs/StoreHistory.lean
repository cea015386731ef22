import Mathlib.Data.List.Induction
import Transclusion.Proofs.MemoryForm

namespace Transclusion

/-- `p` lies below `dir`, of which it has all steps in front of at least one more. -/
def Path.IsBelow (dir p : Path) : Prop := ∃ steps, steps ≠ [] ∧ p.components = dir.components ++ steps

theorem Path.isBelow_iff {dir p : Path} : dir.IsBelow p ↔ p.startsWith dir ∧ p ≠ dir := by
  rw [startsWith, List.isPrefixOf_iff_prefix]
  constructor
  · rintro ⟨steps, more, same⟩
    refine ⟨⟨steps, same.symm⟩, ?_⟩
    rintro rfl
    exact more (List.self_eq_append_right.mp same)
  · rintro ⟨⟨steps, same⟩, other⟩
    refine ⟨steps, ?_, same.symm⟩
    rintro rfl
    exact other (Path.ext (same.symm.trans (List.append_nil _)))

/-- A call that puts a text in its place: it is inserted, or written as a file. -/
inductive Update
  | insert (p : Path) (t : Text)
  | write (target : Spelling) (t : Text)

namespace Update

def path : Update → Path
  | insert p _ => p
  | write target _ => target.path

def text : Update → Text
  | insert _ t => t
  | write _ t => t

def perform (m : MemoryStore) : Update → Except AccessError Unit × MemoryStore
  | insert p t => (.ok (), m.insert p t)
  | write target t => FileStore.write m target t

/-- No update fails, and in memory a written file is one that is inserted. -/
theorem perform_eq (m : MemoryStore) (u : Update) : u.perform m = (.ok (), m.insert u.path u.text) := by
  cases u <;> rfl

end Update

namespace MemoryStore

variable {m : MemoryStore} {p q : Path} {t : Text} {updates : List Update} {found : List Path}

/-- The store that a sequence of updates makes of the empty one. -/
def after (updates : List Update) : MemoryStore := updates.foldl (fun m u => (u.perform m).2) empty

theorem after_concat (updates : List Update) (u : Update) :
    after (updates ++ [u]) = (after updates).insert u.path u.text := by
  rw [after, List.foldl_append, List.foldl_cons, List.foldl_nil, Update.perform_eq]
  rfl

theorem orderly_after (updates : List Update) : (after updates).Orderly := by
  induction updates using List.reverseRecOn with
  | nil => exact orderly_empty
  | append_singleton updates u ih => exact after_concat updates u ▸ ih.insert u.path u.text

/-- The last update whose path has the normal form in question leaves its text behind. -/
theorem get?_after (updates : List Update) (p : Path) :
    (after updates).get? p =
      (updates.reverse.find? fun u => u.path.normalize = p.normalize).map (·.text) := by
  induction updates using List.reverseRecOn with
  | nil => rfl
  | append_singleton updates u ih =>
    rw [after_concat, get?_insert, List.reverse_concat, List.find?_cons, ih]
    by_cases same : u.path.normalize = p.normalize
    · simp [same]
    · simp [same, Ne.symm same]

theorem get?_after_eq_some_iff :
    (after updates).get? p = some t ↔ ∃ before u later, updates = before ++ u :: later ∧
      u.path.normalize = p.normalize ∧ u.text = t ∧ ∀ v ∈ later, v.path.normalize ≠ p.normalize := by
  rw [get?_after, Option.map_eq_some_iff]
  constructor
  · rintro ⟨u, last, rfl⟩
    obtain ⟨same, later, before, split, others⟩ := List.find?_eq_some_iff_append.mp last
    refine ⟨before.reverse, u, later.reverse, ?_, of_decide_eq_true same, rfl, fun v member => ?_⟩
    · rw [← List.reverse_reverse updates, split]
      simp
    · simpa using others v (List.mem_reverse.mp member)
  · rintro ⟨before, u, later, rfl, same, rfl, others⟩
    refine ⟨u, List.find?_eq_some_iff_append.mpr ⟨decide_eq_true same, later.reverse, before.reverse,
      by simp, ?_⟩, rfl⟩
    intro v member
    simpa using others v (List.mem_reverse.mp member)

theorem get?_after_eq_none_iff :
    (after updates).get? p = none ↔ ∀ u ∈ updates, u.path.normalize ≠ p.normalize := by
  rw [get?_after, Option.map_eq_none_iff, List.find?_eq_none]
  simp

theorem isSome_get?_iff : (m.get? p).isSome ↔ p.normalize ∈ m.files.map (·.1) := by
  rw [get?, List.lookup_isSome_iff, List.mem_map]
  exact exists_congr fun file => and_congr_right fun _ => beq_iff_eq.trans eq_comm

theorem kind_eq_file_iff : m.kind p = some .file ↔ (m.get? p).isSome := by
  unfold kind
  split
  · rename_i stored
    exact iff_of_true rfl stored
  · rename_i absent
    refine iff_of_false (fun file => ?_) absent
    split at file <;> cases file

theorem kind_normalize (m : MemoryStore) (p : Path) : m.kind p.normalize = m.kind p := by
  rw [kind, kind, get?, get?, Path.normalize_normalize]

/-- What is a directory is told from the files below it. -/
theorem kind_eq_directory_iff : m.kind p = some .directory ↔
    p.normalize ∉ m.files.map (·.1) ∧ ∃ key ∈ m.files.map (·.1), p.normalize.IsBelow key := by
  rw [← isSome_get?_iff]
  unfold kind
  split
  · rename_i stored
    exact iff_of_false (fun directory => by cases directory) fun absent => absent.1 stored
  · rename_i absent
    have below : m.reaches p.normalize ↔ ∃ key ∈ m.files.map (·.1), p.normalize.IsBelow key := by
      rw [isSome_get?_iff] at absent
      simp only [reaches, List.any_eq_true, Path.isBelow_iff]
      constructor
      · rintro ⟨file, member, starts⟩
        have key : file.1 ∈ m.files.map (·.1) := List.mem_map_of_mem member
        exact ⟨file.1, key, starts, fun same => absent (same ▸ key)⟩
      · rintro ⟨key, member, starts, _⟩
        obtain ⟨file, stored, rfl⟩ := List.mem_map.mp member
        exact ⟨file, stored, starts⟩
    rw [and_iff_right absent, ← below]
    split
    · rename_i reached
      exact iff_of_true rfl reached
    · rename_i other
      exact iff_of_false (fun directory => by cases directory) other

theorem read_eq_ok_iff : m.read p = .ok t ↔ m.get? p = some t := by
  unfold read
  split
  · rename_i found
    rw [found, Except.ok.injEq, Option.some.injEq]
  · rename_i absent
    rw [absent]
    split <;> simp

theorem kind_eq_file_iff_read : m.kind p = some .file ↔ ∃ t, m.read p = .ok t := by
  simp only [kind_eq_file_iff, Option.isSome_iff_exists, read_eq_ok_iff]

theorem read_eq_isADirectory_iff : m.read p = .error (fault .isADirectory p " is a directory") ↔
    m.kind p = some .directory := by
  unfold read kind
  cases m.get? p with
  | some t => simp
  | none =>
    cases m.reaches p.normalize with
    | true => simp
    | false => simp [fault]

theorem list_eq_ok_iff : m.list p = .ok found ↔ m.kind p = some .directory ∧
    found = (m.files.map (·.1)).filter fun q => q.startsWith p.normalize && q ≠ p.normalize := by
  constructor
  · intro listed
    refine ⟨?_, list_eq_ok listed⟩
    unfold list at listed
    split at listed
    · assumption
    · cases listed
    · cases listed
  · rintro ⟨directory, rfl⟩
    rw [list, directory]

theorem mem_of_list (listed : m.list p = .ok found) :
    q ∈ found ↔ q ∈ m.files.map (·.1) ∧ p.normalize.IsBelow q := by
  rw [list_eq_ok listed, List.mem_filter, Path.isBelow_iff, Bool.and_eq_true, decide_eq_true_eq]

end MemoryStore

/-- What a store in memory answers is settled by the calls that updated it, in whatever spelling it
is asked. It keeps normal forms only, and under each the text that was put there last. A path is a
file if a text is there to be read, a directory if there is none but a file below it, and what is
listed below a directory is all that is stored there, in order. -/
theorem stored_files_answer_as_updated (updates : List Update) (p : Path) :
    let m := MemoryStore.after updates
    let n := p.normalize
    let keys := m.files.map (·.1)
    (∀ key ∈ keys, key.normalize = key) ∧
      ((∀ t, m.get? p = some t ↔ ∃ before u later, updates = before ++ u :: later ∧
          u.path.normalize = n ∧ u.text = t ∧ ∀ v ∈ later, v.path.normalize ≠ n) ∧
        (m.get? p = none ↔ ∀ u ∈ updates, u.path.normalize ≠ n) ∧ ((m.get? p).isSome ↔ n ∈ keys)) ∧
      ((m.kind p = some .file ↔ (m.get? p).isSome) ∧ (m.kind p = some .file ↔ ∃ t, m.read p = .ok t) ∧
        ∀ t, m.read p = .ok t ↔ m.get? p = some t) ∧
      ((m.kind p = some .directory ↔ n ∉ keys ∧ ∃ key ∈ keys, n.IsBelow key) ∧
        (m.read p = .error (MemoryStore.fault .isADirectory p " is a directory") ↔
          m.kind p = some .directory)) ∧
      ((∃ found, m.list p = .ok found) ↔ m.kind p = some .directory) ∧
      ∀ found, m.list p = .ok found → Ascending found ∧ ∀ q, q ∈ found ↔ q ∈ keys ∧ n.IsBelow q := by
  intro m n keys
  have orderly : m.Orderly := MemoryStore.orderly_after updates
  refine ⟨orderly.normal, ⟨fun t => MemoryStore.get?_after_eq_some_iff, MemoryStore.get?_after_eq_none_iff,
    MemoryStore.isSome_get?_iff⟩, ⟨MemoryStore.kind_eq_file_iff, MemoryStore.kind_eq_file_iff_read,
      fun t => MemoryStore.read_eq_ok_iff⟩,
    ⟨MemoryStore.kind_eq_directory_iff, MemoryStore.read_eq_isADirectory_iff⟩, ?_,
    fun found listed => ⟨orderly.ascending_list listed, fun q => MemoryStore.mem_of_list listed⟩⟩
  exact ⟨fun ⟨found, listed⟩ => (MemoryStore.list_eq_ok_iff.mp listed).1,
    fun directory => ⟨_, MemoryStore.list_eq_ok_iff.mpr ⟨directory, rfl⟩⟩⟩

end Transclusion

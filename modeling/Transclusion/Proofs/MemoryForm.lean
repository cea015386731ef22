import Transclusion.MemoryStore
import Transclusion.Proofs.PathForm
import Transclusion.Proofs.PathOrder
import Transclusion.Sorting

namespace Transclusion

/-- A listing names every file once, and in normal form when the directory is given so. -/
structure FileView.Orderly (files : FileView) : Prop where
  distinct {dir : Path} {found : List Path} : files.list dir = .ok found → found.Nodup
  normal {dir : Path} {found : List Path} : dir.normalize = dir → files.list dir = .ok found →
    ∀ p ∈ found, p.normalize = p

namespace MemoryStore

theorem keys_put (p : Path) (t : Text) (files : List (Path × Text)) :
    (put p t files).map (·.1) = insertNew compare p (files.map (·.1)) := by
  induction files with
  | nil => rfl
  | cons file rest ih =>
    obtain ⟨q, u⟩ := file
    unfold put
    rw [List.map_cons, insertNew]
    cases order : compare p q <;> simp [ih]

theorem lookup_put (p q : Path) (t : Text) (files : List (Path × Text)) :
    (put p t files).lookup q = if q = p then some t else files.lookup q := by
  induction files with
  | nil => exact lookup_cons_ite ..
  | cons file rest ih =>
    obtain ⟨r, u⟩ := file
    unfold put
    split
    · exact lookup_cons_ite ..
    · rename_i level
      obtain rfl : p = r := Std.LawfulEqOrd.eq_of_compare level
      rw [lookup_cons_ite, lookup_cons_ite]
      split <;> rfl
    · rename_i behind
      have apart : p ≠ r := by
        rintro rfl
        cases behind.symm.trans Std.ReflCmp.compare_self
      rw [lookup_cons_ite, lookup_cons_ite, ih]
      by_cases there : q = r
      · simp [there, Ne.symm apart]
      · simp [there]

theorem get?_insert (m : MemoryStore) (p q : Path) (t : Text) :
    (m.insert p t).get? q = if q.normalize = p.normalize then some t else m.get? q :=
  lookup_put ..

/-- The files as the store keeps them: by path in normal form and in ascending order. -/
structure Orderly (m : MemoryStore) : Prop where
  ascending : Ascending (m.files.map (·.1))
  normal : ∀ p ∈ m.files.map (·.1), p.normalize = p

theorem orderly_empty : empty.Orderly := ⟨.nil, fun _ none => absurd none List.not_mem_nil⟩

theorem Orderly.insert {m : MemoryStore} (orderly : m.Orderly) (p : Path) (t : Text) :
    (m.insert p t).Orderly := by
  have keys : (m.insert p t).files.map (·.1) = insertNew compare p.normalize (m.files.map (·.1)) :=
    keys_put ..
  refine ⟨keys ▸ orderly.ascending.insertNew _, fun q member => ?_⟩
  rw [keys, mem_insertNew] at member
  rcases member with rfl | old
  · exact Path.normalize_normalize p
  · exact orderly.normal q old

theorem mem_of_get? {m : MemoryStore} {p : Path} {t : Text} (found : m.get? p = some t) :
    (p.normalize, t) ∈ m.files := by
  obtain ⟨front, back, same, _⟩ := List.lookup_eq_some_iff.mp found
  rw [same]
  exact List.mem_append_right _ (List.mem_cons_self ..)

/-- A file that is there is stored under the normal form of its path. -/
theorem normalize_mem_of_kind {m : MemoryStore} {p : Path} (stored : m.kind p = some .file) :
    p.normalize ∈ m.files.map (·.1) := by
  unfold kind at stored
  split at stored
  · rename_i there
    obtain ⟨t, found⟩ := Option.isSome_iff_exists.mp there
    exact List.mem_map_of_mem (mem_of_get? found)
  · split at stored <;> cases stored

theorem mem_of_read {m : MemoryStore} {p : Path} {t : Text} (readable : m.read p = .ok t) :
    (p.normalize, t) ∈ m.files := by
  unfold read at readable
  split at readable
  · rename_i found
    cases readable
    exact mem_of_get? found
  · split at readable <;> cases readable

theorem list_eq_ok {m : MemoryStore} {dir : Path} {found : List Path} (listed : m.list dir = .ok found) :
    found = (m.files.map (·.1)).filter fun q => q.startsWith dir.normalize && q ≠ dir.normalize := by
  unfold list at listed
  split at listed
  · exact (Except.ok.inj listed).symm
  · cases listed
  · cases listed

theorem Orderly.ascending_list {m : MemoryStore} {dir : Path} {found : List Path} (orderly : m.Orderly)
    (listed : m.list dir = .ok found) : Ascending found := by
  rw [list_eq_ok listed]
  exact orderly.ascending.sublist List.filter_sublist

end MemoryStore

namespace FaultyStore

theorem list_eq_ok {s : FaultyStore} {dir : Path} {found : List Path}
    (listed : (FileStore.view s).list dir = .ok found) :
    s.store.list dir = .ok found := by
  dsimp only [FileStore.view, view] at listed
  split at listed
  · cases listed
  · exact listed

theorem kind_of_steady {s : FaultyStore} (steady : s.faults.kind = []) (p : Path) :
    (FileStore.view s).kind p = s.store.kind p := by
  change (s.faults.kind.lookup p.normalize).getD (s.store.kind p) = s.store.kind p
  rw [steady]
  rfl

theorem read_eq_ok {s : FaultyStore} {p : Path} {t : Text} (readable : (FileStore.view s).read p = .ok t) :
    s.store.read p = .ok t := by
  dsimp only [FileStore.view, view] at readable
  split at readable
  · cases readable
  · exact readable

theorem orderly_view {s : FaultyStore} (orderly : s.store.Orderly) : (FileStore.view s).Orderly where
  distinct listed := (orderly.ascending_list (list_eq_ok listed)).nodup
  normal _ listed := by
    rw [MemoryStore.list_eq_ok (list_eq_ok listed)]
    exact fun p member => orderly.normal p (List.mem_filter.mp member).1

theorem write_eq (s : FaultyStore) (p : Path) (t : Text) : FileStore.write s (.ofPath p) t =
    match s.faults.write.lookup p.normalize with
    | some fault => (.error fault, s)
    | none => (.ok (), { s with store := s.store.insert p t }) := by
  have answer : FileStore.write s (.ofPath p) t =
      match s.faults.write.lookup (Spelling.ofPath p).path.normalize with
    | some fault => (.error fault, s)
    | none => (.ok (), { s with store := s.store.insert (Spelling.ofPath p).path t }) := rfl
  rwa [Spelling.path_ofPath] at answer

/-- A write that succeeds puts the text in its place and changes nothing else. -/
theorem write_eq_ok {s next : FaultyStore} {p : Path} {t : Text}
    (written : FileStore.write s (.ofPath p) t = (.ok (), next)) :
    next = { s with store := s.store.insert p t } := by
  rw [write_eq] at written
  split at written
  · cases written
  · exact (congrArg Prod.snd written).symm

theorem write_eq_error {s next : FaultyStore} {p : Path} {t : Text} {e : AccessError}
    (refused : FileStore.write s (.ofPath p) t = (.error e, next)) : next = s := by
  rw [write_eq] at refused
  split at refused
  · exact (congrArg Prod.snd refused).symm
  · cases refused

end FaultyStore

end Transclusion

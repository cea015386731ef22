namespace Transclusion

theorem lookup_cons_ite [DecidableEq α] (a k : α) (b : β) (entries : List (α × β)) :
    ((k, b) :: entries).lookup a = if a = k then some b else entries.lookup a := by
  rw [List.lookup_cons]
  by_cases same : a = k
  · simp [same]
  · simp [same, beq_false_of_ne same]

/-- Puts `a` in front of the first element that it is `le` to. -/
def insertBy (le : α → α → Bool) (a : α) : List α → List α
  | [] => [a]
  | b :: rest => if le a b then a :: b :: rest else b :: insertBy le a rest

/-- Sorts by insertion from the right, so elements that are `le` to each other keep their order
and an ascending list is returned after one comparison per element. -/
def sortBy (le : α → α → Bool) (xs : List α) : List α := xs.foldr (insertBy le) []

theorem perm_insertBy (le : α → α → Bool) (a : α) (xs : List α) : (insertBy le a xs).Perm (a :: xs) := by
  induction xs with
  | nil => exact .refl [a]
  | cons b rest ih =>
    unfold insertBy
    split
    · exact .refl _
    · exact (ih.cons b).trans (.swap a b rest)

theorem perm_sortBy (le : α → α → Bool) (xs : List α) : (sortBy le xs).Perm xs := by
  induction xs with
  | nil => exact .refl []
  | cons a rest ih => exact (perm_insertBy le a _).trans (ih.cons a)

theorem mem_insertBy {le : α → α → Bool} {a b : α} {xs : List α} : b ∈ insertBy le a xs ↔ b = a ∨ b ∈ xs :=
  (perm_insertBy le a xs).mem_iff.trans List.mem_cons

theorem mem_sortBy {le : α → α → Bool} {b : α} {xs : List α} : b ∈ sortBy le xs ↔ b ∈ xs :=
  (perm_sortBy le xs).mem_iff

/-- Puts `a` at its place in a strictly ascending list; an element that compares equal is kept as
it stands. -/
def insertNew (cmp : α → α → Ordering) (a : α) : List α → List α
  | [] => [a]
  | b :: rest =>
    match cmp a b with
    | .lt => a :: b :: rest
    | .eq => b :: rest
    | .gt => b :: insertNew cmp a rest

theorem mem_insertNew {cmp : α → α → Ordering} [Std.LawfulEqCmp cmp] {a b : α} {xs : List α} :
    b ∈ insertNew cmp a xs ↔ b = a ∨ b ∈ xs := by
  induction xs with
  | nil => simp [insertNew]
  | cons c rest ih =>
    unfold insertNew
    split
    · exact List.mem_cons
    · rename_i same
      rw [Std.LawfulEqCmp.eq_of_compare same]
      simp
    · simp only [List.mem_cons, ih, or_left_comm]

/-- The distinct elements in strictly ascending order; of equal ones the first is kept. -/
def sortNew (cmp : α → α → Ordering) (xs : List α) : List α :=
  xs.foldl (fun set a => insertNew cmp a set) []

theorem mem_foldl_insertNew {cmp : α → α → Ordering} [Std.LawfulEqCmp cmp] {b : α} {xs set : List α} :
    b ∈ xs.foldl (fun set a => insertNew cmp a set) set ↔ b ∈ xs ∨ b ∈ set := by
  induction xs generalizing set with
  | nil => simp
  | cons a rest ih =>
    rw [List.foldl_cons, ih, mem_insertNew, List.mem_cons, or_left_comm, or_assoc]

theorem mem_sortNew {cmp : α → α → Ordering} [Std.LawfulEqCmp cmp] {b : α} {xs : List α} :
    b ∈ sortNew cmp xs ↔ b ∈ xs := by
  rw [sortNew, mem_foldl_insertNew]
  simp

/-- Every element comes before all that follow it. -/
def Ascending [Ord α] (xs : List α) : Prop := xs.Pairwise fun a b => compare a b = .lt

instance [Ord α] (xs : List α) : Decidable (Ascending xs) :=
  inferInstanceAs (Decidable (xs.Pairwise fun a b => compare a b = .lt))

theorem Ascending.nodup [Ord α] [Std.LawfulEqOrd α] {xs : List α} (ascending : Ascending xs) :
    xs.Nodup := by
  refine ascending.imp fun {a b} before same => ?_
  have level : compare a b = .eq := Std.LawfulEqCmp.compare_eq_iff_eq.mpr same
  cases before.symm.trans level

theorem Ascending.insertBy [Ord α] [Std.TransOrd α] [Std.LawfulEqOrd α] {a : α} {xs : List α}
    (ascending : Ascending xs) (fresh : a ∉ xs) :
    Ascending (insertBy (fun a b => (compare a b).isLE) a xs) := by
  induction xs with
  | nil => exact List.pairwise_singleton ..
  | cons b rest ih =>
    rw [List.mem_cons, not_or] at fresh
    obtain ⟨first, later⟩ := List.pairwise_cons.mp ascending
    unfold Transclusion.insertBy
    split
    · rename_i before
      have apart : compare a b ≠ .eq := fun same => fresh.1 (Std.LawfulEqCmp.eq_of_compare same)
      have before : compare a b = .lt := (Ordering.isLE_iff_eq_lt_or_eq_eq.mp before).resolve_right apart
      refine List.pairwise_cons.mpr ⟨fun c member => ?_, ascending⟩
      rcases List.mem_cons.mp member with rfl | member
      · exact before
      · exact Std.TransCmp.lt_trans before (first c member)
    · rename_i behind
      have behind : compare b a = .lt := by
        rw [Bool.not_eq_true, Ordering.isLE_eq_false] at behind
        exact Std.OrientedCmp.gt_iff_lt.mp behind
      refine List.pairwise_cons.mpr ⟨fun c member => ?_, ih later fresh.2⟩
      rcases mem_insertBy.mp member with rfl | member
      · exact behind
      · exact first c member

/-- Distinct elements are sorted into strictly ascending order. -/
theorem ascending_sortBy [Ord α] [Std.TransOrd α] [Std.LawfulEqOrd α] {xs : List α} (distinct : xs.Nodup) :
    Ascending (sortBy (fun a b => (compare a b).isLE) xs) := by
  induction xs with
  | nil => exact List.Pairwise.nil
  | cons a rest ih =>
    obtain ⟨apart, distinct⟩ := List.nodup_cons.mp distinct
    exact (ih distinct).insertBy fun member => apart (mem_sortBy.mp member)

theorem Ascending.insertNew [Ord α] [Std.TransOrd α] [Std.LawfulEqOrd α] {xs : List α}
    (ascending : Ascending xs) (a : α) :
    Ascending (insertNew compare a xs) := by
  induction xs with
  | nil => exact List.pairwise_singleton ..
  | cons b rest ih =>
    obtain ⟨first, later⟩ := List.pairwise_cons.mp ascending
    unfold Transclusion.insertNew
    split
    · rename_i before
      refine List.pairwise_cons.mpr ⟨fun c member => ?_, ascending⟩
      rcases List.mem_cons.mp member with rfl | member
      · exact before
      · exact Std.TransCmp.lt_trans before (first c member)
    · exact ascending
    · rename_i behind
      refine List.pairwise_cons.mpr ⟨fun c member => ?_, ih later⟩
      rcases mem_insertNew.mp member with rfl | member
      · exact Std.OrientedCmp.gt_iff_lt.mp behind
      · exact first c member

theorem ascending_sortNew [Ord α] [Std.TransOrd α] [Std.LawfulEqOrd α] (xs : List α) :
    Ascending (sortNew compare xs) := by
  suffices folded : ∀ set : List α, Ascending set →
      Ascending (xs.foldl (fun set a => Transclusion.insertNew compare a set) set)
        from folded [] List.Pairwise.nil
  induction xs with
  | nil => exact fun _ ascending => ascending
  | cons a rest ih => exact fun set ascending => ih _ (ascending.insertNew a)

end Transclusion

import Transclusion.Proofs.Composition

namespace Transclusion

namespace Session

/-- The counts are kept in path order, one for each target. -/
def Orderly (s : Session) : Prop := Ascending (s.counts.map (·.target.path))

theorem orderly_empty : empty.Orderly := .nil

theorem paths_increment (target : Spelling) (counts : List ImportCount) :
    (increment target counts).map (·.target.path) =
      insertNew compare target.path (counts.map (·.target.path)) := by
  induction counts with
  | nil => rfl
  | cons entry rest ih =>
    unfold increment
    rw [List.map_cons, insertNew]
    cases compare target.path entry.target.path <;> simp [ih]

theorem Orderly.recordImport {s : Session} (orderly : s.Orderly) (target : Spelling) :
    (s.recordImport target).Orderly := by
  have paths : (s.recordImport target).counts.map (·.target.path) = _ := paths_increment target s.counts
  rw [Orderly, paths]
  exact orderly.insertNew _

theorem importCount_congr {s s' : Session} (same : s'.counts = s.counts) (p : Path) :
    s'.importCount p = s.importCount p := by
  rw [importCount, same, importCount]

theorem counts_markInlined (s : Session) (p : Path) : (s.markInlined p).counts = s.counts := by
  unfold markInlined
  split <;> rfl

theorem importCount_cons (entry : ImportCount) (rest : List ImportCount) (inlined : List Path)
    (p : Path) :
    importCount ⟨entry :: rest, inlined⟩ p =
      if entry.target.path = p then entry.count else importCount ⟨rest, inlined⟩ p := by
  unfold importCount
  by_cases here : entry.target.path = p
  · simp [here]
  · simp [here]

theorem importCount_of_not_mem {s : Session} {p : Path} (absent : p ∉ s.counts.map (·.target.path)) :
    s.importCount p = 0 := by
  obtain ⟨counts, inlined⟩ := s
  induction counts with
  | nil => rfl
  | cons entry rest ih =>
    rw [List.map_cons, List.mem_cons, not_or] at absent
    rw [importCount_cons, if_neg (Ne.symm absent.1), ih absent.2]

theorem Orderly.importCount_of_mem {s : Session} (orderly : s.Orderly) {entry : ImportCount}
    (member : entry ∈ s.counts) :
    s.importCount entry.target.path = entry.count := by
  obtain ⟨counts, inlined⟩ := s
  induction counts with
  | nil => cases member
  | cons first rest ih =>
    rw [importCount_cons]
    rcases List.mem_cons.mp member with rfl | member
    · exact if_pos rfl
    · have apart : first.target.path ∉ rest.map (·.target.path) := (List.nodup_cons.mp orderly.nodup).1
      have other : first.target.path ≠ entry.target.path := fun same => apart (by
        rw [same]
        exact List.mem_map_of_mem member)
      rw [if_neg other, ih orderly.of_cons member]

theorem Orderly.importCount_recordImport {s : Session} (orderly : s.Orderly) (target : Spelling)
    (p : Path) :
    (s.recordImport target).importCount p = s.importCount p + if target.path = p then 1 else 0 := by
  obtain ⟨counts, inlined⟩ := s
  change importCount ⟨increment target counts, inlined⟩ p = _
  induction counts with
  | nil => exact (importCount_cons ..).trans (Nat.zero_add _).symm
  | cons entry rest ih =>
    have distinct := (orderly.insertNew target.path).nodup
    rw [List.map_cons, insertNew] at distinct
    unfold increment
    cases order : compare target.path entry.target.path with
    | lt =>
      rw [order] at distinct
      rw [importCount_cons]
      by_cases here : target.path = p
      · have absent : p ∉ (entry :: rest).map (·.target.path) := here ▸ (List.nodup_cons.mp distinct).1
        rw [if_pos here, if_pos here, importCount_of_not_mem absent]
      · rw [if_neg here, if_neg here, Nat.add_zero]
    | eq =>
      rw [importCount_cons, importCount_cons, Std.LawfulEqOrd.eq_of_compare order]
      split <;> rfl
    | gt =>
      rw [order] at distinct
      have apart : entry.target.path ≠ target.path := fun same =>
        (List.nodup_cons.mp distinct).1 (mem_insertNew.mpr (Or.inl same))
      rw [importCount_cons, importCount_cons, ih orderly.of_cons]
      by_cases here : entry.target.path = p
      · rw [if_pos here, if_pos here, if_neg fun same => apart (here.trans same.symm), Nat.add_zero]
      · rw [if_neg here, if_neg here]

theorem Orderly.mem_duplicates {s : Session} (orderly : s.Orderly) {p : Path} :
    p ∈ (duplicates s.counts).map (·.path) ↔ 1 < s.importCount p := by
  rw [duplicates, List.map_map, List.mem_map]
  constructor
  · rintro ⟨entry, member, rfl⟩
    obtain ⟨member, more⟩ := List.mem_filter.mp member
    rw [Function.comp_apply, orderly.importCount_of_mem member]
    exact of_decide_eq_true more
  · intro more
    by_cases known : p ∈ s.counts.map (·.target.path)
    · obtain ⟨entry, member, rfl⟩ := List.mem_map.mp known
      rw [orderly.importCount_of_mem member] at more
      exact ⟨entry, List.mem_filter.mpr ⟨member, decide_eq_true more⟩, rfl⟩
    · rw [importCount_of_not_mem known] at more
      cases more

theorem Orderly.ascending_duplicates {s : Session} (orderly : s.Orderly) :
    Ascending ((duplicates s.counts).map (·.path)) := by
  rw [duplicates, List.map_map]
  exact List.Pairwise.sublist (List.filter_sublist.map _) orderly

end Session

/-- The target was there but could not be read. -/
def Outcome.isUnreadable : Outcome → Bool
  | unreadable .. => true
  | _ => false

theorem Outcome.isSome_importCount?_iff {outcome : Outcome} :
    outcome.importCount?.isSome ↔ outcome.content?.isSome ∨ outcome.isStub ∨ outcome.isUnreadable := by
  cases outcome <;> simp [importCount?, content?, isStub, isUnreadable]

/-- The import counts on record for a path, in the order of the records that lead to it. -/
def importCountsOf (p : Path) (records : List Record) : List Nat :=
  (records.filter (·.resolution.path = p)).filterMap (·.outcome.importCount?)

theorem importCountsOf_cons (p : Path) (r : Record) (records : List Record) :
    importCountsOf p (r :: records) =
      if r.resolution.path = p then r.outcome.importCount?.toList ++ importCountsOf p records
      else importCountsOf p records := by
  unfold importCountsOf
  by_cases here : r.resolution.path = p
  · rw [if_pos here, List.filter_cons_of_pos (by simpa using here), List.filterMap_cons]
    cases r.outcome.importCount? <;> rfl
  · rw [if_neg here, List.filter_cons_of_neg (by simpa using here)]

/-- A record leaves the counts alone and has none, or it has the next count of its target, which the
session keeps. -/
theorem Enters.counted {once : Bool} {s s' : Session} {r : Record} (entry : Enters once s r s') :
    (r.outcome.importCount? = none ∧ s'.counts = s.counts) ∨
      (r.outcome.importCount? =
        some ((s.recordImport (.ofPath r.resolution.path)).importCount r.resolution.path) ∧
        s'.counts = (s.recordImport (.ofPath r.resolution.path)).counts) := by
  cases entry with
  | uncounted _ none => exact Or.inl ⟨none, rfl⟩
  | stubbed leads _ same => exact Or.inr ⟨by rw [same, leads]; rfl, by rw [leads]; rfl⟩
  | unreadable leads same => exact Or.inr ⟨by rw [same, leads]; rfl, by rw [leads]; rfl⟩
  | inlined leads _ same =>
    exact Or.inr ⟨by rw [same, leads]; rfl, by rw [leads, Session.counts_markInlined]; rfl⟩

namespace Ledger

variable {once : Bool} {s s' : Session} {records : List Record}

theorem orderly (entries : Ledger once s records s') (ordered : s.Orderly) : s'.Orderly := by
  induction entries with
  | nil => exact ordered
  | @cons s r s' _ _ entry _ ih =>
    refine ih ?_
    rcases entry.counted with ⟨_, same⟩ | ⟨_, same⟩
    · rwa [Session.Orderly, same]
    · rw [Session.Orderly, same]
      exact ordered.recordImport _

/-- The counts on record for a path go on one by one from where the session stood, which ends with
the last of them. -/
theorem importCountsOf_eq (entries : Ledger once s records s') (ordered : s.Orderly) (p : Path) :
    importCountsOf p records = List.range' (s.importCount p + 1) (importCountsOf p records).length ∧
      s'.importCount p = s.importCount p + (importCountsOf p records).length := by
  induction entries with
  | nil => exact ⟨rfl, rfl⟩
  | @cons s r s' records s'' entry _ ih =>
    have counted := ordered.importCount_recordImport (.ofPath r.resolution.path)
    rw [Spelling.path_ofPath] at counted
    obtain ⟨range, total⟩ := ih ((Ledger.cons entry .nil).orderly ordered)
    rw [importCountsOf_cons]
    rcases entry.counted with ⟨none, kept⟩ | ⟨next, kept⟩
    · rw [Session.importCount_congr kept] at range total
      rw [none, Option.toList_none, List.nil_append, ite_self]
      exact ⟨range, total⟩
    · rw [Session.importCount_congr kept, counted] at range total
      rw [counted, if_pos rfl] at next
      by_cases here : r.resolution.path = p
      · rw [if_pos here] at range total
        rw [if_pos here, next, here, Option.toList_some, List.singleton_append, List.length_cons,
          List.range'_succ, ← range]
        exact ⟨rfl, by omega⟩
      · rw [if_neg here, Nat.add_zero] at range total
        rw [if_neg here]
        exact ⟨range, total⟩

/-- A session has a count for what it had one for before, and for what has one on record. -/
theorem mem_paths_iff (entries : Ledger once s records s') (p : Path) :
    p ∈ s'.counts.map (·.target.path) ↔
      p ∈ s.counts.map (·.target.path) ∨ importCountsOf p records ≠ [] := by
  induction entries with
  | nil => simp [importCountsOf]
  | @cons s r s' records s'' entry _ ih =>
    rw [ih, importCountsOf_cons]
    rcases entry.counted with ⟨none, kept⟩ | ⟨next, kept⟩
    · rw [kept, none, Option.toList_none, List.nil_append, ite_self]
    · have paths : s'.counts.map (·.target.path) = _ :=
        (congrArg _ kept).trans (Session.paths_increment (.ofPath r.resolution.path) s.counts)
      rw [paths, mem_insertNew, Spelling.path_ofPath]
      by_cases here : r.resolution.path = p
      · simp [here, next]
      · simp [here, Ne.symm here]

/-- What holds of a run that inlines nothing twice holds of any. -/
theorem loosen (entries : Ledger once s records s') : Ledger false s records s' := by
  induction entries with
  | nil => exact .nil
  | cons entry _ ih =>
    refine .cons ?_ ih
    cases entry with
    | uncounted failed none => exact .uncounted failed none
    | stubbed leads old same => exact .stubbed leads old same
    | unreadable leads same => exact .unreadable leads same
    | inlined leads _ same => exact .inlined leads (fun once => by cases once) same

end Ledger

/-- The entries of a run, whatever its calls do with repeated imports. -/
theorem CompileCall.ledger_performAll (s : Session) (calls : List CompileCall) :
    Ledger false s (performAll s calls).1 (performAll s calls).2 := by
  induction calls generalizing s with
  | nil => exact .nil
  | cons call rest ih => exact (call.perform_ledger s).loosen.append (ih _)

/-- Imports are counted over a whole run, whatever its calls compile and from whatever counts it
starts. A record has a count if its target was inlined, stubbed or could not be read. For each path
these counts go on one by one from the one before the run, and after it the session has the last of
them. What was imported more than once is listed in path order. -/
theorem performAll_counts {s : Session} (orderly : s.Orderly) (calls : List CompileCall) :
    let records := (CompileCall.performAll s calls).1
    let after := (CompileCall.performAll s calls).2
    let duplicates := (Session.duplicates after.counts).map (·.path)
    (∀ r ∈ records, r.outcome.importCount?.isSome ↔
      r.outcome.content?.isSome ∨ r.outcome.isStub ∨ r.outcome.isUnreadable) ∧
    (∀ p, importCountsOf p records = List.range' (s.importCount p + 1) (importCountsOf p records).length) ∧
    (∀ p, after.importCount p = s.importCount p + (importCountsOf p records).length) ∧
    (∀ p, p ∈ after.counts.map (·.target.path) ↔
      p ∈ s.counts.map (·.target.path) ∨ importCountsOf p records ≠ []) ∧
    (∀ entry ∈ after.counts, entry.count = after.importCount entry.target.path) ∧
    Ascending duplicates ∧ ∀ p, p ∈ duplicates ↔ 1 < after.importCount p := by
  intro records after duplicates
  have entries : Ledger false s records after := CompileCall.ledger_performAll s calls
  have ordered : after.Orderly := entries.orderly orderly
  refine ⟨fun r _ => Outcome.isSome_importCount?_iff,
    fun p => ?_, fun p => ?_, entries.mem_paths_iff, fun entry member => ?_,
    ordered.ascending_duplicates, fun p => ordered.mem_duplicates⟩
  · exact (entries.importCountsOf_eq orderly p).1
  · exact (entries.importCountsOf_eq orderly p).2
  · exact (ordered.importCount_of_mem member).symm

/-- A session in which two documents were imported before, one of them twice. -/
def priorSession : Session :=
  ⟨[⟨⟨"/c.md".toList⟩, 2⟩, ⟨⟨"/x.md".toList⟩, 1⟩], [.parse "/x.md".toList]⟩

/-- A run over a document that leads to one that cannot be read, with stubs, and over a text that
mentions that one again, without them. -/
def guideCalls : List CompileCall :=
  [.document (FileStore.view guideStore) .default ⟨"/a.md".toList⟩,
    .content (FileStore.view guideStore) CompileOptions.default.repeating "@d.md @c.md".toList
      (.parse "/e.md".toList)]

theorem performAll_counts_guide :
    priorSession.Orderly ∧
      let records := (CompileCall.performAll priorSession guideCalls).1
      let after := (CompileCall.performAll priorSession guideCalls).2
      records.map (fun r => (r.outcome.content?.isSome, r.outcome.isStub, r.outcome.isUnreadable)) =
        [(true, false, false), (true, false, false), (false, false, true), (false, true, false),
          (false, false, true), (true, false, false)] ∧
      importCountsOf (.parse "/c.md".toList) records = [3, 4, 5] ∧
        importCountsOf (.parse "/d.md".toList) records = [1, 2] ∧
      after.importCount (.parse "/c.md".toList) = 5 ∧ after.importCount (.parse "/x.md".toList) = 1 ∧
      ∀ p, p ∈ (Session.duplicates after.counts).map (·.path) ↔ 1 < after.importCount p := by
  have orderly : priorSession.Orderly := by
    refine List.pairwise_cons.mpr ⟨fun p member => ?_, List.pairwise_singleton ..⟩
    rw [List.mem_singleton.mp member]
    decide +kernel
  obtain ⟨_, range, total, _, _, _, repeated⟩ := performAll_counts orderly guideCalls
  have inC : (importCountsOf (.parse "/c.md".toList)
      (CompileCall.performAll priorSession guideCalls).1).length = 3 := by
    decide +kernel
  have inD : (importCountsOf (.parse "/d.md".toList)
      (CompileCall.performAll priorSession guideCalls).1).length = 2 := by
    decide +kernel
  have inX : (importCountsOf (.parse "/x.md".toList)
      (CompileCall.performAll priorSession guideCalls).1).length = 0 := by
    decide +kernel
  refine ⟨orderly, by decide +kernel, ?_, ?_, ?_, ?_, repeated⟩
  · rw [range, inC]
    decide +kernel
  · rw [range, inD]
    decide +kernel
  · rw [total, inC]
    decide +kernel
  · rw [total, inX]
    decide +kernel

end Transclusion

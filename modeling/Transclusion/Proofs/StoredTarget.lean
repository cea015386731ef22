import Transclusion.Proofs.Branch
import Transclusion.Proofs.Ending
import Transclusion.Proofs.ImportCounts

namespace Transclusion

section Records

variable {files : FileView} {options : CompileOptions} {room : Nat} {site : Site} {refs : List Reference}
  {once : Bool} {s s' : Session} {records : List Record} {r : Record}

/-- A record tells where its mention leads from some directory. -/
theorem Unfolds.exists_base (run : Unfolds files options room site refs s records s')
    (member : r ∈ records) :
    ∃ base, r.resolution = options.resolve files base r.reference := by
  rcases run.origin r member with ⟨_, _, leads⟩ | ⟨_, t, _, _, leads⟩
  · exact ⟨site.base, leads⟩
  · exact ⟨r.importedFrom.directory, leads⟩

/-- Only files are counted. -/
theorem Ledger.exists_file (entries : Ledger once s records s') (member : r ∈ records)
    (counted : r.outcome.importCount?.isSome) : ∃ p, r.resolution = .file p := by
  induction entries with
  | nil => cases member
  | cons entry _ ih =>
    rcases List.mem_cons.mp member with rfl | member
    · cases entry with
      | uncounted _ none => simp [none] at counted
      | stubbed leads => exact ⟨_, leads⟩
      | unreadable leads => exact ⟨_, leads⟩
      | inlined leads => exact ⟨_, leads⟩
    · exact ih member

theorem Ledger.path_mem {documents : List Path} (entries : Ledger once s records s')
    (files : ∀ r ∈ records, ∀ p, r.resolution = .file p → p ∈ documents) (member : r ∈ records)
    (counted : r.outcome.importCount?.isSome) : r.resolution.path ∈ documents := by
  obtain ⟨p, leads⟩ := entries.exists_file member counted
  rw [leads]
  exact files r member p leads

theorem exists_of_importCountsOf {p : Path} (some : importCountsOf p records ≠ []) :
    ∃ r ∈ records, r.resolution.path = p ∧ r.outcome.importCount?.isSome := by
  obtain ⟨count, member⟩ := List.exists_mem_of_ne_nil _ some
  obtain ⟨r, inside, counted⟩ := List.mem_filterMap.mp member
  obtain ⟨inside, leads⟩ := List.mem_filter.mp inside
  exact ⟨r, inside, of_decide_eq_true leads, by rw [counted]; rfl⟩

end Records

/-- Behind the first document of a branch each has one that inlined it. -/
theorem Branch.exists_encloses {records : List Record} {start file p : Path} {documents : List Path}
    (branch : Branch records start file documents) (member : p ∈ documents.tail) :
    ∃ u, Encloses records u p := by
  have enclosed := branch.enclosed
  clear branch
  induction documents with
  | nil => cases member
  | cons first rest ih =>
    cases rest with
    | nil => cases member
    | cons next rest =>
      obtain ⟨step, later⟩ := List.isChain_cons_cons.mp enclosed
      rcases List.mem_cons.mp member with rfl | member
      · exact ⟨first, step⟩
      · exact ih member later

/-- A session that has to do with no other than the given documents. -/
structure Session.KeepsTo (s : Session) (documents : List Path) : Prop where
  inlined : ∀ p, s.hasInlined p → p ∈ documents
  counted : ∀ p ∈ s.counts.map (·.target.path), p ∈ documents

theorem Session.keepsTo_empty (documents : List Path) : empty.KeepsTo documents :=
  ⟨fun p inlined => absurd inlined (not_hasInlined_empty p), fun _ none => absurd none List.not_mem_nil⟩

theorem Ledger.keepsTo {once : Bool} {s s' : Session} {records : List Record} {documents : List Path}
    (entries : Ledger once s records s') (known : s.KeepsTo documents)
    (files : ∀ r ∈ records, ∀ p, r.resolution = .file p → p ∈ documents) : s'.KeepsTo documents := by
  constructor
  · intro p inlined
    rcases (entries.hasInlined_iff p).mp inlined with old | ⟨r, member, rfl, full⟩
    · exact known.inlined p old
    · exact entries.path_mem files member (Outcome.isSome_importCount?_iff.mpr (Or.inl full))
  · intro p counted
    rcases (entries.mem_paths_iff p).mp counted with old | some
    · exact known.counted p old
    · obtain ⟨r, member, rfl, numbered⟩ := exists_of_importCountsOf some
      exact entries.path_mem files member numbered

namespace FaultyStore

variable {store : FaultyStore}

/-- Every file that a compilation has on record is one of the stored documents. -/
theorem mem_of_resolution (steady : store.faults.kind = []) {options : CompileOptions}
    (accepted : ∀ ext ∈ options.extensions, Config.isExtension ext) {t : Text} {file : Path} {s : Session} :
    ∀ r ∈ (compileContent (FileStore.view store) options t file s).1.records, ∀ p, r.resolution = .file p →
      p ∈ store.store.files.map (·.1) := by
  intro r member p leads
  obtain ⟨base, resolved⟩ :=
    (compileContent_unfolds (FileStore.view store) options t file s).exists_base member
  exact mem_of_resolve steady accepted (resolved.symm.trans leads)

/-- The chain of a circular reference goes through stored documents, apart from the compiled one,
which it starts at. -/
theorem mem_of_chain (steady : store.faults.kind = []) {options : CompileOptions}
    (accepted : ∀ ext ∈ options.extensions, Config.isExtension ext) {t : Text} {file : Path}
    {s : Session} {r : Record}
    (member : r ∈ (compileContent (FileStore.view store) options t file s).1.records)
    {chain : List Path} (circular : r.outcome = .circular chain) :
    ∀ p ∈ chain.tail, p ∈ store.store.files.map (·.1) := by
  have files := @mem_of_resolution _ steady _ accepted t file s
  obtain ⟨before, after, split⟩ := List.append_of_mem member
  obtain ⟨documents, q, leads, rfl, _, branch⟩ := compileContent_leadsBack split circular
  have earlier : before ⊆ (compileContent (FileStore.view store) options t file s).1.records :=
    split ▸ List.subset_append_left ..
  obtain ⟨rest, starts⟩ := List.head?_eq_some_iff.mp branch.starts
  intro p inside
  rw [starts, List.cons_append, List.tail_cons] at inside
  rcases List.mem_append.mp inside with between | last
  · obtain ⟨u, r, recorded, _, rfl, full⟩ := branch.exists_encloses (by rwa [starts])
    exact (compileContent_ledger ..).path_mem files (earlier recorded)
      (Outcome.isSome_importCount?_iff.mpr (Or.inl full))
  · cases List.mem_singleton.mp last
    exact files r member q leads

end FaultyStore

/-- In memory a file has one path. References that lead to it, from whatever directory and however
they are spelled, lead to the very path that it is stored under, and so do the paths that a
compilation has to tell apart: those of its records, of the documents that it inlined or counted,
and of the chains that lead back. -/
theorem references_lead_to_stored_paths {store : FaultyStore} {extensions : List Text}
    (steady : store.faults.kind = []) (accepted : ∀ ext ∈ extensions, Config.isExtension ext) :
    let documents := store.store.files.map (·.1)
    (∀ base target p, resolve (FileStore.view store) base extensions target = .file p →
      (p ∈ documents ∧ p.normalize = p) ∧
        ∀ base' extensions' target' q, (∀ ext ∈ extensions', Config.isExtension ext) →
          resolve (FileStore.view store) base' extensions' target' = .file q →
            (q.normalize = p.normalize ↔ q = p)) ∧
      ∀ options t file s, options.extensions = extensions → s.KeepsTo documents →
        let compiled := compileContent (FileStore.view store) options t file s
        compiled.2.KeepsTo documents ∧
          ∀ r ∈ compiled.1.records, (∀ p, r.resolution = .file p → p ∈ documents) ∧
          ∀ chain, r.outcome = .circular chain → ∀ p ∈ chain.tail, p ∈ documents := by
  intro documents
  constructor
  · intro base target p leads
    have endings : ∀ ext ∈ extensions, IsEnding (dotted ext) :=
      fun ext member => isEnding_dotted (accepted ext member)
    have normal := normalize_of_resolve endings leads
    refine ⟨⟨FaultyStore.mem_of_endings steady endings leads, normal⟩, ?_⟩
    intro base' extensions' target' q accepted' leads'
    rw [normal, normalize_of_resolve (fun ext member => isEnding_dotted (accepted' ext member)) leads']
  · rintro options t file s rfl known compiled
    have files := @FaultyStore.mem_of_resolution _ steady _ accepted t file s
    exact ⟨(compileContent_ledger ..).keepsTo known files,
      fun r member => ⟨files r member,
        fun chain circular => FaultyStore.mem_of_chain steady accepted member circular⟩⟩

/-- Two documents that mention each other, behind a fault that has to do with neither. -/
def echoStore : FaultyStore where
  faults := ⟨[(.parse "/d/c.md".toList, ⟨.permissionDenied, "denied"⟩)], [], [], []⟩
  store := (MemoryStore.empty.insert (.parse "/d/a.md".toList) "see @./b".toList).insert
    (.parse "/d/b.md".toList) "back to @/d//x/../a.md".toList

theorem references_lead_to_stored_paths_echo :
    let documents := echoStore.store.files.map (·.1)
    let chain := ["/d/a.md", "/d/b.md", "/d/a.md"].map fun t => Path.parse t.toList
    echoStore.faults.kind = [] ∧ (∀ ext ∈ CompileOptions.default.extensions, Config.isExtension ext) ∧
      (∃ p q,
        resolve (FileStore.view echoStore) (.parse "/d".toList) CompileOptions.default.extensions
          "./b".toList = .file p ∧
        resolve (FileStore.view echoStore) (.parse "/e/f".toList) ["txt".toList]
          "../../d//b.md".toList = .file q ∧
        q.normalize = p.normalize ∧ p ∈ documents ∧ q = p) ∧
      ∃ r ∈ (compileContent (FileStore.view echoStore) .default "see @./b".toList
        (.parse "/d/a.md".toList) .empty).1.records,
        r.outcome = .circular chain ∧ ∀ p ∈ chain.tail, p ∈ documents := by
  intro documents chain
  have accepted : ∀ ext ∈ CompileOptions.default.extensions, Config.isExtension ext := by decide +kernel
  have steady : echoStore.faults.kind = [] := rfl
  obtain ⟨single, compiled⟩ := references_lead_to_stored_paths steady accepted
  refine ⟨steady, accepted, ?_, ?_⟩
  · have leads : resolve (FileStore.view echoStore) (.parse "/d".toList)
        CompileOptions.default.extensions "./b".toList = .file (.parse "/d/b.md".toList) := by
      decide +kernel
    have leads' : resolve (FileStore.view echoStore) (.parse "/e/f".toList) ["txt".toList]
        "../../d//b.md".toList = .file (.parse "/d/b.md".toList) := by
      decide +kernel
    obtain ⟨⟨stored, _⟩, same⟩ := single _ _ _ leads
    exact ⟨_, _, leads, leads', rfl, stored, (same _ _ _ _ (by decide +kernel) leads').mp rfl⟩
  · obtain ⟨_, records⟩ := compiled .default "see @./b".toList (.parse "/d/a.md".toList) .empty rfl
      (Session.keepsTo_empty _)
    have found : ((compileContent (FileStore.view echoStore) .default "see @./b".toList
        (.parse "/d/a.md".toList) .empty).1.records.any fun r => r.outcome = .circular chain) = true := by
      decide +kernel
    obtain ⟨r, member, circular⟩ := List.any_eq_true.mp found
    have leadsBack : r.outcome = .circular chain := of_decide_eq_true circular
    exact ⟨r, member, leadsBack, (records r member).2 chain leadsBack⟩

end Transclusion

import Mathlib.Data.List.Perm.Subperm
import Transclusion.Proofs.Composition

namespace Transclusion

/-- Documents inlined one within the other: the first by a mention of the document at `file`, which
is being expanded inside those in `outer`, and each next one by a mention of the one before it. The
records of what came with an inlined document are those behind its own, up to the next that is about
a mention of a document still being expanded. -/
inductive Nested : List Path → Path → List Record → List Path → Prop
  | last {outer file records} : Nested outer file records []
  | inlined {outer file before r after chain} : r.importedFrom = file → r.outcome.content?.isSome →
      Nested (outer ++ [file]) r.resolution.path
        (after.takeWhile (·.importedFrom ∉ outer ++ [file])) chain →
      Nested outer file (before ++ r :: after) (r.resolution.path :: chain)

theorem Nested.cases {outer chain : List Path} {file : Path} {records : List Record}
    (nested : Nested outer file records chain) :
    chain = [] ∨ ∃ before r after rest,
      records = before ++ r :: after ∧ chain = r.resolution.path :: rest ∧ r.importedFrom = file ∧
      r.outcome.content?.isSome ∧
      Nested (outer ++ [file]) r.resolution.path
        (after.takeWhile (·.importedFrom ∉ outer ++ [file])) rest := by
  cases nested with
  | last => exact Or.inl rfl
  | @inlined _ _ before r after rest home full below =>
    exact Or.inr ⟨before, r, after, rest, rfl, rfl, home, full, below⟩

namespace Unfolds

variable {files : FileView} {options : CompileOptions} {room : Nat} {site : Site} {refs : List Reference}
  {s s' : Session} {records : List Record}

theorem head_own (run : Unfolds files options room site refs s records s') :
    ∀ r ∈ records.head?, r.importedFrom = site.file := by
  cases run with
  | done => simp
  | settled => simp
  | inlined => simp

/-- What is inlined within the document at a site has to fit into the room there: the records up to
the next mention of an open document are just those of the run below, which has less room by one. -/
theorem length_le_of_nested (run : Unfolds files options room site refs s records s')
    {outer chain : List Path} (branch : site.ancestors = outer ++ [site.file])
    (nested : Nested outer site.file records chain) :
    chain.length ≤ room := by
  induction run generalizing outer chain with
  | done =>
    rcases nested.cases with rfl | ⟨before, r, after, rest, split, _⟩
    · exact Nat.zero_le _
    · simp at split
  | settled settles _ ih =>
    rcases nested.cases with rfl | ⟨before, r, after, rest, split, rfl, home, full, below⟩
    · exact Nat.zero_le _
    cases before with
    | nil =>
      obtain ⟨rfl, _⟩ := List.cons.inj split
      exact absurd full settles.not_inlined
    | cons first before =>
      obtain ⟨_, rfl⟩ := List.cons.inj split
      exact ih branch (.inlined home full below)
  | @inlined room site _ _ _ p _ _ inner _ records _ _ outside _ _ under later innerIH laterIH =>
    have away : ∀ record ∈ inner, record.importedFrom ∉ site.ancestors := by
      intro record member
      rcases under.own_or_outside record member with ⟨same, _⟩ | apart
      · exact same ▸ outside
      · exact fun above => apart (List.mem_append_left _ above)
    have inside : site.file ∈ site.ancestors := branch ▸ List.mem_append_right _ (List.mem_singleton_self _)
    rcases nested.cases with rfl | ⟨before, r, after, rest, split, rfl, home, full, below⟩
    · exact Nat.zero_le _
    rw [List.cons_append] at split
    cases before with
    | nil =>
      obtain ⟨rfl, rfl⟩ := List.cons.inj split
      have stops : ∀ next ∈ records.head?, ¬ decide (next.importedFrom ∉ site.ancestors) := by
        intro next first
        simpa [later.head_own next first] using inside
      have all : inner.takeWhile (·.importedFrom ∉ site.ancestors) = inner :=
        List.takeWhile_eq_self_iff.mpr fun record member => decide_eq_true (away record member)
      rw [← branch, takeWhile_append_of_head _ stops, all] at below
      exact Nat.succ_le_succ (innerIH rfl below)
    | cons first before =>
      rcases split_append (List.cons.inj split).2 with ⟨tail, same⟩ | ⟨between, _, same⟩
      · exact absurd (home ▸ inside) (away r (by rw [same]; simp))
      · exact laterIH branch (same ▸ .inlined home full below)

/-- Where all files that anything leads to are known, and the room is as large as the number of
those that are not yet being expanded, nothing lies too deep: one more document on the branch would
be one more than there are. -/
theorem roomy_of_known (run : Unfolds files options room site refs s records s') (known : List Path)
    (leads : ∀ base r p, options.resolve files base r = .file p → p ∈ known)
    (distinct : site.ancestors.Nodup) (inside : site.ancestors ⊆ known)
    (ample : known.length ≤ site.ancestors.length + room) : Roomy records := by
  have fits {p : Path} {above : List Path} (outside : p ∉ above) (distinct : above.Nodup)
      (inside : above ⊆ known) (member : p ∈ known) : above.length + 1 ≤ known.length :=
    ((List.nodup_cons.mpr ⟨outside, distinct⟩).subperm (List.cons_subset.mpr ⟨member, inside⟩)).length_le
  induction run with
  | done => exact fun r member => absurd member List.not_mem_nil
  | @settled _ site r _ _ outcome _ _ _ settles _ ih =>
    refine List.forall_mem_cons.mpr ⟨?_, ih distinct inside ample⟩
    generalize target : options.resolve files site.base r = resolution at settles ⊢
    cases settles with
    | @tooDeep p outside none =>
      have bound := fits outside distinct inside (leads _ _ _ target)
      omega
    | missing => exact Bool.false_ne_true
    | directory => exact Bool.false_ne_true
    | circular => exact Bool.false_ne_true
    | stubbed => exact Bool.false_ne_true
    | unreadable => exact Bool.false_ne_true
  | @inlined room site _ _ _ p _ _ _ _ _ _ target outside _ _ _ _ innerIH laterIH =>
    have grown : (site.ancestors ++ [p]).Nodup := by
      rw [← List.concat_eq_append]
      exact distinct.concat outside
    have known' : site.ancestors ++ [p] ⊆ known :=
      List.append_subset.mpr ⟨inside, List.cons_subset.mpr ⟨leads _ _ _ target, List.nil_subset _⟩⟩
    have inner :=
      innerIH grown known' (by rw [Site.below, List.length_append, List.length_singleton]; omega)
    refine List.forall_mem_cons.mpr ⟨Bool.false_ne_true, List.forall_mem_append.mpr ⟨inner, ?_⟩⟩
    exact laterIH distinct inside ample

end Unfolds

/-- The same options with another limit on how deep documents nest. -/
def CompileOptions.within (options : CompileOptions) (limit : Nat) :
    CompileOptions := { options with maxDepth := limit }

namespace Expansion

/-- `other` expands as `expand` does wherever nothing lies too deep for that. -/
def Agrees (other expand : Expander) : Prop :=
  ∀ site t s, Roomy (expand site t s).records → other site t s = expand site t s

section Limits

variable (files : FileView) {options : CompileOptions} (limit : Nat)
  {deeper deeper' : Option Expander}

theorem expandReference_within
    (agrees : Supports Agrees deeper' deeper) (site : Site) (context : Nat) (r : Reference) (s : Session)
    (roomy : Roomy ((expandReference files options deeper site context r s).record ::
      (expandReference files options deeper site context r s).nested)) :
    expandReference files (options.within limit) deeper' site context r s =
      expandReference files options deeper site context r s := by
  obtain ⟨passes, nested⟩ := List.forall_mem_cons.mp roomy
  unfold expandReference at passes nested ⊢
  dsimp only [CompileOptions.within] at passes nested ⊢
  generalize resolve files site.base (options.extensions.map dotted) r.target =
    resolution at passes nested ⊢
  cases resolution with
  | missing p => rfl
  | directory p => rfl
  | file p =>
    by_cases above : p ∈ site.ancestors
    · simp [above]
    cases deeper with
    -- only here is the limit looked at, to name it
    | none => simp [above, Outcome.isTooDeep] at passes
    | some expand =>
      obtain ⟨other, there, agree⟩ := agrees expand rfl
      subst there
      by_cases old : (options.optimizeDuplicates && (s.recordImport (.ofPath p)).hasInlined p) = true
      · simp only [List.contains_iff_mem, above, old, if_false, if_true]
      cases read : files.read p with
      | error e => simp only [List.contains_iff_mem, above, old, read, if_false]
      | ok source =>
        simp only [List.contains_iff_mem, above, old, read, if_false, Bool.false_eq_true] at nested ⊢
        rw [agree _ _ _ nested]

theorem agrees_expandOnce (agrees : Supports Agrees deeper' deeper) :
    Agrees (expandOnce files (options.within limit) deeper') (expandOnce files options deeper) := by
  intro site t s roomy
  have steps := map_expandAll id Eq Roomy.mono
    (fun r s s' same roomy => by
      subst same
      have step := expandReference_within files limit agrees site
        (Heading.contextLevel (Heading.extract t true) r.start) r s' roomy
      exact ⟨step, congrArg Step.session step⟩)
    (Reference.extract t options.oneBased) s s rfl roomy
  rw [List.map_id, List.map_id] at steps
  exact congrArg (assemble t · s) steps

/-- A higher limit changes nothing where a lower one is never reached. -/
theorem agrees_expand {room more : Nat} (fits : room ≤ more) :
    Agrees (expand files (options.within limit) more) (expand files options room) :=
  expand_related (agrees_expandOnce files limit) fits

end Limits

end Expansion

theorem compileContent_within {files : FileView} {options : CompileOptions} {t : Text} {path : Path}
    {s : Session} {limit : Nat} (fits : options.maxDepth ≤ limit)
    (roomy : Roomy (compileContent files options t path s).1.records) :
    compileContent files (options.within limit) t path s = compileContent files options t path s := by
  have agree := Expansion.agrees_expand files limit fits _ _ _ roomy
  unfold compileContent
  dsimp only
  rw [← agree]
  rfl

theorem compileDocument_congr {files : FileView} {options options' : CompileOptions}
    {file : Spelling} {s : Session}
    (same : ∀ path t, files.absolute file.path = .ok path → files.kind path = some .file →
      files.read path = .ok t → compileContent files options' t path s =
        compileContent files options t path s) :
    compileDocument files options' file s = compileDocument files options file s := by
  cases compiled : compileDocument files options file s with
  | ok result =>
    obtain ⟨path, t, place, kind, read, made⟩ := compileDocument_eq_ok.mp compiled
    exact compileDocument_eq_ok.mpr ⟨path, t, place, kind, read, (same path t place kind read).trans made⟩
  | error fault => exact compileDocument_error compiled options' s

namespace FaultyStore

variable {store : FaultyStore} (options : CompileOptions)

/-- A stored document and what it leads to are all stored, so the limit is ample when all but the
document fit. -/
theorem roomy_of_ample (steady : store.faults.kind = [])
    (accepted : ∀ ext ∈ options.extensions, Config.isExtension ext)
    (ample : store.store.files.length - 1 ≤ options.maxDepth) {file path : Path}
    (place : (FileStore.view store).absolute file = .ok path)
    (kind : (FileStore.view store).kind path = some .file) (t : Text) (s : Session) :
    Roomy (compileContent (FileStore.view store) options t path s).1.records := by
  obtain ⟨absolute, normal⟩ := FileView.absolute_eq_ok place
  have run := compileContent_unfolds (FileStore.view store) options t path s
  rw [FileView.absoluteOr_of_normal absolute normal] at run
  have stored : path ∈ store.store.files.map (·.1) := by
    rw [kind_of_steady steady] at kind
    exact normal ▸ MemoryStore.normalize_mem_of_kind kind
  refine run.roomy_of_known (store.store.files.map (·.1)) (fun _ _ _ leads => ?_)
    (List.nodup_singleton path) (by simpa using stored) ?_
  · exact mem_of_resolve steady accepted leads
  · rw [List.length_map, List.length_singleton]
    omega

theorem compileDocument_within (steady : store.faults.kind = [])
    (accepted : ∀ ext ∈ options.extensions, Config.isExtension ext) {least limit : Nat}
    (ample : store.store.files.length - 1 ≤ least) (fits : least ≤ limit) (file : Spelling) (s : Session) :
    compileDocument (FileStore.view store) (options.within limit) file s =
      compileDocument (FileStore.view store) (options.within least) file s :=
  compileDocument_congr fun _ t place kind _ =>
    compileContent_within fits
      (roomy_of_ample (options.within least) steady accepted ample place kind t s)

end FaultyStore

/-- Documents nest no deeper than the limit. Where the kinds of files are told as they are, a limit
of one less than there are files is never reached, whatever circles they are on, and no higher one
makes a difference. -/
theorem nesting_is_bounded (store : FaultyStore) (options : CompileOptions) (file : Spelling)
    (s : Session) :
    (∀ result s' chain, compileDocument (FileStore.view store) options file s = .ok (result, s') →
      Nested [] result.path result.records chain → chain.length ≤ options.maxDepth) ∧
    (store.faults.kind = [] → (∀ ext ∈ options.extensions, Config.isExtension ext) →
      ∀ limit, store.store.files.length - 1 ≤ limit →
        (∀ result s', compileDocument (FileStore.view store) (options.within limit) file s =
          .ok (result, s') → Roomy result.records) ∧
        ∀ other, store.store.files.length - 1 ≤ other →
          compileDocument (FileStore.view store) (options.within other) file s =
            compileDocument (FileStore.view store) (options.within limit) file s) := by
  constructor
  · intro result s' chain compiled nested
    obtain ⟨path, t, _, _, _, same⟩ := compileDocument_eq_ok.mp compiled
    obtain rfl : (compileContent (FileStore.view store) options t path s).1 = result :=
      congrArg Prod.fst same
    exact (compileContent_unfolds (FileStore.view store) options t path s).length_le_of_nested rfl nested
  · intro steady accepted limit ample
    refine ⟨fun result s' compiled => ?_, fun other enough => ?_⟩
    · obtain ⟨path, t, place, kind, _, same⟩ := compileDocument_eq_ok.mp compiled
      have roomy := FaultyStore.roomy_of_ample (options.within limit) steady accepted ample place kind t s
      rwa [same] at roomy
    · rw [FaultyStore.compileDocument_within options steady accepted le_rfl ample,
        FaultyStore.compileDocument_within options steady accepted le_rfl enough]

/-- A document that leads to a circle, behind no faults. -/
def circleStore : FaultyStore := ⟨⟨[], [], [], []⟩, loopStore⟩

theorem compileDocument_circle (options : CompileOptions) :
    compileDocument (FileStore.view circleStore) options ⟨"/a.md".toList⟩ .empty =
      .ok (compileContent (FileStore.view circleStore) options "@b.md".toList
        (.parse "/a.md".toList) .empty) :=
  compileDocument_eq_ok.mpr ⟨_, _, by decide +kernel, by decide +kernel, by decide +kernel, rfl⟩

/-- The two documents below the one that is compiled are as many as a limit of two lets in, and all
that there are. -/
theorem nesting_is_bounded_circle :
    ∃ result s chain,
      compileDocument (FileStore.view circleStore) (CompileOptions.default.within 2)
          ⟨"/a.md".toList⟩ .empty = .ok (result, s) ∧
        Nested [] result.path result.records chain ∧
        chain = ["/b.md", "/c.md"].map (.parse ·.toList) ∧ chain.length ≤ 2 ∧
        circleStore.store.files.length - 1 = 2 ∧ Roomy result.records ∧
        compileDocument (FileStore.view circleStore) (CompileOptions.default.within 64)
          ⟨"/a.md".toList⟩ .empty = .ok (result, s) := by
  have compiled := compileDocument_circle (CompileOptions.default.within 2)
  have inlines :
      (compileContent (FileStore.view circleStore) (CompileOptions.default.within 2) "@b.md".toList
      (.parse "/a.md".toList) .empty).1.records.map
        (fun r => (r.importedFrom, r.resolution.path, r.outcome.content?.isSome)) =
      [("/a.md", "/b.md", true), ("/b.md", "/c.md", true), ("/c.md", "/none.md/index.md", false),
        ("/c.md", "/b.md", false)].map
        fun (home, target, full) => (.parse home.toList, .parse target.toList, full) := by
    decide +kernel
  obtain ⟨first, rest, split, about, inlines⟩ := List.map_eq_cons_iff.mp inlines
  obtain ⟨second, rest, rfl, about', _⟩ := List.map_eq_cons_iff.mp inlines
  simp only [Prod.mk.injEq] at about about'
  obtain ⟨home, target, full⟩ := about
  obtain ⟨home', target', full'⟩ := about'
  have below : second.importedFrom ∉ [] ++ [Path.parse "/a.md".toList] := home' ▸ by decide +kernel
  have inner : Nested ([] ++ [.parse "/a.md".toList]) first.resolution.path
      ((second :: rest).takeWhile (·.importedFrom ∉ [] ++ [Path.parse "/a.md".toList]))
        [second.resolution.path] := by
    rw [List.takeWhile_cons, if_pos (decide_eq_true below)]
    exact @Nested.inlined _ _ [] second _ [] (home'.trans target.symm) full' .last
  have nested : Nested [] (.parse "/a.md".toList)
      (first :: second :: rest) [first.resolution.path, second.resolution.path] :=
    @Nested.inlined _ _ [] first (second :: rest) _ home full inner
  have accepted : ∀ ext ∈ CompileOptions.default.extensions, Config.isExtension ext := by decide +kernel
  obtain ⟨bounded, _⟩ := nesting_is_bounded circleStore (CompileOptions.default.within 2)
    ⟨"/a.md".toList⟩ .empty
  obtain ⟨_, ample⟩ := nesting_is_bounded circleStore .default ⟨"/a.md".toList⟩ .empty
  obtain ⟨roomy, same⟩ := ample rfl accepted 2 (by decide +kernel)
  refine ⟨_, _, _, compiled, split ▸ nested, by rw [target, target']; rfl, ?_, by decide +kernel,
    roomy _ _ compiled, ?_⟩
  · exact bounded _ _ _ compiled (split ▸ nested)
  · exact (same 64 (by decide +kernel)).trans compiled

end Transclusion

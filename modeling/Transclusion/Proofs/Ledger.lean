import Transclusion.Proofs.Unfolding

namespace Transclusion

namespace Outcome

theorem inlined_or_stub {outcome : Outcome} (fine : ¬ outcome.isFailure) :
    outcome.content?.isSome ∧ ¬ outcome.isStub ∨ outcome.isStub ∧ ¬ outcome.content?.isSome := by
  cases outcome <;> simp_all [isFailure, isStub, content?]

theorem not_isFailure_of_content {outcome : Outcome} (full : outcome.content?.isSome) :
    ¬ outcome.isFailure := by
  cases outcome <;> simp_all [isFailure, content?]

theorem not_isFailure_of_isStub {outcome : Outcome} (stub : outcome.isStub) : ¬ outcome.isFailure := by
  cases outcome <;> simp_all [isFailure, isStub]

theorem isFailure_of_isCircular {outcome : Outcome} (circular : outcome.isCircular) :
    outcome.isFailure := by
  cases outcome <;> simp_all [isFailure, isCircular]

theorem content_none_of_isStub {outcome : Outcome} (stub : outcome.isStub) : ¬ outcome.content?.isSome := by
  cases outcome <;> simp_all [content?, isStub]

end Outcome

/-- What a record does to the session that it is made in. With `once`, no document is inlined that was
inlined before. -/
inductive Enters (once : Bool) (s : Session) : Record → Session → Prop
  | uncounted {r} : r.outcome.isFailure → r.outcome.importCount? = none → Enters once s r s
  | stubbed {r p} : r.resolution = .file p → s.hasInlined p →
      r.outcome = .stubbed ((s.recordImport (.ofPath p)).importCount p) →
        Enters once s r (s.recordImport (.ofPath p))
  | unreadable {r p message} : r.resolution = .file p →
      r.outcome = .unreadable message ((s.recordImport (.ofPath p)).importCount p) →
      Enters once s r (s.recordImport (.ofPath p))
  | inlined {r p content} : r.resolution = .file p → (once → ¬ s.hasInlined p) →
      r.outcome = .inlined content ((s.recordImport (.ofPath p)).importCount p) →
      Enters once s r ((s.recordImport (.ofPath p)).markInlined p)

theorem Enters.hasInlined_iff {once : Bool} {s s' : Session} {r : Record}
    (entry : Enters once s r s') (p : Path) :
    s'.hasInlined p ↔ s.hasInlined p ∨ r.resolution.path = p ∧ r.outcome.content?.isSome := by
  cases entry with
  | uncounted failed _ =>
    have empty : ¬ r.outcome.content?.isSome := fun full => Outcome.not_isFailure_of_content full failed
    simp [empty]
  | stubbed _ _ same => simp [same, Outcome.content?]
  | unreadable _ same => simp [same, Outcome.content?]
  | inlined leads _ same =>
    rw [Session.hasInlined_markInlined, Session.hasInlined_recordImport, leads, same, or_comm]
    simp only [Resolution.path, Outcome.content?, Option.isSome_some, and_true]
    exact or_congr_right eq_comm

/-- Records in the order they were made, each in the session that the one before it left. -/
inductive Ledger (once : Bool) : Session → List Record → Session → Prop
  | nil {s} : Ledger once s [] s
  | cons {s r s' records s''} : Enters once s r s' → Ledger once s' records s'' →
    Ledger once s (r :: records) s''

theorem Ledger.append {once : Bool} {s s' s'' : Session} {records more : List Record}
    (first : Ledger once s records s') (second : Ledger once s' more s'') :
    Ledger once s (records ++ more) s'' := by
  induction first with
  | nil => exact second
  | cons entry _ ih => exact .cons entry (ih second)

/-- Some record inlines `p`. -/
def Inlines (records : List Record) (p : Path) : Prop :=
  ∃ r ∈ records, r.resolution.path = p ∧ r.outcome.content?.isSome

theorem inlines_cons {r : Record} {records : List Record} {p : Path} :
    Inlines (r :: records) p ↔ r.resolution.path = p ∧ r.outcome.content?.isSome ∨ Inlines records p := by
  simp [Inlines]

theorem inlines_append {records more : List Record} {p : Path} :
    Inlines (records ++ more) p ↔ Inlines records p ∨ Inlines more p := by
  simp [Inlines, or_and_right, exists_or]

theorem Inlines.mono {records more : List Record} {p : Path} (full : Inlines records p)
    (subset : records ⊆ more) :
    Inlines more p := by
  obtain ⟨r, member, about⟩ := full
  exact ⟨r, subset member, about⟩

theorem Settles.inlines_iff {files : FileView} {options : CompileOptions} {room : Nat}
    {ancestors : List Path} {s s' : Session} {resolution : Resolution} {outcome : Outcome}
    {r : Reference} {file p : Path} {records : List Record}
    (settles : Settles files options room ancestors s resolution outcome s') :
    Inlines (⟨r, resolution, outcome, file⟩ :: records) p ↔ Inlines records p := by
  rw [inlines_cons]
  exact or_iff_right fun here => settles.not_inlined here.2

theorem inlines_inlined {r : Reference} {p q file : Path} {content : Text} {count : Nat}
    {nested records : List Record} :
    Inlines (⟨r, .file p, .inlined content count, file⟩ :: nested ++ records) q ↔
      q = p ∨ Inlines nested q ∨ Inlines records q := by
  rw [List.cons_append, inlines_cons, inlines_append]
  refine or_congr_left ?_
  constructor
  · rintro ⟨leads, _⟩
    exact leads.symm
  · rintro rfl
    exact ⟨rfl, rfl⟩

theorem subset_of_nested (r : Record) (nested records : List Record) : nested ⊆ r :: nested ++ records :=
  List.subset_cons_of_subset r (List.subset_append_left ..)

theorem subset_of_later (r : Record) (nested records : List Record) : records ⊆ r :: nested ++ records :=
  List.subset_cons_of_subset r (List.subset_append_right ..)

/-- A session has inlined what it had before and what the records inline. -/
theorem Ledger.hasInlined_iff {once : Bool} {s s' : Session} {records : List Record}
    (entries : Ledger once s records s') (p : Path) :
    s'.hasInlined p ↔ s.hasInlined p ∨ Inlines records p := by
  induction entries with
  | nil => simp [Inlines]
  | cons entry _ ih => rw [ih, entry.hasInlined_iff, inlines_cons, or_assoc]

/-- A record that is no failure leads to a file that is inlined somewhere. -/
theorem Ledger.inlined_of_settled {once : Bool} {s s' : Session} {records : List Record}
    (entries : Ledger once s records s') {r : Record} (member : r ∈ records)
    (fine : ¬ r.outcome.isFailure) :
    ∃ p, r.resolution = .file p ∧ (s.hasInlined p ∨ Inlines records p) := by
  induction entries with
  | nil => cases member
  | cons entry _ ih =>
    rcases List.mem_cons.mp member with rfl | member
    · cases entry with
      | uncounted failed _ => exact absurd failed fine
      | stubbed leads old _ => exact ⟨_, leads, Or.inl old⟩
      | unreadable _ same => simp [same, Outcome.isFailure] at fine
      | inlined leads _ same =>
        exact ⟨_, leads, Or.inr (inlines_cons.mpr (Or.inl ⟨by rw [leads]; rfl, by rw [same]; rfl⟩))⟩
    · obtain ⟨p, leads, known⟩ := ih member
      refine ⟨p, leads, ?_⟩
      rcases known with known | later
      · rcases (entry.hasInlined_iff p).mp known with old | here
        · exact Or.inl old
        · exact Or.inr (inlines_cons.mpr (Or.inl here))
      · exact Or.inr (inlines_cons.mpr (Or.inr later))

theorem Settles.enters {files : FileView} {options : CompileOptions} {room : Nat}
    {ancestors : List Path} {s s' : Session} {resolution : Resolution} {outcome : Outcome}
    (settles : Settles files options room ancestors s resolution outcome s') (once : Bool)
    (r : Reference) (file : Path) :
    Enters once s ⟨r, resolution, outcome, file⟩ s' := by
  cases settles with
  | missing => exact .uncounted rfl rfl
  | directory => exact .uncounted rfl rfl
  | circular => exact .uncounted rfl rfl
  | tooDeep => exact .uncounted rfl rfl
  | stubbed _ _ _ old => exact .stubbed rfl old rfl
  | unreadable => exact .unreadable rfl rfl

/-- A reference is entered before the references of the document that it inlines, so the order of the
records is the order in which the session changed. -/
theorem Unfolds.ledger {files : FileView} {options : CompileOptions} {room : Nat} {site : Site}
    {refs : List Reference} {s s' : Session} {records : List Record}
    (run : Unfolds files options room site refs s records s') :
    Ledger options.optimizeDuplicates s records s' := by
  induction run with
  | done => exact .nil
  | settled settles _ ih => exact .cons (settles.enters ..) ih
  | inlined _ _ first _ _ _ nested later => exact .cons (.inlined rfl first rfl) (nested.append later)

/-- One compilation within a run: of a stored document, or of a text that stands for the document at a
path. Each has files and options of its own. -/
inductive CompileCall
  | document (files : FileView) (options : CompileOptions) (file : Spelling)
  | content (files : FileView) (options : CompileOptions) (t : Text) (file : Path)

namespace CompileCall

def options : CompileCall → CompileOptions
  | document _ options _ => options
  | content _ options _ _ => options

/-- The records of a call and the session after it. A document that cannot be compiled has none and
leaves the session alone. -/
def perform (s : Session) : CompileCall → List Record × Session
  | document files options file =>
    match compileDocument files options file s with
    | .ok (result, s) => (result.records, s)
    | .error _ => ([], s)
  | content files options t file =>
    let (result, s) := compileContent files options t file s
    (result.records, s)

/-- The records of several calls that share a session, one call after the other. -/
def performAll (s : Session) : List CompileCall → List Record × Session
  | [] => ([], s)
  | call :: rest =>
    let (records, s) := call.perform s
    let (later, s) := performAll s rest
    (records ++ later, s)

end CompileCall

theorem compileContent_ledger (files : FileView) (options : CompileOptions) (t : Text) (file : Path)
    (s : Session) :
    Ledger options.optimizeDuplicates s (compileContent files options t file s).1.records
      (compileContent files options t file s).2 :=
  (Expansion.unfolds_expand ..).ledger

theorem CompileCall.perform_ledger (call : CompileCall) (s : Session) :
    Ledger call.options.optimizeDuplicates s (call.perform s).1 (call.perform s).2 := by
  cases call with
  | content files options t file => exact compileContent_ledger files options t file s
  | document files options file =>
    simp only [perform, CompileCall.options]
    split
    · rename_i result s' compiled
      obtain ⟨path, t, _, _, _, same⟩ := compileDocument_eq_ok.mp compiled
      have entries := compileContent_ledger files options t path s
      rw [same] at entries
      exact entries
    · exact .nil

/-- The entries of a run whose calls all replace repeated imports. -/
theorem performAll_ledger {calls : List CompileCall}
    (dedup : ∀ call ∈ calls, call.options.optimizeDuplicates) (s : Session) :
    Ledger true s (CompileCall.performAll s calls).1 (CompileCall.performAll s calls).2 := by
  induction calls generalizing s with
  | nil => exact .nil
  | cons call rest ih =>
    have on : call.options.optimizeDuplicates = true := dedup call (List.mem_cons_self ..)
    have first : Ledger true s (call.perform s).1 (call.perform s).2 := by
      rw [← on]
      exact call.perform_ledger s
    exact first.append (ih (fun other member => dedup other (List.mem_cons_of_mem _ member)) _)

end Transclusion

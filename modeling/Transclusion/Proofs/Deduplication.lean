import Transclusion.MemoryStore
import Transclusion.Proofs.Ledger

namespace Transclusion

/-- Where no document is inlined twice, the session alone tells a stub from a document inlined in full. -/
theorem Enters.isStub_iff {s s' : Session} {r : Record} (entry : Enters true s r s')
    (fine : ¬ r.outcome.isFailure) :
    r.outcome.isStub ↔ s.hasInlined r.resolution.path := by
  cases entry with
  | uncounted failed _ => exact absurd failed fine
  | stubbed leads old same => simp [leads, same, old, Resolution.path, Outcome.isStub]
  | unreadable _ same => simp [same, Outcome.isFailure] at fine
  | inlined leads first same =>
    have fresh := first rfl
    simp [leads, same, fresh, Resolution.path, Outcome.isStub]

/-- The records that lead to `p` and are no failures. -/
def settledAt (p : Path) (records : List Record) : List Record :=
  records.filter fun r => r.resolution.path = p && !r.outcome.isFailure

theorem mem_settledAt {p : Path} {records : List Record} {r : Record} :
    r ∈ settledAt p records ↔ r ∈ records ∧ r.resolution.path = p ∧ ¬ r.outcome.isFailure := by
  simp [settledAt]

theorem settledAt_cons {p : Path} {r : Record} (leads : r.resolution.path = p)
    (fine : ¬ r.outcome.isFailure) (records : List Record) :
    settledAt p (r :: records) = r :: settledAt p records := by
  simp [settledAt, leads, fine]

theorem settledAt_cons_other {p : Path} {r : Record}
    (other : ¬ (r.resolution.path = p ∧ ¬ r.outcome.isFailure)) (records : List Record) :
    settledAt p (r :: records) = settledAt p records := by
  simp_all [settledAt]

theorem Ledger.settledAt_isStub {s s' : Session} {records : List Record}
    (entries : Ledger true s records s') {p : Path} (old : s.hasInlined p) :
    ∀ r ∈ settledAt p records, r.outcome.isStub := by
  induction entries with
  | nil => intro r member; cases member
  | @cons s r s' records s'' entry _ ih =>
    have later := ih ((entry.hasInlined_iff p).mpr (Or.inl old))
    intro other member
    obtain ⟨inside, leads, fine⟩ := mem_settledAt.mp member
    rcases List.mem_cons.mp inside with rfl | inside
    · exact (entry.isStub_iff fine).mpr (leads ▸ old)
    · exact later other (mem_settledAt.mpr ⟨inside, leads, fine⟩)

theorem Ledger.fresh {s s' : Session} {records : List Record} (entries : Ledger true s records s')
    {p : Path} (full : Inlines records p) : ¬ s.hasInlined p := by
  intro old
  obtain ⟨r, member, leads, content⟩ := full
  have settled : r ∈ settledAt p records :=
    mem_settledAt.mpr ⟨member, leads, Outcome.not_isFailure_of_content content⟩
  exact Outcome.content_none_of_isStub (entries.settledAt_isStub old r settled) content

/-- The first time that a target is settled it is inlined, and from then on the session knows it. -/
theorem Ledger.settledAt_first {s s' : Session} {records : List Record} (entries : Ledger true s records s')
    {p : Path} (fresh : ¬ s.hasInlined p) :
    (∀ first ∈ (settledAt p records).head?, first.outcome.content?.isSome ∧ ¬ first.outcome.isStub) ∧
      ∀ later ∈ (settledAt p records).tail, later.outcome.isStub := by
  induction entries with
  | nil => exact ⟨by simp [settledAt], by simp [settledAt]⟩
  | @cons s r s' records s'' entry rest ih =>
    by_cases here : r.resolution.path = p ∧ ¬ r.outcome.isFailure
    · obtain ⟨leads, fine⟩ := here
      have full : r.outcome.content?.isSome ∧ ¬ r.outcome.isStub := by
        rcases Outcome.inlined_or_stub fine with full | ⟨stub, _⟩
        · exact full
        · exact absurd (leads ▸ (entry.isStub_iff fine).mp stub) fresh
      have known : s'.hasInlined p := (entry.hasInlined_iff p).mpr (Or.inr ⟨leads, full.1⟩)
      rw [settledAt_cons leads fine]
      exact ⟨fun first same => Option.some.inj same ▸ full, rest.settledAt_isStub known⟩
    · rw [settledAt_cons_other here]
      refine ih fun known => ?_
      rcases (entry.hasInlined_iff p).mp known with old | ⟨leads, full⟩
      · exact fresh old
      · exact here ⟨leads, Outcome.not_isFailure_of_content full⟩

theorem filter_content_eq_settledAt (p : Path) (records : List Record) :
    records.filter (fun r => r.resolution.path = p && r.outcome.content?.isSome) =
      (settledAt p records).filter (·.outcome.content?.isSome) := by
  unfold settledAt
  rw [List.filter_filter]
  refine List.filter_congr fun r _ => ?_
  cases r.outcome <;> simp [Outcome.content?, Outcome.isFailure]

/-- In a run that replaces repeated imports, whatever its calls compile, the first record that settles a
target inlines it and all later ones are stubs. So no document is inlined twice, and a document was
inlined before every stub that stands for it. -/
theorem performAll_inlines_once (calls : List CompileCall)
    (dedup : ∀ call ∈ calls, call.options.optimizeDuplicates) :
    let records := (CompileCall.performAll .empty calls).1
    (∀ p, (∀ first ∈ (settledAt p records).head?, first.outcome.content?.isSome ∧ ¬ first.outcome.isStub) ∧
      ∀ later ∈ (settledAt p records).tail, later.outcome.isStub) ∧
    (∀ p, (records.filter fun r => r.resolution.path = p && r.outcome.content?.isSome).length ≤ 1) ∧
    ∀ before r after, records = before ++ r :: after → r.outcome.isStub →
      ∃ full ∈ before, full.resolution.path = r.resolution.path ∧ full.outcome.content?.isSome := by
  intro records
  have settled := fun p => (performAll_ledger dedup .empty).settledAt_first (Session.not_hasInlined_empty p)
  refine ⟨settled, fun p => ?_, fun before r after split stub => ?_⟩
  · rw [filter_content_eq_settledAt]
    cases shape : settledAt p records with
    | nil => simp
    | cons first later =>
      have stubs : ∀ r ∈ later, ¬ r.outcome.content?.isSome := fun r member =>
        Outcome.content_none_of_isStub ((settled p).2 r (by rw [shape]; exact member))
      have bound := List.length_filter_le (·.outcome.content?.isSome) [first]
      rw [← List.singleton_append, List.filter_append, List.filter_eq_nil_iff.mpr stubs, List.append_nil]
      exact bound
  · have fine := Outcome.not_isFailure_of_isStub stub
    obtain ⟨first, _⟩ := settled r.resolution.path
    have shape : settledAt r.resolution.path records =
        settledAt r.resolution.path before ++ r :: settledAt r.resolution.path after := by
      rw [split, ← settledAt_cons rfl fine]
      exact List.filter_append ..
    cases earlier : settledAt r.resolution.path before with
    | nil =>
      rw [shape, earlier] at first
      exact absurd stub (first r rfl).2
    | cons full others =>
      rw [shape, earlier] at first
      obtain ⟨inside, leads, _⟩ :=
        mem_settledAt.mp (earlier ▸ List.mem_cons_self .. : full ∈ settledAt _ before)
      exact ⟨full, inside, leads, (first full rfl).1⟩

/-- Two documents that mention each other, one of them twice. -/
def mutualStore : MemoryStore :=
  (MemoryStore.empty.insert (.parse "/a.md".toList) "@b.md (@b.md)".toList).insert
    (.parse "/b.md".toList) "# B @a.md\n".toList

/-- A run over both: one document as it is stored, and a text that mentions the other once more. -/
def mutualCalls : List CompileCall :=
  [.document (FileStore.view mutualStore) .default ⟨"/a.md".toList⟩,
    .content (FileStore.view mutualStore) .default "see @b.md".toList (.parse "/c.md".toList)]

theorem mutualCalls_inline_once :
    (∀ call ∈ mutualCalls, call.options.optimizeDuplicates) ∧
    (CompileCall.performAll .empty mutualCalls).1.map (·.outcome.isStub) = [false, false, true, true] ∧
    ∀ p, ∀ later ∈ (settledAt p (CompileCall.performAll .empty mutualCalls).1).tail,
      later.outcome.isStub := by
  have dedup : ∀ call ∈ mutualCalls, call.options.optimizeDuplicates := by decide
  exact ⟨dedup, by decide +kernel, fun p => ((performAll_inlines_once mutualCalls dedup).1 p).2⟩

end Transclusion

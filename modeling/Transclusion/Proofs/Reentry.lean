import Mathlib.Algebra.BigOperators.Group.Finset.Basic
import Mathlib.Algebra.Order.BigOperators.Group.Finset
import Transclusion.Proofs.Leftover

namespace Transclusion

namespace Graph

/-- Documents and what refers to each of them in path order and without repetition. The two
directions of an edge need not agree, and they may lead to what is no document. -/
structure Tidy (g : Graph) : Prop where
  ascending : Ascending g.paths
  dependents : ∀ node ∈ g.nodes, Ascending node.dependents

/-- How many dependencies each document has, which is what it waits for at first. -/
def counts (g : Graph) : Degrees := g.nodes.map fun node => (node.path, node.dependencies.length)

/-- What the loop places from here on, when it comes to the point where nothing is ready. -/
inductive Places (g : Graph) : Degrees → List Path → List Path → Prop
  | done {degrees} : g.Places degrees [] []
  | next {degrees ready order p} :
      g.Places (release (g.dependentsOf p) degrees ready).1
        (release (g.dependentsOf p) degrees ready).2 order →
      g.Places degrees (p :: ready) (p :: order)

/-- The loop stops, and has placed the documents of `order`. -/
def Sorts (g : Graph) (order : List Path) : Prop := g.Places g.counts g.rootFiles order

/-- The loop places `p` sooner or later, whether or not it stops. -/
def Placed (g : Graph) (p : Path) : Prop := ∃ fuel, p ∈ g.place fuel g.counts g.rootFiles

/-- Where the documents in `done` have been placed, some perhaps more than once: each document waits
for as many dependencies as have not been taken off, and those that are placed or ready wait for
nothing. -/
structure Run (g : Graph) (done : List Path) (degrees : Degrees) (ready : List Path) : Prop where
  degree (p : Path) : degrees.lookup p =
    if p ∈ g.paths then some ((g.dependenciesOf p).length - done.countP (p ∈ g.dependentsOf ·)) else none
  placed {p : Path} : p ∈ done → degrees.lookup p = some 0
  free {p : Path} : p ∈ ready → degrees.lookup p = some 0
  ascending : Ascending ready

variable {g : Graph} {p q : Path} {done ready order : List Path} {degrees : Degrees}

theorem Tidy.nodup_dependentsOf (tidy : g.Tidy) (p : Path) : (g.dependentsOf p).Nodup := by
  unfold dependentsOf
  cases found : g.node? p with
  | none => exact List.nodup_nil
  | some node => exact (tidy.dependents node (List.mem_of_find?_eq_some found)).nodup

theorem Tidy.run (tidy : g.Tidy) : g.Run [] g.counts g.rootFiles := by
  have degree : ∀ p, g.counts.lookup p =
      if p ∈ g.paths then some ((g.dependenciesOf p).length - [].countP (p ∈ g.dependentsOf ·))
      else none := by
    intro p
    have known : p ∈ g.paths ↔ (g.nodes.find? (·.path = p)).isSome := node?_isSome_iff.symm
    simp only [counts, lookup_map_path, known]
    unfold dependenciesOf node?
    cases g.nodes.find? (·.path = p) <;> rfl
  refine ⟨degree, fun placed => absurd placed List.not_mem_nil,
    fun {p} root => ?_, tidy.ascending.sublist (List.Sublist.map _ List.filter_sublist)⟩
  obtain ⟨node, member, rfl⟩ := List.mem_map.mp root
  obtain ⟨member, none⟩ := List.mem_filter.mp member
  have own : g.nodes.find? (·.path = node.path) = some node := node?_of_mem tidy.ascending.nodup member
  rw [counts, lookup_map_path, own, Option.map_some, List.isEmpty_iff.mp none]
  rfl

theorem Run.mem_paths (run : g.Run done degrees ready) (zero : degrees.lookup p = some 0) :
    p ∈ g.paths := by
  by_contra unknown
  rw [run.degree, if_neg unknown] at zero
  cases zero

theorem Run.settled (run : g.Run done degrees (p :: ready)) (placed : q ∈ p :: done) :
    degrees.lookup q = some 0 := by
  rcases List.mem_cons.mp placed with rfl | old
  · exact run.free (List.mem_cons_self ..)
  · exact run.placed old

/-- A document that waits for nothing is ready again whenever one is placed that counts it as a
dependent. -/
theorem Tidy.mem_release_iff (tidy : g.Tidy) : q ∈ (release (g.dependentsOf p) degrees ready).2 ↔
    q ∈ ready ∨ q ∈ g.dependentsOf p ∧ (release (g.dependentsOf p) degrees ready).1.lookup q = some 0 := by
  have distinct := tidy.nodup_dependentsOf p
  rw [mem_release distinct, lookup_release distinct]
  refine or_congr_right (and_congr_right fun dependent => ?_)
  simp only [dependent, if_true]

/-- What waits for nothing never waits again. -/
theorem Tidy.lookup_release_of_zero (tidy : g.Tidy) (zero : degrees.lookup q = some 0) :
    (release (g.dependentsOf p) degrees ready).1.lookup q = some 0 := by
  rw [lookup_release (tidy.nodup_dependentsOf p), zero]
  simp

theorem Run.next (run : g.Run done degrees (p :: ready)) (tidy : g.Tidy) :
    g.Run (p :: done) (release (g.dependentsOf p) degrees ready).1
      (release (g.dependentsOf p) degrees ready).2 := by
  refine ⟨fun q => ?_, fun {q} placed => tidy.lookup_release_of_zero (run.settled placed),
    fun {q} listed => ?_, ascending_release _ (List.pairwise_cons.mp run.ascending).2⟩
  · rw [lookup_release (tidy.nodup_dependentsOf p), run.degree]
    by_cases known : q ∈ g.paths
    · rw [if_pos known, if_pos known, Option.map_some, List.countP_cons]
      by_cases dependent : q ∈ g.dependentsOf p
      · simp only [dependent, decide_true, if_true]
        rw [Nat.sub_sub]
      · simp [dependent]
    · rw [if_neg known, if_neg known, Option.map_none]
  · rcases tidy.mem_release_iff.mp listed with old | ⟨_, zero⟩
    · exact tidy.lookup_release_of_zero (run.free (List.mem_cons_of_mem p old))
    · exact zero

theorem Run.mem_paths_of_place (tidy : g.Tidy) {fuel : Nat} (run : g.Run done degrees ready)
    (placed : q ∈ g.place fuel degrees ready) : q ∈ g.paths := by
  induction fuel generalizing done degrees ready with
  | zero => cases placed
  | succ fuel ih =>
    cases ready with
    | nil => cases placed
    | cons p ready =>
      rcases List.mem_cons.mp placed with rfl | later
      · exact run.mem_paths (run.free (List.mem_cons_self ..))
      · exact ih (run.next tidy) later

theorem length_place_le (fuel : Nat) : (g.place fuel degrees ready).length ≤ fuel := by
  induction fuel generalizing degrees ready with
  | zero => exact Nat.le_refl 0
  | succ fuel ih =>
    cases ready with
    | nil => exact Nat.zero_le _
    | cons p ready => exact Nat.succ_le_succ ih

namespace Places

theorem place_eq (places : g.Places degrees ready order) (fuel : Nat) :
    g.place fuel degrees ready = order.take fuel := by
  induction places generalizing fuel with
  | done => cases fuel <;> rfl
  | @next degrees ready order p _ ih =>
    cases fuel with
    | zero => rfl
    | succ fuel =>
      rw [place, List.take_succ_cons]
      exact congrArg (p :: ·) (ih fuel)

/-- Where fuel is left over the loop has come to its end. -/
theorem of_length_lt {fuel : Nat} (short : (g.place fuel degrees ready).length < fuel) :
    g.Places degrees ready (g.place fuel degrees ready) := by
  induction fuel generalizing degrees ready with
  | zero => cases short
  | succ fuel ih =>
    cases ready with
    | nil => exact .done
    | cons p ready => exact .next (ih (Nat.lt_of_succ_lt_succ short))

variable (tidy : g.Tidy) (run : g.Run done degrees ready) (places : g.Places degrees ready order)

include tidy places

theorem mem_of_ready (listed : q ∈ ready) : q ∈ order := by
  induction places with
  | done => cases listed
  | @next degrees ready order p _ ih =>
    rcases List.mem_cons.mp listed with rfl | later
    · exact List.mem_cons_self ..
    · exact List.mem_cons_of_mem p (ih (tidy.mem_release_iff.mpr (Or.inl later)))

/-- A document that waits for nothing is placed behind each one that counts it as a dependent. -/
theorem mem_tail_of_zero (placed : p ∈ order) (dependent : q ∈ g.dependentsOf p)
    (zero : degrees.lookup q = some 0) :
    q ∈ order.tail := by
  induction places with
  | done => cases placed
  | @next degrees ready order first places ih =>
    have still : (release (g.dependentsOf first) degrees ready).1.lookup q = some 0 :=
      tidy.lookup_release_of_zero zero
    rw [List.tail_cons]
    rcases List.mem_cons.mp placed with rfl | later
    · exact places.mem_of_ready tidy (tidy.mem_release_iff.mpr (Or.inr ⟨dependent, still⟩))
    · exact List.mem_of_mem_tail (ih later still)

include run

/-- The placed documents in the order of their last places, where each stands in front of its dependents. -/
theorem exists_ranked : ∃ ranked : List Path, ranked.Nodup ∧ (∀ p, p ∈ ranked ↔ p ∈ order) ∧
    ∀ p ∈ order, ∀ q ∈ order, q ∈ g.dependentsOf p → ranked.idxOf p < ranked.idxOf q := by
  induction places generalizing done with
  | done => exact ⟨[], List.nodup_nil, fun _ => Iff.rfl, fun p placed => absurd placed List.not_mem_nil⟩
  | @next degrees ready order first places ih =>
    obtain ⟨ranked, distinct, same, ahead⟩ := ih (run.next tidy)
    -- a document that is placed again keeps the rank of its last place, and any other comes before
    -- all the rest
    by_cases again : first ∈ order
    · have kept : ∀ q, q ∈ first :: order ↔ q ∈ order := fun q =>
        ⟨fun member => (List.mem_cons.mp member).elim (fun here => here ▸ again) id,
          List.mem_cons_of_mem first⟩
      refine ⟨ranked, distinct, fun q => (same q).trans (kept q).symm, fun p placed q placed' => ?_⟩
      exact ahead p ((kept p).mp placed) q ((kept q).mp placed')
    · have fresh : first ∉ ranked := fun member => again ((same first).mp member)
      refine ⟨first :: ranked, List.nodup_cons.mpr ⟨fresh, distinct⟩,
        fun q => ?_, fun p placed q placed' dependent => ?_⟩
      · rw [List.mem_cons, List.mem_cons, same]
      · have other : q ≠ first := by
          rintro rfl
          exact again ((Places.next places).mem_tail_of_zero tidy placed dependent
            (run.free (List.mem_cons_self ..)))
        rw [List.idxOf_cons_ne _ other.symm]
        by_cases here : p = first
        · rw [here, List.idxOf_cons_self]
          exact Nat.succ_pos _
        · rw [List.idxOf_cons_ne _ (Ne.symm here)]
          refine Nat.succ_lt_succ (ahead p ?_ q ?_ dependent)
          · exact (List.mem_cons.mp placed).resolve_left here
          · exact (List.mem_cons.mp placed').resolve_left other

theorem mem_paths (placed : p ∈ order) : p ∈ g.paths := by
  have reached : p ∈ g.place order.length degrees ready := by rwa [places.place_eq, List.take_length]
  exact run.mem_paths_of_place tidy reached

end Places

/-- The ready documents as a number, in which each counts for more than all that are ranked behind it. -/
def weight (ready : List Path) : List Path → Nat
  | [] => 0
  | p :: ranked => (if p ∈ ready then 2 ^ ranked.length else 0) + weight ready ranked

theorem weight_lt (ready ranked : List Path) : weight ready ranked < 2 ^ ranked.length := by
  induction ranked with
  | nil => exact Nat.one_pos
  | cons p ranked ih =>
    rw [weight, List.length_cons, Nat.pow_succ]
    split <;> omega

/-- Taking a document away makes the number smaller, whatever comes in behind it. -/
theorem weight_lt_weight {later ranked : List Path} (listed : p ∈ ready) (gone : p ∉ later)
    (known : p ∈ ranked) (ahead : ∀ q, ranked.idxOf q < ranked.idxOf p → q ∈ later → q ∈ ready) :
    weight later ranked < weight ready ranked := by
  induction ranked with
  | nil => cases known
  | cons first ranked ih =>
    rw [weight, weight]
    by_cases here : p = first
    · subst here
      have behind := weight_lt later ranked
      rw [if_neg gone, if_pos listed]
      omega
    · have kept : first ∈ later → first ∈ ready := by
        refine ahead first ?_
        rw [List.idxOf_cons_self, List.idxOf_cons_ne _ (Ne.symm here)]
        exact Nat.succ_pos _
      have less := ih ((List.mem_cons.mp known).resolve_left here) fun q before => by
        refine ahead q ?_
        rw [List.idxOf_cons_ne _ (Ne.symm here)]
        by_cases front : q = first
        · rw [front, List.idxOf_cons_self]
          exact Nat.succ_pos _
        · rw [List.idxOf_cons_ne _ (Ne.symm front)]
          exact Nat.succ_lt_succ before
      by_cases inside : first ∈ later
      · rw [if_pos inside, if_pos (kept inside)]
        omega
      · rw [if_neg inside]
        omega

namespace Places

variable (tidy : g.Tidy) (run : g.Run done degrees ready) (places : g.Places degrees ready order)

include tidy run places

theorem length_le_weight {ranked : List Path} (known : ∀ p ∈ order, p ∈ ranked)
    (ahead : ∀ p ∈ order, ∀ q ∈ order, q ∈ g.dependentsOf p → ranked.idxOf p < ranked.idxOf q) :
    order.length ≤ weight ready ranked := by
  induction places generalizing done with
  | done => exact Nat.zero_le _
  | @next degrees ready order first places ih =>
    have rest := ih (run.next tidy) (fun p placed => known p (List.mem_cons_of_mem first placed))
      fun p placed q placed' => ahead p (List.mem_cons_of_mem first placed) q
        (List.mem_cons_of_mem first placed')
    have placed : first ∈ first :: order := List.mem_cons_self ..
    have gone : first ∉ (release (g.dependentsOf first) degrees ready).2 := by
      intro listed
      rcases tidy.mem_release_iff.mp listed with old | ⟨dependent, _⟩
      · exact (List.nodup_cons.mp run.ascending.nodup).1 old
      · exact Nat.lt_irrefl _ (ahead first placed first placed dependent)
    -- what comes in for `first` is ranked behind it
    refine Nat.lt_of_le_of_lt rest
      (weight_lt_weight (List.mem_cons_self ..) gone (known first placed) fun q before listed => ?_)
    rcases tidy.mem_release_iff.mp listed with old | ⟨dependent, _⟩
    · exact List.mem_cons_of_mem first old
    · have placed' : q ∈ first :: order := List.mem_cons_of_mem first (places.mem_of_ready tidy listed)
      exact absurd (ahead first placed q placed' dependent) (Nat.lt_asymm before)

/-- A run that ends has fewer steps than there are sets of documents: what is ready becomes a
smaller number with each. -/
theorem length_lt : order.length < 2 ^ g.nodes.length := by
  obtain ⟨ranked, distinct, same, ahead⟩ := places.exists_ranked tidy run
  have inside : ranked ⊆ g.paths := fun p member => places.mem_paths tidy run ((same p).mp member)
  calc order.length
    _ ≤ weight ready ranked := places.length_le_weight tidy run (fun p => (same p).mpr) ahead
    _ < 2 ^ ranked.length := weight_lt ready ranked
    _ ≤ 2 ^ g.nodes.length := Nat.pow_le_pow_right Nat.two_pos (length_le_nodes distinct inside)

end Places

theorem Sorts.eq (tidy : g.Tidy) (sorts : g.Sorts order) : g.compileOrder.sorted = order :=
  (sorts.place_eq _).trans (List.take_of_length_le (Nat.le_of_lt (sorts.length_lt tidy tidy.run)))

theorem Sorts.mem_of_placed (sorts : g.Sorts order) (placed : g.Placed p) : p ∈ order := by
  obtain ⟨fuel, placed⟩ := placed
  rw [sorts.place_eq] at placed
  exact List.mem_of_mem_take placed

theorem Sorts.not_circle (tidy : g.Tidy) (sorts : g.Sorts order) :
    ¬ Relation.TransGen (fun p q => g.Placed p ∧ g.Placed q ∧ q ∈ g.dependentsOf p) p p := by
  obtain ⟨ranked, _, _, ahead⟩ := sorts.exists_ranked tidy tidy.run
  have onward : ∀ {q}, Relation.TransGen (fun p q => g.Placed p ∧ g.Placed q ∧ q ∈ g.dependentsOf p) p q →
      ranked.idxOf p < ranked.idxOf q := by
    intro q walk
    induction walk with
    | single step => exact ahead _ (sorts.mem_of_placed step.1) _ (sorts.mem_of_placed step.2.1) step.2.2
    | tail _ step ih =>
      exact ih.trans (ahead _ (sorts.mem_of_placed step.1) _ (sorts.mem_of_placed step.2.1) step.2.2)
  exact fun circle => Nat.lt_irrefl _ (onward circle)

/-- Where more and more documents of some kind come up, and there are finitely many of that kind,
one of them does so more and more often. -/
theorem exists_unbounded {runs : Nat → List Path} {documents : List Path} (kind : Path → Bool)
    (inside : ∀ n, runs n ⊆ documents) (many : ∀ bound, ∃ n, bound < (runs n).countP kind) :
    ∃ q ∈ documents, kind q ∧ ∀ bound, ∃ n, bound < (runs n).count q := by
  by_contra none
  push Not at none
  choose! bound few using none
  obtain ⟨n, more⟩ := many (∑ q ∈ (documents.filter kind).toFinset, bound q)
  have within : ((runs n).filter kind).toFinset ⊆ (documents.filter kind).toFinset := by
    intro q member
    obtain ⟨member, alike⟩ := List.mem_filter.mp (List.mem_toFinset.mp member)
    exact List.mem_toFinset.mpr (List.mem_filter.mpr ⟨inside n member, alike⟩)
  refine Nat.not_le.mpr more ?_
  calc (runs n).countP kind
    _ = ((runs n).filter kind).length := List.countP_eq_length_filter
    _ = ∑ q ∈ ((runs n).filter kind).toFinset, ((runs n).filter kind).count q :=
      (List.sum_toFinset_count_eq_length _).symm
    _ ≤ ∑ q ∈ ((runs n).filter kind).toFinset, bound q := by
      refine Finset.sum_le_sum fun q member => ?_
      obtain ⟨member, alike⟩ := List.mem_filter.mp (List.mem_toFinset.mp member)
      exact (List.filter_sublist.count_le q).trans (few q (inside n member) alike n)
    _ ≤ ∑ q ∈ (documents.filter kind).toFinset, bound q := Finset.sum_le_sum_of_subset within

/-- A document is placed at most once more than those that count it as a dependent are, all together. -/
theorem Run.count_place_le (tidy : g.Tidy) (run : g.Run done degrees ready) (fuel : Nat) :
    (g.place fuel degrees ready).count p ≤
      (if p ∈ ready then 1 else 0) + (g.place fuel degrees ready).countP (p ∈ g.dependentsOf ·) := by
  induction fuel generalizing done degrees ready with
  | zero => exact Nat.zero_le _
  | succ fuel ih =>
    cases ready with
    | nil => exact Nat.zero_le _
    | cons first ready =>
      have rest := ih (run.next tidy)
      have apart : first ∉ ready := (List.nodup_cons.mp run.ascending.nodup).1
      have joined : (if p ∈ (release (g.dependentsOf first) degrees ready).2 then 1 else 0) ≤
          (if p ∈ ready then 1 else 0) + if p ∈ g.dependentsOf first then 1 else 0 := by
        by_cases listed : p ∈ (release (g.dependentsOf first) degrees ready).2
        · rcases tidy.mem_release_iff.mp listed with old | ⟨dependent, _⟩
          · rw [if_pos listed, if_pos old]
            exact Nat.le_add_right ..
          · rw [if_pos listed, if_pos dependent]
            exact Nat.le_add_left ..
        · rw [if_neg listed]
          exact Nat.zero_le _
      have left : (if p ∈ first :: ready then 1 else 0) = (if first = p then 1 else 0) + if p ∈ ready
          then 1 else 0 := by
        by_cases here : first = p
        · subst here
          simp [apart]
        · simp [here, Ne.symm here]
      rw [place, List.count_cons, List.countP_cons, left]
      simp only [beq_iff_eq, decide_eq_true_eq]
      omega

theorem Tidy.exists_sorts_iff (tidy : g.Tidy) : (∃ order, g.Sorts order) ↔
    ¬ ∃ p, Relation.TransGen (fun p q => g.Placed p ∧ g.Placed q ∧ q ∈ g.dependentsOf p) p p := by
  classical
  refine ⟨fun ⟨order, sorts⟩ ⟨p, circle⟩ => sorts.not_circle tidy circle, fun acyclic => ?_⟩
  by_contra endless
  let runs (fuel : Nat) : List Path := g.place fuel g.counts g.rootFiles
  have inside : ∀ fuel, runs fuel ⊆ g.paths := fun fuel p placed => tidy.run.mem_paths_of_place tidy placed
  have full : ∀ fuel, (runs fuel).length = fuel := fun fuel =>
    Nat.le_antisymm (length_place_le fuel) (Nat.not_lt.mp fun short => endless ⟨_, .of_length_lt short⟩)
  -- those that are placed more and more often
  let left := g.paths.filter fun p => ∀ bound, ∃ fuel, bound < (runs fuel).count p
  have placed : ∀ p ∈ left, g.Placed p := by
    intro p member
    obtain ⟨fuel, positive⟩ := of_decide_eq_true (List.mem_filter.mp member).2 0
    exact ⟨fuel, List.count_pos_iff.mp positive⟩
  obtain ⟨p, start⟩ : ∃ p, p ∈ left := by
    obtain ⟨p, known, _, many⟩ := exists_unbounded (fun _ => true) inside fun bound =>
      ⟨bound + 1, by rw [List.countP_true, full]; exact Nat.lt_succ_self bound⟩
    exact ⟨p, List.mem_filter.mpr ⟨known, decide_eq_true many⟩⟩
  have onward : ∀ p ∈ left, ∃ q ∈ left, g.Placed q ∧ g.Placed p ∧ p ∈ g.dependentsOf q := by
    intro p member
    obtain ⟨q, known, dependent, many⟩ := exists_unbounded (p ∈ g.dependentsOf ·) inside fun bound => by
      obtain ⟨fuel, more⟩ := of_decide_eq_true (List.mem_filter.mp member).2 (bound + 1)
      have counted : (runs fuel).count p ≤
          (if p ∈ g.rootFiles then 1 else 0) + (runs fuel).countP (p ∈ g.dependentsOf ·) :=
            tidy.run.count_place_le tidy fuel
      refine ⟨fuel, ?_⟩
      split at counted <;> omega
    have again : q ∈ left := List.mem_filter.mpr ⟨known, decide_eq_true many⟩
    exact ⟨q, again, placed q again, placed p member, of_decide_eq_true dependent⟩
  obtain ⟨q, _, circle⟩ := exists_circle onward start
  exact acyclic ⟨q, Relation.transGen_swap.mp circle⟩

/-- None of the documents counts itself as a dependent, or one that has its place already, when
those in `done` have. -/
def Forward (g : Graph) (done : List Path) : List Path → Prop
  | [] => True
  | p :: rest => (∀ q ∈ p :: done, q ∉ g.dependentsOf p) ∧ g.Forward (p :: done) rest

/-- Where an order has no document twice, none was placed in front of one that counts it as a
dependent: it would have been placed again. -/
theorem Places.forward (tidy : g.Tidy) (run : g.Run done degrees ready)
    (places : g.Places degrees ready order) (distinct : order.Nodup)
    (apart : ∀ p ∈ order, p ∉ done) : g.Forward done order := by
  induction places generalizing done with
  | done => trivial
  | @next degrees ready order first places ih =>
    obtain ⟨fresh, distinct⟩ := List.nodup_cons.mp distinct
    refine ⟨fun q placed dependent => ?_, ih (run.next tidy) distinct fun p later placed => ?_⟩
    · have again : q ∈ order :=
        places.next.mem_tail_of_zero tidy (List.mem_cons_self ..) dependent (run.settled placed)
      rcases List.mem_cons.mp placed with rfl | old
      · exact fresh again
      · exact apart q (List.mem_cons_of_mem first again) old
    · rcases List.mem_cons.mp placed with rfl | old
      · exact fresh later
      · exact apart p (List.mem_cons_of_mem first later) old

/-- No document has been placed twice, nor will one of those that are ready. -/
structure Once (g : Graph) (done : List Path) (degrees : Degrees) (ready : List Path) : Prop
    extends g.Run done degrees ready where
  distinct : done.Nodup
  apart : ∀ p ∈ ready, p ∉ done

theorem Tidy.once (tidy : g.Tidy) : g.Once [] g.counts g.rootFiles :=
  ⟨tidy.run, List.nodup_nil, fun _ _ => List.not_mem_nil⟩

namespace Once

theorem next (once : g.Once done degrees (p :: ready)) (tidy : g.Tidy)
    (fresh : ∀ q ∈ p :: done, q ∉ g.dependentsOf p) :
    g.Once (p :: done) (release (g.dependentsOf p) degrees ready).1
      (release (g.dependentsOf p) degrees ready).2 := by
  refine ⟨once.toRun.next tidy,
    List.nodup_cons.mpr ⟨once.apart p (List.mem_cons_self ..), once.distinct⟩, ?_⟩
  intro q listed placed
  rcases tidy.mem_release_iff.mp listed with old | ⟨dependent, _⟩
  · rcases List.mem_cons.mp placed with rfl | before
    · exact (List.nodup_cons.mp once.ascending.nodup).1 old
    · exact once.apart q (List.mem_cons_of_mem p old) before
  · exact fresh q placed dependent

theorem nodup_place (tidy : g.Tidy) {fuel : Nat} (once : g.Once done degrees ready)
    (forward : g.Forward done (g.place fuel degrees ready)) :
    (g.place fuel degrees ready).Nodup ∧ ∀ p ∈ g.place fuel degrees ready, p ∉ done := by
  induction fuel generalizing done degrees ready with
  | zero => exact ⟨List.nodup_nil, fun _ placed => absurd placed List.not_mem_nil⟩
  | succ fuel ih =>
    cases ready with
    | nil => exact ⟨List.nodup_nil, fun _ placed => absurd placed List.not_mem_nil⟩
    | cons p ready =>
      obtain ⟨fresh, forward⟩ := forward
      obtain ⟨distinct, later⟩ := ih (once.next tidy fresh) forward
      refine ⟨List.nodup_cons.mpr ⟨fun again => later p again (List.mem_cons_self ..), distinct⟩,
        fun q placed old => ?_⟩
      rcases List.mem_cons.mp placed with rfl | placed
      · exact once.apart q (List.mem_cons_self ..) old
      · exact later q placed (List.mem_cons_of_mem p old)

/-- Placing a document takes one off each that it counts as a dependent. One that waits for nothing
has lost all its dependencies to other documents already, so none is left to be taken off. -/
theorem fresh (once : g.Once done degrees (p :: ready))
    (bounded : ∀ p ∈ g.paths, g.paths.countP (p ∈ g.dependentsOf ·) ≤ (g.dependenciesOf p).length) :
    ∀ q ∈ p :: done, q ∉ g.dependentsOf p := by
  have known : p :: done ⊆ g.paths := fun q placed => once.toRun.mem_paths (once.toRun.settled placed)
  have distinct : (p :: done).Nodup :=
    List.nodup_cons.mpr ⟨once.apart p (List.mem_cons_self ..), once.distinct⟩
  intro q placed dependent
  have zero := once.toRun.settled placed
  rw [once.degree, if_pos (known placed)] at zero
  have lost : (g.dependenciesOf q).length ≤ done.countP (q ∈ g.dependentsOf ·) :=
    Nat.sub_eq_zero_iff_le.mp (Option.some.inj zero)
  have more : (p :: done).countP (q ∈ g.dependentsOf ·) = done.countP (q ∈ g.dependentsOf ·) + 1 :=
    List.countP_cons_of_pos (decide_eq_true dependent)
  have most := (List.subperm_of_subset distinct known).countP_le (q ∈ g.dependentsOf ·)
  have few := bounded q (known placed)
  omega

theorem forward_place (tidy : g.Tidy)
    (bounded : ∀ p ∈ g.paths, g.paths.countP (p ∈ g.dependentsOf ·) ≤ (g.dependenciesOf p).length)
    {fuel : Nat} (once : g.Once done degrees ready) :
    g.Forward done (g.place fuel degrees ready) := by
  induction fuel generalizing done degrees ready with
  | zero => trivial
  | succ fuel ih =>
    cases ready with
    | nil => trivial
    | cons p ready => exact ⟨once.fresh bounded, ih (once.next tidy (once.fresh bounded))⟩

end Once

/-- Where the two directions agree, what counts a document as a dependent is just what it refers to. -/
theorem Coherent.countP_dependents_le (coherent : g.Coherent) :
    g.paths.countP (p ∈ g.dependentsOf ·) ≤ (g.dependenciesOf p).length := by
  rw [List.countP_eq_length_filter]
  refine (List.subperm_of_subset (coherent.ascending.nodup.filter _) fun q member => ?_).length_le
  exact coherent.mirrored.mp (of_decide_eq_true (List.mem_filter.mp member).2)

/-- Where no document is placed in front of one that counts it as a dependent, the loop stops with
each of them placed once, as there are not enough documents to go on. -/
theorem Tidy.sorts_of_forward (tidy : g.Tidy) (forward : g.Forward [] g.compileOrder.sorted) :
    g.Sorts g.compileOrder.sorted ∧ g.compileOrder.sorted.Nodup := by
  have distinct : g.compileOrder.sorted.Nodup := (tidy.once.nodup_place tidy forward).1
  have inside : g.compileOrder.sorted ⊆ g.paths := fun p placed => tidy.run.mem_paths_of_place tidy placed
  have short : g.compileOrder.sorted.length < 2 ^ g.nodes.length :=
    Nat.lt_of_le_of_lt (length_le_nodes distinct inside) Nat.lt_two_pow_self
  exact ⟨.of_length_lt short, distinct⟩

end Graph

/-- What the sort makes of any graph, though its two directions disagree. It stops with every
document placed once or left over if none has more documents that count it as a dependent than
dependencies, as in a graph whose directions agree; and in general just if none is placed in front
of one that counts it as a dependent. If it stops then within its fuel, and it does unless documents
that it places are dependents of each other in a circle. -/
theorem compileOrder_places_once {g : Graph} (tidy : g.Tidy) :
    ((∀ p ∈ g.paths, g.paths.countP (p ∈ g.dependentsOf ·) ≤ (g.dependenciesOf p).length) →
      g.Sorts g.compileOrder.sorted ∧ g.compileOrder.sorted.Nodup ∧ g.compileOrder.all.Perm g.paths) ∧
      (g.Coherent → ∀ p ∈ g.paths, g.paths.countP (p ∈ g.dependentsOf ·) ≤ (g.dependenciesOf p).length) ∧
      (g.Sorts g.compileOrder.sorted ∧ g.compileOrder.sorted.Nodup ↔ g.Forward [] g.compileOrder.sorted) ∧
      ((∃ order, g.Sorts order) ↔
        ¬ ∃ p, Relation.TransGen (fun p q => g.Placed p ∧ g.Placed q ∧ q ∈ g.dependentsOf p) p p) ∧
      ∀ order, g.Sorts order → g.compileOrder.sorted = order ∧ (∀ p, p ∈ g.compileOrder.all ↔ p ∈ g.paths) ∧
        (g.compileOrder.all.Perm g.paths ↔ order.Nodup) := by
  have known : ∀ p ∈ g.compileOrder.sorted, p ∈ g.paths :=
    fun p placed => tidy.run.mem_paths_of_place tidy placed
  have whole : g.compileOrder.all.Perm g.paths ↔ g.compileOrder.sorted.Nodup := by
    refine ⟨fun perm => (List.nodup_append'.mp (perm.nodup_iff.mpr tidy.ascending.nodup)).1,
      fun once => ?_⟩
    have distinct := tidy.ascending.nodup
    exact (List.perm_ext_iff_of_nodup (Graph.nodup_all distinct once) distinct).mpr
      fun _ => Graph.mem_all_iff known
  refine ⟨fun bounded => ?_, fun coherent p _ => coherent.countP_dependents_le,
    ⟨fun ⟨sorts, distinct⟩ => ?_, tidy.sorts_of_forward⟩, tidy.exists_sorts_iff, fun order sorts => ?_⟩
  · obtain ⟨sorts, distinct⟩ := tidy.sorts_of_forward (tidy.once.forward_place tidy bounded)
    exact ⟨sorts, distinct, whole.mpr distinct⟩
  · exact sorts.forward tidy tidy.run distinct fun _ _ => List.not_mem_nil
  · cases sorts.eq tidy
    exact ⟨rfl, fun _ => Graph.mem_all_iff known, whole⟩

/-- The second document counts the first one as a dependent, which does not refer to it. -/
def echo : Graph :=
  ⟨[⟨.parse "/a.md".toList, [], []⟩, ⟨.parse "/b.md".toList, [], [.parse "/a.md".toList]⟩]⟩

/-- A document that counts itself as a dependent and refers to nothing. -/
def mirror : Graph := ⟨[⟨.parse "/a.md".toList, [], [.parse "/a.md".toList]⟩]⟩

/-- Edges to what is no document, and one that only the document knows of where it begins. -/
def astray : Graph := ⟨[⟨.parse "/a.md".toList, [.parse "/b.md".toList, .parse "/gone.md".toList], []⟩,
  ⟨.parse "/b.md".toList, [], [.parse "/gone.md".toList]⟩]⟩

/-- The first graph has a document placed twice and the second is placed for ever, but edges that
only lead astray do no harm. -/
theorem compileOrder_places_once_echo :
    (echo.Tidy ∧ echo.Sorts (["/a.md", "/b.md", "/a.md"].map (.parse ·.toList)) ∧
      ¬ echo.compileOrder.all.Perm echo.paths) ∧
      (mirror.Tidy ∧ ¬ ∃ order, mirror.Sorts order) ∧
      astray.Tidy ∧
      (∀ p ∈ astray.paths, astray.paths.countP (p ∈ astray.dependentsOf ·) ≤
        (astray.dependenciesOf p).length) ∧
      astray.Sorts astray.compileOrder.sorted ∧ astray.compileOrder.all.Perm astray.paths := by
  have tidyEcho : echo.Tidy := ⟨by decide +kernel, by decide +kernel⟩
  have tidyMirror : mirror.Tidy := ⟨by decide +kernel, by decide +kernel⟩
  have tidyAstray : astray.Tidy := ⟨by decide +kernel, by decide +kernel⟩
  have twice : echo.compileOrder.sorted = ["/a.md", "/b.md", "/a.md"].map (.parse ·.toList) := by
    decide +kernel
  have sorts : echo.Sorts (["/a.md", "/b.md", "/a.md"].map (.parse ·.toList)) :=
    twice ▸ .of_length_lt
      (show echo.compileOrder.sorted.length < 2 ^ echo.nodes.length by rw [twice]; decide)
  have placed : mirror.Placed (.parse "/a.md".toList) := ⟨1, by decide +kernel⟩
  have bounded : ∀ p ∈ astray.paths,
      astray.paths.countP (p ∈ astray.dependentsOf ·) ≤ (astray.dependenciesOf p).length := by
    decide +kernel
  obtain ⟨_, _, _, _, ended⟩ := compileOrder_places_once tidyEcho
  obtain ⟨_, _, _, stops, _⟩ := compileOrder_places_once tidyMirror
  obtain ⟨once, _⟩ := compileOrder_places_once tidyAstray
  obtain ⟨sorts', _, perm⟩ := once bounded
  refine ⟨⟨tidyEcho, sorts, fun perm => ?_⟩, ⟨tidyMirror, fun order => ?_⟩, tidyAstray,
    bounded, sorts', perm⟩
  · exact absurd ((ended _ sorts).2.2.mp perm) (by decide +kernel)
  · exact stops.mp order ⟨_, .single ⟨placed, placed, by decide +kernel⟩⟩

end Transclusion

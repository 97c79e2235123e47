/-
Vapor/Proofs/Allocation/Interval.lean

The interval of a variable is the hull of its occurrences: it begins and ends at
one, and all of them lie in it (`Liveness.interval?_spec`).  The list of intervals
has one for each variable that occurs, in the order of their starts
(`mem_intervals`, `nodup_intervals`, `pairwise_intervals`).  In a function that has
been read, the variables that occur are those that its instructions mention.
-/
import Mathlib.Data.Prod.Lex
import Mathlib.Data.String.Basic
import Vapor.Allocation.Interval
import Vapor.Proofs.Liveness.Exact
import Vapor.Proofs.Sorting

namespace Vapor

/-! ### The order of intervals -/

namespace Interval

/-- What intervals are sorted by: where they start, then where they end, then their names. -/
def key (a : Interval) : Nat ×ₗ Nat ×ₗ String :=
  toLex (a.start, toLex (a.stop, a.name))

theorem le_iff (a b : Interval) : le a b = true ↔ Order.Preimage key (· ≤ ·) a b := by
  simp [le, key, Order.Preimage, Prod.Lex.toLex_le_toLex]

theorem start_le_of_key_le {a b : Interval} (h : a.key ≤ b.key) : a.start ≤ b.start :=
  Prod.Lex.monotone_fst _ _ h

theorem name_eq_of_key_eq {a b : Interval} (h : a.key = b.key) : a.name = b.name :=
  congrArg (fun k => (ofLex (ofLex k).2).2) h

/-- The index lies in the interval. -/
def Covers (a : Interval) (i : Nat) : Prop :=
  a.start ≤ i ∧ i ≤ a.stop

/-- Two intervals share an index. -/
def Overlaps (a b : Interval) : Prop :=
  ∃ i, a.Covers i ∧ b.Covers i

end Interval

namespace Liveness

variable {live : Liveness} {x : String}

/-! ### Occurrences -/

theorem Row.has_iff {row : Row} : row.has x = true ↔ x ∈ row.liveIn ∨ x ∈ row.defs := by
  simp [Row.has]

theorem mem_occurrences {i : Nat} :
    i ∈ live.occurrences x ↔ ∃ row, live.rows[i]? = some row ∧ (x ∈ row.liveIn ∨ x ∈ row.defs) := by
  simp only [occurrences, List.mem_map, List.mem_filter, Row.has_iff]
  constructor
  · rintro ⟨⟨row, j⟩, ⟨hmem, hx⟩, rfl⟩
    exact ⟨row, (List.mem_zipIdx_iff_getElem? ..).mp hmem, hx⟩
  · rintro ⟨row, hrow, hx⟩
    exact ⟨(row, i), ⟨(List.mem_zipIdx_iff_getElem? ..).mpr hrow, hx⟩, rfl⟩

theorem pairwise_occurrences (live : Liveness) (x : String) :
    (live.occurrences x).Pairwise (· < ·) := by
  refine List.Pairwise.sublist (List.filter_sublist.map Prod.snd) ?_
  rw [List.zipIdx_map_snd]
  exact List.pairwise_lt_range'

theorem mem_names : x ∈ live.names ↔ ∃ i, i ∈ live.occurrences x := by
  simp only [names, Names.mem_ofList, List.mem_flatMap, mem_occurrences, List.mem_append]
  constructor
  · rintro ⟨row, hrow, hx⟩
    obtain ⟨i, hi⟩ := List.mem_iff_getElem?.mp hrow
    exact ⟨i, row, hi, hx⟩
  · rintro ⟨i, row, hi, hx⟩
    exact ⟨row, List.mem_of_getElem? hi, hx⟩

/-! ### Hulls -/

/-- The last element of an increasing list is its greatest. -/
theorem le_getLastD {first : Nat} {rest : List Nat} (h : (first :: rest).Pairwise (· < ·)) :
    rest.getLastD first ∈ first :: rest ∧ ∀ i ∈ first :: rest, i ≤ rest.getLastD first := by
  induction rest generalizing first with
  | nil => simp
  | cons second rest ih =>
    rw [List.pairwise_cons] at h
    obtain ⟨hmem, hle⟩ := ih h.2
    rw [List.getLastD_cons]
    refine ⟨List.mem_cons_of_mem _ hmem, fun i hi => ?_⟩
    rcases List.mem_cons.mp hi with rfl | hi
    · exact Nat.le_of_lt (h.1 _ hmem)
    · exact hle i hi

/-- **An interval is a hull.** -/
theorem interval?_spec {a : Interval} (h : live.interval? x = some a) :
    a.name = x ∧ a.crossesCall = live.crossesCall x ∧ a.start ∈ live.occurrences x ∧
      a.stop ∈ live.occurrences x ∧ ∀ i ∈ live.occurrences x, a.Covers i := by
  have hsorted := pairwise_occurrences live x
  unfold interval? at h
  split at h
  · cases h
  · rename_i first rest hocc
    obtain rfl := Option.some.inj h
    rw [hocc] at hsorted ⊢
    obtain ⟨hmem, hle⟩ := le_getLastD hsorted
    refine ⟨rfl, rfl, List.mem_cons_self, hmem, fun i hi => ⟨?_, hle i hi⟩⟩
    rcases List.mem_cons.mp hi with rfl | hi
    · exact Nat.le_refl _
    · exact Nat.le_of_lt ((List.pairwise_cons.mp hsorted).1 i hi)

theorem interval?_isSome {i : Nat} (h : i ∈ live.occurrences x) :
    ∃ a, live.interval? x = some a := by
  unfold interval?
  split
  · rename_i hocc
    rw [hocc] at h
    cases h
  · exact ⟨_, rfl⟩

/-! ### The list of intervals -/

theorem intervals_eq (live : Liveness) :
    live.intervals = (live.names.filterMap live.interval?).insertionSort
      (Order.Preimage Interval.key (· ≤ ·)) :=
  Sorted.sort_eq Interval.le_iff _

theorem mem_intervals {a : Interval} :
    a ∈ live.intervals ↔ live.interval? a.name = some a := by
  rw [intervals_eq, List.mem_insertionSort, List.mem_filterMap]
  constructor
  · rintro ⟨x, -, hx⟩
    rwa [(interval?_spec hx).1]
  · intro h
    exact ⟨a.name, mem_names.mpr ⟨_, (interval?_spec h).2.2.1⟩, h⟩

/-- No variable has two intervals. -/
theorem nodup_intervals (live : Liveness) : (live.intervals.map Interval.name).Nodup := by
  have hperm : live.intervals.Perm (live.names.filterMap live.interval?) := by
    rw [intervals_eq]
    exact List.perm_insertionSort _ _
  refine (hperm.map Interval.name).nodup_iff.mpr ?_
  -- taking the intervals of variables keeps the variables' order, at most leaving some out
  have hsub : ∀ xs : List String,
      ((xs.filterMap live.interval?).map Interval.name).Sublist xs := by
    intro xs
    induction xs with
    | nil => exact .slnil
    | cons x xs ih =>
      rcases hx : live.interval? x with - | a
      · rw [List.filterMap_cons_none hx]
        exact ih.cons x
      · rw [List.filterMap_cons_some hx, List.map_cons, (interval?_spec hx).1]
        exact ih.cons_cons x
  exact (Names.sorted_ofList _).nodup.sublist (hsub _)

theorem pairwise_key (live : Liveness) :
    live.intervals.Pairwise (Order.Preimage Interval.key (· ≤ ·)) := by
  rw [intervals_eq]
  exact List.pairwise_insertionSort _ _

/-- Intervals are listed in the order of their starts. -/
theorem pairwise_intervals (live : Liveness) :
    live.intervals.Pairwise fun a b => a.start ≤ b.start :=
  live.pairwise_key.imp Interval.start_le_of_key_le

end Liveness

/-! ### Variables of a function -/

namespace Function

variable {α : Type} {fn : Function α} {live : Liveness}

/-- Some instruction reads or writes the variable. -/
def Mentions (fn : Function α) (x : String) : Prop :=
  ∃ instr ∈ fn.body, x ∈ instr.uses ∨ x ∈ instr.defs

theorem mentions_iff {x : String} : fn.Mentions x ↔ ∃ i, x ∈ fn.usesAt i ∨ x ∈ fn.defsAt i := by
  constructor
  · rintro ⟨instr, hmem, hx⟩
    obtain ⟨i, hi⟩ := List.mem_iff_getElem?.mp hmem
    exact ⟨i, by rwa [usesAt_eq hi, defsAt_eq hi]⟩
  · rintro ⟨i, hx⟩
    rcases hi : fn.body[i]? with - | instr
    · simp [usesAt, defsAt, hi] at hx
    · rw [usesAt_eq hi, defsAt_eq hi] at hx
      exact ⟨instr, List.mem_of_getElem? hi, hx⟩

/-- A variable occurs at an instruction if it is live before it or written by it. -/
theorem mem_occurrences_iff (hwf : fn.WellFormed) (h : fn.liveness = .ok live) {x : String}
    {i : Nat} : i ∈ live.occurrences x ↔ x ∈ live.liveIn i ∨ x ∈ fn.defsAt i := by
  rw [Liveness.mem_occurrences, getElem?_rows hwf h]
  rcases hi : fn.body[i]? with - | instr
  · have hnone : live.rows[i]? = none := by rw [getElem?_rows hwf h, hi]; rfl
    simp [Liveness.liveIn, hnone, defsAt, hi]
  · rw [defsAt_eq hi]
    simp

/-- The variables that occur are those that instructions mention. -/
theorem exists_occurrence_iff (hwf : fn.WellFormed) (h : fn.liveness = .ok live) {x : String} :
    (∃ i, i ∈ live.occurrences x) ↔ fn.Mentions x := by
  simp only [mem_occurrences_iff hwf h]
  rw [mentions_iff]
  constructor
  · rintro ⟨i, hx | hx⟩
    · -- a variable that is live is read somewhere
      obtain ⟨path, k, -, hread, -⟩ := (mem_liveIn_iff hwf h).mp hx
      exact ⟨path k, .inl hread⟩
    · exact ⟨i, .inr hx⟩
  · rintro ⟨i, hx | hx⟩
    · exact ⟨i, .inl (((flowSolution hwf h).ins_iff i x).mpr (.inl hx))⟩
    · exact ⟨i, .inr hx⟩

/-- The variables that have an interval are those that instructions mention. -/
theorem mem_names_intervals (hwf : fn.WellFormed) (h : fn.liveness = .ok live) {x : String} :
    x ∈ live.intervals.map Interval.name ↔ fn.Mentions x := by
  rw [← exists_occurrence_iff hwf h, List.mem_map]
  constructor
  · rintro ⟨a, ha, rfl⟩
    exact ⟨_, (Liveness.interval?_spec (Liveness.mem_intervals.mp ha)).2.2.1⟩
  · rintro ⟨i, hi⟩
    obtain ⟨a, ha⟩ := Liveness.interval?_isSome hi
    obtain rfl := (Liveness.interval?_spec ha).1
    exact ⟨a, Liveness.mem_intervals.mpr ha, rfl⟩

end Function

end Vapor

/-
Vapor/Proofs/Allocation/Hulls.lean

The intervals of a function that has been read, in terms of its liveness (`intervals_exact`).  The
variables that have one are those that some instruction mentions.  An interval begins and ends with
the first and the last instruction that the variable is live before or that writes it, and also
covers those that it is live after: such an instruction writes the variable or, by the equations of
liveness, has it live before.  No two intervals are equal in the order in which they are listed.
-/
import Mathlib.Order.Bounds.Basic
import Vapor.Proofs.Enumeration

namespace Vapor

namespace Interval

/-- One interval stands before another: it starts earlier, or ends earlier, or has the lesser
name. -/
def Before (a b : Interval) : Prop :=
  a.start < b.start ∨ a.start = b.start ∧ (a.stop < b.stop ∨ a.stop = b.stop ∧ a.name < b.name)

/-- Intervals of different variables in their order stand one before the other. -/
theorem before_of_key_le {a b : Interval} (hle : a.key ≤ b.key) (hne : a.name ≠ b.name) :
    a.Before b := by
  simp only [key, Prod.Lex.toLex_le_toLex] at hle
  rcases hle with hstart | ⟨hstart, hstop | ⟨hstop, hname⟩⟩
  · exact .inl hstart
  · exact .inr ⟨hstart, .inl hstop⟩
  · exact .inr ⟨hstart, .inr ⟨hstop, lt_of_le_of_ne hname hne⟩⟩

end Interval

/-- The intervals are listed in a strict order. -/
theorem Liveness.pairwise_before (live : Liveness) : live.intervals.Pairwise Interval.Before := by
  have hnames : live.intervals.Pairwise fun a b => a.name ≠ b.name :=
    List.pairwise_map.mp live.nodup_intervals
  exact (live.pairwise_key.and hnames).imp fun h => Interval.before_of_key_le h.1 h.2

namespace Function

variable {α : Type} {fn : Function α} {live : Liveness} {x : String}

/-! ### Calls -/

theorem mem_callIndices {c : Nat} :
    c ∈ fn.callIndices ↔ ∃ instr, fn.body[c]? = some instr ∧ instr.isCall = true := by
  simp only [callIndices, List.mem_map, List.mem_filter]
  constructor
  · rintro ⟨⟨instr, i⟩, ⟨hmem, hcall⟩, rfl⟩
    exact ⟨instr, (List.mem_zipIdx_iff_getElem? ..).mp hmem, hcall⟩
  · rintro ⟨instr, hc, hcall⟩
    exact ⟨(instr, c), ⟨(List.mem_zipIdx_iff_getElem? ..).mpr hc, hcall⟩, rfl⟩

/-- The variable is live after some call that does not write it. -/
def OutlivesCall (fn : Function α) (live : Liveness) (x : String) : Prop :=
  ∃ c instr, fn.body[c]? = some instr ∧ instr.isCall = true ∧
    x ∈ live.liveOut c ∧ x ∉ fn.defsAt c

theorem crossesCall_iff (hwf : fn.WellFormed) (h : fn.liveness = .ok live) :
    live.crossesCall x = true ↔ fn.OutlivesCall live x := by
  have hcalls : live.calls = fn.callIndices := by
    obtain ⟨nodes, -, rfl⟩ := liveness_eq_ok h
    rfl
  rw [Liveness.crossesCall, hcalls, List.any_eq_true]
  simp only [List.contains_iff_mem]
  constructor
  · rintro ⟨c, hc, hx⟩
    obtain ⟨instr, hinstr, hcall⟩ := mem_callIndices.mp hc
    rw [mem_across hwf h hinstr, ne_eq, ← Instr.mem_defs, ← defsAt_eq hinstr] at hx
    exact ⟨c, instr, hinstr, hcall, hx⟩
  · rintro ⟨c, instr, hinstr, hcall, hx⟩
    refine ⟨c, mem_callIndices.mpr ⟨instr, hinstr, hcall⟩, ?_⟩
    rwa [mem_across hwf h hinstr, ne_eq, ← Instr.mem_defs, ← defsAt_eq hinstr]

/-! ### Hulls -/

/-- The instructions at which a variable occurs: it is live before them, or they write it. -/
def occursAt (fn : Function α) (live : Liveness) (x : String) : Set Nat :=
  {i | x ∈ live.liveIn i ∨ x ∈ fn.defsAt i}

/-- A variable that is live after an instruction occurs at it. -/
theorem occursAt_of_liveOut (hwf : fn.WellFormed) (h : fn.liveness = .ok live) {i : Nat}
    (hx : x ∈ live.liveOut i) : i ∈ fn.occursAt live x := by
  -- what is live after an instruction that does not write it is live before
  by_cases hdef : x ∈ fn.defsAt i
  · exact .inr hdef
  · exact .inl (((flowSolution hwf h).ins_iff i x).mpr (.inr ⟨hx, hdef⟩))

/-- An interval says of its variable exactly where it occurs first and last, and whether it
survives a call. -/
structure Delimits (fn : Function α) (live : Liveness) (a : Interval) : Prop where
  start : IsLeast (fn.occursAt live a.name) a.start
  stop : IsGreatest (fn.occursAt live a.name) a.stop
  liveOut : ∀ i, a.name ∈ live.liveOut i → a.Covers i
  crossesCall : a.crossesCall = true ↔ fn.OutlivesCall live a.name

theorem delimits_of_mem (hwf : fn.WellFormed) (h : fn.liveness = .ok live) {a : Interval}
    (ha : a ∈ live.intervals) : fn.Delimits live a := by
  obtain ⟨-, hcross, hstart, hstop, hcovers⟩ :=
    Liveness.interval?_spec (Liveness.mem_intervals.mp ha)
  have hoccurs {i : Nat} : i ∈ live.occurrences a.name ↔ i ∈ fn.occursAt live a.name :=
    mem_occurrences_iff hwf h
  refine ⟨⟨hoccurs.mp hstart, fun i hi => ?_⟩, ⟨hoccurs.mp hstop, fun i hi => ?_⟩,
    fun i hi => ?_, ?_⟩
  · exact (hcovers i (hoccurs.mpr hi)).1
  · exact (hcovers i (hoccurs.mpr hi)).2
  · exact hcovers i (hoccurs.mpr (occursAt_of_liveOut hwf h hi))
  · rw [hcross, crossesCall_iff hwf h]

/-- **Intervals are exact.**  In whatever order the variables of a function are met, there is one
interval for each variable that is mentioned and for no other; each interval delimits the
occurrences of its variable; and no two of them are equal in their order. -/
theorem intervals_exact {tokens : List Token} {p : Program Span} (hparse : parse tokens = .ok p)
    {fn : Function Span} (hfn : fn ∈ p.functions) {live : Liveness}
    (hlive : fn.liveness = .ok live) :
    (∀ e : Enumeration, fn.intervalsBy e live = live.intervals) ∧
      (live.intervals.map Interval.name).Nodup ∧
      (∀ x, x ∈ live.intervals.map Interval.name ↔ fn.Mentions x) ∧
      (∀ a ∈ live.intervals, fn.Delimits live a) ∧
      live.intervals.Pairwise Interval.Before := by
  have hwf := parse_wellFormed hparse fn hfn
  refine ⟨fun e => intervalsBy_eq e fn live, live.nodup_intervals, fun x => ?_, fun a ha => ?_,
    live.pairwise_before⟩
  · exact mem_names_intervals hwf hlive
  · exact delimits_of_mem hwf hlive ha

theorem intervals_exact_sample :
    ∃ live, Sample.function.liveness = .ok live ∧
      live.intervals = [⟨"b", 0, 3, true⟩, ⟨"c", 0, 3, true⟩, ⟨"d", 0, 3, true⟩, ⟨"n", 0, 3, true⟩,
        ⟨"a", 0, 4, false⟩] ∧
      (∀ x, x ∈ live.intervals.map Interval.name ↔ Sample.function.Mentions x) ∧
      (∀ a ∈ live.intervals, Sample.function.Delimits live a) ∧
      live.intervals.Pairwise Interval.Before := by
  obtain ⟨live, hlive, hintervals⟩ : ∃ live, Sample.function.liveness = .ok live ∧
      live.intervals = [⟨"b", 0, 3, true⟩, ⟨"c", 0, 3, true⟩, ⟨"d", 0, 3, true⟩,
        ⟨"n", 0, 3, true⟩, ⟨"a", 0, 4, false⟩] :=
    ⟨_, rfl, by decide +kernel⟩
  obtain ⟨-, -, hnames, hdelimits, hbefore⟩ :=
    intervals_exact Sample.parse_tokens Sample.mem_functions hlive
  exact ⟨live, hlive, hintervals, hnames, hdelimits, hbefore⟩

end Function

end Vapor

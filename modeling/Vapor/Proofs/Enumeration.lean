/-
Vapor/Proofs/Enumeration.lean

Sets have no order of their own, but whoever goes through one meets its members
in some order.  Here the analysis, the allocation and the emission of a function
are done once more by going through sets: the variables that occur at an
instruction, those that survive a call, and the registers collected from them.
An `Enumeration` fixes the order in which the members come, and may choose another
one each time; `Enumeration.reversed` takes every set from its end.

Whatever it chooses, the intervals, the places, the registers kept, the frame and
the lines are those of the definitions that know of no such order
(`enumeration_irrelevant`).  Two facts are behind this.  The bounds of a variable
are the hull of its occurrences, in whatever order these are met (`Bounds.Hull`).
And everything collected from a set is sorted before it is used, by a key that
different members never share (`Sorted.sort_eq_of_perm`).
-/
import Mathlib.Data.List.Dedup
import Mathlib.Data.String.Basic
import Vapor.Emission.Program
import Vapor.Proofs.Allocation.Interval
import Vapor.Proofs.Emission.Simulation

namespace Vapor

/-! ### Enumerations -/

/-- The occasions on which a set is gone through. -/
inductive Moment where
  /-- The variables that occur at an instruction give bounds. -/
  | occurrence (index : Nat)
  /-- The registers kept across a call are counted for the frame. -/
  | frame (index : Nat)
  /-- The registers kept across a call are saved and restored. -/
  | call (index : Nat)
  /-- Places are checked and listed. -/
  | places
deriving DecidableEq, Repr

/-- An order for the members of each set on each occasion. -/
structure Enumeration where
  names : Moment → List String → List String
  registers : Moment → List Register → List Register
  names_perm (t : Moment) (s : List String) : (names t s).Perm s
  registers_perm (t : Moment) (s : List Register) : (registers t s).Perm s

namespace Enumeration

/-- Every set from its last member to its first. -/
def reversed : Enumeration where
  names _ s := s.reverse
  registers _ s := s.reverse
  names_perm _ s := s.reverse_perm
  registers_perm _ s := s.reverse_perm

@[simp] theorem mem_names (e : Enumeration) {t : Moment} {s : List String} {x : String} :
    x ∈ e.names t s ↔ x ∈ s :=
  (e.names_perm t s).mem_iff

/-- A set of registers, gone through in some order and sorted by a key that
determines a register, is the sorted list with the same members. -/
theorem sort_registers (e : Enumeration) (t : Moment) {κ : Type} [LinearOrder κ]
    (key : Register → κ) {le : Register → Register → Bool}
    (hle : ∀ a b, le a b = true ↔ Order.Preimage key (· ≤ ·) a b)
    (hkey : ∀ a b, key a = key b → a = b) {set sorted : List Register} (hset : set.Nodup)
    (hnodup : sorted.Nodup) (hsorted : sorted.Pairwise fun a b => key a ≤ key b)
    (h : ∀ r, r ∈ set ↔ r ∈ sorted) : Sorted.sort le (e.registers t set) = sorted := by
  have hperm : set.Perm sorted := (List.perm_ext_iff_of_nodup hset hnodup).mpr h
  apply Sorted.sort_eq_of_perm hle
  · intro a _ b _
    exact hkey a b
  · exact hsorted
  · exact (e.registers_perm t set).trans hperm

end Enumeration

/-! ### Bounds -/

/-- The first and the last index met so far for each variable, in the order in
which the variables were met. -/
abbrev Bounds := List (String × Nat × Nat)

namespace Bounds

/-- Meets a variable at an index. -/
def touch (index : Nat) : Bounds → String → Bounds
  | [], x => [(x, index, index)]
  | (y, first, last) :: b, x =>
    if y = x then (y, min first index, max last index) :: b
    else (y, first, last) :: touch index b x

/-- The bounds are the hulls of the indices met: no variable has two bounds, every
variable met has some, and they are indices met with all others between them. -/
structure Hull (b : Bounds) (met : String → Nat → Prop) : Prop where
  nodup : (b.map Prod.fst).Nodup
  found : ∀ {x i}, met x i → x ∈ b.map Prod.fst
  first : ∀ {x lo hi}, (x, lo, hi) ∈ b → met x lo
  last : ∀ {x lo hi}, (x, lo, hi) ∈ b → met x hi
  between : ∀ {x lo hi i}, (x, lo, hi) ∈ b → met x i → lo ≤ i ∧ i ≤ hi

variable {b : Bounds} {met : String → Nat → Prop} {index : Nat} {x : String}

theorem map_fst_touch : ∀ (b : Bounds) (x : String),
    (touch index b x).map Prod.fst =
      if x ∈ b.map Prod.fst then b.map Prod.fst else b.map Prod.fst ++ [x]
  | [], x => rfl
  | (y, first, last) :: b, x => by
    rw [touch]
    by_cases hyx : y = x
    · simp [hyx]
    · rw [if_neg hyx, List.map_cons, map_fst_touch b x]
      by_cases hx : x ∈ b.map Prod.fst
      · simp [hx]
      · simp [hx, Ne.symm hyx]

/-- What the bounds are after a variable has been met. -/
theorem mem_touch (hb : (b.map Prod.fst).Nodup) {y : String} {lo hi : Nat}
    (h : (y, lo, hi) ∈ touch index b x) :
    y ≠ x ∧ (y, lo, hi) ∈ b ∨
      y = x ∧ (x ∉ b.map Prod.fst ∧ lo = index ∧ hi = index ∨
        ∃ lo' hi', (x, lo', hi') ∈ b ∧ lo = min lo' index ∧ hi = max hi' index) := by
  induction b with
  | nil =>
    rw [touch, List.mem_singleton] at h
    obtain ⟨rfl, rfl, rfl⟩ : y = x ∧ lo = index ∧ hi = index := by simpa using h
    exact .inr ⟨rfl, .inl ⟨List.not_mem_nil, rfl, rfl⟩⟩
  | cons entry b ih =>
    obtain ⟨z, first, last⟩ := entry
    rw [List.map_cons, List.nodup_cons] at hb
    rw [touch] at h
    split at h
    · rename_i hzx
      subst hzx
      rcases List.mem_cons.mp h with heq | hmem
      · obtain ⟨rfl, rfl, rfl⟩ : y = z ∧ lo = min first index ∧ hi = max last index := by
          simpa using heq
        exact .inr ⟨rfl, .inr ⟨first, last, List.mem_cons_self, rfl, rfl⟩⟩
      · have hy : y ∈ b.map Prod.fst := List.mem_map_of_mem hmem
        exact .inl ⟨fun heq => hb.1 (heq ▸ hy), List.mem_cons_of_mem _ hmem⟩
    · rename_i hzx
      rcases List.mem_cons.mp h with heq | h
      · obtain ⟨rfl, rfl, rfl⟩ : y = z ∧ lo = first ∧ hi = last := by simpa using heq
        exact .inl ⟨hzx, List.mem_cons_self⟩
      · rcases ih hb.2 h with ⟨hne, hmem⟩ | ⟨rfl, ⟨hnew, hlo, hhi⟩ | ⟨lo', hi', hmem, hlo, hhi⟩⟩
        · exact .inl ⟨hne, List.mem_cons_of_mem _ hmem⟩
        · refine .inr ⟨rfl, .inl ⟨?_, hlo, hhi⟩⟩
          rw [List.map_cons, List.mem_cons, not_or]
          exact ⟨Ne.symm hzx, hnew⟩
        · exact .inr ⟨rfl, .inr ⟨lo', hi', List.mem_cons_of_mem _ hmem, hlo, hhi⟩⟩

theorem hull_nil : Hull [] fun _ _ => False where
  nodup := List.nodup_nil
  found := False.elim
  first h := absurd h List.not_mem_nil
  last h := absurd h List.not_mem_nil
  between h := absurd h List.not_mem_nil

theorem Hull.congr {met' : String → Nat → Prop} (h : Hull b met)
    (heq : ∀ x i, met x i ↔ met' x i) : Hull b met' := by
  have hmet : met = met' := by
    funext x i
    exact propext (heq x i)
  exact hmet ▸ h

/-- **Meeting a variable keeps the bounds hulls.** -/
theorem Hull.touch (h : Hull b met) (index : Nat) (x : String) :
    Hull (touch index b x) fun y i => met y i ∨ y = x ∧ i = index where
  nodup := by
    rw [map_fst_touch]
    split
    · exact h.nodup
    · rename_i hx
      rw [List.nodup_append]
      refine ⟨h.nodup, List.nodup_singleton x, fun y hy z hz => ?_⟩
      rw [List.mem_singleton.mp hz]
      rintro rfl
      exact hx hy
  found := by
    intro y i hy
    rw [map_fst_touch]
    split
    · rename_i hx
      rcases hy with hy | ⟨rfl, -⟩
      · exact h.found hy
      · exact hx
    · rcases hy with hy | ⟨rfl, -⟩
      · exact List.mem_append_left _ (h.found hy)
      · exact List.mem_append_right _ (List.mem_singleton_self y)
  first := by
    intro y lo hi hmem
    rcases mem_touch h.nodup hmem with ⟨-, hy⟩ | ⟨rfl, ⟨-, rfl, rfl⟩ | ⟨lo', hi', hx, rfl, rfl⟩⟩
    · exact .inl (h.first hy)
    · exact .inr ⟨rfl, rfl⟩
    · rcases Nat.le_total lo' index with hle | hle
      · rw [Nat.min_eq_left hle]
        exact .inl (h.first hx)
      · exact .inr ⟨rfl, Nat.min_eq_right hle⟩
  last := by
    intro y lo hi hmem
    rcases mem_touch h.nodup hmem with ⟨-, hy⟩ | ⟨rfl, ⟨-, rfl, rfl⟩ | ⟨lo', hi', hx, rfl, rfl⟩⟩
    · exact .inl (h.last hy)
    · exact .inr ⟨rfl, rfl⟩
    · rcases Nat.le_total hi' index with hle | hle
      · exact .inr ⟨rfl, Nat.max_eq_right hle⟩
      · rw [Nat.max_eq_left hle]
        exact .inl (h.last hx)
  between := by
    intro y lo hi i hmem hmet
    rcases mem_touch h.nodup hmem with ⟨hne, hy⟩ | ⟨rfl, ⟨hnew, rfl, rfl⟩ | ⟨lo', hi', hx, rfl, rfl⟩⟩
    · exact h.between hy (hmet.resolve_right fun heq => hne heq.1)
    · rcases hmet with hmet | ⟨-, rfl⟩
      · exact absurd (h.found hmet) hnew
      · exact ⟨Nat.le_refl _, Nat.le_refl _⟩
    · rcases hmet with hmet | ⟨-, rfl⟩
      · have hle := h.between hx hmet
        omega
      · omega

/-- Bounds stay hulls along a list, if they do so at each member. -/
theorem Hull.foldl {γ : Type} {f : Bounds → γ → Bounds} {meets : γ → String → Nat → Prop}
    (hf : ∀ {b met}, Hull b met → ∀ c, Hull (f b c) fun y i => met y i ∨ meets c y i)
    (cs : List γ) (h : Hull b met) :
    Hull (cs.foldl f b) fun y i => met y i ∨ ∃ c ∈ cs, meets c y i := by
  induction cs generalizing b met with
  | nil => simpa using h
  | cons c cs ih => simpa [or_assoc] using ih (hf h c)

end Bounds

/-! ### Intervals -/

section Intervals

variable {α : Type}

/-- The variables that occur at an instruction. -/
def Liveness.Row.occurring (row : Liveness.Row) : Names :=
  Names.union row.liveIn row.defs

/-- The bounds of all variables: parameters that are live on entry are met at the
first instruction, then each variable wherever it occurs. -/
def Function.bounds (e : Enumeration) (fn : Function α) (live : Liveness) : Bounds :=
  let entered := (fn.params.map Ref.name).filter fun x => live.entry.contains x
  live.rows.zipIdx.foldl
    (fun b r => (e.names (.occurrence r.2) r.1.occurring).foldl (Bounds.touch r.2) b)
    (entered.foldl (Bounds.touch 0) [])

/-- The interval of a variable with the given bounds. -/
def Liveness.intervalOf (live : Liveness) (bound : String × Nat × Nat) : Interval :=
  ⟨bound.1, bound.2.1, bound.2.2, live.crossesCall bound.1⟩

/-- The intervals of all variables, in order, from their bounds. -/
def Function.intervalsBy (e : Enumeration) (fn : Function α) (live : Liveness) : List Interval :=
  Sorted.sort Interval.le ((fn.bounds e live).map live.intervalOf)

/-- A parameter that is live on entry occurs at the first instruction. -/
theorem Liveness.zero_mem_occurrences {live : Liveness} {x : String} (h : x ∈ live.entry) :
    0 ∈ live.occurrences x := by
  rw [mem_occurrences]
  rcases hrows : live.rows with - | ⟨row, rows⟩
  · simp [entry, hrows] at h
  · have hx : x ∈ row.liveIn := by simpa [entry, hrows] using h
    exact ⟨row, rfl, .inl hx⟩

/-- **The bounds are the hulls of the occurrences**, in whatever order these are
met. -/
theorem Function.hull_bounds (e : Enumeration) (fn : Function α) (live : Liveness) :
    Bounds.Hull (fn.bounds e live) fun x i => i ∈ live.occurrences x := by
  have hentered := Bounds.hull_nil.foldl (fun h => h.touch 0)
    ((fn.params.map Ref.name).filter fun x => live.entry.contains x)
  have hrows := hentered.foldl (f := fun b (r : Liveness.Row × Nat) =>
      (e.names (.occurrence r.2) r.1.occurring).foldl (Bounds.touch r.2) b)
    (fun h r => h.foldl (fun h => h.touch r.2) _) live.rows.zipIdx
  apply hrows.congr
  intro x i
  constructor
  · rintro ((h | ⟨c, hc, rfl, rfl⟩) | ⟨⟨row, j⟩, hr, c, hc, rfl, rfl⟩)
    · exact h.elim
    · -- a parameter adds nothing: it occurs at the first instruction anyway
      have hentry := (List.mem_filter.mp hc).2
      exact Liveness.zero_mem_occurrences (by simpa using hentry)
    · rw [e.mem_names, Liveness.Row.occurring, Names.mem_union] at hc
      exact Liveness.mem_occurrences.mpr ⟨row, (List.mem_zipIdx_iff_getElem? ..).mp hr, hc⟩
  · intro h
    obtain ⟨row, hrow, hx⟩ := Liveness.mem_occurrences.mp h
    refine .inr ⟨(row, i), (List.mem_zipIdx_iff_getElem? ..).mpr hrow, x, ?_, rfl, rfl⟩
    rwa [e.mem_names, Liveness.Row.occurring, Names.mem_union]

/-- The interval of a variable is the one with its bounds: two hulls of the same
occurrences begin and end at the same indices. -/
theorem Liveness.interval?_of_hull {live : Liveness} {b : Bounds}
    (h : b.Hull fun x i => i ∈ live.occurrences x) {bound : String × Nat × Nat}
    (hmem : bound ∈ b) : live.interval? bound.1 = some (live.intervalOf bound) := by
  obtain ⟨x, lo, hi⟩ := bound
  obtain ⟨⟨name, start, stop, crosses⟩, hint⟩ := interval?_isSome (h.first hmem)
  obtain ⟨hname, hcross, hstart, hstop, hcovers⟩ := interval?_spec hint
  obtain rfl : start = lo := Nat.le_antisymm (hcovers lo (h.first hmem)).1 (h.between hmem hstart).1
  obtain rfl : stop = hi := Nat.le_antisymm (h.between hmem hstop).2 (hcovers hi (h.last hmem)).2
  obtain rfl : name = x := hname
  obtain rfl : crosses = live.crossesCall name := hcross
  exact hint

/-- **Intervals do not depend on the enumeration.** -/
theorem Function.intervalsBy_eq (e : Enumeration) (fn : Function α) (live : Liveness) :
    fn.intervalsBy e live = live.intervals := by
  have hhull := fn.hull_bounds e live
  have hnodup : ((fn.bounds e live).map live.intervalOf).Nodup := by
    apply List.Nodup.of_map Interval.name
    rw [List.map_map]
    exact hhull.nodup
  have hperm : ((fn.bounds e live).map live.intervalOf).Perm live.intervals := by
    rw [List.perm_ext_iff_of_nodup hnodup (live.nodup_intervals.of_map Interval.name)]
    intro a
    rw [Liveness.mem_intervals, List.mem_map]
    constructor
    · rintro ⟨bound, hmem, rfl⟩
      exact Liveness.interval?_of_hull hhull hmem
    · intro ha
      obtain ⟨bound, hmem, hname⟩ :=
        List.mem_map.mp (hhull.found (Liveness.interval?_spec ha).2.2.1)
      rw [← hname, Liveness.interval?_of_hull hhull hmem] at ha
      exact ⟨bound, hmem, Option.some.inj ha⟩
  refine Sorted.sort_eq_of_perm Interval.le_iff ?_ live.pairwise_key hperm
  -- intervals of the list with the same name are the same
  intro a ha b hb hkey
  rw [Liveness.mem_intervals] at ha hb
  rw [Interval.name_eq_of_key_eq hkey, hb] at ha
  exact (Option.some.inj ha).symm

end Intervals

/-! ### Places -/

namespace Allocation

/-- The set of the callee-saved registers among some places. -/
def calleeSavedSet (registers : List (String × Register)) : List Register :=
  ((registers.map Prod.snd).filter Register.isCalleeSaved).dedup

/-- The callee-saved registers among some places, in their order, from the set. -/
def calleeSavedInBy (e : Enumeration) (registers : List (String × Register)) : List Register :=
  Sorted.sort (fun a b => a.order <= b.order) (e.registers .places (calleeSavedSet registers))

/-- The least name of a set. -/
def leastBy? (e : Enumeration) (names : List String) : Option String :=
  (Sorted.sort (fun a b => a <= b) (e.names .places names)).head?

/-- Checks an assignment of places. -/
def ofPlacesBy (e : Enumeration) (registers : List (String × Register))
    (slots : List (String × Int)) : Except PlacementError Allocation :=
  let slotted := slots.map Prod.fst
  match leastBy? e ((registers.map Prod.fst).filter fun x => slotted.contains x) with
  | some name => .error (.twice name)
  | none =>
    match registers.find? fun x => !x.2.isAllocatable with
    | some (name, r) => .error (.reserved name r)
    | none =>
      match slots.find? fun x => x.2 < ((calleeSavedInBy e registers).length : Int) with
      | some (name, offset) => .error (.overlapping name offset)
      | none => .ok ⟨registers, slots.map fun x => (x.1, x.2.toNat)⟩

/-- The callee-saved registers in use. -/
def calleeSavedBy (e : Enumeration) (m : Allocation) : List Register :=
  calleeSavedInBy e m.registers

/-- The number of local slots for callee-saved registers and variables. -/
def slotCountBy (e : Enumeration) (m : Allocation) : Nat :=
  m.slots.foldl (fun size x => max size (x.2 + 1)) (m.calleeSavedBy e).length

/-- The caller-saved registers that survivors of the instruction live in, collected
in a set and sorted by name. -/
def keptAcrossBy (e : Enumeration) (t : Moment) (m : Allocation) (live : Liveness) (index : Nat) :
    List Register :=
  let set := ((e.names t (live.across index)).filterMap m.register?).filter Register.isCallerSaved
  Sorted.sort (fun a b => a.name <= b.name) (e.registers t set.dedup)

/-- **Callee-saved registers do not depend on the enumeration.** -/
theorem calleeSavedInBy_eq (e : Enumeration) (registers : List (String × Register)) :
    calleeSavedInBy e registers = calleeSavedIn registers := by
  apply e.sort_registers .places Register.order (fun a b => decide_eq_true_iff)
  · intro a b
    exact Register.order_injective
  · exact List.nodup_dedup _
  · exact nodup_calleeSavedIn registers
  · exact List.Pairwise.filter _ (by decide)
  · intro r
    rw [calleeSavedSet, List.mem_dedup, List.mem_filter, mem_calleeSavedIn, List.mem_map]
    simp [and_comm]

@[simp] theorem calleeSavedBy_eq (e : Enumeration) (m : Allocation) :
    m.calleeSavedBy e = m.calleeSaved :=
  calleeSavedInBy_eq e m.registers

@[simp] theorem slotCountBy_eq (e : Enumeration) (m : Allocation) :
    m.slotCountBy e = m.slotCount := by
  rw [slotCountBy, calleeSavedBy_eq, slotCount]

theorem leastBy?_eq (e : Enumeration) (names : List String) : leastBy? e names = least? names := by
  have hle : ∀ a b : String, decide (a ≤ b) = true ↔ Order.Preimage id (· ≤ ·) a b :=
    fun a b => decide_eq_true_iff
  rw [leastBy?, least?, Sorted.sort_eq hle names]
  congr 1
  apply Sorted.sort_eq_of_perm hle
  · exact fun a _ b _ => id
  · exact List.pairwise_insertionSort _ names
  · exact (e.names_perm .places names).trans (List.perm_insertionSort _ names).symm

theorem ofPlacesBy_eq (e : Enumeration) (registers : List (String × Register))
    (slots : List (String × Int)) : ofPlacesBy e registers slots = ofPlaces registers slots := by
  rw [ofPlacesBy, leastBy?_eq, calleeSavedInBy_eq]
  rfl

/-- **The registers kept across a call do not depend on the enumeration.** -/
theorem keptAcrossBy_eq (e : Enumeration) (t : Moment) (m : Allocation) (live : Liveness)
    (index : Nat) : m.keptAcrossBy e t live index = m.keptAcross live index := by
  rw [keptAcrossBy]
  apply e.sort_registers t Register.name (fun a b => decide_eq_true_iff)
  · intro a b
    exact Register.name_injective
  · exact List.nodup_dedup _
  · exact Emit.nodup_keptAcross m live index
  · exact List.Pairwise.filter _ (by decide +kernel)
  · intro r
    rw [Emit.mem_keptAcross, List.mem_dedup, List.mem_filter, List.mem_filterMap, and_comm]
    simp only [e.mem_names, location?_eq_register]

end Allocation

namespace Allocator

/-- Places for all variables. -/
def allocateBy {α : Type} (e : Enumeration) (a : Allocator) (fn : Function α) (live : Liveness) :
    Except PlacementError Allocation :=
  let s := a.scan (fn.intervalsBy e live)
  let base := (Allocation.calleeSavedSet s.placed).length
  Allocation.ofPlacesBy e s.placed (s.spilled.zipIdx base |>.map fun x => (x.1, (x.2 : Int)))

/-- **Places do not depend on the enumeration.** -/
theorem allocateBy_eq {α : Type} (e : Enumeration) (a : Allocator) (fn : Function α)
    (live : Liveness) : a.allocateBy e fn live = a.allocate live := by
  have hlength : ∀ registers : List (String × Register),
      (Allocation.calleeSavedSet registers).length = (Allocation.calleeSavedIn registers).length := by
    intro registers
    rw [← Allocation.calleeSavedInBy_eq e, Allocation.calleeSavedInBy,
      Sorted.sort_eq fun _ _ => Iff.rfl, List.length_insertionSort]
    exact (e.registers_perm .places _).length_eq.symm
  rw [allocateBy, allocate, Allocation.ofPlacesBy_eq, hlength, fn.intervalsBy_eq]

end Allocator

/-! ### Frames and lines -/

section Lines

variable {α : Type}

/-- The registers that must be kept across an instruction, if it is a call. -/
def Instr.keptBy (e : Enumeration) (t : Moment) (m : Allocation) (live : Liveness) (index : Nat) :
    Instr α → List Register
  | .call .. => m.keptAcrossBy e t live index
  | _ => []

/-- The frame of a function. -/
def Function.frameBy (e : Enumeration) (fn : Function α) (m : Allocation) (live : Liveness) :
    Frame where
  ins := fn.params.length - argumentCount
  outs := (fn.body.map Instr.outSlots).foldl max 0
  locals := m.slotCountBy e +
    (fn.body.zipIdx.map fun x => (x.1.keptBy e (.frame x.2) m live x.2).length).foldl max 0

namespace Emit

open Machine

/-- Keeps the callee-saved registers in use, then brings the parameters to
their places. -/
def prologueBy (e : Enumeration) (fn : Function α) (m : Allocation) (live : Liveness) :
    Gen α Unit := do
  lines (saveLines 0 (m.calleeSavedBy e))
  params m live 0 fn.params

/-- The lines for an instruction.  Calls and returns are the instructions whose
lines go through registers collected in sets. -/
def instrBy (e : Enumeration) (m : Allocation) (live : Liveness) (index : Nat) :
    Instr α → Gen α Unit
  | .call dest callee args _ => do
    let kept := m.keptAcrossBy e (.call index) live index
    lines (saveLines (m.slotCountBy e) kept)
    passArgs m 0 args
    transfer m callee
    match dest with
    | some x => define m x (.value (.register .result))
    | none => pure ()
    lines (restoreLines (m.slotCountBy e) kept)
  | .ret result _ => do
    match result with
    | some o =>
      let v ← value m o
      assign (.register .result) (.value v)
      drop v
    | none => pure ()
    lines (restoreLines 0 (m.calleeSavedBy e))
    line .ret
  | i => instr m [] i

/-- The instructions from the given index on, with their labels. -/
def bodyBy (e : Enumeration) (fn : Function α) (m : Allocation) (live : Liveness) :
    Nat → List (Instr α) → Gen α Unit
  | index, [] => lines (labelLines fn index)
  | index, i :: rest => do
    lines (labelLines fn index)
    instrBy e m live index i
    settled fn.name index
    bodyBy e fn m live (index + 1) rest

/-- A whole function; the result is its frame. -/
def functionBy (e : Enumeration) (fn : Function α) (m : Allocation) (live : Liveness) :
    Gen α Frame := do
  let frame := fn.frameBy e m live
  line (.header fn.name frame)
  prologueBy e fn m live
  bodyBy e fn m live 0 fn.body
  return frame

end Emit

/-- Analyses a function, finds places for its variables and writes its lines. -/
def Allocator.emissionBy (e : Enumeration) (a : Allocator) (fn : Function α) :
    Except (CompileError α) (Emission (EmitError α) Frame) := do
  let live ← fn.liveness.mapError .flow
  let m ← (a.allocateBy e fn live).mapError .placement
  return (Emit.functionBy e fn m live).run Pool.scratch

theorem Instr.keptBy_eq (e : Enumeration) (t : Moment) (m : Allocation) (live : Liveness)
    (index : Nat) (i : Instr α) : i.keptBy e t m live index = i.kept m live index := by
  cases i with
  | call dest callee args note => exact m.keptAcrossBy_eq e t live index
  | assign | apply | store | load | branch | goto | ret => rfl

/-- **The frame does not depend on the enumeration.** -/
theorem Function.frameBy_eq (e : Enumeration) (fn : Function α) (m : Allocation)
    (live : Liveness) : fn.frameBy e m live = fn.frame m live := by
  simp only [frameBy, frame, Allocation.slotCountBy_eq, Instr.keptBy_eq]

namespace Emit

theorem instrBy_eq (e : Enumeration) (m : Allocation) (live : Liveness) (index : Nat)
    (i : Instr α) : instrBy e m live index i = instr m (i.kept m live index) i := by
  cases i with
  | call dest callee args note =>
    rw [instrBy, Instr.kept, m.keptAcrossBy_eq, m.slotCountBy_eq]
    rfl
  | ret result note =>
    simp only [instrBy, m.calleeSavedBy_eq]
    rfl
  | assign | apply | store | load | branch | goto => rfl

theorem bodyBy_eq (e : Enumeration) (fn : Function α) (m : Allocation) (live : Liveness)
    (index : Nat) (instrs : List (Instr α)) :
    bodyBy e fn m live index instrs = body fn m live index instrs := by
  induction instrs generalizing index with
  | nil => rfl
  | cons i rest ih => rw [bodyBy, body, instrBy_eq, ih]

/-- **The lines do not depend on the enumeration.** -/
theorem functionBy_eq (e : Enumeration) (fn : Function α) (m : Allocation) (live : Liveness) :
    functionBy e fn m live = function fn m live := by
  rw [functionBy, function, prologueBy, prologue, fn.frameBy_eq, m.calleeSavedBy_eq, bodyBy_eq]

end Emit

/-- **No result depends on the order in which sets are gone through.**  Whatever
order an enumeration chooses on each occasion, the intervals and their order, the
places, the registers kept, the frame and the lines are those found without it. -/
theorem enumeration_irrelevant (e : Enumeration) (a : Allocator) (fn : Function α) :
    (∀ live, fn.intervalsBy e live = live.intervals ∧ a.allocateBy e fn live = a.allocate live) ∧
      (∀ m : Allocation, m.calleeSavedBy e = m.calleeSaved) ∧
      (∀ (t : Moment) (m : Allocation) live index,
        m.keptAcrossBy e t live index = m.keptAcross live index) ∧
      (∀ m live, fn.frameBy e m live = fn.frame m live ∧
        Emit.functionBy e fn m live = Emit.function fn m live) ∧
      a.emissionBy e fn = a.emission fn := by
  refine ⟨fun live => ⟨fn.intervalsBy_eq e live, a.allocateBy_eq e fn live⟩,
    Allocation.calleeSavedBy_eq e, Allocation.keptAcrossBy_eq e,
    fun m live => ⟨fn.frameBy_eq e m live, Emit.functionBy_eq e fn m live⟩, ?_⟩
  simp only [Allocator.emissionBy, Allocator.emission, a.allocateBy_eq, Emit.functionBy_eq]

end Lines

namespace Sample

/-- A function with several variables at each instruction, four of which survive the call. -/
def survivors : Function Unit where
  name := "F"
  params := []
  body :=
    [.apply (some ⟨"t", ()⟩) "Add" [.var ⟨"x", ()⟩, .var ⟨"y", ()⟩, .var ⟨"z", ()⟩] (),
      .call none (.label ⟨"F", ()⟩) [] (),
      .apply (some ⟨"r", ()⟩) "Add"
        [.var ⟨"t", ()⟩, .var ⟨"x", ()⟩, .var ⟨"y", ()⟩, .var ⟨"z", ()⟩] (),
      .ret (some (.var ⟨"r", ()⟩)) ()]
  labels := []
  note := ()

/-- Too few callee-saved registers for the variables that survive the call. -/
def twoSaved : Allocator where
  calleeSaved := Register.allCalleeSaved.take 2

/-- The places that are found with them. -/
def survivorPlaces : Allocation where
  registers := ["t", "x"].zip Register.allCalleeSaved ++ ["y", "z", "r"].zip Register.allCallerSaved
  slots := []

end Sample

/-- Going through all sets backwards, variables and registers are met in another order, but the
results are the same. -/
theorem enumeration_irrelevant_sample :
    ∃ live, Sample.survivors.liveness = .ok live ∧
      (Sample.survivors.bounds .reversed live).map Prod.fst = ["z", "y", "x", "t", "r"] ∧
      (Sample.survivors.intervalsBy .reversed live).map Interval.name = ["t", "x", "y", "z", "r"] ∧
      Sample.twoSaved.allocateBy .reversed Sample.survivors live = .ok Sample.survivorPlaces ∧
      (Enumeration.reversed.registers .places
          (Allocation.calleeSavedSet Sample.survivorPlaces.registers)).map Register.name
        = ["$s1", "$s0"] ∧
      (Sample.survivorPlaces.calleeSavedBy .reversed).map Register.name = ["$s0", "$s1"] ∧
      (Sample.survivorPlaces.keptAcrossBy .reversed (.call 1) live 1).map Register.name
        = ["$t0", "$t1"] ∧
      Sample.survivors.frameBy .reversed Sample.survivorPlaces live = ⟨0, 0, 4⟩ ∧
      (Sample.twoSaved.emissionBy .reversed Sample.survivors).map
          (fun code => code.lines.map Machine.Line.render)
        = .ok ["func F [in 0, out 0, local 4]", "local[0] = $s0", "local[1] = $s1",
            "$s0 = Add($s1 $t0 $t1)", "local[2] = $t0", "local[3] = $t1", "call :F",
            "$t0 = local[2]", "$t1 = local[3]", "$t2 = Add($s0 $s1 $t0 $t1)", "$v0 = $t2",
            "$s0 = local[0]", "$s1 = local[1]", "ret"] := by
  obtain ⟨hlive, hsaved, hkept, hframe, hemission⟩ :=
    enumeration_irrelevant .reversed Sample.twoSaved Sample.survivors
  refine ⟨_, rfl, by decide +kernel, ?_, ?_, by decide, ?_, ?_, ?_, ?_⟩
  · rw [(hlive _).1]
    decide +kernel
  · rw [(hlive _).2]
    decide +kernel
  · rw [hsaved]
    decide
  · rw [hkept]
    decide +kernel
  · rw [(hframe _ _).1]
    decide +kernel
  · rw [hemission]
    decide +kernel

end Vapor

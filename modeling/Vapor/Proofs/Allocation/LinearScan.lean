/-
Vapor/Proofs/Allocation/LinearScan.lean

The linear scan never makes two variables share a place while both are needed.

The scan keeps account of the variables (`Scan.Accounts`): each one met so far has a
register or has been spilled, and not both.  That holds whatever registers it was
given, and makes the allocation complete: it is accepted, and has a place for each
variable.

If no register was given twice, more can be said (`Scan.Inv`).  Every register is
free, or held by an interval, or (in the middle of a step) in hand, and none is so
twice.  A variable that has a register but no longer holds it has ended before the
present index.  So a register that is given to a new interval belongs only to
variables whose intervals have ended, also when it is taken over from another
interval, because that one then loses it for good.

From this follows that overlapping intervals have different places
(`location?_ne_of_overlaps`), and that the slots of spilled variables follow those of
the callee-saved registers without gaps.
-/
import Mathlib.Data.List.Perm.Basic
import Vapor.Allocation.LinearScan
import Vapor.Proofs.Allocation.Interval
import Vapor.Proofs.Allocation.Places

namespace Vapor

/-- The registers that an allocator may give to variables, all of them. -/
def Allocator.registers (a : Allocator) : List Register :=
  a.callerSaved ++ a.calleeSaved

/-- An allocator uses registers for variables only, and none of them twice. -/
structure Allocator.WellFormed (a : Allocator) : Prop where
  nodup : a.registers.Nodup
  allocatable : ∀ r ∈ a.registers, r.isAllocatable = true

namespace Scan

/-- The free registers. -/
def free (s : Scan) : List Register :=
  s.freeCaller ++ s.freeCallee

/-- What holds between two steps of the scan, and within a step when the registers
in `hand` have been taken and not yet given to an interval, even if the allocator has
some registers twice. -/
structure Accounts (regs hand : List Register) (past : List Interval) (s : Scan) : Prop where
  /-- Every variable that has been met has a register or is spilled. -/
  names : (s.placed.map Prod.fst ++ s.spilled).Perm (past.map Interval.name)
  /-- An interval holds the register of its variable. -/
  active_placed : ∀ h ∈ s.active, (h.interval.name, h.register) ∈ s.placed
  /-- No variable has two intervals that hold a register. -/
  active_once : (s.active.map fun h => h.interval.name).Nodup
  /-- Only the registers of the allocator are in hand or free. -/
  known : ∀ r ∈ hand ++ s.free, r ∈ regs
  /-- Only the registers of the allocator are given out. -/
  given : ∀ x r, (x, r) ∈ s.placed → r ∈ regs

/-- What holds in addition if no register is there twice. -/
structure Inv (regs hand : List Register) (past : List Interval) (now : Nat) (s : Scan) : Prop
    extends Accounts regs hand past s where
  /-- Every register is in hand, free or held, and only once. -/
  registers : (hand ++ (s.free ++ s.active.map Holder.register)).Perm regs
  /-- Intervals that hold a register have been met. -/
  active_past : ∀ h ∈ s.active, h.interval ∈ past
  /-- A variable that does not hold its register any more has ended. -/
  ended : ∀ i ∈ past, ∀ r, (i.name, r) ∈ s.placed → ⟨i, r⟩ ∈ s.active ∨ i.stop < now
  /-- Variables with the same register do not overlap. -/
  apart : ∀ i ∈ past, ∀ j ∈ past, i.name ≠ j.name → ∀ r, (i.name, r) ∈ s.placed →
    (j.name, r) ∈ s.placed → i.stop < j.start ∨ j.stop < i.start

/-! ### Giving registers back -/

theorem refill_perm (rs : List Register) (r : Register) : (refill rs r).Perm (r :: rs) := by
  rw [refill, Sorted.sort_eq fun _ _ => Iff.rfl]
  exact (List.perm_insertionSort _ _).trans (List.perm_append_singleton r rs)

theorem release_free (s : Scan) (r : Register) : (s.release r).free.Perm (r :: s.free) := by
  unfold release
  split
  · refine (List.Perm.append_left _ (refill_perm _ _)).trans ?_
    exact List.perm_middle
  · exact List.Perm.append_right _ (refill_perm _ _)

theorem release_fields (s : Scan) (r : Register) :
    (s.release r).placed = s.placed ∧ (s.release r).spilled = s.spilled ∧
      (s.release r).active = s.active := by
  unfold release
  split <;> exact ⟨rfl, rfl, rfl⟩

/-- Giving several registers back changes the free registers only. -/
theorem foldl_release (hs : List Holder) (s : Scan) :
    let s' := hs.foldl (fun s h => s.release h.register) s
    s'.free.Perm (hs.map Holder.register ++ s.free) ∧ s'.placed = s.placed ∧
      s'.spilled = s.spilled ∧ s'.active = s.active := by
  induction hs generalizing s with
  | nil => exact ⟨.refl _, rfl, rfl, rfl⟩
  | cons h hs ih =>
    obtain ⟨hfree, hplaced, hspilled, hactive⟩ := ih (s.release h.register)
    obtain ⟨hp, hsp, ha⟩ := release_fields s h.register
    refine ⟨hfree.trans ?_, hplaced.trans hp, hspilled.trans hsp, hactive.trans ha⟩
    refine (List.Perm.append_left _ (release_free s h.register)).trans ?_
    exact List.perm_middle

/-- Splitting a list in two loses nothing. -/
theorem partition_perm {β : Type} (p : β → Bool) (xs : List β) :
    ((xs.partition p).1 ++ (xs.partition p).2).Perm xs := by
  rw [List.partition_eq_filter_filter]
  exact List.filter_append_perm p xs

variable {regs : List Register} {past : List Interval} {now : Nat} {s : Scan}

/-- Ending intervals splits those that hold a register. -/
theorem expire_spec (s : Scan) (index : Nat) : ∃ ended : List Holder,
    (ended ++ (s.expire index).active).Perm s.active ∧ (∀ h ∈ ended, h.interval.stop < index) ∧
      (s.expire index).free.Perm (ended.map Holder.register ++ s.free) ∧
      (s.expire index).placed = s.placed ∧ (s.expire index).spilled = s.spilled := by
  have hsplit := partition_perm (fun h : Holder => h.interval.stop < index) s.active
  have hended : ∀ h ∈ (s.active.partition fun h => h.interval.stop < index).1,
      h.interval.stop < index := by
    intro h hh
    rw [List.partition_eq_filter_filter] at hh
    simpa using (List.mem_filter.mp hh).2
  unfold Scan.expire
  generalize s.active.partition (fun h => decide (h.interval.stop < index)) = parts at *
  obtain ⟨ended, still⟩ := parts
  obtain ⟨hfree, hplaced, hspilled, hactive⟩ := foldl_release ended { s with active := still }
  exact ⟨ended, by rwa [hactive], hended, hfree, hplaced, hspilled⟩

/-- The registers of intervals that hold one are known. -/
theorem Accounts.register_mem {hand : List Register} (h : Accounts regs hand past s) {h' : Holder}
    (hh' : h' ∈ s.active) : h'.register ∈ regs :=
  h.given _ _ (h.active_placed h' hh')

theorem Accounts.expire (h : Accounts regs [] past s) (index : Nat) :
    Accounts regs [] past (s.expire index) := by
  obtain ⟨ended, hsplit, -, hfree, hplaced, hspilled⟩ := expire_spec s index
  have hmem : ∀ h, h ∈ (s.expire index).active → h ∈ s.active := fun h hh =>
    hsplit.mem_iff.mp (List.mem_append_right _ hh)
  constructor
  · rw [hplaced, hspilled]
    exact h.names
  · intro h' hh'
    rw [hplaced]
    exact h.active_placed h' (hmem h' hh')
  · have honce := (hsplit.map fun h => h.interval.name).nodup_iff.mpr h.active_once
    rw [List.map_append] at honce
    exact honce.of_append_right
  · intro r hr
    rcases List.mem_append.mp (hfree.mem_iff.mp hr) with hr | hr
    · obtain ⟨h', hh', rfl⟩ := List.mem_map.mp hr
      exact h.register_mem (hsplit.mem_iff.mp (List.mem_append_left _ hh'))
    · exact h.known r hr
  · rw [hplaced]
    exact h.given

/-- Ending intervals that end before the next index keeps the invariant. -/
theorem Inv.expire (h : Inv regs [] past now s) {index : Nat} (hle : now ≤ index) :
    Inv regs [] past index (s.expire index) := by
  obtain ⟨ended, hsplit, hended, hfree, hplaced, hspilled⟩ := expire_spec s index
  have hmem : ∀ h, h ∈ (s.expire index).active → h ∈ s.active := fun h hh =>
    hsplit.mem_iff.mp (List.mem_append_right _ hh)
  refine ⟨h.toAccounts.expire index, ?_, ?_, ?_, ?_⟩
  · refine List.Perm.trans ?_ h.registers
    rw [List.nil_append, List.nil_append]
    refine (hfree.append_right _).trans ?_
    refine List.Perm.trans ?_ ((hsplit.map Holder.register).append_left s.free)
    rw [List.map_append, ← List.append_assoc]
    exact List.perm_append_comm.append_right _
  · intro h' hh'
    exact h.active_past h' (hmem h' hh')
  · intro i hi r hr
    rw [hplaced] at hr
    rcases h.ended i hi r hr with hact | hlt
    · rcases List.mem_append.mp (hsplit.mem_iff.mpr hact) with hover | hstill
      · exact .inr (hended _ hover)
      · exact .inl hstill
    · exact .inr (Nat.lt_of_lt_of_le hlt hle)
  · rw [hplaced]
    exact h.apart

/-! ### Taking and giving registers -/

/-- A free register that is taken is in hand. -/
theorem take?_spec {s' : Scan} {r : Register} {preferCallee : Bool}
    (h : s.take? preferCallee = some (r, s')) :
    (r :: s'.free).Perm s.free ∧ s'.placed = s.placed ∧ s'.spilled = s.spilled ∧
      s'.active = s.active := by
  unfold take? at h
  split at h
  · rename_i hcallee
    obtain ⟨rfl, rfl⟩ := Prod.mk.inj (Option.some.inj h)
    refine ⟨?_, rfl, rfl, rfl⟩
    rw [free, free, hcallee]
    exact List.perm_middle.symm
  · rename_i hcaller hcallee
    obtain ⟨rfl, rfl⟩ := Prod.mk.inj (Option.some.inj h)
    refine ⟨?_, rfl, rfl, rfl⟩
    rw [free, free, hcaller]
    exact .refl _
  · rename_i hcaller
    obtain ⟨rfl, rfl⟩ := Prod.mk.inj (Option.some.inj h)
    refine ⟨?_, rfl, rfl, rfl⟩
    rw [free, free, hcaller]
    exact .refl _
  · rename_i hcaller hcallee
    obtain ⟨rfl, rfl⟩ := Prod.mk.inj (Option.some.inj h)
    refine ⟨?_, rfl, rfl, rfl⟩
    rw [free, free, hcallee]
    exact List.perm_middle.symm
  · cases h

theorem Accounts.take? {s' : Scan} {r : Register} {preferCallee : Bool}
    (h : Accounts regs [] past s) (htake : s.take? preferCallee = some (r, s')) :
    Accounts regs [r] past s' := by
  obtain ⟨hfree, hplaced, hspilled, hactive⟩ := take?_spec htake
  constructor
  · rw [hplaced, hspilled]
    exact h.names
  · rw [hactive, hplaced]
    exact h.active_placed
  · rw [hactive]
    exact h.active_once
  · exact fun q hq => h.known q (hfree.mem_iff.mp hq)
  · rw [hplaced]
    exact h.given

theorem Inv.take? {s' : Scan} {r : Register} {preferCallee : Bool}
    (h : Inv regs [] past now s) (htake : s.take? preferCallee = some (r, s')) :
    Inv regs [r] past now s' := by
  obtain ⟨hfree, hplaced, hspilled, hactive⟩ := take?_spec htake
  refine ⟨h.toAccounts.take? htake, ?_, ?_, ?_, ?_⟩
  · refine List.Perm.trans ?_ h.registers
    rw [hactive, List.nil_append]
    exact hfree.append_right _
  · rw [hactive]
    exact h.active_past
  · rw [hactive, hplaced]
    exact h.ended
  · rw [hplaced]
    exact h.apart

/-- Removing a name that occurs once and putting it elsewhere keeps the names. -/
theorem filter_ne_perm {xs : List String} (hnodup : xs.Nodup) {x : String} (hx : x ∈ xs) :
    (x :: xs.filter fun y => y != x).Perm xs := by
  rw [← hnodup.erase_eq_filter]
  exact (List.perm_cons_erase hx).symm

/-- The scan after an interval has lost its register and its variable has been spilled. -/
def deprive (s : Scan) (holder : Holder) : Scan :=
  spill { s with
    placed := s.placed.filter fun x => x.1 != holder.interval.name
    active := s.active.dropLast } holder.interval.name

/-- An interval that loses its register leaves it in hand, and its variable is spilled. -/
theorem Accounts.steal (h : Accounts regs [] past s) (hpast : (past.map Interval.name).Nodup)
    {holder : Holder} (hlast : s.active.getLast? = some holder) :
    Accounts regs [holder.register] past (s.deprive holder) := by
  have hactive : s.active = s.active.dropLast ++ [holder] :=
    (List.dropLast_append_getLast? holder hlast).symm
  have hmem : holder ∈ s.active := List.mem_of_getLast? hlast
  constructor
  · refine List.Perm.trans ?_ h.names
    show ((s.placed.filter fun x => x.1 != holder.interval.name).map Prod.fst ++
      (s.spilled ++ [holder.interval.name])).Perm _
    have hplaced : (s.placed.map Prod.fst).Nodup :=
      (List.nodup_append.mp (h.names.nodup_iff.mpr hpast)).1
    have hname : holder.interval.name ∈ s.placed.map Prod.fst :=
      List.mem_map_of_mem (h.active_placed holder hmem)
    have hfilter := filter_ne_perm hplaced hname
    rw [List.filter_map] at hfilter
    refine List.Perm.trans ?_ (hfilter.append_right s.spilled)
    rw [← List.append_assoc]
    exact List.perm_append_singleton _ _
  · intro h' hh'
    have hin := h.active_placed h' (List.dropLast_subset _ hh')
    refine List.mem_filter.mpr ⟨hin, bne_iff_ne.mpr fun heq : h'.interval.name = _ => ?_⟩
    have honce := h.active_once
    rw [hactive, List.map_append] at honce
    refine (List.nodup_append.mp honce).2.2 _ (List.mem_map_of_mem hh') _ ?_ heq
    exact List.mem_singleton_self _
  · have honce := h.active_once
    rw [hactive, List.map_append] at honce
    exact honce.of_append_left
  · intro r hr
    rcases List.mem_cons.mp hr with rfl | hr
    · exact h.register_mem hmem
    · exact h.known r hr
  · intro x r hx
    exact h.given x r (List.mem_filter.mp hx).1

theorem Inv.steal (h : Inv regs [] past now s) (hpast : (past.map Interval.name).Nodup)
    {holder : Holder} (hlast : s.active.getLast? = some holder) :
    Inv regs [holder.register] past now (s.deprive holder) := by
  have hactive : s.active = s.active.dropLast ++ [holder] :=
    (List.dropLast_append_getLast? holder hlast).symm
  have hsub : ∀ x, x ∈ s.placed.filter (fun x => x.1 != holder.interval.name) → x ∈ s.placed :=
    fun x hx => (List.mem_filter.mp hx).1
  refine ⟨h.toAccounts.steal hpast hlast, ?_, ?_, ?_, ?_⟩
  · refine List.Perm.trans ?_ h.registers
    show (holder.register :: (s.free ++ s.active.dropLast.map Holder.register)).Perm
      (s.free ++ s.active.map Holder.register)
    conv => rhs; rw [hactive, List.map_append, ← List.append_assoc]
    exact (List.perm_append_singleton _ _).symm
  · intro h' hh'
    exact h.active_past h' (List.dropLast_subset _ hh')
  · intro i hi r hir
    obtain ⟨hir, hne⟩ := List.mem_filter.mp hir
    rcases h.ended i hi r hir with hact | hlt
    · rw [hactive] at hact
      rcases List.mem_append.mp hact with hact | hact
      · exact .inl hact
      · obtain rfl := List.mem_singleton.mp hact
        exact absurd rfl (bne_iff_ne.mp hne)
    · exact .inr hlt
  · intro i hi j hj hne r hir hjr
    exact h.apart i hi j hj hne r (hsub _ hir) (hsub _ hjr)

theorem Accounts.placed_past {hand : List Register} (h : Accounts regs hand past s) {x : String}
    {r : Register} (hx : (x, r) ∈ s.placed) : x ∈ past.map Interval.name :=
  h.names.mem_iff.mp (List.mem_append_left _ (List.mem_map_of_mem hx))

theorem active_place (s : Scan) (i : Interval) (r : Register) :
    (s.place i r).active.Perm (⟨i, r⟩ :: s.active) := by
  rw [place, Sorted.insert_eq fun _ _ => Iff.rfl]
  exact List.perm_orderedInsert _ _ _

theorem mem_placed_place {i : Interval} {r : Register} {x : String} {r' : Register} :
    (x, r') ∈ (s.place i r).placed ↔ (x, r') ∈ s.placed ∨ x = i.name ∧ r' = r := by
  show (x, r') ∈ s.placed ++ [(i.name, r)] ↔ _
  rw [List.mem_append, List.mem_singleton, Prod.mk.injEq]

/-- Giving the register in hand to an interval. -/
theorem Accounts.place {r : Register} (h : Accounts regs [r] past s) {i : Interval}
    (hnew : i.name ∉ past.map Interval.name) :
    Accounts regs [] (past ++ [i]) (s.place i r) := by
  have hactive := active_place s i r
  constructor
  · show ((s.placed ++ [(i.name, r)]).map Prod.fst ++ s.spilled).Perm _
    rw [List.map_append, List.map_append, List.append_assoc]
    refine (List.Perm.append_left _ List.perm_append_comm).trans ?_
    rw [← List.append_assoc]
    exact h.names.append_right _
  · intro h' hh'
    rcases List.mem_cons.mp (hactive.mem_iff.mp hh') with rfl | hh'
    · exact mem_placed_place.mpr (.inr ⟨rfl, rfl⟩)
    · exact mem_placed_place.mpr (.inl (h.active_placed h' hh'))
  · refine (hactive.map fun h => h.interval.name).nodup_iff.mpr (List.nodup_cons.mpr ⟨?_, ?_⟩)
    · intro hmem
      obtain ⟨h', hh', heq⟩ := List.mem_map.mp hmem
      have hpast := h.placed_past (h.active_placed h' hh')
      rw [show h'.interval.name = i.name from heq] at hpast
      exact hnew hpast
    · exact h.active_once
  · exact fun q hq => h.known q (List.mem_cons_of_mem _ hq)
  · intro x r' hx
    rcases mem_placed_place.mp hx with hx | ⟨-, rfl⟩
    · exact h.given x r' hx
    · exact h.known r' List.mem_cons_self

/-- Giving the register in hand to an interval that begins now. -/
theorem Inv.place {r : Register} (h : Inv regs [r] past now s) (hregs : regs.Nodup)
    {i : Interval} (hnew : i.name ∉ past.map Interval.name) (hnow : now ≤ i.start) :
    Inv regs [] (past ++ [i]) now (s.place i r) := by
  have hactive := active_place s i r
  -- a variable met before is not the new one
  have hold : ∀ j ∈ past, j.name ≠ i.name := fun j hj heq =>
    hnew (heq ▸ List.mem_map_of_mem hj)
  -- another variable with the register in hand does not hold it any more
  have hover : ∀ j ∈ past, (j.name, r) ∈ s.placed → j.stop < i.start := by
    intro j hj hjr
    rcases h.ended j hj r hjr with hact | hlt
    · have hnodup := h.registers.nodup_iff.mpr hregs
      rw [List.singleton_append, List.nodup_cons] at hnodup
      exact absurd (List.mem_append_right _ (List.mem_map_of_mem hact)) hnodup.1
    · omega
  refine ⟨h.toAccounts.place hnew, ?_, ?_, ?_, ?_⟩
  · refine List.Perm.trans ?_ h.registers
    show (s.free ++ (s.place i r).active.map Holder.register).Perm _
    refine ((hactive.map Holder.register).append_left s.free).trans ?_
    exact List.perm_middle
  · intro h' hh'
    rcases List.mem_cons.mp (hactive.mem_iff.mp hh') with rfl | hh'
    · exact List.mem_append_right _ (List.mem_singleton_self _)
    · exact List.mem_append_left _ (h.active_past h' hh')
  · intro j hj r' hjr
    rcases List.mem_append.mp hj with hj | hj
    · have hjr := (mem_placed_place.mp hjr).resolve_right fun heq => hold j hj heq.1
      refine (h.ended j hj r' hjr).imp_left fun hact => ?_
      exact hactive.mem_iff.mpr (List.mem_cons_of_mem _ hact)
    · obtain rfl := List.mem_singleton.mp hj
      rcases mem_placed_place.mp hjr with hjr | ⟨-, rfl⟩
      · exact absurd (h.placed_past hjr) hnew
      · exact .inl (hactive.mem_iff.mpr List.mem_cons_self)
  · intro j hj k hk hne r' hjr hkr
    have hback : ∀ l ∈ past, (l.name, r') ∈ (s.place i r).placed → (l.name, r') ∈ s.placed :=
      fun l hl hlr => (mem_placed_place.mp hlr).resolve_right fun heq => hold l hl heq.1
    have hreg : (i.name, r') ∈ (s.place i r).placed → r' = r := fun hir =>
      ((mem_placed_place.mp hir).resolve_left fun hir => hnew (h.placed_past hir)).2
    rcases List.mem_append.mp hj with hj' | hj' <;> rcases List.mem_append.mp hk with hk' | hk'
    · exact h.apart j hj' k hk' hne r' (hback j hj' hjr) (hback k hk' hkr)
    · obtain rfl := List.mem_singleton.mp hk'
      obtain rfl := hreg hkr
      exact .inl (hover j hj' (hback j hj' hjr))
    · obtain rfl := List.mem_singleton.mp hj'
      obtain rfl := hreg hjr
      exact .inr (hover k hk' (hback k hk' hkr))
    · rw [List.mem_singleton.mp hj', List.mem_singleton.mp hk'] at hne
      exact absurd rfl hne

/-- Leaving a variable that is met without a register. -/
theorem Accounts.spill (h : Accounts regs [] past s) (i : Interval) :
    Accounts regs [] (past ++ [i]) (s.spill i.name) where
  names := by
    show (s.placed.map Prod.fst ++ (s.spilled ++ [i.name])).Perm _
    rw [← List.append_assoc, List.map_append]
    exact h.names.append_right _
  active_placed := h.active_placed
  active_once := h.active_once
  known := h.known
  given := h.given

theorem Inv.spill (h : Inv regs [] past now s) {i : Interval}
    (hnew : i.name ∉ past.map Interval.name) :
    Inv regs [] (past ++ [i]) now (s.spill i.name) := by
  refine ⟨h.toAccounts.spill i, h.registers, ?_, ?_, ?_⟩
  · exact fun h' hh' => List.mem_append_left _ (h.active_past h' hh')
  · intro j hj r hjr
    rcases List.mem_append.mp hj with hj | hj
    · exact h.ended j hj r hjr
    · obtain rfl := List.mem_singleton.mp hj
      exact absurd (h.placed_past hjr) hnew
  · intro j hj k hk hne r hjr hkr
    have hpast : ∀ l ∈ past ++ [i], (l.name, r) ∈ s.placed → l ∈ past := by
      intro l hl hlr
      rcases List.mem_append.mp hl with hl | hl
      · exact hl
      · obtain rfl := List.mem_singleton.mp hl
        exact absurd (h.placed_past hlr) hnew
    exact h.apart j (hpast j hj hjr) k (hpast k hk hkr) hne r hjr hkr

/-! ### The scan -/

/-- Without a free register there is none to be taken. -/
theorem free_of_take?_eq_none {preferCallee : Bool} (h : s.take? preferCallee = none) :
    s.free = [] := by
  unfold take? at h
  split at h
  · cases h
  · cases h
  · cases h
  · cases h
  · rename_i hcaller hcallee
    rw [free, hcaller, hcallee]
    rfl

/-- What a step does, after ending intervals: it gives a free register to the interval.
If there is none, then it spills the variable of the interval, unless another one that
holds a register ends later and has to give it away. -/
theorem step_cases (s : Scan) (i : Interval) :
    (∃ r s', (s.expire i.start).take? i.crossesCall = some (r, s') ∧ s.step i = s'.place i r) ∨
      ((s.expire i.start).free = [] ∧
        (∀ holder ∈ (s.expire i.start).active.getLast?, holder.interval.stop ≤ i.stop) ∧
        s.step i = (s.expire i.start).spill i.name) ∨
      ∃ holder, (s.expire i.start).active.getLast? = some holder ∧
        (s.expire i.start).free = [] ∧ i.stop < holder.interval.stop ∧
        s.step i = ((s.expire i.start).deprive holder).place i holder.register := by
  unfold Scan.step
  dsimp only
  split
  · rename_i r s' htake
    exact .inl ⟨r, s', htake, rfl⟩
  · rename_i htake
    have hfree := free_of_take?_eq_none htake
    split
    · rename_i hlast
      refine .inr (.inl ⟨hfree, fun holder hmem => ?_, rfl⟩)
      rw [hlast] at hmem
      cases hmem
    · rename_i holder hlast
      split
      · rename_i hle
        refine .inr (.inl ⟨hfree, fun holder' hmem => ?_, rfl⟩)
        rw [hlast] at hmem
        obtain rfl := Option.some.inj hmem
        exact hle
      · rename_i hlt
        exact .inr (.inr ⟨holder, hlast, hfree, Nat.lt_of_not_le hlt, rfl⟩)

theorem Accounts.step (h : Accounts regs [] past s) (hpast : (past.map Interval.name).Nodup)
    {i : Interval} (hnew : i.name ∉ past.map Interval.name) :
    Accounts regs [] (past ++ [i]) (s.step i) := by
  have hexp := h.expire i.start
  rcases step_cases s i with ⟨r, s', htake, heq⟩ | ⟨-, -, heq⟩ | ⟨holder, hlast, -, -, heq⟩ <;>
    rw [heq]
  · exact (hexp.take? htake).place hnew
  · exact hexp.spill i
  · exact (hexp.steal hpast hlast).place hnew

/-- **A step of the scan keeps the invariant.** -/
theorem Inv.step (h : Inv regs [] past now s) (hregs : regs.Nodup)
    (hpast : (past.map Interval.name).Nodup) {i : Interval}
    (hnew : i.name ∉ past.map Interval.name) (hnow : now ≤ i.start) :
    Inv regs [] (past ++ [i]) i.start (s.step i) := by
  have hexp := h.expire hnow
  rcases step_cases s i with ⟨r, s', htake, heq⟩ | ⟨-, -, heq⟩ | ⟨holder, hlast, -, -, heq⟩ <;>
    rw [heq]
  · exact (hexp.take? htake).place hregs hnew (Nat.le_refl _)
  · exact hexp.spill hnew
  · exact (hexp.steal hpast hlast).place hregs hnew (Nat.le_refl _)

/-- If no variable has two intervals, then the next one belongs to a new variable. -/
theorem name_not_mem {i : Interval} {rest : List Interval}
    (h : ((past ++ i :: rest).map Interval.name).Nodup) :
    (past.map Interval.name).Nodup ∧ i.name ∉ past.map Interval.name := by
  rw [List.map_append, List.map_cons] at h
  obtain ⟨hpast, -, hdisj⟩ := List.nodup_append.mp h
  exact ⟨hpast, fun hmem => hdisj _ hmem _ List.mem_cons_self rfl⟩

theorem Accounts.foldl (h : Accounts regs [] past s) {rest : List Interval}
    (hnames : ((past ++ rest).map Interval.name).Nodup) :
    Accounts regs [] (past ++ rest) (rest.foldl Scan.step s) := by
  induction rest generalizing past s with
  | nil => simpa using h
  | cons i rest ih =>
    obtain ⟨hpast, hnew⟩ := name_not_mem hnames
    rw [List.append_cons] at hnames ⊢
    exact ih (h.step hpast hnew) hnames

/-- Scanning intervals in the order of their starts keeps the invariant. -/
theorem Inv.foldl (h : Inv regs [] past now s) (hregs : regs.Nodup) {rest : List Interval}
    (hnames : ((past ++ rest).map Interval.name).Nodup)
    (hsorted : rest.Pairwise fun a b => a.start ≤ b.start) (hnow : ∀ i ∈ rest, now ≤ i.start) :
    ∃ now', Inv regs [] (past ++ rest) now' (rest.foldl Scan.step s) := by
  induction rest generalizing past now s with
  | nil => exact ⟨now, by simpa using h⟩
  | cons i rest ih =>
    obtain ⟨hpast, hnew⟩ := name_not_mem hnames
    rw [List.pairwise_cons] at hsorted
    rw [List.append_cons] at hnames ⊢
    exact ih (h.step hregs hpast hnew (hnow i List.mem_cons_self)) hnames hsorted.2 hsorted.1

end Scan

namespace Allocator

variable {a : Allocator}

theorem start_accounts (a : Allocator) : Scan.Accounts a.registers [] [] a.start where
  names := .refl _
  active_placed := fun h hh => by cases hh
  active_once := List.nodup_nil
  known := fun r hr => hr
  given := fun x r hx => by cases hx

theorem scan_accounts (a : Allocator) (live : Liveness) :
    Scan.Accounts a.registers [] live.intervals (a.scan live.intervals) :=
  (start_accounts a).foldl (Liveness.nodup_intervals live)

theorem start_inv (a : Allocator) : Scan.Inv a.registers [] [] 0 a.start where
  toAccounts := start_accounts a
  registers := by
    show (a.callerSaved ++ a.calleeSaved ++ []).Perm _
    rw [List.append_nil]
    exact .refl _
  active_past := fun h hh => by cases hh
  ended := fun i hi => by cases hi
  apart := fun i hi => by cases hi

theorem scan_inv (ha : a.WellFormed) (live : Liveness) :
    ∃ now, Scan.Inv a.registers [] live.intervals now (a.scan live.intervals) :=
  (start_inv a).foldl ha.nodup (Liveness.nodup_intervals live) (Liveness.pairwise_intervals live)
    fun _ _ => Nat.zero_le _

/-! ### The allocation -/

/-- The places that a scan leaves: spilled variables take the slots above those of
the callee-saved registers. -/
def outcome (a : Allocator) (live : Liveness) : Allocation :=
  let s := a.scan live.intervals
  ⟨s.placed, s.spilled.zipIdx (Allocation.calleeSavedIn s.placed).length⟩

theorem nodup_outcome (ha : a.WellFormed) (live : Liveness) :
    ((a.outcome live).registers.map Prod.fst ++ (a.outcome live).slots.map Prod.fst).Nodup := by
  obtain ⟨now, hinv⟩ := scan_inv ha live
  show ((a.scan live.intervals).placed.map Prod.fst ++ (List.zipIdx _ _).map Prod.fst).Nodup
  rw [List.zipIdx_map_fst]
  exact hinv.names.nodup_iff.mpr (Liveness.nodup_intervals live)

/-- Each interval gives its variable one place, whatever the registers. -/
theorem names_outcome (a : Allocator) (live : Liveness) :
    ((a.outcome live).registers.map Prod.fst ++ (a.outcome live).slots.map Prod.fst).Perm
      (live.intervals.map Interval.name) := by
  show ((a.scan live.intervals).placed.map Prod.fst ++ (List.zipIdx _ _).map Prod.fst).Perm _
  rw [List.zipIdx_map_fst]
  exact (scan_accounts a live).names

theorem exists_location?_of_interval (a : Allocator) {live : Liveness} {x : String}
    (hx : x ∈ live.intervals.map Interval.name) : ∃ l, (a.outcome live).location? x = some l :=
  Allocation.exists_location?.mpr ((names_outcome a live).mem_iff.mpr hx)

/-- **The places that a scan leaves are accepted**, if its registers are for variables. -/
theorem allocate_of_allocatable (ha : ∀ r ∈ a.registers, r.isAllocatable = true)
    (live : Liveness) : a.allocate live = .ok (a.outcome live) := by
  refine Allocation.ofPlaces_eq_ok.mpr ⟨?_, ?_, ?_, ?_⟩
  · rw [List.map_map]
    refine congrArg (Allocation.mk _) ?_
    exact (List.map_id _).symm
  · have hnodup := (names_outcome a live).nodup_iff.mpr (Liveness.nodup_intervals live)
    intro x hx hx'
    rw [List.map_map] at hx'
    exact (List.nodup_append.mp hnodup).2.2 x hx x hx' rfl
  · intro x hx
    exact ha x.2 ((scan_accounts a live).given x.1 x.2 hx)
  · intro x hx
    obtain ⟨⟨y, k⟩, hk, rfl⟩ := List.mem_map.mp hx
    have hle := List.le_snd_of_mem_zipIdx hk
    exact Int.ofNat_le.mpr hle

theorem allocate_eq_ok (ha : a.WellFormed) (live : Liveness) :
    a.allocate live = .ok (a.outcome live) :=
  allocate_of_allocatable ha.allocatable live

/-- A variable has a place if and only if it has an interval. -/
theorem exists_location?_outcome (ha : a.WellFormed) (live : Liveness) {x : String} :
    (∃ l, (a.outcome live).location? x = some l) ↔ x ∈ live.intervals.map Interval.name := by
  obtain ⟨now, hinv⟩ := scan_inv ha live
  rw [Allocation.exists_location?, ← hinv.names.mem_iff]
  show x ∈ _ ++ (List.zipIdx _ _).map Prod.fst ↔ _
  rw [List.zipIdx_map_fst]
  exact Iff.rfl

/-- A slot belongs to the variable spilled at its position. -/
theorem location?_eq_slot_iff (ha : a.WellFormed) (live : Liveness) {x : String} {k : Nat} :
    (a.outcome live).location? x = some (.slot k) ↔
      (a.outcome live).calleeSaved.length ≤ k ∧
        (a.scan live.intervals).spilled[k - (a.outcome live).calleeSaved.length]? = some x := by
  have hnodup := nodup_outcome ha live
  obtain ⟨-, hslots, hdisj⟩ := List.nodup_append.mp hnodup
  rw [Allocation.location?_eq_slot]
  constructor
  · rintro ⟨-, hk⟩
    exact List.mem_zipIdx_iff_le_and_getElem?_sub.mp (Allocation.mem_of_lookup hk)
  · intro h
    have hmem : (x, k) ∈ (a.outcome live).slots := List.mem_zipIdx_iff_le_and_getElem?_sub.mpr h
    refine ⟨?_, Allocation.lookup_of_mem hslots hmem⟩
    rcases hr : (a.outcome live).register? x with - | r
    · rfl
    · have hx : x ∈ (a.outcome live).registers.map Prod.fst :=
        List.mem_map_of_mem (Allocation.mem_of_lookup hr)
      exact absurd rfl (hdisj x hx x (List.mem_map_of_mem hmem))

/-- **Overlapping intervals have different places.** -/
theorem location?_ne_of_overlaps (ha : a.WellFormed) (live : Liveness) {i j : Interval}
    (hi : i ∈ live.intervals) (hj : j ∈ live.intervals) (hne : i.name ≠ j.name)
    (hover : i.Overlaps j) :
    (a.outcome live).location? i.name ≠ (a.outcome live).location? j.name := by
  intro heq
  obtain ⟨now, hinv⟩ := scan_inv ha live
  obtain ⟨l, hl⟩ := (exists_location?_outcome ha live).mpr (List.mem_map_of_mem hi)
  have hl' := heq ▸ hl
  cases l with
  | register r =>
    -- the intervals would have to be apart
    have hir := Allocation.mem_of_lookup (Allocation.location?_eq_register.mp hl)
    have hjr := Allocation.mem_of_lookup (Allocation.location?_eq_register.mp hl')
    have hapart := hinv.apart i hi j hj hne r hir hjr
    obtain ⟨k, ⟨hik, hki⟩, ⟨hjk, hkj⟩⟩ := hover
    omega
  | slot k =>
    have hik := ((location?_eq_slot_iff ha live).mp hl).2
    have hjk := ((location?_eq_slot_iff ha live).mp hl').2
    exact hne (Option.some.inj (hik.symm.trans hjk))

theorem slotCount_outcome (a : Allocator) (live : Liveness) :
    (a.outcome live).slotCount
      = (a.outcome live).calleeSaved.length + (a.outcome live).slots.length := by
  refine (Allocation.foldl_max_zipIdx _ _).trans ?_
  show _ = _ + (List.zipIdx _ _).length
  rw [List.length_zipIdx]

end Allocator

/-! ### Interference -/

namespace Function

variable {α : Type} {fn : Function α} {live : Liveness} {a : Allocator}

/-- Two variables that occur at one instruction have different places. -/
theorem location?_ne_of_occurrences (hwf : fn.WellFormed) (hlive : fn.liveness = .ok live)
    (ha : a.WellFormed) {x y : String} (hne : x ≠ y) {k : Nat}
    (hx : x ∈ live.liveIn k ∨ x ∈ fn.defsAt k) (hy : y ∈ live.liveIn k ∨ y ∈ fn.defsAt k) :
    (a.outcome live).location? x ≠ (a.outcome live).location? y := by
  rw [← mem_occurrences_iff hwf hlive] at hx hy
  obtain ⟨i, hi⟩ := Liveness.interval?_isSome hx
  obtain ⟨j, hj⟩ := Liveness.interval?_isSome hy
  obtain ⟨rfl, -, -, -, hik⟩ := Liveness.interval?_spec hi
  obtain ⟨rfl, -, -, -, hjk⟩ := Liveness.interval?_spec hj
  exact Allocator.location?_ne_of_overlaps ha live (Liveness.mem_intervals.mpr hi)
    (Liveness.mem_intervals.mpr hj) hne ⟨k, hik k hx, hjk k hy⟩

/-- An instruction writes at most one variable. -/
theorem eq_of_mem_defsAt {k : Nat} {x y : String} (hx : x ∈ fn.defsAt k) (hy : y ∈ fn.defsAt k) :
    x = y := by
  rcases hk : fn.body[k]? with - | instr
  · rw [defsAt, hk] at hx
    cases hx
  · rw [defsAt_eq hk, Instr.mem_defs] at hx hy
    exact Option.some.inj (hx.symm.trans hy)

/-- A variable and another one that is written where it is live afterwards have
different places. -/
theorem location?_ne_of_def (hwf : fn.WellFormed) (hlive : fn.liveness = .ok live)
    (ha : a.WellFormed) {x y : String} (hne : x ≠ y) {k : Nat} (hx : x ∈ fn.defsAt k)
    (hy : y ∈ live.liveOut k) :
    (a.outcome live).location? x ≠ (a.outcome live).location? y := by
  refine location?_ne_of_occurrences hwf hlive ha hne (.inr hx) (.inl ?_)
  -- the other variable is not written here, so it is live before as well
  refine ((flowSolution hwf hlive).ins_iff k y).mpr (.inr ⟨hy, fun hdef => ?_⟩)
  exact hne (eq_of_mem_defsAt hx hdef)

end Function

/-- **The linear scan never makes interfering variables share a place.**  It
succeeds on every function that has been read and has a liveness, with any
duplicate-free registers for variables.  Exactly the variables that instructions
mention get a place, one each.  Variables whose intervals overlap get different
places, in particular two that are live before one instruction, and one that is
written where the other is live afterwards.  The slots of spilled variables follow
those of the callee-saved registers in use, one for each variable and without
gaps. -/
theorem linear_scan_separates {tokens : List Token} {p : Program Span}
    (hparse : parse tokens = .ok p) {fn : Function Span} (hfn : fn ∈ p.functions)
    {live : Liveness} (hlive : fn.liveness = .ok live) {a : Allocator} (ha : a.WellFormed) :
    ∃ m, a.allocate live = .ok m ∧
      ((m.registers.map Prod.fst ++ m.slots.map Prod.fst).Nodup ∧
        (∀ x, (∃ l, m.location? x = some l) ↔ fn.Mentions x) ∧
        ∀ x r, m.location? x = some (.register r) → r ∈ a.registers) ∧
      ((∀ i ∈ live.intervals, ∀ j ∈ live.intervals, i.name ≠ j.name → i.Overlaps j →
          m.location? i.name ≠ m.location? j.name) ∧
        (∀ x y k, x ≠ y → x ∈ live.liveIn k → y ∈ live.liveIn k →
          m.location? x ≠ m.location? y) ∧
        ∀ x y k, x ≠ y → x ∈ fn.defsAt k → y ∈ live.liveOut k →
          m.location? x ≠ m.location? y) ∧
      (m.calleeSaved.Nodup ∧
        (∀ r, r ∈ m.calleeSaved ↔
          r.isCalleeSaved = true ∧ ∃ x, m.location? x = some (.register r)) ∧
        (∀ x k, m.location? x = some (.slot k) →
          m.calleeSaved.length ≤ k ∧ k < m.calleeSaved.length + m.slots.length) ∧
        (∀ k, m.calleeSaved.length ≤ k → k < m.calleeSaved.length + m.slots.length →
          ∃! x, m.location? x = some (.slot k)) ∧
        m.slotCount = m.calleeSaved.length + m.slots.length) := by
  have hwf := parse_wellFormed hparse fn hfn
  obtain ⟨now, hinv⟩ := Allocator.scan_inv ha live
  have hnodup := Allocator.nodup_outcome ha live
  have hslots : (a.outcome live).slots.length = (a.scan live.intervals).spilled.length :=
    List.length_zipIdx
  refine ⟨a.outcome live, Allocator.allocate_eq_ok ha live, ⟨hnodup, fun x => ?_, fun x r hr => ?_⟩,
    ⟨?_, ?_, ?_⟩, Allocation.nodup_calleeSavedIn _, fun r => ?_, fun x k hk => ?_,
    fun k hlow hhigh => ?_, Allocator.slotCount_outcome a live⟩
  · rw [Allocator.exists_location?_outcome ha live, Function.mem_names_intervals hwf hlive]
  · exact hinv.given x r (Allocation.mem_of_lookup (Allocation.location?_eq_register.mp hr))
  · exact fun i hi j hj hne hover => Allocator.location?_ne_of_overlaps ha live hi hj hne hover
  · exact fun x y k hne hx hy =>
      Function.location?_ne_of_occurrences hwf hlive ha hne (.inl hx) (.inl hy)
  · exact fun x y k hne hx hy => Function.location?_ne_of_def hwf hlive ha hne hx hy
  · refine Allocation.mem_calleeSavedIn.trans (and_congr_right fun _ => exists_congr fun x => ?_)
    rw [Allocation.location?_eq_register]
    exact ⟨Allocation.lookup_of_mem hnodup.of_append_left, Allocation.mem_of_lookup⟩
  · obtain ⟨hlow, hget⟩ := (Allocator.location?_eq_slot_iff ha live).mp hk
    obtain ⟨hlt, -⟩ := List.getElem?_eq_some_iff.mp hget
    exact ⟨hlow, by omega⟩
  · have hlt : k - (a.outcome live).calleeSaved.length < (a.scan live.intervals).spilled.length := by
      omega
    refine ⟨_, (Allocator.location?_eq_slot_iff ha live).mpr
      ⟨hlow, List.getElem?_eq_getElem hlt⟩, fun y hy => ?_⟩
    have hget := ((Allocator.location?_eq_slot_iff ha live).mp hy).2
    rw [List.getElem?_eq_getElem hlt] at hget
    exact (Option.some.inj hget).symm

/-- A register that a call may overwrite. -/
def Sample.unsaved : Register :=
  .callerSaved 0

/-- A register that a call leaves as it was. -/
def Sample.saved : Register :=
  .calleeSaved 0

/-- One register of each kind, so that most variables of the sample are spilled. -/
def Sample.allocator : Allocator :=
  ⟨[unsaved], [saved]⟩

theorem Sample.wellFormed_allocator : Sample.allocator.WellFormed :=
  ⟨by decide, by decide⟩

theorem linear_scan_separates_sample :
    Sample.allocator.WellFormed ∧ ∃ live m, Sample.function.liveness = .ok live ∧
      Sample.allocator.allocate live = .ok m ∧
      (∀ x, (∃ l, m.location? x = some l) ↔ Sample.function.Mentions x) ∧
      ∀ x y k, x ≠ y → x ∈ live.liveIn k → y ∈ live.liveIn k →
        m.location? x ≠ m.location? y := by
  obtain ⟨live, hlive⟩ : ∃ live, Sample.function.liveness = .ok live := ⟨_, rfl⟩
  obtain ⟨m, hm, ⟨-, hplaced, -⟩, ⟨-, hapart, -⟩, -⟩ :=
    linear_scan_separates Sample.parse_tokens Sample.mem_functions hlive Sample.wellFormed_allocator
  exact ⟨Sample.wellFormed_allocator, live, m, hlive, hm, hplaced, hapart⟩

end Vapor

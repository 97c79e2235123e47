/-
Vapor/Proofs/Allocation/Optimal.lean

The linear scan spills as few variables as possible (`linear_scan_optimal`).  With `k`
registers one can keep a set of intervals only if no index lies in more than `k` of them
(`Bounded`), and no such set is larger than the set that the scan keeps.

The scan stays ahead of every other choice, at every index (`Ahead`): whatever set one
chooses from the intervals met so far, those of them that end before the index are not
more than those that the scan keeps and that end before the index.  An interval that gets
a register adds one on both sides.  If no register is free, then `k` of the intervals that
are kept hold the register where the new interval starts, and no choice can do better than
that (`Ahead.card_le_of_full`).  Of these and the new one, the interval that is spilled is
the last to end, so at all earlier indices nothing is lost.
-/
import Mathlib.Combinatorics.Enumerative.DoubleCounting
import Vapor.Proofs.Allocation.LinearScan

namespace Vapor

/-! ### Sets of intervals -/

namespace Interval

instance (a : Interval) (index : Nat) : Decidable (a.Covers index) :=
  inferInstanceAs (Decidable (_ ∧ _))

/-- No index lies in more than `k` of the intervals. -/
def Bounded (k : Nat) (S : Finset Interval) : Prop :=
  ∀ index, (S.filter fun i => i.Covers index).card ≤ k

/-- The intervals that end before the index. -/
def before (index : Nat) (S : Finset Interval) : Finset Interval :=
  S.filter fun i => i.stop < index

/-- Of the intervals met so far, no bounded set has more that end before some index than
the set `kept` has. -/
def Ahead (k : Nat) (past : List Interval) (kept : Finset Interval) : Prop :=
  ∀ index (S : Finset Interval), (∀ i ∈ S, i ∈ past ∧ i.stop < index) → Bounded k S →
    S.card ≤ (before index kept).card

variable {k : Nat} {past : List Interval} {kept S : Finset Interval} {i : Interval}

theorem mem_before {index : Nat} : i ∈ before index S ↔ i ∈ S ∧ i.stop < index :=
  Finset.mem_filter

theorem Bounded.mono {T : Finset Interval} (h : Bounded k S) (hT : T ⊆ S) : Bounded k T :=
  fun index => (Finset.card_le_card (Finset.filter_subset_filter _ hT)).trans (h index)

/-- A set of the intervals met with the new one is one of those met before, but for the
new one. -/
theorem mem_past_of_ne {j : Interval} (hj : j ∈ past ++ [i]) (hne : j ≠ i) : j ∈ past := by
  rcases List.mem_append.mp hj with hj | hj
  · exact hj
  · exact absurd (List.mem_singleton.mp hj) hne

/-- Where the new interval has not ended yet, no choice has it. -/
theorem Ahead.of_le (h : Ahead k past kept) {index : Nat} (hindex : index ≤ i.stop)
    (hS : ∀ j ∈ S, j ∈ past ++ [i] ∧ j.stop < index) (hbound : Bounded k S) :
    S.card ≤ (before index kept).card := by
  refine h index S (fun j hj => ⟨mem_past_of_ne (hS j hj).1 ?_, (hS j hj).2⟩) hbound
  rintro rfl
  exact absurd (hS j hj).2 (Nat.not_lt.mpr hindex)

/-- Keeping the new interval adds one. -/
theorem Ahead.card_le_insert (h : Ahead k past kept) (hnew : i ∉ kept) {index : Nat}
    (hS : ∀ j ∈ S, j ∈ past ++ [i] ∧ j.stop < index) (hbound : Bounded k S) :
    S.card ≤ (before index (insert i kept)).card := by
  by_cases hindex : index ≤ i.stop
  · refine (h.of_le hindex hS hbound).trans (Finset.card_le_card ?_)
    exact Finset.filter_subset_filter _ (Finset.subset_insert i kept)
  · have hrest : (S.erase i).card ≤ (before index kept).card := by
      refine h index _ (fun j hj => ?_) (hbound.mono (Finset.erase_subset i S))
      obtain ⟨hne, hj⟩ := Finset.mem_erase.mp hj
      exact ⟨mem_past_of_ne (hS j hj).1 hne, (hS j hj).2⟩
    have hinsert : before index (insert i kept) = insert i (before index kept) :=
      Finset.filter_insert .. |>.trans (if_pos (Nat.lt_of_not_le hindex))
    have hcard : (before index (insert i kept)).card = (before index kept).card + 1 := by
      rw [hinsert]
      exact Finset.card_insert_of_notMem fun hmem => hnew (mem_before.mp hmem).1
    have herase : S.card - 1 ≤ (S.erase i).card := Finset.pred_card_le_card_erase
    omega

/-- If `k` of the intervals that are kept have not ended where the new one starts, then no
choice has more intervals than are kept. -/
theorem Ahead.card_le_of_full (h : Ahead k past kept) (hproper : i.start ≤ i.stop)
    (hstart : ∀ j ∈ past, j.start ≤ i.start)
    (hfull : k ≤ (kept.filter fun j => ¬j.stop < i.start).card)
    (hS : ∀ j ∈ S, j ∈ past ++ [i]) (hbound : Bounded k S) : S.card ≤ kept.card := by
  -- those that have ended, and those that the start of the new one lies in
  have hended : (before i.start S).card ≤ (before i.start kept).card := by
    refine h i.start _ (fun j hj => ?_) (hbound.mono (Finset.filter_subset _ S))
    obtain ⟨hj, hlt⟩ := mem_before.mp hj
    refine ⟨mem_past_of_ne (hS j hj) ?_, hlt⟩
    rintro rfl
    omega
  have hstill : (S.filter fun j => ¬j.stop < i.start).card ≤ k := by
    refine (Finset.card_le_card fun j hj => ?_).trans (hbound i.start)
    obtain ⟨hj, hle⟩ := Finset.mem_filter.mp hj
    refine Finset.mem_filter.mpr ⟨hj, ?_, Nat.le_of_not_lt hle⟩
    rcases List.mem_append.mp (hS j hj) with hpast | hi
    · exact hstart j hpast
    · exact Nat.le_of_eq (congrArg Interval.start (List.mem_singleton.mp hi))
  calc S.card
      = (before i.start S).card + (S.filter fun j => ¬j.stop < i.start).card :=
        (Finset.card_filter_add_card_filter_not _).symm
    _ ≤ (before i.start kept).card + (kept.filter fun j => ¬j.stop < i.start).card :=
        Nat.add_le_add hended (hstill.trans hfull)
    _ = kept.card := Finset.card_filter_add_card_filter_not _

/-- Everything that is kept has ended before the index. -/
theorem before_eq_self {index : Nat} (h : ∀ j ∈ kept, j.stop < index) :
    before index kept = kept :=
  Finset.filter_true_of_mem h

/-- The new interval may be left out if nothing that is kept ends later. -/
theorem Ahead.spill (h : Ahead k past kept) (hproper : i.start ≤ i.stop)
    (hstart : ∀ j ∈ past, j.start ≤ i.start)
    (hfull : k ≤ (kept.filter fun j => ¬j.stop < i.start).card)
    (hlast : ∀ j ∈ kept, j.stop ≤ i.stop) : Ahead k (past ++ [i]) kept := by
  intro index S hS hbound
  by_cases hindex : index ≤ i.stop
  · exact h.of_le hindex hS hbound
  · rw [before_eq_self fun j hj => Nat.lt_of_le_of_lt (hlast j hj) (Nat.lt_of_not_le hindex)]
    exact h.card_le_of_full hproper hstart hfull (fun j hj => (hS j hj).1) hbound

/-- The new interval may take the place of one that ends later, if nothing that is kept
ends later still. -/
theorem Ahead.replace (h : Ahead k past kept) (hproper : i.start ≤ i.stop)
    (hstart : ∀ j ∈ past, j.start ≤ i.start)
    (hfull : k ≤ (kept.filter fun j => ¬j.stop < i.start).card) (hnew : i ∉ kept)
    {last : Interval} (hmem : last ∈ kept) (hlater : i.stop < last.stop)
    (hlast : ∀ j ∈ kept, j.stop ≤ last.stop) :
    Ahead k (past ++ [i]) (insert i (kept.erase last)) := by
  intro index S hS hbound
  have hnew' : i ∉ kept.erase last := fun hi => hnew (Finset.mem_of_mem_erase hi)
  by_cases hindex : index ≤ last.stop
  · -- the one that loses its register has not ended, and so does not count
    refine (h.card_le_insert hnew hS hbound).trans (Finset.card_le_card fun j hj => ?_)
    obtain ⟨hj, hlt⟩ := mem_before.mp hj
    refine mem_before.mpr ⟨?_, hlt⟩
    rcases Finset.mem_insert.mp hj with rfl | hj
    · exact Finset.mem_insert_self _ _
    · refine Finset.mem_insert_of_mem (Finset.mem_erase.mpr ⟨?_, hj⟩)
      rintro rfl
      omega
  · have hall : ∀ j ∈ insert i (kept.erase last), j.stop < index := by
      intro j hj
      rcases Finset.mem_insert.mp hj with rfl | hj
      · omega
      · have := hlast j (Finset.mem_of_mem_erase hj)
        omega
    have hcard : (insert i (kept.erase last)).card = kept.card := by
      rw [Finset.card_insert_of_notMem hnew', Finset.card_erase_add_one hmem]
    rw [before_eq_self hall, hcard]
    exact h.card_le_of_full hproper hstart hfull (fun j hj => (hS j hj).1) hbound

end Interval

/-! ### The scan -/

namespace Scan

open Vapor.Interval (Ahead Bounded)

/-- The intervals whose variables have a register, of those met so far. -/
def kept (s : Scan) (past : List Interval) : Finset Interval :=
  past.toFinset.filter fun i => i.name ∈ s.placed.map Prod.fst

/-- The intervals that hold a register are in the order of their ends. -/
def Ordered (s : Scan) : Prop :=
  s.active.Pairwise fun a b => a.interval.stop ≤ b.interval.stop

variable {regs hand : List Register} {past : List Interval} {now : Nat} {s : Scan} {i : Interval}

theorem mem_kept {j : Interval} :
    j ∈ s.kept past ↔ j ∈ past ∧ ∃ r, (j.name, r) ∈ s.placed := by
  simp [kept]

/-! ### Order -/

theorem active_expire (s : Scan) (index : Nat) :
    (s.expire index).active = s.active.filter fun h => !decide (h.interval.stop < index) := by
  unfold Scan.expire
  rw [List.partition_eq_filter_filter]
  exact (foldl_release _ _).2.2.2

theorem Ordered.expire (h : s.Ordered) (index : Nat) : (s.expire index).Ordered := by
  rw [Ordered, active_expire]
  exact h.filter _

/-- An interval goes before the first one that ends later. -/
theorem pairwise_insert_before {active : List Holder} (x : Holder)
    (h : active.Pairwise fun a b => a.interval.stop ≤ b.interval.stop) :
    (Sorted.insert Holder.before x active).Pairwise fun a b =>
      a.interval.stop ≤ b.interval.stop := by
  induction active with
  | nil => exact List.pairwise_singleton ..
  | cons b rest ih =>
    obtain ⟨hb, hrest⟩ := List.pairwise_cons.mp h
    rw [Sorted.insert]
    split
    · rename_i hbefore
      have hle : x.interval.stop ≤ b.interval.stop := by
        simp only [Holder.before, Bool.or_eq_true, Bool.and_eq_true, decide_eq_true_eq,
          beq_iff_eq] at hbefore
        omega
      refine List.pairwise_cons.mpr ⟨fun c hc => ?_, h⟩
      rcases List.mem_cons.mp hc with rfl | hc
      · exact hle
      · exact Nat.le_trans hle (hb c hc)
    · rename_i hbefore
      have hle : b.interval.stop ≤ x.interval.stop := by
        simp only [Holder.before, Bool.or_eq_true, Bool.and_eq_true, decide_eq_true_eq,
          beq_iff_eq, not_or] at hbefore
        omega
      refine List.pairwise_cons.mpr ⟨fun c hc => ?_, ih hrest⟩
      rw [Sorted.insert_eq fun _ _ => Iff.rfl, List.mem_orderedInsert] at hc
      rcases hc with rfl | hc
      · exact hle
      · exact hb c hc

theorem Ordered.place (h : s.Ordered) (i : Interval) (r : Register) : (s.place i r).Ordered :=
  pairwise_insert_before ⟨i, r⟩ h

theorem Ordered.deprive (h : s.Ordered) (holder : Holder) : (s.deprive holder).Ordered :=
  h.sublist (List.dropLast_sublist _)

theorem Ordered.step (h : s.Ordered) (i : Interval) : (s.step i).Ordered := by
  have hexp := h.expire i.start
  rcases step_cases s i with ⟨r, s', htake, heq⟩ | ⟨-, -, heq⟩ | ⟨holder, -, -, -, heq⟩ <;>
    rw [heq]
  · have hs' : s'.Ordered := by
      rw [Ordered, (take?_spec htake).2.2.2]
      exact hexp
    exact hs'.place i r
  · exact hexp
  · exact (hexp.deprive holder).place i holder.register

/-- The last interval that holds a register is the last to end. -/
theorem Ordered.stop_le (h : s.Ordered) {holder : Holder}
    (hlast : s.active.getLast? = some holder) {a : Holder} (ha : a ∈ s.active) :
    a.interval.stop ≤ holder.interval.stop := by
  have hactive : s.active = s.active.dropLast ++ [holder] :=
    (List.dropLast_append_getLast? holder hlast).symm
  rw [hactive] at ha
  rw [Ordered, hactive] at h
  rcases List.mem_append.mp ha with ha | ha
  · exact (List.pairwise_append.mp h).2.2 a ha holder (List.mem_singleton_self _)
  · rw [List.mem_singleton.mp ha]

/-! ### What is kept -/

theorem kept_congr {s' : Scan} (h : s'.placed = s.placed) : s'.kept past = s.kept past := by
  rw [kept, kept, h]

/-- The new variable has not been given a register yet. -/
theorem not_mem_kept (hnew : i.name ∉ past.map Interval.name) : i ∉ s.kept past :=
  fun hi => hnew (List.mem_map_of_mem (mem_kept.mp hi).1)

theorem Accounts.kept_spill (h : Accounts regs hand past s)
    (hnew : i.name ∉ past.map Interval.name) :
    (s.spill i.name).kept (past ++ [i]) = s.kept past := by
  ext j
  simp only [mem_kept, List.mem_append, List.mem_singleton]
  constructor
  · rintro ⟨hj | rfl, r, hr⟩
    · exact ⟨hj, r, hr⟩
    · exact absurd (h.placed_past hr) hnew
  · rintro ⟨hj, hr⟩
    exact ⟨.inl hj, hr⟩

theorem Accounts.kept_place (h : Accounts regs hand past s)
    (hnew : i.name ∉ past.map Interval.name) (r : Register) :
    (s.place i r).kept (past ++ [i]) = insert i (s.kept past) := by
  ext j
  simp only [mem_kept, List.mem_append, List.mem_singleton, Finset.mem_insert, mem_placed_place]
  constructor
  · rintro ⟨hj | rfl, q, hq | ⟨hname, -⟩⟩
    · exact .inr ⟨hj, q, hq⟩
    · exact absurd (hname ▸ List.mem_map_of_mem hj) hnew
    · exact absurd (h.placed_past hq) hnew
    · exact .inl rfl
  · rintro (rfl | ⟨hj, q, hq⟩)
    · exact ⟨.inr rfl, r, .inr ⟨rfl, rfl⟩⟩
    · exact ⟨.inl hj, q, .inl hq⟩

theorem kept_deprive (hpast : (past.map Interval.name).Nodup) {holder : Holder}
    (hholder : holder.interval ∈ past) :
    (s.deprive holder).kept past = (s.kept past).erase holder.interval := by
  ext j
  have hplaced : ∀ r, (j.name, r) ∈ (s.deprive holder).placed ↔
      (j.name, r) ∈ s.placed ∧ j.name ≠ holder.interval.name := fun r => by
    rw [← bne_iff_ne]
    exact List.mem_filter
  simp only [mem_kept, Finset.mem_erase, hplaced]
  constructor
  · rintro ⟨hj, r, hr, hne⟩
    refine ⟨?_, hj, r, hr⟩
    rintro rfl
    exact hne rfl
  · rintro ⟨hne, hj, r, hr⟩
    exact ⟨hj, r, hr, fun hname => hne (List.inj_on_of_nodup_map hpast hj hholder hname)⟩

/-! ### Steps -/

/-- If no register is free where an interval starts, then as many intervals as there are
registers are kept and have not ended. -/
theorem Inv.full {index : Nat} (h : Inv regs [] past index (s.expire index))
    (hfree : (s.expire index).free = []) :
    regs.length ≤ (((s.expire index).kept past).filter fun j => ¬j.stop < index).card := by
  have hlength : (s.expire index).active.length = regs.length := by
    have hperm := h.registers
    rw [hfree, List.nil_append, List.nil_append] at hperm
    simpa using hperm.length_eq
  have hnodup : ((s.expire index).active.map Holder.interval).Nodup := by
    refine List.Nodup.of_map Interval.name ?_
    rw [List.map_map]
    exact h.active_once
  calc regs.length
      = ((s.expire index).active.map Holder.interval).toFinset.card := by
        rw [List.toFinset_card_of_nodup hnodup, List.length_map, hlength]
    _ ≤ _ := Finset.card_le_card fun j hj => by
        obtain ⟨a, ha, rfl⟩ := List.mem_map.mp (List.mem_toFinset.mp hj)
        have hstop : ¬a.interval.stop < index := by
          rw [active_expire] at ha
          simpa using (List.mem_filter.mp ha).2
        exact Finset.mem_filter.mpr
          ⟨mem_kept.mpr ⟨h.active_past a ha, _, h.active_placed a ha⟩, hstop⟩

/-- What is kept has ended, or holds a register. -/
theorem Inv.stop_le (h : Inv regs [] past now s) {bound : Nat} (hnow : now ≤ bound)
    (hactive : ∀ a ∈ s.active, a.interval.stop ≤ bound) : ∀ j ∈ s.kept past, j.stop ≤ bound := by
  intro j hj
  obtain ⟨hpast, r, hr⟩ := mem_kept.mp hj
  rcases h.ended j hpast r hr with hact | hlt
  · exact hactive _ hact
  · omega

/-- **A step of the scan stays ahead.** -/
theorem Inv.ahead_step (h : Inv regs [] past now s) (hordered : s.Ordered)
    (hpast : (past.map Interval.name).Nodup) (hnew : i.name ∉ past.map Interval.name)
    (hnow : now ≤ i.start) (hproper : i.start ≤ i.stop)
    (hstart : ∀ j ∈ past, j.start ≤ i.start) (hahead : Ahead regs.length past (s.kept past)) :
    Ahead regs.length (past ++ [i]) ((s.step i).kept (past ++ [i])) := by
  have hexp := h.expire hnow
  have hkept : (s.expire i.start).kept past = s.kept past :=
    kept_congr (expire_spec s i.start).choose_spec.2.2.2.1
  rw [← hkept] at hahead
  have hnot : i ∉ (s.expire i.start).kept past := not_mem_kept hnew
  rcases step_cases s i with ⟨r, s', htake, heq⟩ | ⟨hfree, hlast, heq⟩ |
    ⟨holder, hlast, hfree, hlater, heq⟩ <;> rw [heq]
  · rw [(hexp.toAccounts.take? htake).kept_place hnew r, kept_congr (take?_spec htake).2.1]
    exact fun index S => hahead.card_le_insert hnot
  · rw [hexp.toAccounts.kept_spill hnew]
    refine hahead.spill hproper hstart (hexp.full hfree) (hexp.stop_le hproper fun a ha => ?_)
    obtain ⟨holder, hholder⟩ : ∃ holder, (s.expire i.start).active.getLast? = some holder :=
      List.getLast?_isSome.mpr (List.ne_nil_of_mem ha) |> Option.isSome_iff_exists.mp
    exact ((hordered.expire i.start).stop_le hholder ha).trans (hlast holder hholder)
  · have hactive : holder ∈ (s.expire i.start).active := List.mem_of_getLast? hlast
    have hholder := hexp.active_past holder hactive
    rw [(hexp.toAccounts.steal hpast hlast).kept_place hnew, kept_deprive hpast hholder]
    refine hahead.replace hproper hstart (hexp.full hfree) hnot
      (mem_kept.mpr ⟨hholder, _, hexp.active_placed holder hactive⟩) hlater
      (hexp.stop_le (by omega) fun a ha => ?_)
    exact (hordered.expire i.start).stop_le hlast ha

/-- **The scan stays ahead.** -/
theorem Inv.ahead_foldl (h : Inv regs [] past now s) (hordered : s.Ordered) (hregs : regs.Nodup)
    {rest : List Interval} (hnames : ((past ++ rest).map Interval.name).Nodup)
    (hsorted : (past ++ rest).Pairwise fun a b => a.start ≤ b.start)
    (hnow : ∀ i ∈ rest, now ≤ i.start) (hproper : ∀ i ∈ rest, i.start ≤ i.stop)
    (hahead : Ahead regs.length past (s.kept past)) :
    Ahead regs.length (past ++ rest) ((rest.foldl Scan.step s).kept (past ++ rest)) := by
  induction rest generalizing past now s with
  | nil => simpa using hahead
  | cons i rest ih =>
    obtain ⟨hpast, hnew⟩ := name_not_mem hnames
    have hlater := (List.pairwise_append.mp hsorted).2
    have hstart : ∀ j ∈ past, j.start ≤ i.start := fun j hj =>
      hlater.2 j hj i List.mem_cons_self
    have hi := hnow i List.mem_cons_self
    have hle := hproper i List.mem_cons_self
    rw [List.append_cons] at hnames hsorted ⊢
    exact ih (h.step hregs hpast hnew hi) (hordered.step i) hnames hsorted
      (List.pairwise_cons.mp hlater.1).1 (fun j hj => hproper j (List.mem_cons_of_mem _ hj))
      (h.ahead_step hordered hpast hnew hi hle hstart hahead)

end Scan

/-! ### The allocation -/

namespace Liveness

variable {live : Liveness} {i : Interval}

theorem start_le_stop (hi : i ∈ live.intervals) : i.start ≤ i.stop := by
  obtain ⟨-, -, hstart, -, hcovers⟩ := interval?_spec (mem_intervals.mp hi)
  exact (hcovers _ hstart).2

theorem stop_lt_length (hi : i ∈ live.intervals) : i.stop < live.rows.length := by
  obtain ⟨-, -, -, hstop, -⟩ := interval?_spec (mem_intervals.mp hi)
  obtain ⟨row, hrow, -⟩ := mem_occurrences.mp hstop
  exact (List.getElem?_eq_some_iff.mp hrow).1

/-- Only the indices of instructions have to be looked at. -/
theorem bounded_of_rows {k : Nat} {S : Finset Interval} (hS : ∀ i ∈ S, i ∈ live.intervals)
    (h : ∀ index < live.rows.length, (S.filter fun i => i.Covers index).card ≤ k) :
    Interval.Bounded k S := by
  intro index
  by_cases hindex : index < live.rows.length
  · exact h index hindex
  · have hnone : (S.filter fun i => i.Covers index) = ∅ := by
      refine Finset.filter_false_of_mem fun i hi hcovers => ?_
      have := stop_lt_length (hS i hi)
      have := hcovers.2
      omega
    rw [hnone]
    exact Nat.zero_le k

end Liveness

namespace Allocator

open Vapor.Interval (Ahead Bounded)

variable {a : Allocator}

/-- The intervals of the variables that a scan leaves in registers. -/
def kept (a : Allocator) (live : Liveness) : Finset Interval :=
  (a.scan live.intervals).kept live.intervals

theorem ahead_kept (ha : a.WellFormed) (live : Liveness) :
    Ahead a.registers.length live.intervals (a.kept live) := by
  refine (start_inv a).ahead_foldl .nil ha.nodup (Liveness.nodup_intervals live)
    (Liveness.pairwise_intervals live) (fun _ _ => Nat.zero_le _)
    (fun _ => Liveness.start_le_stop) ?_
  intro index S hS _
  rw [Finset.eq_empty_of_forall_notMem fun i hi => List.not_mem_nil (hS i hi).1]
  exact Nat.zero_le _

/-- No bounded set of intervals is larger than the one that the scan keeps. -/
theorem card_le_card_kept (ha : a.WellFormed) {live : Liveness} {S : Finset Interval}
    (hS : ∀ i ∈ S, i ∈ live.intervals) (hbound : Bounded a.registers.length S) :
    S.card ≤ (a.kept live).card := by
  refine (ahead_kept ha live live.rows.length S (fun i hi => ⟨hS i hi, ?_⟩) hbound).trans
    (Finset.card_le_card (Finset.filter_subset _ _))
  exact Liveness.stop_lt_length (hS i hi)

/-- The set that the scan keeps is bounded: intervals that share an index have different
registers. -/
theorem bounded_kept (ha : a.WellFormed) (live : Liveness) :
    Bounded a.registers.length (a.kept live) := by
  intro index
  obtain ⟨now, hinv⟩ := scan_inv ha live
  rw [← List.toFinset_card_of_nodup ha.nodup]
  refine Finset.card_le_card_of_forall_subsingleton
    (fun i r => (i.name, r) ∈ (a.scan live.intervals).placed) (fun i hi => ?_) fun r _ => ?_
  · obtain ⟨-, r, hr⟩ := Scan.mem_kept.mp (Finset.mem_filter.mp hi).1
    exact ⟨r, List.mem_toFinset.mpr (hinv.given _ _ hr), hr⟩
  · rintro i ⟨hi, hir⟩ j ⟨hj, hjr⟩
    obtain ⟨hi, hi₁, hi₂⟩ := Finset.mem_filter.mp hi
    obtain ⟨hj, hj₁, hj₂⟩ := Finset.mem_filter.mp hj
    have hi := (Scan.mem_kept.mp hi).1
    have hj := (Scan.mem_kept.mp hj).1
    refine List.inj_on_of_nodup_map (Liveness.nodup_intervals live) hi hj ?_
    by_contra hne
    have hapart := hinv.apart i hi j hj hne r hir hjr
    omega

/-- As many variables have a register as intervals are kept. -/
theorem card_kept (a : Allocator) (live : Liveness) :
    (a.kept live).card = ((a.outcome live).registers.map Prod.fst).toFinset.card := by
  have hinj : Set.InjOn Interval.name (a.kept live : Set Interval) := fun i hi j hj hname =>
    List.inj_on_of_nodup_map (Liveness.nodup_intervals live) (Scan.mem_kept.mp hi).1
      (Scan.mem_kept.mp hj).1 hname
  rw [← Finset.card_image_of_injOn hinj]
  refine congrArg Finset.card (Finset.ext fun x => ?_)
  rw [Finset.mem_image, List.mem_toFinset]
  constructor
  · rintro ⟨i, hi, rfl⟩
    obtain ⟨-, r, hr⟩ := Scan.mem_kept.mp hi
    exact List.mem_map_of_mem hr
  · intro hx
    obtain ⟨⟨x, r⟩, hr, rfl⟩ := List.mem_map.mp hx
    obtain ⟨i, hi, rfl⟩ := List.mem_map.mp ((scan_accounts a live).placed_past hr)
    exact ⟨i, Scan.mem_kept.mpr ⟨hi, r, hr⟩, rfl⟩

end Allocator

/-- **The linear scan spills as few variables as possible.**  Let an allocator have `k`
registers for variables, none of them twice.  If no instruction lies in more than `k` of
some of the intervals of a function, then these are no more than there are variables in
registers; and the intervals of the variables in registers are such a set themselves.  In
particular, if no instruction lies in more than `k` intervals, then nothing is spilled. -/
theorem linear_scan_optimal {α : Type} {fn : Function α} {live : Liveness}
    (hlive : fn.liveness = .ok live) {a : Allocator} (ha : a.WellFormed) :
    ∃ m, a.allocate live = .ok m ∧
      (∀ S : Finset Interval, (∀ i ∈ S, i ∈ live.intervals) →
        (∀ index < fn.body.length,
          (S.filter fun i => i.Covers index).card ≤ a.registers.length) →
          S.card ≤ (m.registers.map Prod.fst).toFinset.card) ∧
      (∃ S : Finset Interval,
        (∀ i, i ∈ S ↔ i ∈ live.intervals ∧ i.name ∈ m.registers.map Prod.fst) ∧
        S.card = (m.registers.map Prod.fst).toFinset.card ∧
        ∀ index, (S.filter fun i => i.Covers index).card ≤ a.registers.length) ∧
      ((∀ index < fn.body.length,
        (live.intervals.filter fun i => i.Covers index).length ≤ a.registers.length) →
          m.slots = []) := by
  have hmost : ∀ S : Finset Interval, (∀ i ∈ S, i ∈ live.intervals) →
      (∀ index < fn.body.length,
        (S.filter fun i => i.Covers index).card ≤ a.registers.length) →
      S.card ≤ ((a.outcome live).registers.map Prod.fst).toFinset.card := by
    intro S hS hbound
    rw [← Function.length_rows hlive] at hbound
    rw [← Allocator.card_kept]
    exact Allocator.card_le_card_kept ha hS (Liveness.bounded_of_rows hS hbound)
  refine ⟨a.outcome live, Allocator.allocate_eq_ok ha live, hmost,
    ⟨a.kept live, fun i => ?_, Allocator.card_kept a live, Allocator.bounded_kept ha live⟩,
    fun hbound => ?_⟩
  · rw [Allocator.kept, Scan.kept, Finset.mem_filter, List.mem_toFinset]
    rfl
  · -- all intervals together are such a set
    have hnodup : live.intervals.Nodup := (Liveness.nodup_intervals live).of_map _
    have hall := hmost live.intervals.toFinset (fun _ => List.mem_toFinset.mp) fun index hindex => by
      have hfilter : (live.intervals.toFinset.filter fun i => i.Covers index)
          = (live.intervals.filter fun i => i.Covers index).toFinset := by
        ext i
        simp
      rw [hfilter, List.toFinset_card_of_nodup (hnodup.filter _)]
      exact hbound index hindex
    rw [List.toFinset_card_of_nodup hnodup] at hall
    have hle := List.toFinset_card_le ((a.outcome live).registers.map Prod.fst)
    have hnames := (Allocator.names_outcome a live).length_eq
    simp only [List.length_append, List.length_map] at hle hnames
    exact List.eq_nil_of_length_eq_zero (by omega)

/-- The sample has five variables and two registers for them. -/
theorem linear_scan_optimal_sample :
    Sample.allocator.WellFormed ∧ ∃ live m, Sample.function.liveness = .ok live ∧
      Sample.allocator.allocate live = .ok m ∧
      ∀ S : Finset Interval, (∀ i ∈ S, i ∈ live.intervals) →
        (∀ index < 5, (S.filter fun i => i.Covers index).card ≤ 2) →
        S.card ≤ (m.registers.map Prod.fst).toFinset.card := by
  obtain ⟨live, hlive⟩ : ∃ live, Sample.function.liveness = .ok live := ⟨_, rfl⟩
  obtain ⟨m, hm, hmost, -, -⟩ := linear_scan_optimal hlive Sample.wellFormed_allocator
  exact ⟨Sample.wellFormed_allocator, live, m, hlive, hm, hmost⟩

end Vapor

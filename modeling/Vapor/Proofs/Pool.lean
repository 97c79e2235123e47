/-
Vapor/Proofs/Pool.lean

Borrowing registers and giving them back keeps a pool tidy: the free registers are
always a part of the declared ones, in the order of declaration.  So a pool that is
idle is the pool it was at the beginning (`Tidy.eq_ofList`).
-/
import Vapor.Machine.Pool
import Vapor.Proofs.Sorting

namespace Vapor

namespace Pool

variable {pool pool' : Pool} {r : Register}

/-- No register is declared twice, and the free ones are in the declared order. -/
structure Tidy (pool : Pool) : Prop where
  nodup : pool.declared.Nodup
  sublist : pool.free.Sublist pool.declared

theorem Tidy.nodup_free (h : pool.Tidy) : pool.free.Nodup :=
  h.nodup.sublist h.sublist

theorem tidy_ofList {rs : List Register} (h : rs.Nodup) : (ofList rs).Tidy :=
  ⟨h, .refl rs⟩

theorem tidy_scratch : scratch.Tidy :=
  tidy_ofList (by decide)

/-! ### Borrowing -/

theorem acquire_eq_ok :
    pool.acquire = .ok (r, pool') ↔
      pool.free = r :: pool'.free ∧ pool'.declared = pool.declared := by
  obtain ⟨declared, free⟩ := pool
  obtain ⟨declared', free'⟩ := pool'
  cases free with
  | nil => simp [acquire]
  | cons s rest =>
    simp only [acquire, Except.ok.injEq, Prod.mk.injEq, mk.injEq, List.cons.injEq]
    constructor
    · rintro ⟨rfl, rfl, rfl⟩
      exact ⟨⟨rfl, rfl⟩, rfl⟩
    · rintro ⟨⟨rfl, rfl⟩, rfl⟩
      exact ⟨rfl, rfl, rfl⟩

theorem Tidy.acquire (h : pool.Tidy) (hacq : pool.acquire = .ok (r, pool')) : pool'.Tidy := by
  obtain ⟨hfree, hdecl⟩ := acquire_eq_ok.mp hacq
  refine ⟨hdecl ▸ h.nodup, ?_⟩
  have hsub := h.sublist
  rw [hfree] at hsub
  rw [hdecl]
  exact (List.sublist_cons_self r _).trans hsub

/-! ### Giving back -/

/-- The order of declaration. -/
def earlier (declared : List Register) (a b : Register) : Bool :=
  declared.idxOf a <= declared.idxOf b

theorem earlier_iff {declared : List Register} (a b : Register) :
    earlier declared a b = true ↔ Order.Preimage declared.idxOf (· ≤ ·) a b :=
  decide_eq_true_iff

theorem release_eq_ok :
    pool.release r = .ok pool' ↔ r ∈ pool.declared ∧ r ∉ pool.free ∧
      pool' = ⟨pool.declared, Sorted.sort (earlier pool.declared) (pool.free ++ [r])⟩ := by
  unfold release
  split
  · rename_i h
    have h' : r ∉ pool.declared := by simpa [contains] using h
    simp [h']
  · rename_i h
    have h' : r ∈ pool.declared := by simpa [contains] using h
    split
    · rename_i hfree
      simp [List.contains_iff_mem.mp hfree]
    · rename_i hfree
      have hfree' : r ∉ pool.free := by simpa using hfree
      constructor
      · intro heq
        exact ⟨h', hfree', (Except.ok.inj heq).symm⟩
      · rintro ⟨-, -, rfl⟩
        rfl

/-- The positions of distinct registers in a list increase along the list. -/
theorem pairwise_idxOf {declared : List Register} (hnodup : declared.Nodup) :
    declared.Pairwise fun a b => declared.idxOf a < declared.idxOf b := by
  refine List.pairwise_iff_getElem.mpr fun i j hi hj hij => ?_
  rwa [hnodup.idxOf_getElem, hnodup.idxOf_getElem]

/-- No two registers stand before each other. -/
theorem antisymm_idxOf (declared : List Register) :
    Std.Antisymm fun a b => declared.idxOf a < declared.idxOf b :=
  ⟨fun _ _ hab hba => absurd hab (Nat.lt_asymm hba)⟩

/-- Sorted by the order of declaration, registers of a pool are a part of the
declared ones. -/
theorem sort_sublist {declared rs : List Register} (hnodup : declared.Nodup) (hrs : rs.Nodup)
    (hsub : rs ⊆ declared) : (Sorted.sort (earlier declared) rs).Sublist declared := by
  rw [Sorted.sort_eq earlier_iff]
  have hperm := List.perm_insertionSort (Order.Preimage declared.idxOf (· ≤ ·)) rs
  have hsorted := List.pairwise_insertionSort (Order.Preimage declared.idxOf (· ≤ ·)) rs
  -- positions are strictly increasing in both lists
  have hstrict : (rs.insertionSort (Order.Preimage declared.idxOf (· ≤ ·))).Pairwise fun a b =>
      declared.idxOf a < declared.idxOf b := by
    refine (hsorted.and (hperm.nodup_iff.mpr hrs)).imp_of_mem fun {a b} ha _ hab => ?_
    have hne : declared.idxOf a ≠ declared.idxOf b := fun heq =>
      hab.2 ((List.idxOf_inj (hsub (hperm.mem_iff.mp ha))).mp heq)
    exact Nat.lt_of_le_of_ne hab.1 hne
  have hanti := antisymm_idxOf declared
  have hsubperm := hperm.subperm.trans (List.subperm_of_subset hrs hsub)
  exact List.sublist_of_subperm_of_pairwise hsubperm hstrict (pairwise_idxOf hnodup)

theorem Tidy.release (h : pool.Tidy) (hrel : pool.release r = .ok pool') :
    pool'.Tidy ∧ pool'.declared = pool.declared ∧ pool'.free.Perm (r :: pool.free) := by
  obtain ⟨hdecl, hfree, rfl⟩ := release_eq_ok.mp hrel
  have hperm : (pool.free ++ [r]).Perm (r :: pool.free) := List.perm_append_singleton r pool.free
  refine ⟨⟨h.nodup, sort_sublist h.nodup ?_ ?_⟩, rfl, ?_⟩
  · exact hperm.nodup_iff.mpr (List.nodup_cons.mpr ⟨hfree, h.nodup_free⟩)
  · intro s hs
    rcases List.mem_append.mp hs with hs | hs
    · exact h.sublist.subset hs
    · rw [List.mem_singleton.mp hs]
      exact hdecl
  · rw [Sorted.sort_eq earlier_iff]
    exact (List.perm_insertionSort _ _).trans hperm

/-! ### Equal pools -/

/-- Tidy pools with the same registers are equal. -/
theorem Tidy.ext (h : pool.Tidy) (h' : pool'.Tidy) (hdecl : pool'.declared = pool.declared)
    (hfree : pool'.free.Perm pool.free) : pool' = pool := by
  have hanti := antisymm_idxOf pool.declared
  have hsorted := (pairwise_idxOf h.nodup).sublist h.sublist
  have hsub := h'.sublist
  rw [hdecl] at hsub
  have heq : pool'.free = pool.free :=
    List.Perm.eq_of_pairwise' ((pairwise_idxOf h.nodup).sublist hsub) hsorted hfree
  obtain ⟨declared, free⟩ := pool
  obtain ⟨declared', free'⟩ := pool'
  exact congr (congrArg Pool.mk hdecl) heq

/-- A tidy pool all of whose registers are free is as it was at the beginning. -/
theorem Tidy.eq_ofList (h : pool.Tidy) (hidle : pool.isIdle = true) :
    pool = ofList pool.declared := by
  have hlen : pool.free.length = pool.declared.length := by simpa [isIdle] using hidle
  have hfree : pool.free = pool.declared := h.sublist.eq_of_length hlen
  obtain ⟨declared, free⟩ := pool
  exact congrArg (Pool.mk declared) hfree

end Pool

end Vapor

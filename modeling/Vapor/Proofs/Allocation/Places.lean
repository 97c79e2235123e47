/-
Vapor/Proofs/Allocation/Places.lean

What an assignment of places must satisfy to be accepted (`ofPlaces_eq_ok`), and
what it then guarantees (`Allocation.WellFormed`): variables live in registers for
variables or in slots above those of the callee-saved registers, and no variable
in both.  All slots of variables lie below the slot count.
-/
import Mathlib.Data.List.Nodup
import Vapor.Allocation.Basic
import Vapor.Proofs.Sorting

namespace Vapor

namespace Allocation

/-- What is checked of an assignment of places. -/
structure WellFormed (m : Allocation) : Prop where
  /-- No variable has two places. -/
  once : ∀ x ∈ m.registers.map Prod.fst, x ∉ m.slots.map Prod.fst
  /-- Variables live in registers for variables only. -/
  allocatable : ∀ x r, (x, r) ∈ m.registers → r.isAllocatable = true
  /-- The slots of variables lie above those of callee-saved registers. -/
  above : ∀ x k, (x, k) ∈ m.slots → m.calleeSaved.length ≤ k

/-! ### Acceptance -/

theorem least?_eq_none {xs : List String} : least? xs = none ↔ xs = [] := by
  rw [least?, Sorted.sort_eq fun _ _ => Iff.rfl, List.head?_eq_none_iff]
  constructor
  · intro h
    exact (h ▸ List.perm_insertionSort _ xs).symm.eq_nil
  · rintro rfl
    rfl

/-- An assignment of places is accepted exactly if no variable has two places,
all registers are for variables, and no slot is needed for a callee-saved register. -/
theorem ofPlaces_eq_ok {registers : List (String × Register)} {slots : List (String × Int)}
    {m : Allocation} :
    ofPlaces registers slots = .ok m ↔
      m = ⟨registers, slots.map fun x => (x.1, x.2.toNat)⟩ ∧
        (∀ x ∈ registers.map Prod.fst, x ∉ slots.map Prod.fst) ∧
        (∀ x ∈ registers, x.2.isAllocatable = true) ∧
        ∀ x ∈ slots, ((calleeSavedIn registers).length : Int) ≤ x.2 := by
  have honce : least? ((registers.map Prod.fst).filter fun x => (slots.map Prod.fst).contains x)
      = none ↔ ∀ x ∈ registers.map Prod.fst, x ∉ slots.map Prod.fst := by
    simp only [least?_eq_none, List.filter_eq_nil_iff, List.contains_iff_mem]
  have halloc : registers.find? (fun x => !x.2.isAllocatable) = none ↔
      ∀ x ∈ registers, x.2.isAllocatable = true := by
    simp [List.find?_eq_none]
  have habove : slots.find? (fun x => x.2 < ((calleeSavedIn registers).length : Int)) = none ↔
      ∀ x ∈ slots, ((calleeSavedIn registers).length : Int) ≤ x.2 := by
    simp [List.find?_eq_none]
  rw [← honce, ← halloc, ← habove]
  unfold ofPlaces
  constructor
  · intro h
    dsimp only at h
    split at h
    · cases h
    · rename_i h₁
      split at h
      · cases h
      · rename_i h₂
        split at h
        · cases h
        · rename_i h₃
          exact ⟨(Except.ok.inj h).symm, h₁, h₂, h₃⟩
  · rintro ⟨rfl, h₁, h₂, h₃⟩
    simp only [h₁, h₂, h₃]

theorem wellFormed_of_ofPlaces {registers : List (String × Register)}
    {slots : List (String × Int)} {m : Allocation} (h : ofPlaces registers slots = .ok m) :
    m.WellFormed := by
  obtain ⟨rfl, honce, halloc, habove⟩ := ofPlaces_eq_ok.mp h
  refine ⟨fun x hx => ?_, fun x r hr => halloc _ hr, fun x k hk => ?_⟩
  · rw [List.map_map]
    exact honce x hx
  · obtain ⟨⟨y, offset⟩, hmem, heq⟩ := List.mem_map.mp hk
    obtain ⟨-, rfl⟩ := Prod.mk.inj heq
    have hle := habove _ hmem
    show (calleeSavedIn registers).length ≤ offset.toNat
    omega

/-! ### Look-up -/

theorem mem_of_lookup {β : Type} {xs : List (String × β)} {x : String} {b : β}
    (h : xs.lookup x = some b) : (x, b) ∈ xs := by
  obtain ⟨l₁, l₂, rfl, -⟩ := List.lookup_eq_some_iff.mp h
  exact List.mem_append_right _ List.mem_cons_self

theorem exists_lookup {β : Type} {xs : List (String × β)} {x : String}
    (h : x ∈ xs.map Prod.fst) : ∃ b, xs.lookup x = some b := by
  obtain ⟨p, hp, rfl⟩ := List.mem_map.mp h
  exact Option.isSome_iff_exists.mp (List.lookup_isSome_iff.mpr ⟨p, hp, beq_self_eq_true _⟩)

/-- Where no name occurs twice, looking up finds whatever there is. -/
theorem lookup_of_mem {β : Type} {xs : List (String × β)} (hnodup : (xs.map Prod.fst).Nodup)
    {x : String} {b : β} (h : (x, b) ∈ xs) : xs.lookup x = some b := by
  obtain ⟨c, hc⟩ := exists_lookup (List.mem_map_of_mem h)
  have heq := List.inj_on_of_nodup_map hnodup h (mem_of_lookup hc) rfl
  rw [hc, (Prod.mk.inj heq).2]

variable {m : Allocation} {x : String}

theorem location?_eq_register {r : Register} :
    m.location? x = some (.register r) ↔ m.register? x = some r := by
  unfold location?
  split
  · rename_i r' h
    rw [h, Option.some.injEq, Option.some.injEq, Location.register.injEq]
  · rename_i h
    rw [h]
    simp

/-- A variable in a slot has no register. -/
theorem location?_eq_slot {k : Nat} :
    m.location? x = some (.slot k) ↔ m.register? x = none ∧ m.slot? x = some k := by
  unfold location?
  split
  · rename_i r h
    simp [h]
  · rename_i h
    simp [h]

/-- In an accepted assignment a slot is enough to know that there is no register. -/
theorem WellFormed.register?_eq_none (hm : m.WellFormed) {k : Nat} (h : m.slot? x = some k) :
    m.register? x = none := by
  by_contra hne
  obtain ⟨r, hr⟩ := Option.ne_none_iff_exists'.mp hne
  exact hm.once x (List.mem_map_of_mem (mem_of_lookup hr)) (List.mem_map_of_mem (mem_of_lookup h))

theorem WellFormed.slot?_eq_none (hm : m.WellFormed) {r : Register}
    (h : m.location? x = some (.register r)) : m.slot? x = none := by
  rcases hk : m.slot? x with - | k
  · rfl
  · rw [location?_eq_register, hm.register?_eq_none hk] at h
    cases h

/-- A variable has a place if it is listed. -/
theorem exists_location? :
    (∃ l, m.location? x = some l) ↔ x ∈ m.registers.map Prod.fst ++ m.slots.map Prod.fst := by
  rw [List.mem_append]
  constructor
  · rintro ⟨r | k, hl⟩
    · exact .inl (List.mem_map_of_mem (mem_of_lookup (location?_eq_register.mp hl)))
    · exact .inr (List.mem_map_of_mem (mem_of_lookup (location?_eq_slot.mp hl).2))
  · rintro (h | h)
    · obtain ⟨r, hr⟩ := exists_lookup h
      exact ⟨.register r, location?_eq_register.mpr hr⟩
    · obtain ⟨k, hk⟩ := exists_lookup h
      rcases hr : m.register? x with - | r
      · exact ⟨.slot k, location?_eq_slot.mpr ⟨hr, hk⟩⟩
      · exact ⟨.register r, location?_eq_register.mpr hr⟩

theorem WellFormed.isAllocatable (hm : m.WellFormed) {r : Register}
    (h : m.location? x = some (.register r)) : r.isAllocatable = true :=
  hm.allocatable x r (mem_of_lookup (location?_eq_register.mp h))

theorem WellFormed.length_le_slot (hm : m.WellFormed) {k : Nat}
    (h : m.location? x = some (.slot k)) : m.calleeSaved.length ≤ k :=
  hm.above x k (mem_of_lookup (location?_eq_slot.mp h).2)

/-! ### Callee-saved registers in use -/

theorem mem_calleeSavedIn {registers : List (String × Register)} {r : Register} :
    r ∈ calleeSavedIn registers ↔ r.isCalleeSaved = true ∧ ∃ x, (x, r) ∈ registers := by
  rw [calleeSavedIn, List.mem_filter, List.contains_iff_mem, List.mem_map]
  refine and_congr ?_ ⟨?_, ?_⟩
  · constructor
    · intro h
      obtain ⟨i, -, rfl⟩ := List.mem_map.mp h
      rfl
    · intro h
      cases r with
      | calleeSaved i => exact List.mem_map_of_mem (List.mem_finRange i)
      | argument | result | callerSaved | scratch => cases h
  · rintro ⟨⟨x, r'⟩, hx, rfl⟩
    exact ⟨x, hx⟩
  · rintro ⟨x, hx⟩
    exact ⟨(x, r), hx, rfl⟩

theorem nodup_calleeSavedIn (registers : List (String × Register)) :
    (calleeSavedIn registers).Nodup := by
  refine List.Nodup.filter _ ?_
  decide

theorem mem_calleeSaved_of_location? {r : Register} (h : m.location? x = some (.register r))
    (hr : r.isCalleeSaved = true) : r ∈ m.calleeSaved :=
  mem_calleeSavedIn.mpr ⟨hr, x, mem_of_lookup (location?_eq_register.mp h)⟩

/-! ### The slot count -/

theorem le_foldl_max_succ (slots : List (String × Nat)) (init : Nat) :
    init ≤ slots.foldl (fun size x => max size (x.2 + 1)) init ∧
      ∀ x ∈ slots, x.2 < slots.foldl (fun size x => max size (x.2 + 1)) init := by
  induction slots generalizing init with
  | nil => simp
  | cons y slots ih =>
    obtain ⟨hinit, hmem⟩ := ih (max init (y.2 + 1))
    rw [List.foldl_cons]
    refine ⟨by omega, fun x hx => ?_⟩
    rcases List.mem_cons.mp hx with rfl | hx
    · omega
    · exact hmem x hx

theorem length_calleeSaved_le (m : Allocation) : m.calleeSaved.length ≤ m.slotCount :=
  (le_foldl_max_succ m.slots _).1

theorem slot_lt_slotCount {k : Nat} (h : m.location? x = some (.slot k)) : k < m.slotCount :=
  (le_foldl_max_succ m.slots _).2 _ (mem_of_lookup (location?_eq_slot.mp h).2)

/-- Slots that follow those of the callee-saved registers without gaps. -/
theorem foldl_max_zipIdx (names : List String) (base : Nat) :
    (names.zipIdx base).foldl (fun size x => max size (x.2 + 1)) base = base + names.length := by
  induction names generalizing base with
  | nil => rfl
  | cons x names ih =>
    rw [List.zipIdx_cons, List.foldl_cons, show max base (base + 1) = base + 1 by omega, ih,
      List.length_cons]
    omega

end Allocation

end Vapor

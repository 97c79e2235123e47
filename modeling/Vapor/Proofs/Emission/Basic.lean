/-
Vapor/Proofs/Emission/Basic.lean

Generators that succeed.  `Gives` says with which lines, pool and result, and there
is a lemma for each way of building a generator, so that a generator is taken apart
by rewriting.  All registers that are borrowed while a function is written are
scratch registers (`Pool.Ready`).
-/
import Vapor.Emission.Function
import Vapor.Proofs.Allocation.Places
import Vapor.Proofs.Pool

namespace Vapor

/-! ### Scratch registers -/

theorem Register.not_mem_scratches {r : Register} (h : r.isAllocatable = true) :
    r ∉ Register.scratches := by
  intro hmem
  obtain ⟨i, -, rfl⟩ := List.mem_map.mp hmem
  cases h

/-- A pool of the scratch registers, some of which may be in use. -/
structure Pool.Ready (pool : Pool) : Prop where
  tidy : pool.Tidy
  declared : pool.declared = Register.scratches

namespace Pool

variable {pool pool' : Pool} {r : Register}

theorem ready_scratch : scratch.Ready :=
  ⟨tidy_scratch, rfl⟩

theorem Ready.mem_scratches (h : pool.Ready) (hr : r ∈ pool.free) : r ∈ Register.scratches :=
  h.declared ▸ h.tidy.sublist.subset hr

theorem Ready.contains_iff (h : pool.Ready) : pool.contains r = true ↔ r ∈ Register.scratches := by
  rw [contains, h.declared, List.contains_iff_mem]

theorem Ready.acquire (h : pool.Ready) (hacq : pool.acquire = .ok (r, pool')) : pool'.Ready :=
  ⟨h.tidy.acquire hacq, (acquire_eq_ok.mp hacq).2.trans h.declared⟩

theorem Ready.release (h : pool.Ready) (hrel : pool.release r = .ok pool') : pool'.Ready :=
  ⟨(h.tidy.release hrel).1, (h.tidy.release hrel).2.1.trans h.declared⟩

theorem Ready.ext (h : pool.Ready) (h' : pool'.Ready) (hfree : pool'.free.Perm pool.free) :
    pool' = pool :=
  h.tidy.ext h'.tidy (h'.declared.trans h.declared.symm) hfree

/-- An idle pool of the scratch registers is the one that everything starts with. -/
theorem Ready.eq_scratch (h : pool.Ready) (hidle : pool.isIdle = true) : pool = scratch := by
  rw [h.tidy.eq_ofList hidle, h.declared, scratch]

end Pool

namespace Emit

open Machine

/-! ### Success -/

section Gives

variable {ε β γ : Type} {pool pool' : Pool} {ls : List Line}

/-- The generator succeeds with these lines, this pool and this result. -/
def Gives (g : Emit ε β) (pool : Pool) (ls : List Line) (pool' : Pool) (b : β) : Prop :=
  g pool = ⟨ls, pool', .ok b⟩

theorem gives_pure {b c : β} :
    (pure b : Emit ε β).Gives pool ls pool' c ↔ ls = [] ∧ pool' = pool ∧ c = b := by
  show (⟨[], pool, .ok b⟩ : Emission ε β) = ⟨ls, pool', .ok c⟩ ↔ _
  rw [Emission.mk.injEq, Except.ok.injEq, @eq_comm _ [], @eq_comm _ pool, @eq_comm _ b]

theorem gives_fail {e : ε} {b : β} : (fail e : Emit ε β).Gives pool ls pool' b ↔ False := by
  constructor
  · intro h
    cases congrArg Emission.result h
  · exact False.elim

/-- Both parts succeed, and the lines of the second follow those of the first. -/
theorem gives_bind {g : Emit ε β} {f : β → Emit ε γ} {c : γ} :
    (g >>= f).Gives pool ls pool' c ↔
      ∃ b pool₁ ls₁ ls₂, g.Gives pool ls₁ pool₁ b ∧ (f b).Gives pool₁ ls₂ pool' c ∧
        ls = ls₁ ++ ls₂ := by
  constructor
  · intro h
    rcases hg : g pool with ⟨ls₁, pool₁, e | b⟩
    · have hres := congrArg Emission.result h
      rw [bind_of_error (congrArg Emission.result hg)] at hres
      cases hres
    · have heq : (g >>= f) pool = _ := bind_of_ok (congrArg Emission.result hg)
      rw [hg] at heq
      rw [Gives, heq] at h
      obtain ⟨hls, hpool, hres⟩ := Emission.mk.inj h
      refine ⟨b, pool₁, ls₁, (f b pool₁).lines, hg, ?_, hls.symm⟩
      show f b pool₁ = _
      rw [← hpool, ← hres]
  · rintro ⟨b, pool₁, ls₁, ls₂, hg, hf, rfl⟩
    have heq : (g >>= f) pool = _ := bind_of_ok (congrArg Emission.result hg)
    rw [Gives] at hg hf ⊢
    rw [heq, hg, hf]

theorem gives_lines {ls' : List Line} {b : Unit} :
    (lines ls' : Emit ε Unit).Gives pool ls pool' b ↔ ls = ls' ∧ pool' = pool := by
  show (⟨ls', pool, .ok ()⟩ : Emission ε Unit) = ⟨ls, pool', .ok b⟩ ↔ _
  rw [Emission.mk.injEq, @eq_comm _ ls', @eq_comm _ pool]
  exact and_congr_right fun _ => and_iff_left rfl

theorem gives_line {l : Line} {b : Unit} :
    (line l : Emit ε Unit).Gives pool ls pool' b ↔ ls = [l] ∧ pool' = pool :=
  gives_lines

theorem gives_assign {dest : Dest} {source : Source} {b : Unit} :
    (assign dest source : Emit ε Unit).Gives pool ls pool' b ↔
      ls = [.assign dest source] ∧ pool' = pool :=
  gives_lines

theorem gives_now {b : Pool} :
    (Emit.pool : Emit ε Pool).Gives pool ls pool' b ↔ ls = [] ∧ pool' = pool ∧ b = pool := by
  show (⟨[], pool, .ok pool⟩ : Emission ε Pool) = ⟨ls, pool', .ok b⟩ ↔ _
  rw [Emission.mk.injEq, Except.ok.injEq, @eq_comm _ [], @eq_comm _ pool, @eq_comm _ pool]

end Gives

/-! ### Borrowing -/

section Borrowing

variable {α : Type} {pool pool' : Pool} {ls : List Line} {r : Register}

theorem gives_acquire :
    (acquire : Gen α Register).Gives pool ls pool' r ↔
      ls = [] ∧ pool.acquire = .ok (r, pool') := by
  unfold Gives acquire
  rcases hacq : pool.acquire with e | ⟨r', rest⟩
  · simp
  · simp only [Emission.mk.injEq, Except.ok.injEq, Prod.mk.injEq]
    constructor
    · rintro ⟨rfl, rfl, rfl⟩
      exact ⟨rfl, rfl, rfl⟩
    · rintro ⟨rfl, rfl, rfl⟩
      exact ⟨rfl, rfl, rfl⟩

theorem gives_release {b : Unit} :
    (release r : Gen α Unit).Gives pool ls pool' b ↔
      ls = [] ∧ pool.release r = .ok pool' := by
  unfold Gives release
  rcases hrel : pool.release r with e | rest
  · simp
  · simp [eq_comm]

/-- A register is given back if it is a scratch register. -/
theorem gives_giveBack (hpool : pool.Ready) {b : Unit} :
    (giveBack r : Gen α Unit).Gives pool ls pool' b ↔
      ls = [] ∧ if r ∈ Register.scratches then pool.release r = .ok pool' else pool' = pool := by
  unfold giveBack
  rw [gives_bind]
  simp only [gives_now]
  constructor
  · rintro ⟨_, _, ls₁, ls₂, ⟨rfl, rfl, rfl⟩, h, rfl⟩
    split at h
    · rename_i hc
      rw [gives_release] at h
      rw [if_pos (hpool.contains_iff.mp hc)]
      exact ⟨h.1, h.2⟩
    · rename_i hc
      rw [gives_pure] at h
      rw [if_neg fun hmem => hc (hpool.contains_iff.mpr hmem)]
      exact ⟨h.1, h.2.1⟩
  · rintro ⟨rfl, h⟩
    refine ⟨pool, pool, [], [], ⟨rfl, rfl, rfl⟩, ?_, rfl⟩
    split
    · rename_i hc
      rw [if_pos (hpool.contains_iff.mp hc)] at h
      exact gives_release.mpr ⟨rfl, h⟩
    · rename_i hc
      rw [if_neg fun hmem => hc (hpool.contains_iff.mpr hmem)] at h
      exact gives_pure.mpr ⟨rfl, h, rfl⟩

/-- Giving back writes nothing. -/
theorem giveBack_spec (hpool : pool.Ready) {b : Unit}
    (h : (giveBack r : Gen α Unit).Gives pool ls pool' b) : ls = [] ∧ pool'.Ready := by
  obtain ⟨hls, h⟩ := (gives_giveBack hpool).mp h
  refine ⟨hls, ?_⟩
  split at h
  · exact hpool.release h
  · exact h ▸ hpool

end Borrowing

end Emit

end Vapor

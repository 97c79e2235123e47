/-
Vapor/Proofs/Semantics/Basic.lean

What both languages have in common.  The values and the operations are left open:
an interpretation says what operations and accesses to memory do, as functions of
the values of their operands and of a world that they may change.  Whatever can be
seen from outside is recorded, so that two runs that leave the same `Outside`
behind have made the same operations, accesses and jumps in the same order.

`steps_simulate` turns a simulation of single steps into one of whole runs.
-/

namespace Vapor

/-! ### Runs -/

section Runs

variable {σ τ : Type}

/-- The state after so many steps, if they can be made. -/
def steps (step : σ → Option σ) : Nat → σ → Option σ
  | 0, s => some s
  | n + 1, s => (step s).bind (steps step n)

variable {f : σ → Option σ} {g : τ → Option τ}

theorem steps_add (f : σ → Option σ) (m n : Nat) (s : σ) :
    steps f (m + n) s = (steps f m s).bind (steps f n) := by
  induction m generalizing s with
  | zero => rw [Nat.zero_add, steps, Option.bind_some]
  | succ m ih =>
    rw [Nat.succ_add, steps, steps, Option.bind_assoc]
    exact congrArg _ (funext ih)

/-- Two runs in a row. -/
theorem steps_trans {m n : Nat} {s t u : σ} (hst : steps f m s = some t)
    (htu : steps f n t = some u) : steps f (m + n) s = some u := by
  rw [steps_add, hst, Option.bind_some, htu]

/-- A run has all shorter runs within it. -/
theorem steps_of_le {m n : Nat} (hle : m ≤ n) {s t : σ} (h : steps f n s = some t) :
    ∃ u, steps f m s = some u := by
  rw [← Nat.add_sub_of_le hle, steps_add] at h
  obtain ⟨u, hu, -⟩ := Option.bind_eq_some_iff.mp h
  exact ⟨u, hu⟩

theorem steps_one {s t : σ} (h : f s = some t) : steps f 1 s = some t := by
  rw [steps, h, Option.bind_some, steps]

/-- A run of a part is a run of the whole. -/
theorem steps_embed (e : σ → τ) (h : ∀ s s', f s = some s' → g (e s) = some (e s')) {n : Nat}
    {s s' : σ} (hrun : steps f n s = some s') : steps g n (e s) = some (e s') := by
  induction n generalizing s with
  | zero =>
    obtain rfl := Option.some.inj hrun
    rfl
  | succ n ih =>
    obtain ⟨u, hu, hrun⟩ := Option.bind_eq_some_iff.mp hrun
    rw [steps, h s u hu, Option.bind_some, ih hrun]

/-- If every step of one machine is matched by one or more of another, then every
run is matched by a run that is at least as long. -/
theorem steps_simulate {R : σ → τ → Prop}
    (h : ∀ s t s', R s t → f s = some s' → ∃ k t', 0 < k ∧ steps g k t = some t' ∧ R s' t')
    {n : Nat} {s s' : σ} {t : τ} (hR : R s t) (hrun : steps f n s = some s') :
    ∃ k t', n ≤ k ∧ steps g k t = some t' ∧ R s' t' := by
  induction n generalizing s t with
  | zero =>
    obtain rfl := Option.some.inj hrun
    exact ⟨0, t, Nat.le_refl 0, rfl, hR⟩
  | succ n ih =>
    obtain ⟨u, hu, hrun⟩ := Option.bind_eq_some_iff.mp hrun
    obtain ⟨k, t₁, hk, ht₁, hR₁⟩ := h s t u hR hu
    obtain ⟨l, t₂, hl, ht₂, hR₂⟩ := ih hR₁ hrun
    exact ⟨k + l, t₂, by omega, steps_trans ht₁ ht₂, hR₂⟩

end Runs

/-! ### Interpretations -/

/-- What the languages leave open, over values `V` and a world `W`. -/
structure Interp (V W : Type) where
  int : Int → V
  text : String → V
  /-- The address of a label. -/
  label : String → V
  isTrue : V → Bool
  /-- The function at an address. -/
  function? : V → Option String
  /-- What an operation returns, and the world it leaves. -/
  apply : String → List V → W → V × W
  /-- What is read at an offset from an address, and the world that is left. -/
  read : V → Int → W → V × W
  /-- The world after a value has been written. -/
  write : V → Int → V → W → W

/-- What can be seen from outside. -/
inductive Event (V : Type) where
  | applied (op : String) (args : List V) (result : V)
  | read (base : V) (offset : Int) (result : V)
  | written (base : V) (offset : Int) (value : V)
  | branched (test : V) (taken : Bool)

/-- The world, and what has been seen so far, the latest first. -/
structure Outside (V W : Type) where
  world : W
  events : List (Event V)

namespace Interp

variable {V W : Type}

/-- Applies an operation. -/
def applyTo (I : Interp V W) (op : String) (args : List V) (o : Outside V W) :
    V × Outside V W :=
  let r := I.apply op args o.world
  (r.1, ⟨r.2, .applied op args r.1 :: o.events⟩)

/-- Reads from memory. -/
def readFrom (I : Interp V W) (base : V) (offset : Int) (o : Outside V W) : V × Outside V W :=
  let r := I.read base offset o.world
  (r.1, ⟨r.2, .read base offset r.1 :: o.events⟩)

/-- Writes to memory. -/
def writeTo (I : Interp V W) (base : V) (offset : Int) (v : V) (o : Outside V W) :
    Outside V W :=
  ⟨I.write base offset v o.world, .written base offset v :: o.events⟩

/-- Decides whether a conditional jump is taken. -/
def branch (I : Interp V W) (positive : Bool) (test : V) (o : Outside V W) :
    Bool × Outside V W :=
  let taken := I.isTrue test == positive
  (taken, { o with events := .branched test taken :: o.events })

end Interp

/-- What control is handed to: a function by its name, or the one at an address. -/
inductive Entry (V : Type) where
  | named (name : String)
  | address (v : V)

/-- The name of the function. -/
def Entry.name? {V W : Type} (I : Interp V W) : Entry V → Option String
  | named name => some name
  | address v => I.function? v

end Vapor

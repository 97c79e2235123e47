/-
Vapor/Emission/Basic.lean

Code generators.  A generator borrows registers from a pool, writes lines and
ends with a result or a failure.  The lines that were written and the pool are
there at the end in either case, so that a failure shows how far it got.
-/
import Vapor.Machine.Line
import Vapor.Machine.Pool

namespace Vapor

/-- Why a function cannot be written. -/
inductive EmitError (α : Type) where
  /-- A variable has no place. -/
  | noLocation (name : String) (note : α)
  /-- The scratch registers do not suffice, or are not given back. -/
  | pool (cause : PoolError)
deriving DecidableEq, Repr

/-- The message for the user. -/
def EmitError.message : EmitError Span → String
  | noLocation name note => note.locate s!"variable '{name}' has no allocated location"
  | pool cause => cause.message

/-- What a generator leaves behind. -/
structure Emission (ε β : Type) where
  /-- The lines that were written. -/
  lines : List Machine.Line
  /-- The pool at the end. -/
  pool : Pool
  /-- The result. -/
  result : Except ε β

/-- A code generator. -/
def Emit (ε β : Type) : Type :=
  Pool → Emission ε β

namespace Emit

variable {ε β γ : Type}

/-- Runs a generator. -/
def run (g : Emit ε β) (pool : Pool) : Emission ε β :=
  g pool

/-- The generator that writes nothing. -/
protected def pure (b : β) : Emit ε β :=
  fun pool => ⟨[], pool, .ok b⟩

/-- One generator after another, which may depend on the result of the first. -/
protected def bind (g : Emit ε β) (f : β → Emit ε γ) : Emit ε γ :=
  fun pool =>
    let first := g pool
    match first.result with
    | .error e => ⟨first.lines, first.pool, .error e⟩
    | .ok b =>
      let second := f b first.pool
      ⟨first.lines ++ second.lines, second.pool, second.result⟩

instance : Monad (Emit ε) where
  pure := Emit.pure
  bind := Emit.bind

/-- A generator that fails is not followed by anything. -/
theorem bind_of_error {g : Emit ε β} {f : β → Emit ε γ} {pool : Pool} {e : ε}
    (h : (g pool).result = .error e) :
    (g >>= f) pool = ⟨(g pool).lines, (g pool).pool, .error e⟩ := by
  show Emit.bind g f pool = _
  simp only [Emit.bind, h]

/-- A generator that succeeds is followed by the next one. -/
theorem bind_of_ok {g : Emit ε β} {f : β → Emit ε γ} {pool : Pool} {b : β}
    (h : (g pool).result = .ok b) :
    (g >>= f) pool = ⟨(g pool).lines ++ (f b (g pool).pool).lines, (f b (g pool).pool).pool,
      (f b (g pool).pool).result⟩ := by
  show Emit.bind g f pool = _
  simp only [Emit.bind, h]

/-- Doing nothing afterwards changes nothing. -/
protected theorem bind_pure (g : Emit ε β) : Emit.bind g Emit.pure = g := by
  funext pool
  rcases h : g pool with ⟨lines, rest, result⟩
  cases result <;> simp [Emit.bind, Emit.pure, h]

/-- Generators may be grouped in any way. -/
protected theorem bind_assoc {δ : Type} (g : Emit ε β) (f : β → Emit ε γ) (h : γ → Emit ε δ) :
    Emit.bind (Emit.bind g f) h = Emit.bind g fun b => Emit.bind (f b) h := by
  funext pool
  cases hg : (g pool).result with
  | error e => simp [Emit.bind, hg]
  | ok b => cases hf : (f b (g pool).pool).result <;> simp [Emit.bind, hg, hf]

instance : LawfulMonad (Emit ε) :=
  LawfulMonad.mk' _ Emit.bind_pure (fun _ _ => rfl) Emit.bind_assoc

/-- Fails. -/
def fail (e : ε) : Emit ε β :=
  fun pool => ⟨[], pool, .error e⟩

/-- Writes lines. -/
def lines (ls : List Machine.Line) : Emit ε Unit :=
  fun pool => ⟨ls, pool, .ok ()⟩

/-- Writes a line. -/
def line (l : Machine.Line) : Emit ε Unit :=
  lines [l]

/-- Writes an assignment. -/
def assign (dest : Machine.Dest) (source : Machine.Source) : Emit ε Unit :=
  line (.assign dest source)

/-- The pool as it is now. -/
def pool : Emit ε Pool :=
  fun pool => ⟨[], pool, .ok pool⟩

variable {α : Type}

/-- Borrows a register. -/
def acquire : Emit (EmitError α) Register :=
  fun pool =>
    match pool.acquire with
    | .error e => ⟨[], pool, .error (.pool e)⟩
    | .ok (r, rest) => ⟨[], rest, .ok r⟩

/-- Gives a register back. -/
def release (r : Register) : Emit (EmitError α) Unit :=
  fun pool =>
    match pool.release r with
    | .error e => ⟨[], pool, .error (.pool e)⟩
    | .ok rest => ⟨[], rest, .ok ()⟩

/-- Gives a register back if it is borrowed from the pool. -/
def giveBack (r : Register) : Emit (EmitError α) Unit := do
  if (← pool).contains r then release r

end Emit

end Vapor

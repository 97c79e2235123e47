/-
Vapor/Proofs/Json/Strings.lean

Strings and numbers in a JSON text can be read back.  An escaped character is told from what
follows by its first characters: `unescape` finds the character again (`unescape_escapeChar`), also
one that is written in two halves, since no character has a code in the range of the halves.  So a
string is known from its text whatever stands behind it (`quote_append_inj`), and a number is known
if no digit stands behind it (`toString_append_inj`).
-/
import Vapor.Json.Basic
import Vapor.Proofs.Source.Numbers

namespace Vapor

namespace Text

/-- One digit more, if there is one at least. -/
theorem hex_succ {width : Nat} (hwidth : 0 < width) (n : Nat) :
    hex (width + 1) n = hex width (n / 16) ++ [(n % 16).digitChar] := by
  unfold hex
  rw [Nat.toDigits_eq_if (n := n) (by decide)]
  split
  · -- one digit: the quotient is zero, which also has one
    rename_i hn
    rw [Nat.div_eq_of_lt hn, Nat.mod_eq_of_lt hn, Nat.toDigits_zero]
    obtain ⟨k, rfl⟩ := Nat.exists_eq_add_of_lt hwidth
    simp [List.replicate_succ']
  · simp

end Text

namespace Json

open Text

/-! ### Characters -/

/-- The value of a hexadecimal digit. -/
def digitValue (c : Char) : Nat :=
  if c.isDigit then c.toNat - 48 else c.toNat - 87

/-- The value of four hexadecimal digits. -/
def unitValue (a b c d : Char) : Nat :=
  4096 * digitValue a + 256 * digitValue b + 16 * digitValue c + digitValue d

theorem digitValue_digitChar {n : Nat} (h : n < 16) : digitValue n.digitChar = n := by
  revert n
  decide

/-- Sixteen bits are written with four digits. -/
theorem exists_escapeUnit_eq {n : Nat} (h : n < 0x10000) :
    ∃ a b c d, escapeUnit n = ['\\', 'u', a, b, c, d] ∧ unitValue a b c d = n := by
  refine ⟨(n / 4096).digitChar, (n / 256 % 16).digitChar, (n / 16 % 16).digitChar,
    (n % 16).digitChar, ?_, ?_⟩
  · have hone : hex 1 (n / 16 / 16 / 16) = [(n / 4096).digitChar] := by
      have hlt : n / 4096 < 16 := by omega
      rw [Nat.div_div_eq_div_mul, Nat.div_div_eq_div_mul, hex, Nat.toDigits_of_lt_base hlt]
      rfl
    rw [escapeUnit, hex_succ (by decide), hex_succ (by decide), hex_succ (by decide), hone,
      Nat.div_div_eq_div_mul]
    rfl
  · rw [unitValue, digitValue_digitChar (by omega), digitValue_digitChar (by omega),
      digitValue_digitChar (by omega), digitValue_digitChar (by omega)]
    omega

/-- A character with its first half behind it, read from the second one. -/
def unescapeHalf (high : Nat) : List Char → Option (Char × List Char)
  | '\\' :: 'u' :: a :: b :: c :: d :: rest =>
    some (.ofNat (0x10000 + 0x400 * (high - 0xD800) + (unitValue a b c d - 0xDC00)), rest)
  | _ => none

/-- The character that an escape stands for, read behind its backslash. -/
def unescapeMark : List Char → Option (Char × List Char)
  | 'u' :: a :: b :: c :: d :: rest =>
    if 0xD800 ≤ unitValue a b c d ∧ unitValue a b c d < 0xDC00 then
      unescapeHalf (unitValue a b c d) rest
    else some (.ofNat (unitValue a b c d), rest)
  | 'n' :: rest => some ('\n', rest)
  | 'r' :: rest => some ('\r', rest)
  | 't' :: rest => some ('\t', rest)
  | 'b' :: rest => some ('\x08', rest)
  | 'f' :: rest => some ('\x0c', rest)
  | c :: rest => some (c, rest)
  | [] => none

/-- The first character that stands in a string, and the text behind it; none at the end of the
string. -/
def unescape : List Char → Option (Char × List Char)
  | [] => none
  | c :: rest =>
    if c = '"' then none else if c = '\\' then unescapeMark rest else some (c, rest)

/-- The codes of characters leave out those of the halves. -/
theorem toNat_lt_or_lt (c : Char) :
    c.toNat < 0xD800 ∨ 0xDFFF < c.toNat ∧ c.toNat < 0x110000 :=
  c.valid

theorem unescape_unit {c : Char} (hc : c.toNat < 0x10000) (rest : List Char) :
    unescape (escapeUnit c.toNat ++ rest) = some (c, rest) := by
  obtain ⟨x, y, z, w, heq, hvalue⟩ := exists_escapeUnit_eq hc
  -- no character is taken for a first half
  have hwhole : ¬(0xD800 ≤ unitValue x y z w ∧ unitValue x y z w < 0xDC00) := by
    have := toNat_lt_or_lt c
    omega
  rw [heq]
  show unescapeMark ('u' :: x :: y :: z :: w :: rest) = _
  rw [unescapeMark, if_neg hwhole, hvalue, Char.ofNat_toNat]

theorem unescape_halves {c : Char} (hc : 0x10000 ≤ c.toNat) (rest : List Char) :
    unescape (escapeUnit (0xD800 + (c.toNat - 0x10000) / 0x400) ++
      escapeUnit (0xDC00 + (c.toNat - 0x10000) % 0x400) ++ rest) = some (c, rest) := by
  have hrange := toNat_lt_or_lt c
  obtain ⟨x, y, z, w, hhigh, hvalue⟩ :=
    exists_escapeUnit_eq (n := 0xD800 + (c.toNat - 0x10000) / 0x400) (by omega)
  obtain ⟨x', y', z', w', hlow, hvalue'⟩ :=
    exists_escapeUnit_eq (n := 0xDC00 + (c.toNat - 0x10000) % 0x400) (by omega)
  have hhalf : 0xD800 ≤ unitValue x y z w ∧ unitValue x y z w < 0xDC00 := by omega
  have hjoin : 0x10000 + 0x400 * (unitValue x y z w - 0xD800) + (unitValue x' y' z' w' - 0xDC00) =
      c.toNat := by omega
  rw [hhigh, hlow]
  show unescapeMark ('u' :: x :: y :: z :: w :: '\\' :: 'u' :: x' :: y' :: z' :: w' :: rest) = _
  rw [unescapeMark, if_pos hhalf, unescapeHalf, hjoin, Char.ofNat_toNat]

/-- **A character is read back** from its escape, whatever follows. -/
theorem unescape_escapeChar (c : Char) (rest : List Char) :
    unescape (escapeChar c ++ rest) = some (c, rest) := by
  by_cases hmark : c = '"' ∨ c = '\\'
  · obtain rfl | rfl := hmark <;> rfl
  by_cases hletter : c = '\n' ∨ c = '\r' ∨ c = '\t' ∨ c = '\x08' ∨ c = '\x0c'
  · obtain rfl | rfl | rfl | rfl | rfl := hletter <;> rfl
  -- what is left is printed as it is, or by its code in one piece or two
  simp only [not_or] at hmark hletter
  simp only [escapeChar, hmark, hletter, or_self, if_false]
  split
  · exact (if_neg hmark.1).trans (if_neg hmark.2)
  · split
    · exact unescape_unit ‹_› rest
    · exact unescape_halves (by omega) rest

/-! ### Strings -/

theorem flatMap_escapeChar_inj {cs ds rest rest' : List Char}
    (h : cs.flatMap escapeChar ++ '"' :: rest = ds.flatMap escapeChar ++ '"' :: rest') :
    cs = ds ∧ rest = rest' := by
  -- reading the first character of both sides tells where the strings end
  have hread := congrArg unescape h
  induction cs generalizing ds with
  | nil =>
    cases ds with
    | nil => exact ⟨rfl, List.tail_eq_of_cons_eq h⟩
    | cons d ds =>
      rw [List.flatMap_cons, List.append_assoc, unescape_escapeChar] at hread
      exact nomatch hread
  | cons c cs ih =>
    rw [List.flatMap_cons, List.append_assoc, unescape_escapeChar] at hread
    cases ds with
    | nil => exact nomatch hread
    | cons d ds =>
      rw [List.flatMap_cons, List.append_assoc, unescape_escapeChar] at hread
      obtain ⟨rfl, htail⟩ := Prod.mk.inj (Option.some.inj hread)
      obtain ⟨rfl, rfl⟩ := ih htail (congrArg unescape htail)
      exact ⟨rfl, rfl⟩

/-- **A string is known from its text**, whatever follows. -/
theorem quote_append_inj {s t : String} {rest rest' : List Char}
    (h : (quote s).toList ++ rest = (quote t).toList ++ rest') : s = t ∧ rest = rest' := by
  simp only [quote, String.toList_ofList, List.cons_append, List.append_assoc, List.nil_append]
    at h
  obtain ⟨hchars, hrest⟩ := flatMap_escapeChar_inj (List.tail_eq_of_cons_eq h)
  exact ⟨String.toList_inj.mp hchars, hrest⟩

/-! ### Numbers -/

/-- The text does not go on with a digit, so that a number before it has ended. -/
def EndsNumber (rest : List Char) : Prop :=
  ∀ c ∈ rest.head?, c.isDigit = false

theorem toDigits_append_inj {m n : Nat} {rest rest' : List Char} (hrest : EndsNumber rest)
    (hrest' : EndsNumber rest')
    (h : Nat.toDigits 10 m ++ rest = Nat.toDigits 10 n ++ rest') : m = n ∧ rest = rest' := by
  -- the digits are found again by their class
  have htake {k : Nat} {tail : List Char} (htail : EndsNumber tail) :
      (Nat.toDigits 10 k ++ tail).takeWhile Char.isDigit = Nat.toDigits 10 k := by
    refine takeWhile_append_eq_iff.mpr ⟨fun c hc => ?_, htail⟩
    exact Nat.isDigit_of_mem_toDigits (by decide) (by decide) hc
  have hdigits : Nat.toDigits 10 m = Nat.toDigits 10 n := by
    rw [← htake hrest, h, htake hrest']
  refine ⟨?_, List.append_cancel_left (hdigits ▸ h)⟩
  rw [← Nat.ofDigitChars_ten_toDigits (n := m), hdigits, Nat.ofDigitChars_ten_toDigits]

theorem toDigits_append_ne_minus {n : Nat} {rest rest' : List Char} :
    Nat.toDigits 10 n ++ rest ≠ '-' :: rest' := by
  obtain ⟨c, cs, hdigits⟩ := List.exists_cons_of_ne_nil (Nat.toDigits_ne_nil (b := 10) (n := n))
  have hc : c.isDigit = true :=
    Nat.isDigit_of_mem_toDigits (by decide) (by decide) (hdigits ▸ List.mem_cons_self)
  rw [hdigits]
  intro h
  obtain rfl := (List.cons.inj h).1
  exact absurd hc (by decide)

/-- **A number is known from its text** up to the last digit. -/
theorem toString_append_inj {m n : Int} {rest rest' : List Char} (hrest : EndsNumber rest)
    (hrest' : EndsNumber rest')
    (h : (toString m).toList ++ rest = (toString n).toList ++ rest') : m = n ∧ rest = rest' := by
  rw [toList_toString, toList_toString] at h
  split at h <;> split at h
  · obtain ⟨habs, hrest⟩ := toDigits_append_inj hrest hrest' h
    exact ⟨by omega, hrest⟩
  · exact absurd h toDigits_append_ne_minus
  · exact absurd h.symm toDigits_append_ne_minus
  · obtain ⟨habs, hrest⟩ := toDigits_append_inj hrest hrest' (List.tail_eq_of_cons_eq h)
    exact ⟨by omega, hrest⟩

end Json

end Vapor

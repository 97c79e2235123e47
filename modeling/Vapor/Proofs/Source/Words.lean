/-
Vapor/Proofs/Source/Words.lean

The words of Vapor text, said without the reader: a name or keyword, a number, a string, or
a single mark.  `Word kind w rest` says that the characters `w` are a word of this kind when
`rest` follows them, which must not be able to go on with a name or a number.

`Lexeme.read` finds exactly these words (`Lexeme.read_eq_ok_iff`).  The two directions rest on
different facts.  That a word which is there is found needs the classes of characters to be
apart, since the reader asks for letters before it asks for digits.  Where there is no word,
what the reader reports does not reach past the end of the line
(`Lexeme.read_eq_error`).
-/
import Vapor.Source.Lexer

namespace Vapor

/-! ### Letters and digits -/

namespace Text

/-- Between two bounds, no range of the one set meets a range of the other. -/
def Ranges.apart (low high : Nat) (a b : Ranges) : Bool :=
  a.all fun r => r.2.blt low || high.ble r.1 || b.all fun s => r.2.blt s.1 || s.2.blt r.1

theorem Ranges.contains_eq_false_of_apart {low high n : Nat} {a b : Ranges}
    (h : apart low high a b = true) (hlow : low ≤ n) (hhigh : n < high)
    (ha : a.contains n = true) : b.contains n = false := by
  simp only [contains, List.any_eq_true, List.any_eq_false, Bool.and_eq_true,
    decide_eq_true_eq] at ha ⊢
  obtain ⟨r, hr, hrn⟩ := ha
  intro s hs hsn
  have hrs := List.all_eq_true.mp h r hr
  simp only [Bool.or_eq_true, Nat.blt_eq, Nat.ble_eq, List.all_eq_true] at hrs
  have := hrs.resolve_left (by omega) s hs
  omega

/-- The digits beyond ASCII, decimal or not. -/
def wideDigits : Ranges :=
  decimalZeros.map (fun first => (first, first + 9)) ++ otherDigits

theorem isDigit_of_wide {c : Char} (hc : ¬c.toNat < 128) :
    isDigit c = wideDigits.contains c.toNat := by
  rw [isDigit, if_neg hc, Bool.eq_iff_iff]
  simp [wideDecimal?, wideDigits, Ranges.contains]

theorem isWideLetter_eq_false {n : Nat} (hn : n < 0x110000) (h : wideDigits.contains n = true) :
    isWideLetter n = false := by
  have h₁ : Ranges.apart 0 0x1000 wideDigits lettersBelow1000 = true := by decide +kernel
  have h₂ : Ranges.apart 0x1000 0x3000 wideDigits lettersBelow3000 = true := by decide +kernel
  have h₃ : Ranges.apart 0x3000 0x10000 wideDigits lettersBelow10000 = true := by decide +kernel
  have h₄ : Ranges.apart 0x10000 0x110000 wideDigits lettersAbove = true := by decide +kernel
  unfold isWideLetter
  split
  · exact Ranges.contains_eq_false_of_apart h₁ (by omega) ‹_› h
  split
  · exact Ranges.contains_eq_false_of_apart h₂ (by omega) ‹_› h
  split
  · exact Ranges.contains_eq_false_of_apart h₃ (by omega) ‹_› h
  · exact Ranges.contains_eq_false_of_apart h₄ (by omega) hn h

theorem toNat_lt (c : Char) : c.toNat < 0x110000 := by
  rcases c.valid with hvalid | hvalid
  · exact Nat.lt_trans hvalid (by decide)
  · exact hvalid.2

/-- No digit is a letter. -/
theorem isLetter_eq_false_of_isDigit {c : Char} (h : isDigit c = true) : isLetter c = false := by
  by_cases hc : c.toNat < 128
  · rw [isDigit, if_pos hc] at h
    rw [isLetter, if_pos hc]
    show (decide ('A'.val ≤ c.val ∧ c.val ≤ 'Z'.val) ||
      (decide ('a'.val ≤ c.val) && decide (c.val ≤ 'z'.val))) = false
    simp only [Char.isDigit, Bool.and_eq_true, decide_eq_true_eq, Bool.or_eq_false_iff,
      Bool.and_eq_false_iff, decide_eq_false_iff_not, UInt32.le_iff_toNat_le] at h ⊢
    simp at h ⊢
    omega
  · rw [isDigit_of_wide hc] at h
    rw [isLetter, if_neg hc]
    exact isWideLetter_eq_false (toNat_lt c) h

end Text

open Text

/-! ### Words -/

/-- What stands behind the opening quote of a string, up to the closing quote: quotes and
backslashes are escaped. -/
inductive StringTail : List Char → Prop where
  | close : StringTail ['"']
  | escape {c : Char} {cs : List Char} (hc : isEscapable c = true) (h : StringTail cs) :
      StringTail ('\\' :: c :: cs)
  | plain {c : Char} {cs : List Char} (hc : c ≠ '"' ∧ c ≠ '\\' ∧ c ≠ '\n')
      (h : StringTail cs) : StringTail (c :: cs)

/-- The first characters are a word of this kind, and the others do not go on with it. -/
inductive Word : Token.Kind → List Char → List Char → Prop where
  | name {c : Char} {cs rest : List Char} (hc : isIdentStart c = true)
      (hcs : ∀ d ∈ cs, isIdentPart d = true) (hrest : ∀ d ∈ rest.head?, isIdentPart d = false) :
      Word (.ofWord (String.ofList (c :: cs))) (c :: cs) rest
  | number {c : Char} {cs rest : List Char} (hc : isDigit c = true)
      (hcs : ∀ d ∈ cs, isDigit d = true)
      (hrest : ∀ d ∈ rest.head?, isDigit d = false ∧ isIdentStart d = false) :
      Word .integer (c :: cs) rest
  | negative {c : Char} {cs rest : List Char} (hc : isDigit c = true)
      (hcs : ∀ d ∈ cs, isDigit d = true)
      (hrest : ∀ d ∈ rest.head?, isDigit d = false ∧ isIdentStart d = false) :
      Word .integer ('-' :: c :: cs) rest
  | text {cs rest : List Char} (h : StringTail cs) : Word .text ('"' :: cs) rest
  | mark {kind : Token.Kind} {c : Char} {rest : List Char} (h : Token.Kind.ofChar? c = some kind) :
      Word kind [c] rest

theorem isIdentPart_of_isIdentStart {c : Char} (h : isIdentStart c = true) :
    isIdentPart c = true := by
  rcases Bool.or_eq_true_iff.mp h with h | h <;> simp [isIdentPart, isAlnum, h]

theorem isIdentPart_of_isDigit {c : Char} (h : isDigit c = true) : isIdentPart c = true := by
  simp [isIdentPart, isAlnum, h]

theorem isIdentStart_eq_false_of_isDigit {c : Char} (h : isDigit c = true) :
    isIdentStart c = false := by
  have hline : c ≠ '_' := by
    rintro rfl
    exact absurd h (by decide)
  simp [isIdentStart, isLetter_eq_false_of_isDigit h, hline]

/-- The first characters that pass a test are those before the first one that fails it. -/
theorem takeWhile_append_eq_iff {p : Char → Bool} {w rest : List Char} :
    (w ++ rest).takeWhile p = w ↔ (∀ d ∈ w, p d = true) ∧ ∀ d ∈ rest.head?, p d = false := by
  constructor
  · intro h
    have hw : ∀ d ∈ w, p d = true := by
      rw [← h]
      exact fun d hd => List.all_eq_true.mp List.all_takeWhile d hd
    rw [List.takeWhile_append_of_pos hw, List.append_right_eq_self] at h
    refine ⟨hw, ?_⟩
    cases rest with
    | nil => exact nofun
    | cons d rest =>
      rintro _ ⟨⟩
      simpa [List.takeWhile_cons] using h
  · rintro ⟨hw, hrest⟩
    rw [List.takeWhile_append_of_pos hw, List.append_right_eq_self]
    cases rest with
    | nil => rfl
    | cons d rest => exact List.takeWhile_cons_of_neg (by simp [hrest d rfl])

/-- Any text splits into the first characters that pass a test and the others. -/
theorem exists_takeWhile (p : Char → Bool) (cs : List Char) :
    ∃ w rest, cs = w ++ rest ∧ cs.takeWhile p = w ∧ (∀ d ∈ w, p d = true) ∧
      ∀ d ∈ rest.head?, p d = false := by
  have hsplit : cs = cs.takeWhile p ++ cs.dropWhile p := List.takeWhile_append_dropWhile.symm
  refine ⟨_, _, hsplit, rfl, ?_⟩
  apply takeWhile_append_eq_iff.mp
  rw [← hsplit]

namespace Lexeme

/-! ### Strings -/

theorem ne_newline_of_isEscapable {c : Char} (hc : isEscapable c = true) : c ≠ '\n' := by
  rintro rfl
  exact absurd hc (by decide)

/-- The reader of strings finds the closing quote. -/
theorem stringRest_eq_ok_iff {before n : Nat} {cs : List Char} :
    stringRest before cs = .ok n ↔
      ∃ w rest, cs = w ++ rest ∧ n = before + w.length ∧ StringTail w := by
  constructor
  · intro h
    fun_induction stringRest before cs with
    | case2 before rest =>
      cases h
      exact ⟨['"'], rest, rfl, rfl, .close⟩
    | case6 before c rest hline hc ih =>
      obtain ⟨w, rest, rfl, rfl, hw⟩ := ih h
      exact ⟨_, rest, rfl, by simp only [List.length_cons]; omega, .escape hc hw⟩
    | case8 before c rest hquote hline hend _ hescape ih =>
      -- a backslash would be the first character of an escape, or the last one of the text
      have hback : c ≠ '\\' := by
        rintro rfl
        cases rest with
        | nil => exact hend rfl rfl
        | cons d rest => exact hescape d rest rfl rfl
      obtain ⟨w, rest, rfl, rfl, hw⟩ := ih h
      exact ⟨_, rest, rfl, by simp only [List.length_cons]; omega, .plain ⟨hquote, hback, hline⟩ hw⟩
    | _ => cases h
  · rintro ⟨w, rest, rfl, rfl, hw⟩
    induction hw generalizing before with
    | close => simp [stringRest]
    | @escape c cs hc _ ih =>
      have hline := ne_newline_of_isEscapable hc
      have hstep : stringRest before ('\\' :: c :: (cs ++ rest)) =
          stringRest (before + 2) (cs ++ rest) := by
        simp [stringRest, hc]
      simp only [List.cons_append, List.length_cons, hstep, ih]
      congr 1
      omega
    | @plain c cs hc _ ih =>
      obtain ⟨hquote, hback, hline⟩ := hc
      have hstep : stringRest before (c :: (cs ++ rest)) = stringRest (before + 1) (cs ++ rest) := by
        simp [stringRest, hback]
      simp only [List.cons_append, List.length_cons, hstep, ih]
      congr 1
      omega

/-- What is wrong with a string stands on its line. -/
theorem stringRest_eq_error {before n : Nat} {cs : List Char} {fault : LexFault}
    (h : stringRest before cs = .error (fault, n)) :
    ∃ w rest, cs = w ++ rest ∧ n = before + 1 + w.length ∧ '\n' ∉ w := by
  fun_induction stringRest before cs with
  | case2 => cases h
  | case6 before c rest hline hc ih =>
    obtain ⟨w, rest, rfl, rfl, hw⟩ := ih h
    refine ⟨'\\' :: c :: w, rest, rfl, by simp only [List.length_cons]; omega, ?_⟩
    simpa [hw] using Ne.symm hline
  | case7 before c rest hline hc =>
    cases h
    refine ⟨['\\', c], rest, rfl, rfl, ?_⟩
    simpa using Ne.symm hline
  | case8 before c rest hquote hline _ _ _ ih =>
    obtain ⟨w, rest, rfl, rfl, hw⟩ := ih h
    refine ⟨c :: w, rest, rfl, by simp only [List.length_cons]; omega, ?_⟩
    simpa [hw] using Ne.symm hline
  | _ =>
    -- the string is open where the line ends
    cases h
    exact ⟨[], _, rfl, rfl, List.not_mem_nil⟩

/-! ### Numbers -/

theorem numberRest_append {ds rest : List Char} (hds : ∀ d ∈ ds, isDigit d = true)
    (hrest : ∀ d ∈ rest.head?, isDigit d = false) :
    numberRest (ds ++ rest) =
      if rest.head?.any isIdentStart then .error (.badInteger, ds.length + 1)
      else .ok ds.length := by
  have hdigits := takeWhile_append_eq_iff.mpr ⟨hds, hrest⟩
  unfold numberRest
  simp only [hdigits, List.drop_left]
  cases rest <;> rfl

theorem numberRest_eq_ok_iff {n : Nat} {cs : List Char} :
    numberRest cs = .ok n ↔ ∃ ds rest, cs = ds ++ rest ∧ n = ds.length ∧
      (∀ d ∈ ds, isDigit d = true) ∧
      ∀ d ∈ rest.head?, isDigit d = false ∧ isIdentStart d = false := by
  constructor
  · intro h
    obtain ⟨ds, rest, rfl, -, hds, hrest⟩ := exists_takeWhile isDigit cs
    rw [numberRest_append hds hrest] at h
    split at h
    · cases h
    · rename_i hword
      cases h
      refine ⟨ds, rest, rfl, rfl, hds, fun d hd => ⟨hrest d hd, ?_⟩⟩
      rw [Option.mem_def.mp hd] at hword
      simpa using hword
  · rintro ⟨ds, rest, rfl, rfl, hds, hrest⟩
    rw [numberRest_append hds fun d hd => (hrest d hd).1, if_neg]
    cases rest with
    | nil => simp
    | cons d rest => simp [(hrest d rfl).2]

/-! ### Words -/

/-- Where a number begins: at a digit, or at a minus before a digit. -/
def StartsNumber (c : Char) (cs : List Char) : Prop :=
  isDigit c = true ∨ c = '-' ∧ ∃ d ∈ cs.head?, isDigit d = true

theorem StartsNumber.not_name {c : Char} {cs : List Char} (h : StartsNumber c cs) :
    isIdentStart c = false := by
  rcases h with h | ⟨rfl, -⟩
  · exact isIdentStart_eq_false_of_isDigit h
  · decide

theorem StartsNumber.word {c : Char} {ds rest : List Char} (h : StartsNumber c (ds ++ rest))
    (hds : ∀ d ∈ ds, isDigit d = true)
    (hrest : ∀ d ∈ rest.head?, isDigit d = false ∧ isIdentStart d = false) :
    Word .integer (c :: ds) rest := by
  rcases h with h | ⟨rfl, d, hd, h⟩
  · exact .number h hds hrest
  · cases ds with
    | nil => exact absurd h (by simp [(hrest d hd).1])
    | cons e ds => exact .negative (hds e List.mem_cons_self) (List.forall_mem_cons.mp hds).2 hrest

theorem read_name {c : Char} {cs : List Char} (hc : isIdentStart c = true) :
    read c cs = .ok (.ofWord (String.ofList (c :: cs.takeWhile isIdentPart)),
      (cs.takeWhile isIdentPart).length) := by
  rw [read, if_pos hc]

theorem read_number {c : Char} {cs : List Char} (h : StartsNumber c cs) :
    read c cs = (numberRest cs).map fun n => (.integer, n) := by
  have hstart : (isDigit c || (c == '-' && cs.head?.any isDigit)) = true := by
    rcases h with h | ⟨rfl, d, hd, h⟩
    · simp [h]
    · rw [Option.mem_def.mp hd]
      simp [h]
  rw [read, if_neg (by simp [h.not_name]), if_pos hstart]

theorem read_quote (cs : List Char) : read '"' cs = (stringRest 0 cs).map fun n => (.text, n) := by
  rfl

theorem read_mark {c : Char} {cs : List Char} {kind : Token.Kind}
    (h : Token.Kind.ofChar? c = some kind) : read c cs = .ok (kind, 0) := by
  unfold Token.Kind.ofChar? at h
  split at h <;> cases h <;> rfl

/-- A text begins with a name, a number, a string, a mark, or with nothing of the kind. -/
theorem read_cases (c : Char) (cs : List Char) :
    isIdentStart c = true ∨ StartsNumber c cs ∨ c = '"' ∨
      (∃ kind, Token.Kind.ofChar? c = some kind) ∨ read c cs = .error (.unexpected c, 0) := by
  by_cases hname : isIdentStart c = true
  · exact .inl hname
  by_cases hnumber : (isDigit c || (c == '-' && cs.head?.any isDigit)) = true
  · refine .inr (.inl ?_)
    simpa [StartsNumber, Option.any_eq_true] using hnumber
  by_cases hquote : c = '"'
  · exact .inr (.inr (.inl hquote))
  rcases hmark : Token.Kind.ofChar? c with - | kind
  · refine .inr (.inr (.inr (.inr ?_)))
    rw [read, if_neg hname, if_neg hnumber, if_neg (by simpa using hquote), hmark]
  · exact .inr (.inr (.inr (.inl ⟨kind, rfl⟩)))

/-- **The reader finds exactly the words.** -/
theorem read_eq_ok_iff {c : Char} {cs : List Char} {kind : Token.Kind} {n : Nat} :
    read c cs = .ok (kind, n) ↔
      ∃ w rest, cs = w ++ rest ∧ n = w.length ∧ Word kind (c :: w) rest := by
  constructor
  · intro h
    rcases read_cases c cs with hc | hc | rfl | ⟨kind', hc⟩ | hfault
    · rw [read_name hc] at h
      cases h
      obtain ⟨w, rest, hcs, hw, hpart, hrest⟩ := exists_takeWhile isIdentPart cs
      rw [hw]
      exact ⟨w, rest, hcs, rfl, .name hc hpart hrest⟩
    · rw [read_number hc] at h
      rcases hnumber : numberRest cs with e | m
      · rw [hnumber] at h
        cases h
      · rw [hnumber] at h
        cases h
        obtain ⟨ds, rest, rfl, hm, hds, hrest⟩ := numberRest_eq_ok_iff.mp hnumber
        exact ⟨ds, rest, rfl, hm, hc.word hds hrest⟩
    · rw [read_quote] at h
      rcases hstring : stringRest 0 cs with e | m
      · rw [hstring] at h
        cases h
      · rw [hstring] at h
        cases h
        obtain ⟨w, rest, rfl, hm, hw⟩ := stringRest_eq_ok_iff.mp hstring
        exact ⟨w, rest, rfl, hm.trans (Nat.zero_add _), .text hw⟩
    · rw [read_mark hc] at h
      cases h
      exact ⟨[], cs, rfl, rfl, .mark hc⟩
    · exact nomatch hfault.symm.trans h
  · rintro ⟨w, rest, rfl, rfl, hw⟩
    cases hw with
    | name hc hcs hrest => rw [read_name hc, takeWhile_append_eq_iff.mpr ⟨hcs, hrest⟩]
    | number hc hcs hrest =>
      rw [read_number (.inl hc), numberRest_eq_ok_iff.mpr ⟨w, rest, rfl, rfl, hcs, hrest⟩]
      rfl
    | negative hc hcs hrest =>
      rw [read_number (.inr ⟨rfl, _, rfl, hc⟩), numberRest_eq_ok_iff.mpr
        ⟨_, rest, rfl, rfl, List.forall_mem_cons.mpr ⟨hc, hcs⟩, hrest⟩]
      rfl
    | text h =>
      rw [read_quote, stringRest_eq_ok_iff.mpr ⟨w, rest, rfl, (Nat.zero_add _).symm, h⟩]
      rfl
    | mark h =>
      rw [read_mark h]
      rfl

/-- What the reader finds wrong is the beginning of the text, and stands on one line. -/
theorem read_eq_error {c : Char} {cs : List Char} {fault : LexFault} {n : Nat} (hc : c ≠ '\n')
    (h : read c cs = .error (fault, n)) :
    ∃ w rest, c :: cs = w ++ rest ∧ n = w.length ∧ '\n' ∉ w := by
  rcases read_cases c cs with hname | hnumber | rfl | ⟨kind, hmark⟩ | hfault
  · rw [read_name hname] at h
    cases h
  · rw [read_number hnumber] at h
    obtain ⟨ds, rest, rfl, -, hds, hrest⟩ := exists_takeWhile isDigit cs
    rw [numberRest_append hds hrest] at h
    split at h
    · cases h
      refine ⟨c :: ds, rest, rfl, rfl, ?_⟩
      rw [List.mem_cons, not_or]
      exact ⟨hc.symm, fun hline => absurd (hds _ hline) (by decide)⟩
    · cases h
  · rw [read_quote] at h
    rcases hstring : stringRest 0 cs with ⟨fault', m⟩ | m
    · rw [hstring] at h
      cases h
      obtain ⟨w, rest, rfl, hm, hw⟩ := stringRest_eq_error hstring
      refine ⟨'"' :: w, rest, rfl, by simp only [List.length_cons]; omega, ?_⟩
      simpa using hw
    · rw [hstring] at h
      cases h
  · rw [read_mark hmark] at h
    cases h
  · obtain ⟨rfl, rfl⟩ := Prod.mk.inj (Except.error.inj (hfault.symm.trans h))
    exact ⟨[], c :: cs, rfl, rfl, List.not_mem_nil⟩

end Lexeme

/-! ### Where words stand -/

theorem StringTail.newline_not_mem {cs : List Char} (h : StringTail cs) : '\n' ∉ cs := by
  induction h with
  | close => decide
  | @escape c cs hc _ ih =>
    have hline := Lexeme.ne_newline_of_isEscapable hc
    simpa [ih] using hline.symm
  | plain hc _ ih => simpa [ih] using hc.2.2.symm

namespace Word

variable {kind : Token.Kind} {w rest : List Char}

/-- A word stands on one line. -/
theorem newline_not_mem (h : Word kind w rest) : '\n' ∉ w := by
  have hclass {p : Char → Bool} (hp : p '\n' = false) {cs : List Char}
      (hcs : ∀ d ∈ cs, p d = true) : '\n' ∉ cs :=
    fun hmem => absurd (hcs _ hmem) (by simp [hp])
  cases h with
  | name hc hcs _ =>
    exact hclass (p := isIdentPart) (by decide)
      (List.forall_mem_cons.mpr ⟨isIdentPart_of_isIdentStart hc, hcs⟩)
  | number hc hcs _ =>
    exact hclass (p := isDigit) (by decide) (List.forall_mem_cons.mpr ⟨hc, hcs⟩)
  | negative hc hcs _ =>
    have hds := hclass (p := isDigit) (by decide) (List.forall_mem_cons.mpr ⟨hc, hcs⟩)
    simpa using hds
  | text h => simpa using h.newline_not_mem
  | mark h =>
    rw [List.mem_singleton]
    rintro rfl
    cases h

/-- No word begins like a blank, a comment or the end of a line. -/
theorem head {c : Char} {cs : List Char} (h : Word kind (c :: cs) rest) :
    c ≠ '\n' ∧ isBlank c = false ∧ c ≠ '/' := by
  have hclass {p : Char → Bool} (hc : p c = true)
      (hp : ['\n', ' ', '\t', '\r', '/'].any p = false) :
      c ≠ '\n' ∧ isBlank c = false ∧ c ≠ '/' := by
    have hne : ∀ d ∈ ['\n', ' ', '\t', '\r', '/'], c ≠ d := by
      rintro d hd rfl
      exact List.any_eq_false.mp hp c hd hc
    simp only [List.forall_mem_cons] at hne
    simp [isBlank, hne]
  cases h with
  | name hc _ _ => exact hclass hc rfl
  | number hc _ _ => exact hclass hc rfl
  | negative _ _ _ => decide
  | text _ => decide
  | mark h => exact hclass (p := fun d => (Token.Kind.ofChar? d).isSome) (by simp [h]) rfl

theorem ne_nil (h : Word kind w rest) : w ≠ [] := by
  cases h <;> exact List.cons_ne_nil _ _

/-- A word is no token that ends something. -/
theorem kind_ne (h : Word kind w rest) : kind ≠ .newline ∧ kind ≠ .eof := by
  cases h with
  | name _ _ _ =>
    unfold Token.Kind.ofWord
    split <;> decide
  | number _ _ _ => decide
  | negative _ _ _ => decide
  | text _ => decide
  | mark h =>
    unfold Token.Kind.ofChar? at h
    split at h <;> cases h <;> decide

/-- A word stays one before anything that no name goes on with. -/
theorem before {rest' : List Char} (h : Word kind w rest)
    (hrest' : ∀ d ∈ rest'.head?, isIdentPart d = false) : Word kind w rest' := by
  have hnumber : ∀ d ∈ rest'.head?, isDigit d = false ∧ isIdentStart d = false := by
    intro d hd
    refine ⟨?_, ?_⟩ <;> rw [Bool.eq_false_iff] <;> intro hclass
    · exact absurd (hrest' d hd) (by simp [isIdentPart_of_isDigit hclass])
    · exact absurd (hrest' d hd) (by simp [isIdentPart_of_isIdentStart hclass])
  cases h with
  | name hc hcs _ => exact .name hc hcs hrest'
  | number hc hcs _ => exact .number hc hcs hnumber
  | negative hc hcs _ => exact .negative hc hcs hnumber
  | text h => exact .text h
  | mark h => exact .mark h

/-- Whether there is a word is found out by reading it. -/
theorem iff_read {c : Char} :
    Word kind (c :: w) rest ↔ (Lexeme.read c (w ++ rest)).toOption = some (kind, w.length) := by
  have hoption : (Lexeme.read c (w ++ rest)).toOption = some (kind, w.length) ↔
      Lexeme.read c (w ++ rest) = .ok (kind, w.length) := by
    cases Lexeme.read c (w ++ rest) <;> simp [Except.toOption]
  rw [hoption, Lexeme.read_eq_ok_iff]
  constructor
  · exact fun h => ⟨w, rest, rfl, rfl, h⟩
  · rintro ⟨w', rest', happend, hlength, h⟩
    obtain ⟨rfl, rfl⟩ := List.append_inj happend hlength
    exact h

instance : Decidable (Word kind w rest) :=
  match w with
  | [] => .isFalse fun h => h.ne_nil rfl
  | _ :: _ => decidable_of_iff _ iff_read.symm

end Word

end Vapor

/-
Vapor/Proofs/Source/Numbers.lean

Which numbers of a text can be read as integers.  A number is made of digits, and some digits,
such as superscripts, have no decimal value.  A row of digits is read exactly if all of them
have one and there are not too many (`Text.readDigits_eq_ok_iff`), so this is all that can go
wrong with a number (`Word.readInteger_eq_error`), and the decimal digits of an integer
are read back (`Text.readInteger_toString`).
-/
import Vapor.Proofs.Source.Words
import Vapor.Text.Integer

namespace Vapor

namespace Text

/-! ### Digits -/

/-- No digit is white space. -/
theorem isSpace_eq_false_of_isDigit {c : Char} (h : isDigit c = true) : isSpace c = false := by
  by_cases hc : c.toNat < 128
  · rw [isDigit, if_pos hc] at h
    rw [isSpace, if_pos hc]
    simp only [Char.isDigit, Bool.and_eq_true, decide_eq_true_eq, UInt32.le_iff_toNat_le] at h
    simp at h ⊢
    omega
  · rw [isDigit_of_wide hc] at h
    rw [isSpace, if_neg hc]
    have hapart : Ranges.apart 0 0x110000 wideDigits wideSpaces = true := by decide +kernel
    exact Ranges.contains_eq_false_of_apart hapart (Nat.zero_le _) (toNat_lt c) h

/-- Every character with a decimal value is a digit. -/
theorem isDigit_of_decimal? {c : Char} (h : (decimal? c).isSome = true) : isDigit c = true := by
  unfold decimal? at h
  unfold isDigit
  split
  · rename_i hc
    rw [if_pos hc] at h
    split at h
    · assumption
    · exact nomatch h
  · rename_i hc
    rw [if_neg hc] at h
    rw [h, Bool.true_or]

theorem ne_underscore_of_isDigit {c : Char} (h : isDigit c = true) : c ≠ '_' := by
  rintro rfl
  exact absurd h (by decide)

/-- Among digits only the decimal value matters. -/
theorem isDigitOrUnderscore_of_isDigit {c : Char} (h : isDigit c = true) :
    isDigitOrUnderscore c = (decimal? c).isSome := by
  rw [isDigitOrUnderscore, beq_eq_false_iff_ne.mpr (ne_underscore_of_isDigit h), Bool.or_false]

/-- Without underscores there has to be a character. -/
theorem underscoresFit_of_digits {cs : List Char} (hcs : ∀ c ∈ cs, isDigit c = true)
    (mayFollow : Bool) : underscoresFit mayFollow cs = (mayFollow || !cs.isEmpty) := by
  induction cs generalizing mayFollow with
  | nil => simp [underscoresFit]
  | cons c cs ih =>
    obtain ⟨hc, hcs⟩ := List.forall_mem_cons.mp hcs
    have hstep : underscoresFit mayFollow (c :: cs) = underscoresFit true cs := by
      rw [underscoresFit]
      exact ne_underscore_of_isDigit hc
    rw [hstep, ih hcs]
    simp

/-- **When a row of digits is read**: they have decimal values, and are not too many. -/
theorem readDigits_eq_ok_iff {text : String} {ds : List Char} {n : Nat} (hne : ds ≠ [])
    (hds : ∀ c ∈ ds, isDigit c = true) :
    readDigits text ds = .ok n ↔ (∀ c ∈ ds, (decimal? c).isSome = true) ∧
      ds.length ≤ maxDigits ∧ ofDigits (ds.filterMap decimal?) = n := by
  obtain ⟨w, rest, rfl, htake, hw, hrest⟩ := exists_takeWhile isDigitOrUnderscore ds
  have hdrop : (w ++ rest).dropWhile isDigitOrUnderscore = rest := by
    have hsplit := List.takeWhile_append_dropWhile (p := isDigitOrUnderscore) (l := w ++ rest)
    rw [htake] at hsplit
    exact List.append_cancel_left hsplit
  obtain ⟨hwdigits, hrestdigits⟩ := List.forall_mem_append.mp hds
  replace hw : ∀ c ∈ w, (decimal? c).isSome = true :=
    fun c hc => (isDigitOrUnderscore_of_isDigit (hwdigits c hc)).symm.trans (hw c hc)
  unfold readDigits
  simp only [htake, hdrop, underscoresFit_of_digits hwdigits, List.filterMap_length_eq_length.mpr hw]
  cases rest with
  | nil =>
    rw [List.append_nil] at hne ⊢
    rw [and_iff_right hw, ← Nat.not_lt]
    by_cases hlong : maxDigits < w.length <;> simp [hne, hlong]
  | cons c rest =>
    -- the first digit that has no decimal value is not taken for white space
    obtain ⟨hc, -⟩ := List.forall_mem_cons.mp hrestdigits
    have hvalue : (decimal? c).isSome = false :=
      (isDigitOrUnderscore_of_isDigit hc).symm.trans (hrest c rfl)
    have hspace : (c :: rest).all isSpace = false := by
      rw [List.all_cons, isSpace_eq_false_of_isDigit hc, Bool.false_and]
    constructor
    · intro h
      split at h
      · exact nomatch h
      · split at h
        · exact nomatch h
        · rw [hspace] at h
          exact nomatch h
    · rintro ⟨hall, -⟩
      have := hall c (List.mem_append_right _ List.mem_cons_self)
      exact absurd (this.symm.trans hvalue) nofun

/-! ### Integers -/

theorem readInteger_digits {ds : List Char} (hne : ds ≠ []) (hds : ∀ c ∈ ds, isDigit c = true) :
    readInteger (.ofList ds) = (readDigits (.ofList ds) ds).map fun n => (n : Int) := by
  obtain ⟨c, cs, rfl⟩ := List.exists_cons_of_ne_nil hne
  have hc := hds c List.mem_cons_self
  unfold readInteger
  rw [String.toList_ofList, List.dropWhile_cons_of_neg (by simp [isSpace_eq_false_of_isDigit hc])]
  split
  · rename_i heq
    obtain rfl := (List.cons.inj heq).1
    exact absurd hc (by decide)
  · rename_i heq
    obtain rfl := (List.cons.inj heq).1
    exact absurd hc (by decide)
  · rfl

theorem readInteger_negative (ds : List Char) :
    readInteger (.ofList ('-' :: ds)) =
      (readDigits (.ofList ('-' :: ds)) ds).map fun n => -(n : Int) := by
  unfold readInteger
  rw [String.toList_ofList]
  rfl

theorem decimal?_of_isDigit {c : Char} (h : c.isDigit = true) :
    decimal? c = some (c.toNat - '0'.toNat) := by
  have hc : c.toNat < 128 := by
    simp only [Char.isDigit, Bool.and_eq_true, decide_eq_true_eq, UInt32.le_iff_toNat_le] at h
    simp at h
    omega
  rw [decimal?, if_pos hc, if_pos h]

theorem decimal?_of_mem_toDigits {c : Char} {n : Nat} (hc : c ∈ Nat.toDigits 10 n) :
    decimal? c = some (c.toNat - '0'.toNat) :=
  decimal?_of_isDigit (Nat.isDigit_of_mem_toDigits (by decide) (by decide) hc)

theorem isDigit_of_mem_toDigits {c : Char} {n : Nat} (hc : c ∈ Nat.toDigits 10 n) :
    isDigit c = true := by
  refine isDigit_of_decimal? ?_
  rw [decimal?_of_mem_toDigits hc]
  rfl

theorem ofDigits_filterMap {ds : List Char}
    (hds : ∀ c ∈ ds, decimal? c = some (c.toNat - '0'.toNat)) :
    ofDigits (ds.filterMap decimal?) = Nat.ofDigitChars 10 ds 0 := by
  have hmap : ds.filterMap decimal? = ds.map fun c => c.toNat - '0'.toNat := by
    induction ds with
    | nil => rfl
    | cons c ds ih =>
      obtain ⟨hc, hds⟩ := List.forall_mem_cons.mp hds
      rw [List.filterMap_cons_some hc, ih hds, List.map_cons]
  rw [hmap, ofDigits, List.foldl_map, Nat.ofDigitChars_eq_foldl]

/-- The plain decimal digits of a number have its value. -/
theorem readDigits_toDigits {text : String} {n : Nat}
    (h : (Nat.toDigits 10 n).length ≤ maxDigits) : readDigits text (Nat.toDigits 10 n) = .ok n := by
  apply (readDigits_eq_ok_iff Nat.toDigits_ne_nil fun c hc => isDigit_of_mem_toDigits hc).mpr
  refine ⟨fun c hc => ?_, h, ?_⟩
  · rw [decimal?_of_mem_toDigits hc]
    rfl
  · rw [ofDigits_filterMap fun c hc => decimal?_of_mem_toDigits hc, Nat.ofDigitChars_ten_toDigits]

theorem decimal?_lt {c : Char} {d : Nat} (h : decimal? c = some d) : d < 10 := by
  unfold decimal? at h
  split at h
  · split at h
    · rename_i hdigit
      obtain rfl := Option.some.inj h
      simp only [Char.isDigit, Bool.and_eq_true, decide_eq_true_eq, UInt32.le_iff_toNat_le] at hdigit
      simp at hdigit ⊢
      omega
    · exact nomatch h
  · obtain ⟨first, hfirst, rfl⟩ := Option.map_eq_some_iff.mp h
    have hrange := List.find?_some hfirst
    simp only [Bool.and_eq_true, decide_eq_true_eq] at hrange
    omega

/-- What digits stand for has no more digits than they are. -/
theorem length_toDigits_ofDigits {ds : List Nat} (hne : ds ≠ []) (hds : ∀ d ∈ ds, d < 10) :
    (Nat.toDigits 10 (ofDigits ds)).length ≤ ds.length := by
  -- the digits read so far are carried along
  have hfold : ∀ (ds : List Nat) (value bound : Nat), (∀ d ∈ ds, d < 10) → value < bound →
      ds.foldl (fun value d => 10 * value + d) value < bound * 10 ^ ds.length := by
    intro ds
    induction ds with
    | nil => simp
    | cons d ds ih =>
      intro value bound hds hvalue
      obtain ⟨hd, hds⟩ := List.forall_mem_cons.mp hds
      have hrest := ih (10 * value + d) (10 * bound) hds (by omega)
      rwa [List.foldl_cons, List.length_cons, Nat.pow_succ, Nat.mul_comm (10 ^ ds.length),
        ← Nat.mul_assoc, Nat.mul_comm bound]
  have hdigits := hfold ds 0 1 hds Nat.one_pos
  rw [Nat.one_mul] at hdigits
  exact (Nat.length_toDigits_le_iff (by decide) (List.length_pos_iff.mpr hne)).mpr hdigits

/-- A row of digits that is read has no fewer digits than its value. -/
theorem length_toDigits_of_readDigits {text : String} {ds : List Char} {n : Nat} (hne : ds ≠ [])
    (hds : ∀ c ∈ ds, isDigit c = true) (h : readDigits text ds = .ok n) :
    (Nat.toDigits 10 n).length ≤ maxDigits := by
  obtain ⟨hvalues, hshort, rfl⟩ := (readDigits_eq_ok_iff hne hds).mp h
  have hlength : (ds.filterMap decimal?).length = ds.length :=
    List.filterMap_length_eq_length.mpr hvalues
  have hle : (Nat.toDigits 10 (ofDigits (ds.filterMap decimal?))).length ≤ ds.length := by
    rw [← hlength]
    apply length_toDigits_ofDigits
    · exact List.ne_nil_of_length_pos (hlength ▸ List.length_pos_iff.mpr hne)
    · intro d hd
      obtain ⟨c, -, hc⟩ := List.mem_filterMap.mp hd
      exact decimal?_lt hc
  exact Nat.le_trans hle hshort

/-- The text of an integer. -/
theorem toList_toString (n : Int) :
    (toString n).toList = if 0 ≤ n then Nat.toDigits 10 n.natAbs
      else '-' :: Nat.toDigits 10 n.natAbs := by
  cases n with
  | ofNat m => exact Nat.toList_repr
  | negSucc m =>
    show ("-" ++ (m + 1).repr).toList = _
    rw [String.toList_append, Nat.toList_repr]
    rfl

/-- **Integers are read back** from their plain decimal digits. -/
theorem readInteger_toString {n : Int} (h : (Nat.toDigits 10 n.natAbs).length ≤ maxDigits) :
    readInteger (toString n) = .ok n := by
  have hdigits : ∀ c ∈ Nat.toDigits 10 n.natAbs, isDigit c = true :=
    fun c hc => isDigit_of_mem_toDigits hc
  rw [← String.ofList_toList (s := toString n), toList_toString]
  split
  · rw [readInteger_digits Nat.toDigits_ne_nil hdigits, readDigits_toDigits h]
    have habs : (n.natAbs : Int) = n := by omega
    exact congrArg Except.ok habs
  · rw [readInteger_negative, readDigits_toDigits h]
    have habs : -(n.natAbs : Int) = n := by omega
    exact congrArg Except.ok habs

end Text

open Text

/-- A number is a row of digits, perhaps with a minus before it. -/
theorem Word.integer_cases {w rest : List Char} (h : Word .integer w rest) :
    ∃ ds, ds ≠ [] ∧ (∀ c ∈ ds, isDigit c = true) ∧ (w = ds ∨ w = '-' :: ds) := by
  generalize hkind : Token.Kind.integer = kind at h
  cases h with
  | name _ _ _ =>
    unfold Token.Kind.ofWord at hkind
    split at hkind <;> cases hkind
  | @number c cs _ hc hcs => exact ⟨c :: cs, nofun, List.forall_mem_cons.mpr ⟨hc, hcs⟩, .inl rfl⟩
  | @negative c cs _ hc hcs => exact ⟨c :: cs, nofun, List.forall_mem_cons.mpr ⟨hc, hcs⟩, .inr rfl⟩
  | text _ => cases hkind
  | mark h =>
    subst hkind
    unfold Token.Kind.ofChar? at h
    split at h <;> cases h

/-- A number that is read has a value that can be written and read again. -/
theorem Word.length_toDigits {w rest : List Char} {n : Int} (h : Word .integer w rest)
    (hread : readInteger (.ofList w) = .ok n) :
    (Nat.toDigits 10 n.natAbs).length ≤ maxDigits := by
  obtain ⟨ds, hne, hds, hw⟩ := h.integer_cases
  -- the sign makes no difference
  have hvalue : ∃ m, readDigits (.ofList w) ds = .ok m ∧ n.natAbs = m := by
    rcases hw with rfl | rfl
    · rw [readInteger_digits hne hds] at hread
      cases hm : readDigits (.ofList w) w with
      | error cause => exact nomatch hm ▸ hread
      | ok m =>
        rw [hm] at hread
        exact ⟨m, rfl, Except.ok.inj hread ▸ Int.natAbs_natCast m⟩
    · rw [readInteger_negative] at hread
      cases hm : readDigits (.ofList ('-' :: ds)) ds with
      | error cause => exact nomatch hm ▸ hread
      | ok m =>
        rw [hm] at hread
        exact ⟨m, rfl, Except.ok.inj hread ▸ by rw [Int.natAbs_neg, Int.natAbs_natCast]⟩
  obtain ⟨m, hm, habs⟩ := hvalue
  rw [habs]
  exact length_toDigits_of_readDigits hne hds hm

/-- **What can be wrong with a number**: it has a digit without a decimal value, or too many
digits. -/
theorem Word.readInteger_eq_error {w rest : List Char} {cause : IntegerError}
    (h : Word .integer w rest) (hread : readInteger (.ofList w) = .error cause) :
    (∃ c ∈ w, isDigit c = true ∧ decimal? c = none) ∨ maxDigits < (w.filter isDigit).length := by
  obtain ⟨ds, hne, hds, hw⟩ := h.integer_cases
  have hfilter : ds.filter isDigit = ds := List.filter_eq_self.mpr hds
  obtain ⟨hsub, hcount⟩ : ds ⊆ w ∧ w.filter isDigit = ds := by
    rcases hw with rfl | rfl
    · exact ⟨List.Subset.refl _, hfilter⟩
    · exact ⟨List.subset_cons_self _ _, (List.filter_cons_of_neg (by decide)).trans hfilter⟩
  by_cases hvalue : ∀ c ∈ ds, (decimal? c).isSome = true
  · refine .inr (Nat.lt_of_not_le fun hshort => ?_)
    rw [hcount] at hshort
    have hok (text : String) : readDigits text ds = .ok (ofDigits (ds.filterMap decimal?)) :=
      (readDigits_eq_ok_iff hne hds).mpr ⟨hvalue, hshort, rfl⟩
    rcases hw with rfl | rfl
    · rw [readInteger_digits hne hds, hok] at hread
      exact nomatch hread
    · rw [readInteger_negative, hok] at hread
      exact nomatch hread
  · simp only [Classical.not_forall] at hvalue
    obtain ⟨c, hc, hnone⟩ := hvalue
    exact .inl ⟨c, hsub hc, hds c hc, by simpa using hnone⟩

end Vapor

/-
Vapor/Proofs/Rendering/Lines.lean

A line of the target is determined by the way it is written (`Line.render_injective`), and
it does not go beyond its end (`Line.newline_not_mem_render`).  Names have to be identifiers
and strings to have their quotes (`Line.Lexical`); integers and registers are arbitrary.

The atoms of such a line can be told apart, so it remains to see that a line is determined
by its atoms (`Line.atoms_injective`).  Lines of different kinds differ in one of their first
two atoms.  A value is over where its atoms are, whatever follows, so that the parts of a line
can be split off one after the other.
-/
import Vapor.Proofs.Rendering.Atoms

namespace Vapor

namespace Machine

/-! ### Lines with proper names and strings -/

def Value.Lexical : Value → Prop
  | label name => IsName name
  | text lexeme => IsText lexeme
  | _ => True

def Source.Lexical : Source → Prop
  | value v => v.Lexical
  | apply op args => IsName op ∧ ∀ v ∈ args, v.Lexical
  | _ => True

def Target.Lexical : Target → Prop
  | label name => IsName name
  | _ => True

/-- The names in the line are identifiers and no keywords, and its strings are strings of
the source. -/
def Line.Lexical : Line → Prop
  | header name _ => IsName name
  | label name => IsName name
  | assign _ source => source.Lexical
  | apply op args => IsName op ∧ ∀ v ∈ args, v.Lexical
  | call target => target.Lexical
  | branch _ test target => test.Lexical ∧ IsName target
  | goto target => IsName target
  | ret => True

end Machine

theorem IsName.word {s : String} (h : IsName s) : IsWord s.toList := by
  generalize htext : s.toList = w
  unfold IsName at h
  rw [htext] at h
  generalize hkind : Token.Kind.ident = kind at h
  cases h with
  | name hc hcs =>
    exact ⟨nofun, List.forall_mem_cons.mpr ⟨isIdentPart_of_isIdentStart hc, hcs⟩⟩
  | number | negative | text => cases hkind
  | mark h =>
    subst hkind
    unfold Token.Kind.ofChar? at h
    split at h <;> cases h

theorem IsText.quote {s : String} (h : IsText s) :
    ∃ cs, s.toList = '"' :: cs ∧ StringTail cs := by
  generalize htext : s.toList = w
  unfold IsText at h
  rw [htext] at h
  generalize hkind : Token.Kind.text = kind at h
  cases h with
  | name =>
    unfold Token.Kind.ofWord at hkind
    split at hkind <;> cases hkind
  | number | negative => cases hkind
  | text h => exact ⟨_, rfl, h⟩
  | mark h =>
    subst hkind
    unfold Token.Kind.ofChar? at h
    split at h <;> cases h

/-! ### Their atoms can be told apart -/

/-- Atoms that may stand behind a word. -/
def Trailing (as : List Atom) : Prop :=
  Legible as ∧ ∀ a ∈ as.head?, a.isWord = false

theorem trailing_nil : Trailing [] :=
  ⟨.nil, nofun⟩

theorem Trailing.mark {c : Char} {as : List Atom}
    (hc : isIdentPart c = false ∧ c ≠ '"' ∧ c ≠ '\n') (h : Legible as) :
    Trailing (.mark c :: as) := by
  refine ⟨.mark hc h, ?_⟩
  rintro _ ⟨⟩
  rfl

theorem IsName.legible {s : String} {as : List Atom} (hs : IsName s) (h : Trailing as) :
    Legible (.word s.toList :: as) :=
  .word hs.word h.2 h.1

namespace Machine

variable {as : List Atom}

/-- What stands behind the mark of a register. -/
theorem register_word (r : Register) : IsWord r.name.toList.tail := by
  cases r with
  | argument i => revert i; decide +kernel
  | result => decide
  | callerSaved i => revert i; decide +kernel
  | calleeSaved i => revert i; decide +kernel
  | scratch i => revert i; decide +kernel

theorem digits_word (n : Nat) : IsWord (Nat.toDigits 10 n) :=
  ⟨Nat.toDigits_ne_nil, fun _ hc => isIdentPart_of_isDigit (Text.isDigit_of_mem_toDigits hc)⟩

theorem legible_digits (n : Nat) (h : Trailing as) : Legible (digits n :: as) :=
  .word (digits_word n) h.2 h.1

theorem legible_registerAtoms (r : Register) (h : Trailing as) : Legible (registerAtoms r ++ as) :=
  .mark (by decide) (.word (register_word r) h.2 h.1)

theorem legible_labelAtoms {name : String} (hname : IsName name) (h : Trailing as) :
    Legible (labelAtoms name ++ as) :=
  .mark (by decide) (hname.legible h)

theorem legible_value {v : Value} (hv : v.Lexical) (h : Trailing as) : Legible (v.atoms ++ as) := by
  cases v with
  | register r => exact legible_registerAtoms r h
  | int n =>
    show Legible (intAtoms n ++ as)
    unfold intAtoms
    split
    · exact legible_digits _ h
    · exact .mark (by decide) (legible_digits _ h)
  | label name => exact legible_labelAtoms hv h
  | text lexeme =>
    obtain ⟨cs, hcs, htail⟩ := IsText.quote hv
    show Legible (.quote lexeme.toList :: as)
    rw [hcs]
    exact .quote htail h.1

theorem legible_slotAtoms {area : String} (harea : IsName area) (offset : Nat) (h : Legible as) :
    Legible (slotAtoms area offset ++ as) :=
  harea.legible (.mark (by decide) (legible_digits _ (.mark (by decide) h)))

theorem legible_memoryAtoms (base : Register) (offset : Int) (h : Legible as) :
    Legible (memoryAtoms base offset ++ as) := by
  have hclose : Trailing (.mark ']' :: as) := .mark (by decide) h
  have hoffset : Trailing (offsetAtoms offset ++ as) := by
    unfold offsetAtoms
    split
    · exact hclose
    · refine .mark ?_ (legible_digits _ hclose)
      split <;> decide
  show Legible (.mark '[' :: (registerAtoms base ++ offsetAtoms offset ++ as))
  rw [List.append_assoc]
  exact .mark (by decide) (legible_registerAtoms base hoffset)

theorem trailing_moreAtoms {vs : List Value} (hvs : ∀ v ∈ vs, v.Lexical) :
    Trailing (moreAtoms vs) := by
  induction vs with
  | nil => exact .mark (by decide) .nil
  | cons v vs ih =>
    obtain ⟨hv, hvs⟩ := List.forall_mem_cons.mp hvs
    exact .mark (by decide) (legible_value hv (ih hvs))

theorem legible_applicationAtoms {op : String} (hop : IsName op) {args : List Value}
    (hargs : ∀ v ∈ args, v.Lexical) : Legible (applicationAtoms op args) := by
  refine hop.legible (.mark (by decide) ?_)
  cases args with
  | nil => exact .mark (by decide) .nil
  | cons v vs =>
    obtain ⟨hv, hvs⟩ := List.forall_mem_cons.mp hargs
    exact legible_value hv (trailing_moreAtoms hvs)

theorem legible_dest (d : Dest) (h : Trailing as) : Legible (d.atoms ++ as) := by
  cases d with
  | register r => exact legible_registerAtoms r h
  | localSlot offset => exact legible_slotAtoms (by decide) offset h.1
  | outSlot offset => exact legible_slotAtoms (by decide) offset h.1
  | memory base offset => exact legible_memoryAtoms base offset h.1

theorem legible_source {s : Source} (hs : s.Lexical) : Legible s.atoms := by
  rw [← List.append_nil s.atoms]
  cases s with
  | value v => exact legible_value hs trailing_nil
  | localSlot offset => exact legible_slotAtoms (by decide) offset .nil
  | inSlot offset => exact legible_slotAtoms (by decide) offset .nil
  | memory base offset => exact legible_memoryAtoms base offset .nil
  | apply op args =>
    rw [List.append_nil]
    exact legible_applicationAtoms hs.1 hs.2

theorem legible_target {t : Target} (ht : t.Lexical) : Legible t.atoms := by
  rw [← List.append_nil t.atoms]
  cases t with
  | register r => exact legible_registerAtoms r trailing_nil
  | label name => exact legible_labelAtoms ht trailing_nil

theorem legible_spacedAtoms {w : String} (hw : IsWord w.toList) (h : Legible as) :
    Legible (spacedAtoms w ++ as) :=
  have hblank : Trailing (.mark ' ' :: as) := .mark (by decide) h
  .word hw hblank.2 hblank.1

theorem legible_sizeAtoms {area : String} (harea : IsWord area.toList) (size : Nat)
    (h : Trailing as) : Legible (sizeAtoms area size ++ as) := by
  unfold sizeAtoms
  rw [List.append_assoc]
  exact legible_spacedAtoms harea (legible_digits size h)

/-- The atoms of a line can be told apart. -/
theorem Line.Lexical.legible {l : Line} (hl : l.Lexical) : Legible l.atoms := by
  cases l with
  | header name frame =>
    simp only [Line.atoms, List.append_assoc, List.cons_append]
    refine legible_spacedAtoms (by decide) (legible_spacedAtoms hl.word (.mark (by decide) ?_))
    refine legible_sizeAtoms (by decide) _ (.mark (by decide) (.mark (by decide) ?_))
    refine legible_sizeAtoms (by decide) _ (.mark (by decide) (.mark (by decide) ?_))
    exact legible_sizeAtoms (by decide) _ (.mark (by decide) .nil)
  | label name => exact IsName.legible hl (.mark (by decide) .nil)
  | assign dest source =>
    exact legible_dest dest (.mark (by decide) (.mark (by decide) (.mark (by decide)
      (legible_source hl))))
  | apply op args => exact legible_applicationAtoms hl.1 hl.2
  | call target => exact legible_spacedAtoms (by decide) (legible_target hl)
  | branch positive test target =>
    have hjump : Legible (spacedAtoms "goto" ++ (labelAtoms target ++ [])) :=
      legible_spacedAtoms (by decide) (legible_labelAtoms hl.2 trailing_nil)
    simp only [Line.atoms, List.append_assoc, List.cons_append]
    refine legible_spacedAtoms ?_ (legible_value hl.1 (.mark (by decide) hjump))
    cases positive <;> decide
  | goto target =>
    exact legible_spacedAtoms (by decide) (legible_labelAtoms hl trailing_nil)
  | ret => exact .word (by decide) trailing_nil.2 .nil

/-! ### A line is determined by its atoms -/

@[simp] theorem digits_inj {m n : Nat} : digits m = digits n ↔ m = n := by
  refine ⟨fun h => ?_, congrArg digits⟩
  rw [← Nat.ofDigitChars_ten_toDigits (n := m), ← Nat.ofDigitChars_ten_toDigits (n := n),
    Atom.word.inj h]

@[simp] theorem digits_ne_mark {n : Nat} {c : Char} : digits n ≠ .mark c := nofun
@[simp] theorem mark_ne_digits {n : Nat} {c : Char} : .mark c ≠ digits n := nofun
@[simp] theorem digits_ne_quote {n : Nat} {cs : List Char} : digits n ≠ .quote cs := nofun
@[simp] theorem quote_ne_digits {n : Nat} {cs : List Char} : .quote cs ≠ digits n := nofun

@[simp] theorem tail_name_inj {r s : Register} :
    r.name.toList.tail = s.name.toList.tail ↔ r = s := by
  refine ⟨fun h => Register.name_injective (String.toList_inj.mp ?_), fun h => by rw [h]⟩
  rw [toList_name, toList_name s, h]

@[simp] theorem intAtoms_natCast (n : Nat) : intAtoms n = [digits n] := by
  simp [intAtoms]

@[simp] theorem intAtoms_negSucc (n : Nat) :
    intAtoms (Int.negSucc n) = [.mark '-', digits (n + 1)] := by
  simp [intAtoms]

/-- A value is over where its atoms are. -/
theorem value_inj {v w : Value} {as bs : List Atom} (h : v.atoms ++ as = w.atoms ++ bs) :
    v = w ∧ as = bs := by
  obtain r | (m | m) | name | lexeme := v <;> obtain s | (n | n) | name' | lexeme' := w <;>
    simp [Value.atoms, registerAtoms, labelAtoms, String.toList_inj] at h <;> simp [h]

/-- No value begins with the end of an application or with a place in memory. -/
theorem value_ne_mark {v : Value} {c : Char} (hc : c = ')' ∨ c = '[') {as bs : List Atom} :
    v.atoms ++ as ≠ .mark c :: bs := by
  obtain r | (m | m) | name | lexeme := v <;> obtain rfl | rfl := hc <;>
    simp [Value.atoms, registerAtoms, labelAtoms]

/-- No value goes on behind a word. -/
theorem value_ne_word {v : Value} {w : List Char} {a : Atom} {as : List Atom} :
    v.atoms ≠ .word w :: a :: as := by
  obtain r | (m | m) | name | lexeme := v <;> simp [Value.atoms, registerAtoms, labelAtoms]

theorem moreAtoms_inj {vs ws : List Value} (h : moreAtoms vs = moreAtoms ws) : vs = ws := by
  induction vs generalizing ws with
  | nil =>
    cases ws with
    | nil => rfl
    | cons w ws => simp [moreAtoms] at h
  | cons v vs ih =>
    cases ws with
    | nil => simp [moreAtoms] at h
    | cons w ws =>
      obtain ⟨rfl, hrest⟩ := value_inj (List.cons.inj h).2
      rw [ih hrest]

theorem argAtoms_inj {vs ws : List Value} (h : argAtoms vs = argAtoms ws) : vs = ws := by
  cases vs with
  | nil =>
    cases ws with
    | nil => rfl
    | cons w ws => exact absurd h.symm (value_ne_mark (.inl rfl))
  | cons v vs =>
    cases ws with
    | nil => exact absurd h (value_ne_mark (.inl rfl))
    | cons w ws =>
      obtain ⟨rfl, hrest⟩ := value_inj h
      rw [moreAtoms_inj hrest]

theorem applicationAtoms_inj {op op' : String} {args args' : List Value}
    (h : applicationAtoms op args = applicationAtoms op' args') : op = op' ∧ args = args' := by
  simp only [applicationAtoms, List.cons.injEq, Atom.word.injEq, String.toList_inj,
    true_and] at h
  exact ⟨h.1, argAtoms_inj h.2⟩

theorem offsetAtoms_inj {m n : Int} {as bs : List Atom}
    (h : offsetAtoms m ++ as = offsetAtoms n ++ bs) : m = n ∧ as = bs := by
  have hclose : ∀ n : Int, (if n < 0 then '-' else '+') ≠ ']' := by
    intro n
    split <;> decide
  unfold offsetAtoms at h
  by_cases hm : m = 0 <;> by_cases hn : n = 0 <;>
    simp only [hm, hn, if_true, if_false, List.cons_append, List.nil_append, List.cons.injEq,
      Atom.mark.injEq, digits_inj, true_and] at h
  · exact ⟨hm.trans hn.symm, h⟩
  · exact absurd h.1.symm (hclose n)
  · exact absurd h.1 (hclose m)
  · have hsign : m < 0 ↔ n < 0 := by
      have hmark := h.1
      split at hmark <;> split at hmark <;> first | omega | exact absurd hmark (by decide)
    exact ⟨by omega, h.2.2⟩

theorem memoryAtoms_inj {base base' : Register} {offset offset' : Int} {as bs : List Atom}
    (h : memoryAtoms base offset ++ as = memoryAtoms base' offset' ++ bs) :
    (base = base' ∧ offset = offset') ∧ as = bs := by
  simp only [memoryAtoms, registerAtoms, List.cons_append, List.cons.injEq, List.nil_append,
    Atom.word.injEq, tail_name_inj, true_and] at h
  obtain ⟨hoffset, hrest⟩ := offsetAtoms_inj h.2
  exact ⟨⟨h.1, hoffset⟩, hrest⟩

/-- What is assigned to is over where its atoms are. -/
theorem dest_inj {d d' : Dest} {as bs : List Atom} (h : d.atoms ++ as = d'.atoms ++ bs) :
    d = d' ∧ as = bs := by
  cases d with
  | memory base offset =>
    cases d' with
    | memory base' offset' => simpa using memoryAtoms_inj h
    | _ => simp [Dest.atoms, registerAtoms, slotAtoms, memoryAtoms] at h
  | register r =>
    cases d' with
    | register s => simpa [Dest.atoms, registerAtoms] using h
    | _ => simp [Dest.atoms, registerAtoms, slotAtoms, memoryAtoms] at h
  | localSlot k =>
    cases d' with
    | localSlot k' => simpa [Dest.atoms, slotAtoms] using h
    | _ => simp [Dest.atoms, registerAtoms, slotAtoms, memoryAtoms] at h
  | outSlot k =>
    cases d' with
    | outSlot k' => simpa [Dest.atoms, slotAtoms] using h
    | _ => simp [Dest.atoms, registerAtoms, slotAtoms, memoryAtoms] at h

theorem source_inj {s s' : Source} (h : s.atoms = s'.atoms) : s = s' := by
  cases s with
  | value v =>
    cases s' with
    | value v' =>
      obtain ⟨rfl, -⟩ := value_inj (congrArg (· ++ []) h)
      rfl
    | localSlot | inSlot | apply => exact absurd h value_ne_word
    | memory => exact absurd ((List.append_nil _).trans h) (value_ne_mark (.inr rfl))
  | localSlot k =>
    cases s' with
    | value => exact absurd h.symm value_ne_word
    | localSlot k' => simpa [Source.atoms, slotAtoms] using h
    | inSlot | memory | apply =>
      simp [Source.atoms, slotAtoms, memoryAtoms, applicationAtoms] at h
  | inSlot k =>
    cases s' with
    | value => exact absurd h.symm value_ne_word
    | inSlot k' => simpa [Source.atoms, slotAtoms] using h
    | localSlot | memory | apply =>
      simp [Source.atoms, slotAtoms, memoryAtoms, applicationAtoms] at h
  | memory base offset =>
    cases s' with
    | value => exact absurd ((List.append_nil _).trans h.symm) (value_ne_mark (.inr rfl))
    | memory base' offset' => simpa using memoryAtoms_inj (congrArg (· ++ []) h)
    | localSlot | inSlot | apply =>
      simp [Source.atoms, slotAtoms, memoryAtoms, applicationAtoms] at h
  | apply op args =>
    cases s' with
    | value => exact absurd h.symm value_ne_word
    | apply op' args' => simpa using applicationAtoms_inj h
    | localSlot | inSlot | memory =>
      simp [Source.atoms, slotAtoms, memoryAtoms, applicationAtoms] at h

theorem target_inj {t t' : Target} (h : t.atoms = t'.atoms) : t = t' := by
  cases t with
  | register r =>
    cases t' with
    | register s => simpa [Target.atoms, registerAtoms] using h
    | label => simp [Target.atoms, registerAtoms, labelAtoms] at h
  | label name =>
    cases t' with
    | register => simp [Target.atoms, registerAtoms, labelAtoms] at h
    | label name' => simpa [Target.atoms, labelAtoms, String.toList_inj] using h

/-- What a line begins with, as far as it tells its kind. -/
inductive Opening where
  /-- What is assigned to. -/
  | assign
  /-- A word with a blank behind it; its first letter is enough. -/
  | keyword (initial : Option Char)
  /-- A word with some other mark behind it. -/
  | mark (c : Char)
  /-- A word alone. -/
  | alone

def opening : List Atom → Opening
  | .mark _ :: _ => .assign
  | .word _ :: .mark '[' :: _ => .assign
  | .word w :: .mark ' ' :: _ => .keyword w.head?
  | .word _ :: .mark c :: _ => .mark c
  | _ => .alone

theorem opening_atoms (l : Line) : opening l.atoms =
    match l with
    | .header .. => .keyword 'f'
    | .label _ => .mark ':'
    | .assign .. => .assign
    | .apply .. => .mark '('
    | .call _ => .keyword 'c'
    | .branch .. => .keyword 'i'
    | .goto _ => .keyword 'g'
    | .ret => .alone := by
  cases l with
  | assign dest source => cases dest <;> rfl
  | branch positive => cases positive <;> rfl
  | _ => rfl

namespace Line

variable {l l' : Line}

/-- Lines with the same atoms are of the same kind. -/
theorem kind_eq (h : l.atoms = l'.atoms) : l.ctorIdx = l'.ctorIdx := by
  have hopening := congrArg opening h
  rw [opening_atoms, opening_atoms] at hopening
  cases l <;> cases l' <;> first | rfl | cases hopening

/-- A line is determined by its atoms. -/
theorem atoms_injective (h : l.atoms = l'.atoms) : l = l' := by
  have hkind := kind_eq h
  cases l with
  | header name frame =>
    cases l' with
    | header name' frame' =>
      obtain ⟨ins, outs, locals⟩ := frame
      obtain ⟨ins', outs', locals'⟩ := frame'
      simpa [Line.atoms, spacedAtoms, sizeAtoms, String.toList_inj] using h
    | _ => cases hkind
  | label name =>
    cases l' with
    | label name' => simpa [Line.atoms, String.toList_inj] using h
    | _ => cases hkind
  | assign dest source =>
    cases l' with
    | assign dest' source' =>
      obtain ⟨rfl, hrest⟩ := dest_inj h
      simp only [List.cons.injEq, true_and] at hrest
      rw [source_inj hrest]
    | _ => cases hkind
  | apply op args =>
    cases l' with
    | apply op' args' => simpa using applicationAtoms_inj h
    | _ => cases hkind
  | call target =>
    cases l' with
    | call target' => rw [target_inj (List.append_cancel_left h)]
    | _ => cases hkind
  | branch positive test target =>
    cases l' with
    | branch positive' test' target' =>
      simp only [Line.atoms, spacedAtoms, List.append_assoc, List.cons_append, List.nil_append,
        List.cons.injEq, true_and] at h
      obtain ⟨rfl, hrest⟩ := value_inj h.2
      have hpositive : positive = positive' := by
        cases positive <;> cases positive' <;> first | rfl | simp at h
      have htarget : target = target' := by
        simpa [labelAtoms, String.toList_inj] using hrest
      rw [hpositive, htarget]
    | _ => cases hkind
  | goto target =>
    cases l' with
    | goto target' => simpa [Line.atoms, labelAtoms, String.toList_inj] using h
    | _ => cases hkind
  | ret =>
    cases l' with
    | ret => rfl
    | _ => cases hkind

/-- **A line is determined by the way it is written.** -/
theorem render_injective (hl : l.Lexical) (hl' : l'.Lexical) (h : l.render = l'.render) :
    l = l' := by
  refine atoms_injective (hl.legible.unique hl'.legible ?_)
  rw [spelling_line, spelling_line, h]

/-- **A line does not go beyond its end.** -/
theorem newline_not_mem_render (hl : l.Lexical) : '\n' ∉ l.render.toList := by
  rw [← spelling_line]
  exact hl.legible.newline_not_mem

end Line

end Machine

end Vapor

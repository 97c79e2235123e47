/-
Vapor/Proofs/Json/Canonical.lean

What the text of a JSON value tells.  The fields of an object are written in increasing order of
their keys, so the order in which an object holds them is lost, and nothing else is: two values
have the same text exactly if they have the same canonical form (`text_eq_iff`).

A value is known from its text also inside a longer text, as long as no digit follows
(`known_render`).  Inside brackets it never does, since a comma or a new line follows every item
(`endsNumber_following`); and which of the brackets, marks and digits comes first tells what kind
of value a text is (`initial_eq`).
-/
import Mathlib.Data.String.Basic
import Vapor.Proofs.Json.Strings
import Vapor.Proofs.Sorting

namespace Vapor

namespace Json

/-! ### Sorted fields -/

/-- Fields in increasing order of their keys. -/
def sortFields {β : Type} (fields : List (String × β)) : List (String × β) :=
  Sorted.sort (fun a b => a.1 <= b.1) fields

theorem sortFields_eq {β : Type} (fields : List (String × β)) :
    sortFields fields = fields.insertionSort (Order.Preimage Prod.fst (· ≤ ·)) :=
  Sorted.sort_eq (fun _ _ => decide_eq_true_iff) fields

theorem sortFields_perm {β : Type} (fields : List (String × β)) :
    (sortFields fields).Perm fields := by
  rw [sortFields_eq]
  exact List.perm_insertionSort _ fields

theorem sortFields_map {β γ : Type} (g : β → γ) (fields : List (String × β)) :
    sortFields (fields.map fun f => (f.1, g f.2)) =
      (sortFields fields).map fun f => (f.1, g f.2) := by
  rw [sortFields_eq, sortFields_eq]
  symm
  apply List.map_insertionSort
  exact fun _ _ _ _ => Iff.rfl

@[simp] theorem sortFields_sortFields {β : Type} (fields : List (String × β)) :
    sortFields (sortFields fields) = sortFields fields := by
  rw [sortFields_eq, sortFields_eq]
  exact (List.pairwise_insertionSort _ fields).insertionSort_eq

/-! ### Canonical forms -/

mutual

/-- A value with the fields of all its objects in increasing order of their keys. -/
def canonical : Json → Json
  | null => null
  | bool value => bool value
  | int value => int value
  | str value => str value
  | arr items => arr (canonicalItems items)
  | obj fields => obj (sortFields (canonicalFields fields))

/-- The canonical forms of several values. -/
def canonicalItems : List Json → List Json
  | [] => []
  | item :: items => item.canonical :: canonicalItems items

/-- The canonical forms of the values of several fields, with their keys. -/
def canonicalFields : List (String × Json) → List (String × Json)
  | [] => []
  | (key, value) :: fields => (key, value.canonical) :: canonicalFields fields

end

theorem canonicalItems_eq_map (items : List Json) : canonicalItems items = items.map canonical := by
  induction items with
  | nil => rfl
  | cons item items ih => rw [canonicalItems, ih, List.map_cons]

theorem canonicalFields_eq_map (fields : List (String × Json)) :
    canonicalFields fields = fields.map fun f => (f.1, f.2.canonical) := by
  induction fields with
  | nil => rfl
  | cons field fields ih => rw [canonicalFields, ih, List.map_cons]

theorem renderItems_eq_map (depth : Nat) (items : List Json) :
    renderItems depth items = items.map (render depth) := by
  induction items with
  | nil => rfl
  | cons item items ih => rw [renderItems, ih, List.map_cons]

theorem renderFields_eq_map (depth : Nat) (fields : List (String × Json)) :
    renderFields depth fields = fields.map fun f => (f.1, f.2.render depth) := by
  induction fields with
  | nil => rfl
  | cons field fields ih => rw [renderFields, ih, List.map_cons]

theorem canonical_arr (items : List Json) : (arr items).canonical = arr (items.map canonical) := by
  rw [canonical, canonicalItems_eq_map]

theorem canonical_obj (fields : List (String × Json)) :
    (obj fields).canonical = obj ((sortFields fields).map fun f => (f.1, f.2.canonical)) := by
  rw [canonical, canonicalFields_eq_map, sortFields_map]

theorem render_arr (depth : Nat) (items : List Json) :
    (arr items).render depth = enclose "[" "]" depth (items.map (render (depth + 1))) := by
  rw [render, renderItems_eq_map]

/-- The text of a field. -/
def renderField (depth : Nat) (field : String × Json) : String :=
  quote field.1 ++ ": " ++ field.2.render depth

theorem render_obj (depth : Nat) (fields : List (String × Json)) :
    (obj fields).render depth =
      enclose "\x7b" "\x7d" depth ((sortFields fields).map (renderField (depth + 1))) := by
  rw [render, renderFields_eq_map]
  show enclose _ _ _ ((sortFields _).map _) = _
  rw [sortFields_map, List.map_map]
  rfl

/-- Values by their members. -/
@[elab_as_elim]
theorem induction_members {P : Json → Prop} (null : P null) (bool : ∀ b, P (bool b))
    (int : ∀ n, P (int n)) (str : ∀ s, P (str s))
    (arr : ∀ items, (∀ v ∈ items, P v) → P (arr items))
    (obj : ∀ fields, (∀ f ∈ fields, P f.2) → P (obj fields)) (v : Json) : P v :=
  @Json.rec P (fun items => ∀ v ∈ items, P v) (fun fields => ∀ f ∈ fields, P f.2) (fun f => P f.2)
    null bool int str arr obj nofun (fun _ _ hv hitems => List.forall_mem_cons.mpr ⟨hv, hitems⟩)
    nofun (fun _ _ hf hfields => List.forall_mem_cons.mpr ⟨hf, hfields⟩) (fun _ _ hv => hv) v

/-- The text is that of the canonical form. -/
theorem render_canonical (v : Json) (depth : Nat) : v.canonical.render depth = v.render depth := by
  induction v using induction_members generalizing depth with
  | null | bool _ | int _ | str _ => rfl
  | arr items ih =>
    rw [canonical_arr, render_arr, render_arr, List.map_map]
    congr 1
    exact List.map_congr_left fun v hv => ih v hv _
  | obj fields ih =>
    -- the fields are sorted by their keys, which stay, so sorting them again changes nothing
    rw [canonical_obj, render_obj, render_obj, sortFields_map, sortFields_sortFields, List.map_map]
    congr 1
    refine List.map_congr_left fun f hf => ?_
    have hvalue := ih f ((sortFields_perm fields).mem_iff.mp hf) (depth + 1)
    exact congrArg (quote f.1 ++ ": " ++ ·) hvalue

/-! ### Items between brackets -/

/-- What stands behind an item: the items that follow and the end of the list. -/
def following (closing : String) (depth : Nat) : List String → List Char
  | [] => (lineBreak depth).toList ++ closing.toList
  | item :: items =>
    ',' :: (lineBreak (depth + 1)).toList ++ (item.toList ++ following closing depth items)

theorem toList_intercalate_following (closing : String) (depth : Nat) (item : String)
    (items : List String) :
    (String.intercalate ("," ++ lineBreak (depth + 1)) (item :: items)).toList ++
      ((lineBreak depth).toList ++ closing.toList) =
      item.toList ++ following closing depth items := by
  induction items generalizing item with
  | nil => simp [following]
  | cons next items ih =>
    rw [String.intercalate_cons_cons, following, ← ih next]
    simp

theorem toList_enclose_cons (opening closing : String) (depth : Nat) (item : String)
    (items : List String) :
    (enclose opening closing depth (item :: items)).toList =
      opening.toList ++ ((lineBreak (depth + 1)).toList ++
        (item.toList ++ following closing depth items)) := by
  rw [← toList_intercalate_following]
  simp [enclose]

/-- **No digit stands behind an item.** -/
theorem endsNumber_following (closing : String) (depth : Nat) (items : List String)
    (rest : List Char) : EndsNumber (following closing depth items ++ rest) := by
  cases items <;> simp [following, lineBreak, EndsNumber]

/-- The key of a thing is known from its text, if no digit stands behind it. -/
def Known {β κ : Type} (write : β → String) (key : β → κ) (x : β) : Prop :=
  ∀ y rest rest', EndsNumber rest → EndsNumber rest' →
    (write x).toList ++ rest = (write y).toList ++ rest' → key x = key y ∧ rest = rest'

section Lists

variable {β κ : Type} {write : β → String} {key : β → κ} {closing : String} {depth : Nat}
  {rest rest' : List Char}

theorem following_inj {xs ys : List β} (hxs : ∀ x ∈ xs, Known write key x)
    (h : following closing depth (xs.map write) ++ rest =
      following closing depth (ys.map write) ++ rest') :
    xs.map key = ys.map key ∧ rest = rest' := by
  induction xs generalizing ys with
  | nil =>
    cases ys with
    | nil => exact ⟨rfl, List.append_cancel_left h⟩
    | cons y ys => simp [following, lineBreak] at h
  | cons x xs ih =>
    obtain ⟨hx, hxs⟩ := List.forall_mem_cons.mp hxs
    cases ys with
    -- a comma goes on, a new line ends the list
    | nil => simp [following, lineBreak] at h
    | cons y ys =>
      simp only [List.map_cons, following, List.append_assoc] at h
      obtain ⟨hkey, htail⟩ := hx y _ _ (endsNumber_following _ _ _ _)
        (endsNumber_following _ _ _ _) (List.append_cancel_left h)
      obtain ⟨hkeys, hrest⟩ := ih hxs htail
      exact ⟨by rw [List.map_cons, List.map_cons, hkey, hkeys], hrest⟩

/-- **Items between brackets are known** if each of them is. -/
theorem enclose_inj {opening : String} {xs ys : List β}
    (hclosing : ∃ c cs, closing.toList = c :: cs ∧ c ≠ '\n')
    (hxs : ∀ x ∈ xs, Known write key x)
    (h : (enclose opening closing depth (xs.map write)).toList ++ rest =
      (enclose opening closing depth (ys.map write)).toList ++ rest') :
    xs.map key = ys.map key ∧ rest = rest' := by
  obtain ⟨c, cs, hc, hne⟩ := hclosing
  cases xs with
  | nil =>
    cases ys with
    | nil => exact ⟨rfl, List.append_cancel_left h⟩
    | cons y ys =>
      rw [List.map_cons, toList_enclose_cons] at h
      simp [enclose, lineBreak, hc, hne] at h
  | cons x xs =>
    obtain ⟨hx, hxs⟩ := List.forall_mem_cons.mp hxs
    cases ys with
    | nil =>
      rw [List.map_cons, toList_enclose_cons] at h
      simp [enclose, lineBreak, hc, hne.symm] at h
    | cons y ys =>
      simp only [List.map_cons, toList_enclose_cons, List.append_assoc] at h
      obtain ⟨hkey, htail⟩ := hx y _ _ (endsNumber_following _ _ _ _)
        (endsNumber_following _ _ _ _) (List.append_cancel_left (List.append_cancel_left h))
      obtain ⟨hkeys, hrest⟩ := following_inj hxs htail
      exact ⟨by rw [List.map_cons, List.map_cons, hkey, hkeys], hrest⟩

end Lists

/-! ### Values -/

/-- The character that stands for all values of a kind: one that the text of such a value begins
with. -/
def initial : Json → Char
  | null => 'n'
  | bool _ => 't'
  | int _ => '0'
  | str _ => '"'
  | arr _ => '['
  | obj _ => '\x7b'

/-- The character that stands for all values that begin with a character. -/
def initialOf (c : Char) : Char :=
  if c = '-' ∨ c.isDigit = true then '0' else if c = 'f' then 't' else c

theorem exists_enclose_eq (opening closing : String) (depth : Nat) (items : List String) :
    ∃ tail, (enclose opening closing depth items).toList = opening.toList ++ tail := by
  cases items with
  | nil => exact ⟨_, String.toList_append⟩
  | cons item items => exact ⟨_, toList_enclose_cons ..⟩

theorem exists_toString_eq (n : Int) :
    ∃ c tail, (toString n).toList = c :: tail ∧ (c = '-' ∨ c.isDigit = true) := by
  rw [Text.toList_toString]
  split
  · obtain ⟨c, cs, hdigits⟩ :=
      List.exists_cons_of_ne_nil (Nat.toDigits_ne_nil (b := 10) (n := n.natAbs))
    refine ⟨c, cs, hdigits, .inr ?_⟩
    exact Nat.isDigit_of_mem_toDigits (by decide) (by decide) (hdigits ▸ List.mem_cons_self)
  · exact ⟨_, _, rfl, .inl rfl⟩

theorem exists_render_eq (depth : Nat) (v : Json) :
    ∃ c tail, (v.render depth).toList = c :: tail ∧ initialOf c = v.initial := by
  cases v with
  | null => exact ⟨'n', ['u', 'l', 'l'], by simp [render], rfl⟩
  | bool b =>
    cases b with
    | false => exact ⟨'f', ['a', 'l', 's', 'e'], by simp [render], rfl⟩
    | true => exact ⟨'t', ['r', 'u', 'e'], by simp [render], rfl⟩
  | int n =>
    obtain ⟨c, tail, htext, hc⟩ := exists_toString_eq n
    exact ⟨c, tail, htext, if_pos hc⟩
  | str s =>
    rw [render, quote, String.toList_ofList]
    exact ⟨_, _, rfl, rfl⟩
  | arr items =>
    obtain ⟨tail, htext⟩ := exists_enclose_eq "[" "]" depth (items.map (render (depth + 1)))
    exact ⟨_, tail, by rw [render_arr, htext]; rfl, rfl⟩
  | obj fields =>
    obtain ⟨tail, htext⟩ :=
      exists_enclose_eq "\x7b" "\x7d" depth ((sortFields fields).map (renderField (depth + 1)))
    exact ⟨_, tail, by rw [render_obj, htext]; rfl, rfl⟩

/-- Texts that begin in the same way are of values of one kind. -/
theorem initial_eq {depth : Nat} {v w : Json} {rest rest' : List Char}
    (h : (v.render depth).toList ++ rest = (w.render depth).toList ++ rest') :
    v.initial = w.initial := by
  obtain ⟨c, tail, hv, hc⟩ := exists_render_eq depth v
  obtain ⟨d, tail', hw, hd⟩ := exists_render_eq depth w
  rw [hv, hw] at h
  obtain rfl := (List.cons.inj h).1
  rw [← hc, ← hd]

/-- A field is known if its value is. -/
theorem known_renderField {depth : Nat} {field : String × Json}
    (h : Known (render depth) canonical field.2) :
    Known (renderField depth) (fun f => (f.1, f.2.canonical)) field := by
  intro other rest rest' hrest hrest' heq
  simp only [renderField, String.toList_append, List.append_assoc] at heq
  obtain ⟨hname, htail⟩ := quote_append_inj heq
  obtain ⟨hvalue, hrest⟩ := h _ _ _ hrest hrest' (List.append_cancel_left htail)
  exact ⟨Prod.ext hname hvalue, hrest⟩

/-- **A value is known from its text** up to the order of fields, if no digit stands behind it. -/
theorem known_render (v : Json) (depth : Nat) : Known (render depth) canonical v := by
  -- the other value is of the same kind; then the parts are compared, which stand one level deeper
  induction v using induction_members generalizing depth with
  | null =>
    intro w rest rest' _ _ h
    have hinitial := initial_eq h
    cases w with
    | null => exact ⟨rfl, List.append_cancel_left h⟩
    | _ => simp [initial] at hinitial
  | bool b =>
    intro w rest rest' _ _ h
    have hinitial := initial_eq h
    cases w with
    | bool b' =>
      obtain rfl : b = b' := by cases b <;> cases b' <;> simp [render] at h ⊢
      exact ⟨rfl, List.append_cancel_left h⟩
    | _ => simp [initial] at hinitial
  | int n =>
    intro w rest rest' hrest hrest' h
    have hinitial := initial_eq h
    cases w with
    | int n' =>
      obtain ⟨rfl, hrest⟩ := toString_append_inj hrest hrest' h
      exact ⟨rfl, hrest⟩
    | _ => simp [initial] at hinitial
  | str s =>
    intro w rest rest' _ _ h
    have hinitial := initial_eq h
    cases w with
    | str s' =>
      obtain ⟨rfl, hrest⟩ := quote_append_inj h
      exact ⟨rfl, hrest⟩
    | _ => simp [initial] at hinitial
  | arr items ih =>
    intro w rest rest' _ _ h
    have hinitial := initial_eq h
    cases w with
    | arr items' =>
      rw [render_arr, render_arr] at h
      obtain ⟨hitems, hrest⟩ := enclose_inj ⟨_, _, rfl, by decide⟩ (fun v hv => ih v hv _) h
      exact ⟨by rw [canonical_arr, canonical_arr, hitems], hrest⟩
    | _ => simp [initial] at hinitial
  | obj fields ih =>
    intro w rest rest' _ _ h
    have hinitial := initial_eq h
    cases w with
    | obj fields' =>
      rw [render_obj, render_obj] at h
      have hknown : ∀ f ∈ sortFields fields, Known (renderField (depth + 1))
          (fun f => (f.1, f.2.canonical)) f :=
        fun f hf => known_renderField (ih f ((sortFields_perm fields).mem_iff.mp hf) _)
      obtain ⟨hfields, hrest⟩ := enclose_inj ⟨_, _, rfl, by decide⟩ hknown h
      exact ⟨by rw [canonical_obj, canonical_obj, hfields], hrest⟩
    | _ => simp [initial] at hinitial

/-- **When texts are the same**: the values differ in the order of fields only. -/
theorem text_eq_iff {v w : Json} : v.text = w.text ↔ v.canonical = w.canonical := by
  constructor
  · intro h
    refine (known_render v 0 w [] [] nofun nofun ?_).1
    exact congrArg (·.toList ++ []) h
  · intro h
    rw [text, text, ← render_canonical v, h, render_canonical]

end Json

end Vapor

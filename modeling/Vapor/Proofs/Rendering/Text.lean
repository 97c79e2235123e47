/-
Vapor/Proofs/Rendering/Text.lean

The text of a compiled program determines the lines of its functions
(`rendering_unambiguous`), whatever text its lines are indented by.

The lines of the functions are taken from the end of the text one after the other.  It has
to be seen that this ends where the data segments do (`eq_nil_of_segmentRows`).  If the end
of a segment could be taken for a line, that line would be indented by rows above it and by
the first letters of the segment.  So the segments before would end with the rows of the
indentation, and a header would stand somewhere above these.  But more rows than that stand
behind the last row of some segments that begins like a header (`Margin.Trails`).
-/
import Vapor.Proofs.Printing.Segments
import Vapor.Proofs.Rendering.Lexical
import Vapor.Proofs.Rendering.Rows

namespace Vapor

open Text Machine

variable {α β : Type}

/-! ### The rows of a program -/

/-- How the first line of a segment is written. -/
def Segment.title (s : Segment α) : List Char :=
  ("const " ++ s.name).toList

/-- The lines of functions, with blanks between them. -/
def items (codes : List (List Line)) : List (Option Line) :=
  [none].intercalate (codes.map (List.map some))

theorem items_cons (code : List Line) (codes : List (List Line)) :
    items (code :: codes) = code.map some ++ codes.flatMap (none :: List.map some ·) := by
  simp [items, intercalate_cons, List.flatMap_map]

/-- A line on a sheet.  No line is empty, so that all but headers and labels are indented. -/
theorem toList_written (unit : String) (l : Line) :
    (Sheet.written unit l.depth l.render).toList
      = (if l.depth = 0 then [] else unit.toList) ++ l.render.toList := by
  have hne : l.render ≠ "" := by
    intro h
    have hnil : spelling l.atoms = [] := by rw [spelling_line, h]; rfl
    cases l with
    | apply => simp [Line.atoms, applicationAtoms] at hnil
    | _ => simp [Line.atoms, spacedAtoms] at hnil
  have hdepth : l.depth = 0 ∨ l.depth = 1 := by cases l <;> simp [Line.depth]
  unfold Sheet.written
  rcases hdepth with hdepth | hdepth <;> simp [hdepth, hne, Sheet.indentation]

namespace Margin

variable {m : Margin} {unit : String}

/-- The rows of a segment without the blank one behind it. -/
def bodyRows (m : Margin) (s : Segment α) : List (List Char) :=
  s.title :: s.values.flatMap fun d => m.indent d.write.toList

def segmentRows (m : Margin) (s : Segment α) : List (List Char) :=
  m.bodyRows s ++ [[]]

def programRows (m : Margin) (segments : List (Segment α)) (codes : List (List Line)) :
    List (List Char) :=
  segments.flatMap m.segmentRows ++ (items codes).flatMap m.itemRows

theorem ofRows_flatMap {γ : Type} (f : γ → List (List Char)) (xs : List γ) :
    ofRows (xs.flatMap f) = xs.flatMap fun x => ofRows (f x) := by
  simp [ofRows, List.flatMap_assoc]

theorem toList_ofLines (lines : List String) :
    (ofLines lines).toList = lines.flatMap fun line => line.toList ++ ['\n'] := by
  simp [ofLines, List.flatMap_map]

theorem ofRows_segmentRows (hunit : m.chars = unit.toList) (s : Segment α) :
    ofRows (m.segmentRows s) = (ofLines (Sheet.segmentLines unit 0 s)).toList := by
  have hvalue : ∀ d : Datum α,
      ofRows (m.indent d.write.toList) = unit.toList ++ (d.write.toList ++ ['\n']) := by
    intro d
    rw [ofRows_indent, hunit, List.append_assoc]
  rw [segmentLines_eq]
  simp [toList_ofLines, segmentRows, bodyRows, ofRows_flatMap, hvalue, Segment.title, List.flatMap_map]

theorem ofRows_itemRows (hunit : m.chars = unit.toList) (l : Line) :
    ofRows (m.itemRows (some l)) = (Sheet.written unit l.depth l.render).toList ++ ['\n'] := by
  rw [toList_written, ← hunit]
  by_cases hdepth : l.depth = 0 <;> simp [itemRows, above, lastRow, before, chars, hdepth]

theorem toList_programText (hunit : m.chars = unit.toList) (segments : List (Segment α))
    (codes : List (List Line)) :
    (programText unit segments codes).toList = ofRows (m.programRows segments codes) := by
  have hsegments : (ofLines (segments.flatMap (Sheet.segmentLines unit 0))).toList =
      ofRows (segments.flatMap m.segmentRows) := by
    simp [ofRows_flatMap, ofRows_segmentRows hunit, toList_ofLines, List.flatMap_assoc]
  have hcodes : (ofLines ([""].intercalate
      (codes.map (List.map fun l => Sheet.written unit l.depth l.render)))).toList =
      ofRows ((items codes).flatMap m.itemRows) := by
    have hblank : ofRows (m.itemRows none) = ['\n'] := rfl
    cases codes with
    | nil => rfl
    | cons code codes =>
      rw [List.map_cons, intercalate_cons, items_cons]
      simp [toList_ofLines, ofRows_flatMap, ofRows_itemRows hunit, hblank, List.flatMap_map,
        List.flatMap_assoc]
  unfold programText programLines programRows
  rw [ofRows_append, ← hsegments, ← hcodes]
  simp [ofLines]

end Margin

/-! ### Segments are not written like lines -/

/-- A word of a segment as a value. -/
def Datum.value : Datum α → Value
  | .int n _ => .int n
  | .label l => .label l.name

theorem Datum.toList_write (d : Datum α) : d.write.toList = spelling d.value.atoms := by
  rw [spelling_value]
  cases d <;> rfl

theorem Datum.Lexical.value {d : Datum α} (hd : d.Lexical) : d.value.Lexical := by
  cases d with
  | int n note => trivial
  | label l => exact hd

theorem opening_value (v : Value) : opening v.atoms = .assign ∨ opening v.atoms = .alone := by
  obtain r | (n | n) | name | lexeme := v <;>
    simp [Value.atoms, registerAtoms, labelAtoms, digits, opening]

/-- No line consists of a single value. -/
theorem atoms_ne_value (l : Line) (v : Value) : l.atoms ≠ v.atoms := by
  intro h
  have hopening := opening_value v
  rw [← h, opening_atoms] at hopening
  cases l with
  | assign dest source =>
    obtain r | (n | n) | name | lexeme := v <;> cases dest <;>
      simp [Line.atoms, Dest.atoms, Value.atoms, registerAtoms, slotAtoms, memoryAtoms,
        labelAtoms] at h
  | ret =>
    obtain r | (n | n) | name | lexeme := v
    · simp [Line.atoms, Value.atoms, registerAtoms] at h
    · have hword : "ret".toList = Nat.toDigits 10 n := by
        simpa [Line.atoms, Value.atoms, digits] using h
      have hdigit : 'r' ∈ Nat.toDigits 10 n := by simp [← hword]
      exact absurd (isDigit_of_mem_toDigits hdigit) (by decide)
    · simp [Line.atoms, Value.atoms] at h
    · simp [Line.atoms, Value.atoms, labelAtoms] at h
    · simp [Line.atoms, Value.atoms] at h
  | _ => simp at hopening

theorem Datum.Lexical.legible {d : Datum α} (hd : d.Lexical) : Legible d.value.atoms := by
  simpa using legible_value hd.value trailing_nil

theorem render_ne_write {l : Line} (hl : l.Lexical) {d : Datum α} (hd : d.Lexical) :
    l.render.toList ≠ d.write.toList := by
  rw [← spelling_line, d.toList_write]
  exact fun h => atoms_ne_value l d.value (hl.legible.unique hd.legible h)

/-- The atoms of the first line of a segment. -/
theorem Segment.spelling_title (s : Segment α) :
    spelling (spacedAtoms "const" ++ [.word s.name.toList]) = s.title := by
  simp [spelling_spacedAtoms, title]

theorem Segment.Lexical.legible_title {s : Segment α} (hs : s.Lexical) :
    Legible (spacedAtoms "const" ++ [.word s.name.toList]) :=
  legible_spacedAtoms (by decide) (hs.name.legible trailing_nil)

theorem render_ne_title {l : Line} (hl : l.Lexical) {s : Segment α} (hs : s.Lexical) :
    l.render.toList ≠ s.title := by
  rw [← spelling_line, ← s.spelling_title]
  intro h
  have hatoms := hl.legible.unique hs.legible_title h
  have hopening : opening l.atoms = .keyword 'c' := by
    rw [hatoms]
    rfl
  rw [opening_atoms] at hopening
  cases l with
  | call target =>
    cases target <;>
      simp [Line.atoms, spacedAtoms, Target.atoms, registerAtoms, labelAtoms] at hatoms
  | _ => simp at hopening

theorem Segment.Lexical.rowKind_title {s : Segment α} (hs : s.Lexical) :
    rowKind s.title = .inner := by
  unfold title
  rw [String.toList_append]
  exact rowKind_append _ (rowKind_word hs.name.word)

theorem Datum.Lexical.rowKind_write {d : Datum α} (hd : d.Lexical) :
    rowKind d.write.toList = .inner := by
  rw [d.toList_write, spelling_value]
  exact rowKind_value hd.value

/-! ### Where the segments end -/

/-- The row does not begin like a header. -/
def plain (row : List Char) : Bool :=
  row.head? != some 'f'

/-- How many rows stand behind the last one that begins like a header. -/
def trail (rows : List (List Char)) : Nat :=
  (rows.reverse.takeWhile plain).length

theorem trail_append_of_all (xs : List (List Char)) {ys : List (List Char)}
    (h : ∀ y ∈ ys, plain y = true) : trail (xs ++ ys) = ys.length + trail xs := by
  have hys : ∀ y ∈ ys.reverse, plain y = true := fun y hy => h y (List.mem_reverse.mp hy)
  simp [trail, List.takeWhile_append_of_pos hys]

theorem trail_append_of_mem (xs : List (List Char)) {ys : List (List Char)} {y : List Char}
    (hy : y ∈ ys) (h : plain y = false) : trail (xs ++ ys) = trail ys := by
  unfold trail
  rw [List.reverse_append, List.takeWhile_append, if_neg]
  intro hlength
  have hall := List.takeWhile_prefix plain (l := ys.reverse) |>.eq_of_length hlength
  have hplain : ys.reverse.all plain = true := by
    rw [← hall]
    exact List.all_takeWhile
  exact nomatch (List.all_eq_true.mp hplain y (List.mem_reverse.mpr hy)).symm.trans h

namespace Margin

variable {m : Margin}

/-- Either no row begins like a header; or some row of the indentation does, and more rows
stand behind the last one that does than in the indentation. -/
def Trails (m : Margin) (rows : List (List Char)) : Prop :=
  (∀ row ∈ rows, plain row = true) ∨
    (∃ row ∈ m.rows, plain row = false) ∧ trail m.rows < trail rows

theorem Trails.append {xs ys : List (List Char)} (hxs : m.Trails xs) (hys : m.Trails ys) :
    m.Trails (xs ++ ys) := by
  by_cases hlast : ∃ y ∈ ys, plain y = false
  · obtain ⟨y, hy, hplain⟩ := hlast
    obtain ⟨hrow, hlt⟩ := hys.resolve_left fun hall => by simp [hall y hy] at hplain
    refine .inr ⟨hrow, ?_⟩
    rwa [trail_append_of_mem xs hy hplain]
  · have hall : ∀ y ∈ ys, plain y = true := by simpa using hlast
    rcases hxs with hxs | ⟨hrow, hlt⟩
    · exact .inl (List.forall_mem_append.mpr ⟨hxs, hall⟩)
    · refine .inr ⟨hrow, ?_⟩
      rw [trail_append_of_all xs hall]
      omega

theorem Trails.flatMap {γ : Type} {f : γ → List (List Char)} {xs : List γ}
    (h : ∀ x ∈ xs, m.Trails (f x)) : m.Trails (xs.flatMap f) := by
  induction xs with
  | nil => exact .inl nofun
  | cons x xs ih =>
    obtain ⟨hx, hxs⟩ := List.forall_mem_cons.mp h
    exact hx.append (ih hxs)

theorem trails_indent (hstart : m.start.head? = some 'c') (cs : List Char) :
    m.Trails (m.indent cs) := by
  have hlast : ∀ row ∈ [m.start ++ cs], plain row = true := by
    simp [plain, List.head?_append, hstart]
  by_cases hrow : ∃ row ∈ m.rows, plain row = false
  · refine .inr ⟨hrow, ?_⟩
    unfold indent
    rw [trail_append_of_all m.rows hlast]
    simp
  · exact .inl (List.forall_mem_append.mpr ⟨by simpa using hrow, hlast⟩)

theorem trails_segmentRows (hstart : m.start.head? = some 'c') (s : Segment α) :
    m.Trails (m.segmentRows s) := by
  have htitle : m.Trails [s.title] := .inl (by simp [plain, Segment.title])
  have hblank : m.Trails [[]] := .inl (by simp [plain])
  exact (htitle.append (.flatMap fun d _ => trails_indent hstart _)).append hblank

/-- Segments do not end like the indentation behind a header. -/
theorem segmentRows_ne (hstart : m.start.head? = some 'c') (segments : List (Segment α))
    {ys : List (List Char)} {y : List Char} (hy : y ∈ ys) (hplain : plain y = false) :
    segments.flatMap m.segmentRows ≠ ys ++ m.rows := by
  intro h
  have htrails : m.Trails (ys ++ m.rows) := by
    rw [← h]
    exact .flatMap fun s _ => trails_segmentRows hstart s
  rcases htrails with hall | ⟨⟨row, hrow, hplain⟩, hlt⟩
  · exact nomatch (hall y (List.mem_append_left _ hy)).symm.trans hplain
  · rw [trail_append_of_mem ys hrow hplain] at hlt
    omega

/-- An item whose last row is that of an indented line. -/
theorem exists_inner {i : Option Line} (hi : ∀ l ∈ i, l.Lexical)
    (h : rowKind (m.lastRow i) = .inner) :
    ∃ l, i = some l ∧ l.rowKind = .inner ∧ m.above i = m.rows ∧
      m.lastRow i = m.start ++ l.render.toList := by
  rw [rowKind_lastRow hi] at h
  cases i with
  | none => cases h
  | some l =>
    have hdepth := Line.rowKind_eq_inner_iff.mp h
    exact ⟨l, rfl, h, if_neg hdepth, by rw [lastRow, before, if_neg hdepth]⟩

/-- An item at the end of a segment, but for its blank row, is an indented line.  The
segment has no words, and the indentation begins like the segment. -/
theorem inner_of_bodyRows {s : Segment α} (hs : s.Lexical) {i : Option Line}
    (hi : ∀ l ∈ i, l.Lexical) {xs ys : List (List Char)}
    (h : xs ++ m.bodyRows s = ys ++ m.itemRows i) :
    itemKind i = .inner ∧ m.start.head? = some 'c' ∧ xs = ys ++ m.rows := by
  unfold bodyRows itemRows at h
  rw [← List.append_assoc] at h
  rcases List.eq_nil_or_concat s.values with hvalues | ⟨ds, d, hvalues⟩
  · rw [hvalues] at h
    obtain ⟨hrows, hlast⟩ := List.append_inj' h rfl
    replace hlast : s.title = m.lastRow i := List.singleton_inj.mp hlast
    obtain ⟨l, rfl, hinner, habove, hrow⟩ := exists_inner (m := m) hi (hlast ▸ hs.rowKind_title)
    rw [habove] at hrows
    refine ⟨hinner, ?_, hrows⟩
    have htitle := hlast.trans hrow
    cases hstart : m.start with
    | nil =>
      rw [hstart, List.nil_append] at htitle
      exact absurd htitle.symm (render_ne_title (hi l rfl) hs)
    | cons c cs =>
      have hhead : s.title.head? = some 'c' := by simp [Segment.title]
      rw [htitle, hstart] at hhead
      exact hhead
  · have hd : d.Lexical := hs.values d (by simp [hvalues])
    rw [hvalues] at h
    simp only [List.concat_eq_append, List.flatMap_append, List.flatMap_singleton, indent,
      ← List.append_assoc, ← List.cons_append] at h
    obtain ⟨-, hlast⟩ := List.append_inj' h rfl
    replace hlast : m.start ++ d.write.toList = m.lastRow i := List.singleton_inj.mp hlast
    obtain ⟨l, rfl, -, -, hrow⟩ :=
      exists_inner (m := m) hi (hlast ▸ rowKind_append m.start hd.rowKind_write)
    have hrender := List.append_cancel_left (hlast.trans hrow)
    exact absurd hrender.symm (render_ne_write (hi l rfl) hd)

theorem plain_lastRow {i : Option Line} (h : itemKind i = .header) :
    plain (m.lastRow i) = false := by
  cases i with
  | none => cases h
  | some l =>
    cases l with
    | header name frame =>
      rw [lastRow, before, if_pos (by rfl), List.nil_append, ← spelling_line]
      rfl
    | _ => cases h

/-- Nothing that begins with a header stands at the end of the segments. -/
theorem eq_nil_of_segmentRows {segments : List (Segment α)} (hsegments : ∀ s ∈ segments, s.Lexical)
    {is : List (Option Line)} (his : ∀ i ∈ is, ∀ l ∈ i, l.Lexical)
    (hhead : ∀ i ∈ is.head?, itemKind i = .header) {xs : List (List Char)}
    (h : segments.flatMap m.segmentRows = xs ++ is.flatMap m.itemRows) : is = [] := by
  cases is using List.reverseRecOn with
  | nil => rfl
  | append_singleton is i =>
    exfalso
    cases segments using List.reverseRecOn with
    | nil => simp [itemRows] at h
    | append_singleton segments s =>
      simp only [List.flatMap_append, List.flatMap_singleton, segmentRows, itemRows,
        ← List.append_assoc] at h
      obtain ⟨hbody, hblank⟩ := List.append_inj' h rfl
      -- the last row of a segment is blank, and so is the item
      have hnone : ∀ l ∈ (none : Option Line), l.Lexical := fun l hl => by cases hl
      obtain rfl : none = i :=
        lastRow_injective (m := m) hnone (his i (by simp)) (List.singleton_inj.mp hblank)
      rw [above, List.append_nil] at hbody
      cases is using List.reverseRecOn with
      | nil => cases hhead none rfl
      | append_singleton is i =>
        -- what stands before the blank is an indented line
        rw [List.flatMap_append, List.flatMap_singleton, ← List.append_assoc] at hbody
        obtain ⟨hinner, hstart, hrows⟩ :=
          inner_of_bodyRows (hsegments s (by simp)) (his i (by simp)) hbody
        cases is with
        | nil =>
          have hheader := hhead i rfl
          rw [hinner] at hheader
          cases hheader
        | cons j is =>
          -- and before it stands a header
          refine segmentRows_ne hstart segments ?_ (plain_lastRow (m := m) (hhead j rfl)) hrows
          simp [itemRows]

end Margin

/-! ### Lines are determined by their rows -/

/-- Lines end where a blank follows. -/
theorem map_some_inj {γ : Type} {xs ys : List γ} {is js : List (Option γ)}
    (his : ∀ i ∈ is.head?, i = none) (hjs : ∀ j ∈ js.head?, j = none)
    (h : xs.map some ++ is = ys.map some ++ js) : xs = ys ∧ is = js := by
  induction xs generalizing ys with
  | nil =>
    cases ys with
    | nil => exact ⟨rfl, h⟩
    | cons y ys =>
      obtain rfl : is = some y :: (ys.map some ++ js) := h
      cases his (some y) rfl
  | cons x xs ih =>
    cases ys with
    | nil =>
      obtain rfl : some x :: (xs.map some ++ is) = js := h
      cases hjs (some x) rfl
    | cons y ys =>
      obtain ⟨hxy, hrest⟩ := List.cons.inj h
      obtain ⟨rfl, his⟩ := ih hrest
      exact ⟨by rw [Option.some.inj hxy], his⟩

/-- What stands behind the first function determines the others. -/
theorem flatMap_none_inj {γ : Type} {xss yss : List (List γ)}
    (h : xss.flatMap (none :: List.map some ·) = yss.flatMap (none :: List.map some ·)) :
    xss = yss := by
  have hhead : ∀ zss : List (List γ),
      ∀ i ∈ (zss.flatMap (none :: List.map some ·)).head?, i = none := by
    intro zss i hi
    cases zss with
    | nil => cases hi
    | cons zs zss => exact (Option.some.inj hi).symm
  induction xss generalizing yss with
  | nil =>
    cases yss with
    | nil => rfl
    | cons ys yss => cases h
  | cons xs xss ih =>
    cases yss with
    | nil => cases h
    | cons ys yss =>
      obtain ⟨rfl, hrest⟩ := map_some_inj (hhead xss) (hhead yss) (List.cons.inj h).2
      rw [ih hrest]

theorem Proper.head_items {code : List Line} (h : Proper code) (codes : List (List Line)) :
    ∃ name frame rest, items (code :: codes) = some (.header name frame) :: rest := by
  obtain ⟨name, frame, rest, rfl⟩ := h.header
  exact ⟨name, frame, _, items_cons ..⟩

theorem items_injective {codes codes' : List (List Line)} (hcodes : ∀ code ∈ codes, Proper code)
    (hcodes' : ∀ code ∈ codes', Proper code) (h : items codes = items codes') :
    codes = codes' := by
  cases codes with
  | nil =>
    cases codes' with
    | nil => rfl
    | cons code' codes' =>
      obtain ⟨name, frame, rest, hitems⟩ := (hcodes' code' List.mem_cons_self).head_items codes'
      cases h.trans hitems
  | cons code codes =>
    cases codes' with
    | nil =>
      obtain ⟨name, frame, rest, hitems⟩ := (hcodes code List.mem_cons_self).head_items codes
      cases hitems.symm.trans h
    | cons code' codes' =>
      apply flatMap_none_inj
      rw [List.flatMap_cons, List.flatMap_cons, List.cons_append, List.cons_append, ← items_cons,
        ← items_cons, h]

theorem lexical_of_mem_items {codes : List (List Line)} (hcodes : ∀ code ∈ codes, Proper code)
    {i : Option Line} (hi : i ∈ items codes) : ∀ l ∈ i, l.Lexical := by
  rintro l rfl
  cases codes with
  | nil => cases hi
  | cons code codes =>
    have hcode : ∃ code' ∈ code :: codes, l ∈ code' := by
      simpa [items_cons] using hi
    obtain ⟨code', hcode', hl⟩ := hcode
    exact (hcodes code' hcode').lexical l hl

namespace Margin

variable {m : Margin}

/-- The rows of a program determine the lines of its functions. -/
theorem programRows_injective {segments : List (Segment α)} {segments' : List (Segment β)}
    (hsegments : ∀ s ∈ segments, s.Lexical) (hsegments' : ∀ s ∈ segments', s.Lexical)
    {codes codes' : List (List Line)} (hcodes : ∀ code ∈ codes, Proper code)
    (hcodes' : ∀ code ∈ codes', Proper code)
    (h : m.programRows segments codes = m.programRows segments' codes') : codes = codes' := by
  have hhead : ∀ {codes : List (List Line)} {is js : List (Option Line)},
      (∀ code ∈ codes, Proper code) → items codes = is ++ js →
      ∀ i ∈ is.head?, itemKind i = .header := by
    intro codes is js hcodes hitems i hi
    cases is with
    | nil => cases hi
    | cons j is =>
      obtain rfl := Option.some.inj hi
      cases codes with
      | nil => cases hitems
      | cons code codes =>
        obtain ⟨name, frame, rest, hfirst⟩ := (hcodes code List.mem_cons_self).head_items codes
        obtain ⟨rfl, -⟩ := List.cons.inj (hfirst.symm.trans hitems)
        rfl
  apply items_injective hcodes hcodes'
  rcases exists_items_suffix (fun l hl => lexical_of_mem_items hcodes hl l rfl)
    (fun l hl => lexical_of_mem_items hcodes' hl l rfl) h with ⟨is, hitems, hrows⟩ | ⟨is, hitems, hrows⟩
  · obtain rfl : is = [] := by
      refine eq_nil_of_segmentRows hsegments (fun i hi => ?_) (hhead hcodes' hitems) hrows
      exact lexical_of_mem_items hcodes' (by rw [hitems]; exact List.mem_append_left _ hi)
    exact hitems.symm
  · obtain rfl : is = [] := by
      refine eq_nil_of_segmentRows hsegments' (fun i hi => ?_) (hhead hcodes hitems) hrows
      exact lexical_of_mem_items hcodes (by rw [hitems]; exact List.mem_append_left _ hi)
    exact hitems

/-- No row has a line feed in it. -/
theorem newline_not_mem_programRows {segments : List (Segment α)}
    (hsegments : ∀ s ∈ segments, s.Lexical) {codes : List (List Line)}
    (hcodes : ∀ code ∈ codes, Proper code) : ∀ row ∈ m.programRows segments codes, '\n' ∉ row := by
  have hindent : ∀ {cs : List Char}, '\n' ∉ cs → '\n' ∉ m.start ++ cs := by
    intro cs hcs
    simp [hcs, m.start_flat]
  refine List.forall_mem_append.mpr ⟨fun row hrow => ?_, fun row hrow => ?_⟩
  · obtain ⟨s, hs, hrow⟩ := List.mem_flatMap.mp hrow
    simp only [segmentRows, bodyRows, indent, List.mem_append, List.mem_cons, List.mem_flatMap,
      List.not_mem_nil, or_false] at hrow
    rcases hrow with (rfl | ⟨d, hd, hrow | rfl⟩) | rfl
    · rw [← s.spelling_title]
      exact (hsegments s hs).legible_title.newline_not_mem
    · exact m.rows_flat row hrow
    · apply hindent
      rw [d.toList_write]
      exact ((hsegments s hs).values d hd).legible.newline_not_mem
    · exact List.not_mem_nil
  · obtain ⟨i, hi, hrow⟩ := List.mem_flatMap.mp hrow
    cases i with
    | none =>
      obtain rfl := List.mem_singleton.mp hrow
      exact List.not_mem_nil
    | some l =>
      have hl := Line.newline_not_mem_render (lexical_of_mem_items hcodes hi l rfl)
      simp only [itemRows, above, lastRow, before] at hrow
      split at hrow
      · obtain rfl := List.mem_singleton.mp hrow
        exact hl
      · rcases List.mem_append.mp hrow with hrow | hrow
        · exact m.rows_flat row hrow
        · obtain rfl := List.mem_singleton.mp hrow
          exact hindent hl

end Margin

/-! ### Blanks before a line -/

theorem Legible.isBlank_head {as : List Atom} (h : Legible as)
    (hmark : ∀ c, as.head? = some (.mark c) → isBlank c = false) :
    ∀ c ∈ (spelling as).head?, isBlank c = false := by
  intro c hc
  cases h with
  | nil => cases hc
  | word hw =>
    obtain ⟨d, w, rfl⟩ := List.exists_cons_of_ne_nil hw.1
    obtain rfl : d = c := Option.some.inj hc
    refine Bool.eq_false_iff.mpr fun hblank => ?_
    exact nomatch (hw.2 d List.mem_cons_self).symm.trans (isIdentPart_of_isBlank hblank)
  | quote =>
    obtain rfl : '"' = c := Option.some.inj hc
    rfl
  | @mark d =>
    obtain rfl : d = c := Option.some.inj hc
    exact hmark d rfl

theorem isBlank_head_render {l : Line} (hl : l.Lexical) :
    ∀ c ∈ l.render.toList.head?, isBlank c = false := by
  rw [← spelling_line]
  refine hl.legible.isBlank_head fun c hc => ?_
  cases l with
  | assign dest source =>
    cases dest with
    | register | memory =>
      obtain rfl := Atom.mark.inj (Option.some.inj hc)
      rfl
    | localSlot | outSlot => cases hc
  | _ => cases hc

theorem isBlank_head_write {d : Datum α} (hd : d.Lexical) :
    ∀ c ∈ d.write.toList.head?, isBlank c = false := by
  rw [d.toList_write]
  refine hd.legible.isBlank_head fun c hc => ?_
  obtain (n | n) | l := d
  · simp [Datum.value, Value.atoms] at hc
  · obtain rfl : '-' = c := by simpa [Datum.value, Value.atoms] using hc
    rfl
  · obtain rfl : ':' = c := by simpa [Datum.value, Value.atoms, labelAtoms] using hc
    rfl

/-- The row without blanks at its beginning. -/
def strip (row : List Char) : List Char :=
  row.dropWhile isBlank

theorem strip_append {blanks cs : List Char} (hblanks : ∀ c ∈ blanks, isBlank c = true)
    (hcs : ∀ c ∈ cs.head?, isBlank c = false) : strip (blanks ++ cs) = cs := by
  unfold strip
  rw [List.dropWhile_append_of_pos hblanks]
  cases cs with
  | nil => rfl
  | cons c cs => exact List.dropWhile_cons_of_neg (by simp [hcs c rfl])

theorem strip_of_head {cs : List Char} (hcs : ∀ c ∈ cs.head?, isBlank c = false) :
    strip cs = cs := by
  have hnone : ∀ c ∈ ([] : List Char), isBlank c = true := nofun
  exact strip_append hnone hcs

namespace Margin

/-- An indentation without line feeds. -/
def flat (cs : List Char) (h : '\n' ∉ cs) : Margin :=
  ⟨[], cs, nofun, h⟩

theorem chars_flat {cs : List Char} (h : '\n' ∉ cs) : (flat cs h).chars = cs := rfl

/-- Without line feeds in the indentation, every line is a row. -/
theorem programRows_flat {unit : String} (h : '\n' ∉ unit.toList) (segments : List (Segment α))
    (codes : List (List Line)) : (flat unit.toList h).programRows segments codes
      = (programLines unit segments codes).map String.toList := by
  have hsegment : ∀ s : Segment α,
      (flat unit.toList h).segmentRows s = (Sheet.segmentLines unit 0 s).map String.toList := by
    intro s
    rw [segmentLines_eq]
    simp [segmentRows, bodyRows, indent, flat, Segment.title, ← List.map_eq_flatMap,
      Function.comp_def]
  have hitem : ∀ l : Line, (flat unit.toList h).itemRows (some l)
      = [(Sheet.written unit l.depth l.render).toList] := by
    intro l
    rw [toList_written]
    by_cases hdepth : l.depth = 0 <;> simp [itemRows, above, lastRow, before, flat, hdepth]
  have hblank : (flat unit.toList h).itemRows none = [[]] := rfl
  unfold programRows programLines
  rw [List.map_append, List.map_flatMap, List.flatMap_congr fun s _ => hsegment s]
  congr 1
  cases codes with
  | nil => rfl
  | cons code codes =>
    rw [List.map_cons, intercalate_cons, items_cons]
    simp [hitem, hblank, List.map_flatMap, List.flatMap_map, List.flatMap_assoc,
      ← List.map_eq_flatMap, Function.comp_def]

variable {cs : List Char} {h : '\n' ∉ cs}

/-- Without the blanks before them the rows are those of lines that are not indented. -/
theorem map_strip_programRows (hcs : ∀ c ∈ cs, isBlank c = true) {segments : List (Segment α)}
    (hsegments : ∀ s ∈ segments, s.Lexical) {codes : List (List Line)}
    (hcodes : ∀ code ∈ codes, Proper code) :
    ((flat cs h).programRows segments codes).map strip
      = (flat [] nofun).programRows segments codes := by
  have hsegment : ∀ s ∈ segments, ((flat cs h).segmentRows s).map strip
      = (flat [] nofun).segmentRows s := by
    intro s hs
    have htitle : strip s.title = s.title := by
      apply strip_of_head
      rw [Segment.title, String.toList_append]
      rintro _ ⟨⟩
      rfl
    have hvalues : (s.values.flatMap fun d => ((flat cs h).indent d.write.toList).map strip)
        = s.values.flatMap fun d => (flat [] nofun).indent d.write.toList := by
      apply List.flatMap_congr
      intro d hd
      have hwrite := strip_append hcs (isBlank_head_write ((hsegments s hs).values d hd))
      simp [indent, flat, hwrite]
    have hblank : strip [] = [] := rfl
    simp [segmentRows, bodyRows, List.map_flatMap, htitle, hvalues, hblank]
  have hitem : ∀ i ∈ items codes, ((flat cs h).itemRows i).map strip
      = (flat [] nofun).itemRows i := by
    intro i hi
    cases i with
    | none => rfl
    | some l =>
      have hhead := isBlank_head_render (lexical_of_mem_items hcodes hi l rfl)
      by_cases hdepth : l.depth = 0
      · simp [itemRows, above, lastRow, before, hdepth, strip_of_head hhead]
      · simp [itemRows, above, lastRow, before, hdepth, flat, strip_append hcs hhead]
  unfold programRows
  rw [List.map_append, List.map_flatMap, List.map_flatMap, List.flatMap_congr hsegment,
    List.flatMap_congr hitem]

end Margin

/-! ### Texts -/

section Texts

variable {segments : List (Segment α)} {segments' : List (Segment β)}
  {codes codes' : List (List Line)} {unit unit' : String}

/-- Blanks have no line feed in them. -/
theorem newline_not_mem_of_blank (h : ∀ c ∈ unit.toList, isBlank c = true) :
    '\n' ∉ unit.toList :=
  fun hmem => Scanner.ne_newline_of_isBlank (h _ hmem) rfl

theorem programRows_eq_of_programText (hsegments : ∀ s ∈ segments, s.Lexical)
    (hsegments' : ∀ s ∈ segments', s.Lexical) (hcodes : ∀ code ∈ codes, Proper code)
    (hcodes' : ∀ code ∈ codes', Proper code)
    (h : programText unit segments codes = programText unit' segments' codes') {m m' : Margin}
    (hm : m.chars = unit.toList) (hm' : m'.chars = unit'.toList) :
    m.programRows segments codes = m'.programRows segments' codes' := by
  apply ofRows_injective (Margin.newline_not_mem_programRows hsegments hcodes)
    (Margin.newline_not_mem_programRows hsegments' hcodes')
  rw [← Margin.toList_programText hm, ← Margin.toList_programText hm', h]

/-- The text of a program determines the lines of its functions. -/
theorem codes_eq_of_programText (hsegments : ∀ s ∈ segments, s.Lexical)
    (hsegments' : ∀ s ∈ segments', s.Lexical) (hcodes : ∀ code ∈ codes, Proper code)
    (hcodes' : ∀ code ∈ codes', Proper code)
    (hunit : unit = unit' ∨ (∀ c ∈ unit.toList, isBlank c = true) ∧
      ∀ c ∈ unit'.toList, isBlank c = true)
    (h : programText unit segments codes = programText unit' segments' codes') :
    codes = codes' := by
  rcases hunit with rfl | ⟨hblank, hblank'⟩
  · obtain ⟨m, hm⟩ := Margin.exists_chars unit.toList
    exact Margin.programRows_injective hsegments hsegments' hcodes hcodes'
      (programRows_eq_of_programText hsegments hsegments' hcodes hcodes' h hm hm)
  · have hm := Margin.chars_flat (newline_not_mem_of_blank hblank)
    have hm' := Margin.chars_flat (newline_not_mem_of_blank hblank')
    have hrows := congrArg (List.map strip)
      (programRows_eq_of_programText hsegments hsegments' hcodes hcodes' h hm hm')
    rw [Margin.map_strip_programRows hblank hsegments hcodes,
      Margin.map_strip_programRows hblank' hsegments' hcodes'] at hrows
    exact Margin.programRows_injective hsegments hsegments' hcodes hcodes' hrows

/-- Without line feeds in the indentation, it determines all lines. -/
theorem programLines_eq_of_programText (hsegments : ∀ s ∈ segments, s.Lexical)
    (hsegments' : ∀ s ∈ segments', s.Lexical) (hcodes : ∀ code ∈ codes, Proper code)
    (hcodes' : ∀ code ∈ codes', Proper code) (hunit : '\n' ∉ unit.toList)
    (hunit' : '\n' ∉ unit'.toList)
    (h : programText unit segments codes = programText unit' segments' codes') :
    programLines unit segments codes = programLines unit' segments' codes' := by
  have hrows := programRows_eq_of_programText hsegments hsegments' hcodes hcodes' h
    (Margin.chars_flat hunit) (Margin.chars_flat hunit')
  rw [Margin.programRows_flat, Margin.programRows_flat] at hrows
  exact List.map_injective_iff.mpr (fun _ _ => String.toList_inj.mp) hrows

end Texts

/-- The text of a compiled program comes from proper lines. -/
theorem Program.Lexical.exists_codes {a : Allocator} {p : Program α} (hp : p.Lexical)
    {unit text : String} (h : a.compile unit p = .ok text) :
    ∃ codes, p.functions.mapM a.code = .ok codes ∧ (∀ code ∈ codes, Proper code) ∧
      programText unit p.segments codes = text := by
  rw [Allocator.compile_eq] at h
  cases hcodes : p.functions.mapM a.code with
  | error e =>
    rw [hcodes] at h
    cases h
  | ok codes =>
    rw [hcodes] at h
    have hcompiles := (mapM_eq_ok.mp hcodes).imp fun fn code => Allocator.compiles_of_code
    exact ⟨codes, rfl, proper_of_compiles hp.functions hcompiles, Except.ok.inj h⟩

/-- **Lines are written unambiguously.**  Lines with proper names and strings that are written
alike are the same, and no line feed stands in any of them.  So if two such programs are
compiled to the same text, be it with the same indentation or with any blanks, then the same
lines were written for their functions.  Where the indentation has no line feeds, all
lines on the sheets are the same, also those of the data segments.  Programs that are read
from a text are of this kind. -/
theorem rendering_unambiguous :
    (∀ l l' : Line, l.Lexical → l'.Lexical → l.render = l'.render → l = l') ∧
    (∀ l : Line, l.Lexical → '\n' ∉ l.render.toList) ∧
    (∀ (path source : String) (tokens : List Token) (p : Program Span),
      lex path source = .ok tokens → parse tokens = .ok p → p.Lexical) ∧
    ∀ (a a' : Allocator) (p : Program α) (p' : Program β) (unit unit' text : String),
      p.Lexical → p'.Lexical →
      (unit = unit' ∨ (∀ c ∈ unit.toList, isBlank c = true) ∧
        ∀ c ∈ unit'.toList, isBlank c = true) →
      a.compile unit p = .ok text → a'.compile unit' p' = .ok text →
      ∃ codes, p.functions.mapM a.code = .ok codes ∧ p'.functions.mapM a'.code = .ok codes ∧
        (∀ code ∈ codes, ∀ l ∈ code, l.Lexical) ∧
        ('\n' ∉ unit.toList →
          programLines unit p.segments codes = programLines unit' p'.segments codes) := by
  refine ⟨fun l l' hl hl' h => Line.render_injective hl hl' h,
    fun l hl => Line.newline_not_mem_render hl,
    fun path source tokens p hlex hparse => lexical_of_parse hlex hparse, ?_⟩
  intro a a' p p' unit unit' text hp hp' hunit h h'
  obtain ⟨codes, hcodes, hproper, htext⟩ := hp.exists_codes h
  obtain ⟨codes', hcodes', hproper', htext'⟩ := hp'.exists_codes h'
  have hsame := htext.trans htext'.symm
  obtain rfl :=
    codes_eq_of_programText hp.segments hp'.segments hproper hproper' hunit hsame
  refine ⟨codes, hcodes, hcodes', fun code hcode => (hproper code hcode).lexical, fun hflat => ?_⟩
  have hflat' : '\n' ∉ unit'.toList := by
    rcases hunit with rfl | ⟨-, hblank'⟩
    · exact hflat
    · exact newline_not_mem_of_blank hblank'
  exact programLines_eq_of_programText hp.segments hp'.segments hproper hproper' hflat hflat' hsame

namespace Sample

/-- A segment, strings with blanks and parentheses in them, and a jump. -/
def quoteSource : String :=
  "const T\n  -1\nfunc F(x)\nE:\n  Print(\"a) (b\" x \" \")\n  if0 x goto :E\n  ret\n"

/-- The same with another variable. -/
def quoteRenamed : String :=
  "const T\n  -1\nfunc F(y)\nE:\n  Print(\"a) (b\" y \" \")\n  if0 y goto :E\n  ret\n"

/-- What is written for either of them, indented by a line feed and a tab. -/
def quoteText : String :=
  "const T\n\n\t-1\n\nfunc F [in 0, out 0, local 0]\n\n\t$t0 = $a0\nE:\n\n\tPrint(\"a) (b\" $t0 \" \")\n" ++
    "\n\tif0 $t0 goto :E\n\n\tret\n"

/-- What is written for a source with this indentation. -/
def compiled (source : String) : Option String :=
  ((lex "sample" source).toOption.bind fun tokens => (parse tokens).toOption).bind fun p =>
    (Allocator.compile {} "\n\t" p).toOption

theorem exists_of_compiled {source text : String} (h : compiled source = some text) :
    ∃ tokens p, lex "sample" source = .ok tokens ∧ parse tokens = .ok p ∧
      Allocator.compile {} "\n\t" p = .ok text := by
  obtain ⟨p, hp, htext⟩ := Option.bind_eq_some_iff.mp h
  obtain ⟨tokens, htokens, hp⟩ := Option.bind_eq_some_iff.mp hp
  have hok : ∀ {ε γ : Type} {x : Except ε γ} {y : γ}, x.toOption = some y → x = .ok y := by
    intro ε γ x y hx
    cases x with
    | error e => cases hx
    | ok z => rw [Option.some.inj hx]
  exact ⟨tokens, p, hok htokens, hok hp, hok htext⟩

end Sample

/-- The two samples have the same text, and the same lines were written for them. -/
theorem rendering_unambiguous_sample :
    ∃ p p' : Program Span, p.Lexical ∧ p'.Lexical ∧
      Allocator.compile {} "\n\t" p = .ok Sample.quoteText ∧
      Allocator.compile {} "\n\t" p' = .ok Sample.quoteText ∧
      ∃ codes, p.functions.mapM (Allocator.code {}) = .ok codes ∧
        p'.functions.mapM (Allocator.code {}) = .ok codes ∧
        ∀ code ∈ codes, ∀ l ∈ code, l.Lexical := by
  have hunique := @rendering_unambiguous Span Span
  obtain ⟨tokens, p, hlex, hparse, htext⟩ :=
    Sample.exists_of_compiled (show Sample.compiled Sample.quoteSource = some Sample.quoteText by
      decide +kernel)
  obtain ⟨tokens', p', hlex', hparse', htext'⟩ :=
    Sample.exists_of_compiled (show Sample.compiled Sample.quoteRenamed = some Sample.quoteText by
      decide +kernel)
  have hp := hunique.2.2.1 _ _ _ _ hlex hparse
  have hp' := hunique.2.2.1 _ _ _ _ hlex' hparse'
  obtain ⟨codes, hcodes, hcodes', hlexical, -⟩ :=
    hunique.2.2.2 _ _ p p' _ _ _ hp hp' (.inl rfl) htext htext'
  exact ⟨p, p', hp, hp', htext, htext', codes, hcodes, hcodes', hlexical⟩

end Vapor

/-
Vapor/Proofs/Printing/RoundTrip.lean

Reading the text of a program gives the program back (`parse_write`), whatever the program, as
long as its names, strings and integers can be read and its labels are in order.

`Lays` goes from parts of a line to whole lines: the reader of characters makes tokens of them,
and these tokens are related to the ones behind them.  The lines of a function need a fact
about its labels.  Each place in the function collects the labels that stand for it, and the
labels from some place on are those of the place, followed by those of the later ones, because
they are in order (`filter_index_le`).
-/
import Vapor.Proofs.Printing.Reading

namespace Vapor

open Grammar

variable {α : Type}

/-! ### Lines -/

/-- The reader makes tokens of the lines, which are related by `P` to the tokens behind them. -/
def Lays (lines : List String) (P : List Token → List Token → Prop) : Prop :=
  ∀ (p : Pos) (rest : List Char), ∃ ts p',
    Scanner.Run ⟨p, false, (ofLines lines).toList ++ rest⟩ ts ⟨p', false, rest⟩ ∧
      (∀ t ∈ ts, t.Proper) ∧ ∀ us, P (ts ++ us) us

namespace Lays

variable {lines lines' : List String} {P Q : List Token → List Token → Prop}

theorem mono (h : Lays lines P) (hPQ : ∀ ts us, P ts us → Q ts us) : Lays lines Q := by
  intro p rest
  obtain ⟨ts, p', hrun, hproper, hP⟩ := h p rest
  exact ⟨ts, p', hrun, hproper, fun us => hPQ _ _ (hP us)⟩

theorem nil : Lays [] (fun ts us => ts = us) := by
  intro p rest
  exact ⟨[], p, .refl, List.forall_mem_nil _, fun us => rfl⟩

theorem toList_ofLines_append (lines lines' : List String) :
    (ofLines (lines ++ lines')).toList = (ofLines lines).toList ++ (ofLines lines').toList := by
  simp [ofLines]

theorem append (h : Lays lines P) (h' : Lays lines' Q) : Lays (lines ++ lines') (Then P Q) := by
  intro p rest
  obtain ⟨ts, p', hrun, hproper, hP⟩ := h p ((ofLines lines').toList ++ rest)
  obtain ⟨us, p'', hrun', hproper', hQ⟩ := h' p' rest
  rw [← List.append_assoc, ← toList_ofLines_append] at hrun
  refine ⟨ts ++ us, p'', hrun.trans hrun', List.forall_mem_append.mpr ⟨hproper, hproper'⟩, ?_⟩
  intro vs
  rw [List.append_assoc]
  exact ⟨us ++ vs, hP (us ++ vs), hQ vs⟩

/-- A single line.  It has words, so that its end is a token. -/
theorem one {tight : Bool} {s : String} (h : Writes tight s P) (hP : ¬P [] []) :
    Lays [s] (Then P Eol) := by
  obtain ⟨ws, hspells, hproper, hreads⟩ := h
  have hws : ws ≠ [] := by
    rintro rfl
    exact hP (hreads [] [] rfl)
  have hline : Spells s.toList ws := by
    have hspell := hspells [] [] (fun _ => nofun) .nil
    rwa [List.append_nil, List.append_nil] at hspell
  intro p rest
  obtain ⟨ts, p', hrun, hts⟩ := hline.run_line p rest
  have hend : Spells.withEnd ws = ws ++ [(.newline, "\n")] := by
    simp [Spells.withEnd, hws]
  rw [hend] at hts
  obtain ⟨first, last, rfl, hfirst, hlast⟩ := List.map_eq_append_iff.mp hts
  obtain ⟨newline, rfl, hnewline⟩ := List.map_eq_singleton_iff.mp hlast
  have hkind : newline.kind = .newline := congrArg Prod.fst hnewline
  refine ⟨_, p', by simpa [ofLines] using hrun, ?_, ?_⟩
  · intro t ht
    rcases List.mem_append.mp ht with ht | ht
    · exact hproper t (hfirst ▸ List.mem_map_of_mem ht)
    · rw [List.mem_singleton.mp ht]
      exact ⟨by simp [hkind], by simp [hkind]⟩
  · intro us
    rw [List.append_assoc]
    exact ⟨newline :: us, hreads first _ hfirst, .newline hkind⟩

/-- The lines of several things, for any relation of tokens that is built up one by one. -/
theorem flatMap {β : Type} {write : β → List String} {F : β → List Token → List Token → Prop}
    {R : List β → List Token → List Token → Prop} (hnil : ∀ ts, R [] ts ts)
    (hcons : ∀ {b bs ts us vs}, F b ts us → R bs us vs → R (b :: bs) ts vs) {bs : List β}
    (h : ∀ b ∈ bs, Lays (write b) (F b)) : Lays (bs.flatMap write) (R bs) := by
  induction bs with
  | nil =>
    refine nil.mono ?_
    rintro ts _ rfl
    exact hnil ts
  | cons b bs ih =>
    obtain ⟨hb, hbs⟩ := List.forall_mem_cons.mp h
    rw [List.flatMap_cons]
    refine (hb.append (ih hbs)).mono ?_
    rintro ts vs ⟨us, hb, hbs⟩
    exact hcons hb hbs

end Lays

/-! ### Segments -/

theorem lays_values {blanks : String} (hblanks : blanks.toList.all isBlank = true)
    {ds : List (Datum α)} (h : ∀ d ∈ ds, d.Writable) :
    Lays (ds.map (blanks ++ ·.write)) fun ts us =>
      RowsForm ts us (ds.map (Datum.map eraseNote)) := by
  rw [List.map_eq_flatMap]
  apply Lays.flatMap (R := fun ds ts us => RowsForm ts us (ds.map (Datum.map eraseNote)))
    (F := fun d => Then (fun ts us => DatumForm ts us (d.map eraseNote)) Eol)
  · intro ts
    exact .nil
  · rintro d ds ts us vs ⟨_, hd, heol⟩ hds
    exact .row (.one hd) heol hds
  · intro d hd
    have hindented : Writes true (blanks ++ d.write) fun ts us =>
        DatumForm ts us (d.map eraseNote) := (writes_datum (h d hd)).indent hblanks
    exact .one hindented fun h => absurd (Parser.datum_shorter h) (Nat.lt_irrefl _)

theorem lays_segment {blanks : String} (hblanks : blanks.toList.all isBlank = true)
    {s : Segment α} (h : s.Writable) :
    Lays (((if s.isMutable then "var " else "const ") ++ s.name) ::
      s.values.map (blanks ++ ·.write)) fun ts us => SegmentForm ts us (s.map eraseNote) := by
  obtain ⟨name, isMutable, values, note⟩ := s
  have hkeyword : Writes false (if isMutable then "var " else "const ")
      (Sole (if isMutable then .var else .const) (if isMutable then "var" else "const")) := by
    cases isMutable
    · exact writes_keyword .const "const" (by decide) (by decide)
    · exact writes_keyword .var "var" (by decide) (by decide)
  have hheader := Lays.one (hkeyword.append (writes_name h.name) nofun)
    (by rintro ⟨_, ⟨_, ⟨⟩, _⟩, _⟩)
  refine (hheader.append (lays_values hblanks h.values)).mono ?_
  rintro ts us ⟨_, ⟨_, ⟨_, ⟨keyword, rfl, hkeyword, -⟩, name, rfl, hname, rfl⟩, heol⟩, hrows⟩
  exact .intro hkeyword hname heol hrows

/-! ### Functions -/

/-- The labels from some place on are those of the place and those from the next one on. -/
theorem filter_index_le {labels : List (Label α)}
    (h : labels.Pairwise fun a b => a.index ≤ b.index) (n : Int) :
    labels.filter (fun l => n ≤ l.index) =
      labels.filter (·.index == n) ++ labels.filter (fun l => n + 1 ≤ l.index) := by
  induction labels with
  | nil => rfl
  | cons l labels ih =>
    obtain ⟨hl, hlabels⟩ := List.pairwise_cons.mp h
    rcases Int.lt_trichotomy l.index n with hless | hhere | hlater
    · have hfrom : ¬n ≤ l.index := by omega
      have hnext : ¬n + 1 ≤ l.index := by omega
      have hne : l.index ≠ n := by omega
      rw [List.filter_cons_of_neg (by simpa using hfrom),
        List.filter_cons_of_neg (by simpa using hne),
        List.filter_cons_of_neg (by simpa using hnext), ih hlabels]
    · have hfrom : n ≤ l.index := by omega
      have hnext : ¬n + 1 ≤ l.index := by omega
      rw [List.filter_cons_of_pos (by simpa using hfrom),
        List.filter_cons_of_pos (by simpa using hhere),
        List.filter_cons_of_neg (by simpa using hnext), ih hlabels, List.cons_append]
    · -- neither this label nor one behind it stands for the place any more
      have hle : ∀ l' ∈ l :: labels, n < l'.index := by
        intro l' hl'
        rcases List.mem_cons.mp hl' with rfl | hl'
        · exact hlater
        · exact Int.lt_of_lt_of_le hlater (hl l' hl')
      have hnone : (l :: labels).filter (·.index == n) = [] := by
        rw [List.filter_eq_nil_iff]
        intro l' hl' hindex
        have heq : l'.index = n := by simpa using hindex
        exact absurd heq (Int.ne_of_gt (hle l' hl'))
      rw [hnone, List.nil_append]
      apply List.filter_congr
      intro l' hl'
      have hnext : n + 1 ≤ l'.index := hle l' hl'
      have hfrom : n ≤ l'.index := Int.le_of_lt (hle l' hl')
      rw [decide_eq_true hnext, decide_eq_true hfrom]

/-- The labels of a place stand for the number of instructions before it. -/
theorem lays_labels {labels : List (Label α)} (hnames : ∀ l ∈ labels, IsName l.name) (index : Nat) :
    Lays (writeLabels labels index) fun ts us => ∀ rest body after,
      LinesForm index us rest body after → LinesForm index ts rest body
        ((labels.filter (·.index == (index : Int))).map (Label.map eraseNote) ++ after) := by
  induction labels with
  | nil =>
    refine Lays.nil.mono ?_
    rintro ts _ rfl rest body after h
    exact h
  | cons l labels ih =>
    obtain ⟨hl, hlabels⟩ := List.forall_mem_cons.mp hnames
    obtain ⟨name, place, note⟩ := l
    by_cases hplace : place = index
    · subst hplace
      have hcolon : Writes false ":" (Sole .colon ":") := writes_mark rfl rfl
      have hline := Lays.one ((writes_name hl).append hcolon fun _ => rfl)
        (by rintro ⟨_, ⟨_, ⟨⟩, _⟩, _⟩)
      have hcons : writeLabels (⟨name, index, note⟩ :: labels) index =
          [name ++ ":"] ++ writeLabels labels index := by
        simp [writeLabels]
      rw [hcons, List.filter_cons_of_pos (by simp)]
      refine (hline.append (ih hlabels)).mono ?_
      rintro ts us ⟨_, ⟨_, ⟨_, ⟨t, rfl, ht, rfl⟩, colon, rfl, hcolon, -⟩, heol⟩, hrest⟩
        rest body after h
      exact .label ht hcolon heol (hrest rest body after h)
    · have hskip : writeLabels (⟨name, place, note⟩ :: labels) index =
          writeLabels labels index := by
        simp [writeLabels, hplace]
      rw [hskip, List.filter_cons_of_neg (by simpa using hplace)]
      exact ih hlabels

theorem instr_ne_nil {ts us : List Token} {i : Instr Unit} (h : InstrForm ts us i) : ts ≠ [] := by
  rintro rfl
  exact absurd (Parser.instr_head ⟨.eof, "", .at (.first "")⟩ h rfl) (by decide)

/-- The instructions from some index on are written with the labels from there on. -/
theorem lays_body {labels : List (Label α)} {body : List (Instr α)} {index : Nat}
    (hnames : ∀ l ∈ labels, IsName l.name) (hbody : ∀ i ∈ body, i.Writable)
    (hindex : ∀ l ∈ labels, l.index ≤ index + body.length)
    (hordered : labels.Pairwise fun a b => a.index ≤ b.index) :
    Lays (writeBody labels index body) fun ts us =>
      LinesForm index ts us (body.map (Instr.map eraseNote))
        ((labels.filter fun l => (index : Int) ≤ l.index).map (Label.map eraseNote)) := by
  induction body generalizing index with
  | nil =>
    -- behind the last instruction only the labels of the end are left
    have hlast : labels.filter (fun l => (index : Int) + 1 ≤ l.index) = [] := by
      rw [List.filter_eq_nil_iff]
      intro l hl hlater
      have hle := hindex l hl
      simp only [List.length_nil, decide_eq_true_eq] at hle hlater
      omega
    apply (lays_labels hnames index).mono
    intro ts us h
    rw [filter_index_le hordered, hlast, List.map_append]
    exact h us [] [] .nil
  | cons i body ih =>
    obtain ⟨hi, hbody⟩ := List.forall_mem_cons.mp hbody
    have hindented : Writes true ("  " ++ i.write) fun ts us =>
        InstrForm ts us (i.map eraseNote) := (writes_instr hi).indent rfl
    have hline := Lays.one hindented fun h => instr_ne_nil h rfl
    have hindex' : ∀ l ∈ labels, l.index ≤ (index + 1 : Nat) + body.length := by
      intro l hl
      have hle := hindex l hl
      simp only [List.length_cons] at hle
      omega
    refine ((lays_labels hnames index).append (hline.append (ih hbody hindex'))).mono ?_
    rintro ts us ⟨_, hlabels, _, ⟨_, hi, heol⟩, hrest⟩
    rw [filter_index_le hordered, List.map_append]
    exact hlabels _ _ _ (.instr hi heol hrest)

theorem writes_params {xs : List (Ref α)} (h : ∀ x ∈ xs, IsName x.name) :
    Writes false (writeArgs (xs.map Ref.name)) (Then (Sole .lparen "(")
      (Then (fun ts us => ParamsForm ts us (xs.map (Ref.map eraseNote))) (Sole .rparen ")"))) := by
  apply writes_args
  apply writes_intercalate (R := fun xs ts us => ParamsForm ts us (xs.map (Ref.map eraseNote)))
    (F := fun x => Sole .ident x.name)
  · intro ts
    exact .nil
  · rintro ⟨x, note⟩ xs ts us vs ⟨t, rfl, ht, rfl⟩ hxs
    exact .cons ht hxs
  · intro x hx
    exact writes_name (h x hx)

theorem lays_function {f : Function α} (h : f.Writable) :
    Lays f.writeLines fun ts us => FunctionForm ts us (f.map eraseNote) := by
  obtain ⟨name, params, body, labels, note⟩ := f
  have hfunc := writes_keyword .func "func" (by decide) (by decide)
  have hheader := Lays.one ((hfunc.append (writes_name h.name) nofun).append
    (writes_params h.params) fun _ => closes_writeArgs _) (by rintro ⟨_, ⟨_, ⟨_, ⟨⟩, _⟩, _⟩, _⟩)
  have hindex : ∀ l ∈ labels, l.index ≤ (0 : Nat) + body.length := by
    intro l hl
    have hle : l.index ≤ body.length := (h.labels_index l hl).2
    omega
  -- the labels from the beginning on are all of them
  have hall : labels.filter (fun l => ((0 : Nat) : Int) ≤ l.index) = labels := by
    rw [List.filter_eq_self]
    intro l hl
    simpa using (h.labels_index l hl).1
  have hbody := lays_body h.labels h.body hindex h.labels_ordered
  rw [hall] at hbody
  refine (hheader.append hbody).mono ?_
  rintro ts us ⟨_, ⟨_, ⟨_, ⟨_, ⟨keyword, rfl, hkeyword, -⟩, name, rfl, hname, rfl⟩, _,
    ⟨opening, rfl, hopening, -⟩, _, hparams, close, rfl, hclose, -⟩, heol⟩, hlines⟩
  refine .intro hkeyword hname hopening hparams hclose heol hlines ?_ ?_
  · rw [List.map_map]
    exact h.params_nodup
  · rw [List.map_map]
    exact h.labels_nodup

/-! ### Programs -/

theorem lays_segments {ss : List (Segment α)} (h : ∀ s ∈ ss, s.Writable) :
    Lays (ss.flatMap Segment.writeLines) fun ts us => ∀ segments functions,
      ItemsForm us segments functions →
        ItemsForm ts (ss.map (Segment.map eraseNote) ++ segments) functions := by
  apply Lays.flatMap (R := fun ss ts us => ∀ segments functions, ItemsForm us segments functions →
    ItemsForm ts (ss.map (Segment.map eraseNote) ++ segments) functions)
  · intro ts segments functions hitems
    exact hitems
  · intro s ss ts us vs hs hss segments functions hitems
    exact .segment hs (hss segments functions hitems)
  · intro s hs
    exact lays_segment rfl (h s hs)

theorem lays_functions {fs : List (Function α)} (h : ∀ f ∈ fs, f.Writable) :
    Lays (fs.flatMap Function.writeLines) fun ts us =>
      ItemsForm us [] [] → ItemsForm ts [] (fs.map (Function.map eraseNote)) := by
  apply Lays.flatMap (R := fun fs ts us =>
    ItemsForm us [] [] → ItemsForm ts [] (fs.map (Function.map eraseNote)))
  · intro ts hitems
    exact hitems
  · intro f fs ts us vs hf hfs hitems
    exact .function hf (hfs hitems)
  · intro f hf
    exact lays_function (h f hf)

/-- The tokens of the text of a program derive the program. -/
theorem lex_write {p : Program α} (hp : p.Writable) (path : String) :
    ∃ body stop, lex path p.write = .ok (body ++ [stop]) ∧ stop.kind = .eof ∧
      (∀ t ∈ body, t.Proper) ∧ Derives body p.erase := by
  obtain ⟨ts, q, hrun, hproper, hitems⟩ :=
    (lays_segments hp.segments).append (lays_functions hp.functions) (.first path) []
  rw [List.append_nil] at hrun
  refine ⟨ts, ⟨.eof, "", .at q⟩, lex_eq_ok_iff.mpr ⟨ts, _, hrun, rfl, rfl⟩, rfl, hproper, ?_, ?_⟩
  · obtain ⟨us, hsegments, hfunctions⟩ := hitems []
    have hall := hsegments _ _ (hfunctions .nil)
    rwa [List.append_nil, List.append_nil] at hall
  · have hdistinct := hp.distinct
    simpa [Program.erase, Program.map, Segment.map, Function.map, Function.comp_def] using hdistinct

/-- **Reading undoes writing.**  The text of a program that can be written is read, and what is
read is the program, up to the places where it is noted to stand. -/
theorem parse_write {p : Program α} (hp : p.Writable) (path : String) :
    ∃ tokens p', lex path p.write = .ok tokens ∧ parse tokens = .ok p' ∧ p'.erase = p.erase := by
  obtain ⟨body, stop, hlex, hstop, hproper, hderives⟩ := lex_write hp path
  obtain ⟨p', hparse, herase⟩ := parse_of_derives hstop hproper hderives
  exact ⟨body ++ [stop], p', hlex, hparse, herase⟩

namespace Sample

/-- All kinds of instructions, two labels in one place and one at the end, an empty segment and
an empty function. -/
def listing : Program Unit where
  segments :=
    [⟨"Empty", false, [], ()⟩, ⟨"Table", true, [.label ⟨"F", ()⟩, .int (-7) ()], ()⟩]
  functions :=
    [⟨"F", [⟨"x", ()⟩, ⟨"t.0", ()⟩],
      [.load ⟨"y", ()⟩ ⟨⟨"x", ()⟩, -4, ()⟩ (),
        .branch (.var ⟨"y", ()⟩) false ⟨"Top", ()⟩ (),
        .store ⟨⟨"x", ()⟩, 0, ()⟩ (.int (-1) ()) (),
        .store ⟨⟨"x", ()⟩, 8, ()⟩ (.label ⟨"Table", ()⟩) (),
        .apply none "Error" [.text "\"a\\\"//b\"" ()] (),
        .call (some ⟨"y", ()⟩) (.label ⟨"F", ()⟩) [.var ⟨"y", ()⟩, .int 0 ()] (),
        .apply (some ⟨"y", ()⟩) "Add" [.var ⟨"y", ()⟩, .int (-2) ()] (),
        .call none (.var ⟨"y", ()⟩) [] (),
        .assign ⟨"x", ()⟩ (.var ⟨"y", ()⟩) (),
        .goto ⟨"Bottom", ()⟩ (),
        .ret (some (.var ⟨"x", ()⟩)) ()],
      [⟨"Top", 0, ()⟩, ⟨"Again", 0, ()⟩, ⟨"Middle", 5, ()⟩, ⟨"Bottom", 11, ()⟩], ()⟩,
      ⟨"G", [], [], [], ()⟩]
  note := ()

/-- Its text. -/
def listingText : String :=
  "const Empty\nvar Table\n  :F\n  -7\nfunc F(x t.0)\nTop:\nAgain:\n" ++
    "  y = [x-4]\n  if0 y goto :Top\n  [x] = -1\n  [x+8] = :Table\n" ++
    "  Error(\"a\\\"//b\")\nMiddle:\n  y = call :F(y 0)\n  y = Add(y -2)\n" ++
    "  call y()\n  x = y\n  goto :Bottom\n  ret x\nBottom:\nfunc G()\n"

end Sample

/-- The sample can be written, has this text, and is read back from it. -/
theorem parse_write_sample :
    Sample.listing.Writable ∧ Sample.listing.write = Sample.listingText ∧
      ∃ tokens p', lex "sample" Sample.listing.write = .ok tokens ∧ parse tokens = .ok p' ∧
        p'.erase = Sample.listing.erase := by
  have hwritable : Sample.listing.Writable := by decide
  exact ⟨hwritable, by decide +kernel, parse_write hwritable "sample"⟩

end Vapor

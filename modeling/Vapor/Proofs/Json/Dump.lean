/-
Vapor/Proofs/Json/Dump.lean

The dump of a program loses nothing.  Every node is an object that names its kind and whose fields
have different keys, so sorting them mixes nothing up: nodes of one kind with the same canonical
form have the same fields (`node_inj`), and nodes of different kinds have different ones
(`kind_eq`).  Going up from names and numbers to programs, whatever is shown is known from the
JSON value (`Program.tells_toJson`), and the value is known from its text but for the order of
fields.  Spans that are not shown are all that a dump without spans leaves out (`dump_faithful`).
-/
import Vapor.Json.Program
import Vapor.Proofs.Json.Canonical

namespace Vapor

namespace Json

/-! ### Things that are known from their values -/

/-- A thing is known from the JSON value that shows it, up to the order of fields. -/
def Tells {β : Type} (toJson : β → Json) : Prop :=
  ∀ ⦃x y⦄, (toJson x).canonical = (toJson y).canonical → x = y

theorem tells_str : Tells str := fun _ _ h => str.inj h

theorem tells_int : Tells int := fun _ _ h => int.inj h

theorem tells_bool : Tells bool := fun _ _ h => bool.inj h

theorem Tells.arr {β : Type} {toJson : β → Json} (h : Tells toJson) :
    Tells fun xs : List β => .arr (xs.map toJson) := by
  intro xs ys heq
  simp only [canonical_arr, List.map_map] at heq
  exact (List.map_inj_right h).mp (arr.inj heq)

/-- An absent value is told from those that are objects. -/
theorem Tells.opt {β : Type} {toJson : β → Json} (h : Tells toJson)
    (hobj : ∀ x, ∃ fields, toJson x = .obj fields) : Tells (Json.opt toJson) := by
  intro x y heq
  cases x with
  | none =>
    cases y with
    | none => rfl
    | some y =>
      obtain ⟨fields, hy⟩ := hobj y
      simp [Json.opt, hy, canonical] at heq
  | some x =>
    cases y with
    | none =>
      obtain ⟨fields, hx⟩ := hobj x
      simp [Json.opt, hx, canonical] at heq
    | some y => exact congrArg some (h heq)

/-! ### Nodes -/

/-- Sorting mixes nothing up if all keys differ. -/
theorem eq_of_perm_of_keys {β : Type} {fs gs : List (String × β)} (h : fs.Perm gs)
    (hkeys : fs.map Prod.fst = gs.map Prod.fst) (hnodup : (gs.map Prod.fst).Nodup) : fs = gs := by
  induction fs generalizing gs with
  | nil => exact h.nil_eq
  | cons f fs ih =>
    cases gs with
    | nil => exact nomatch hkeys
    | cons g gs =>
      obtain ⟨hkey, htail⟩ := List.cons.inj hkeys
      obtain ⟨hg, hgs⟩ := List.nodup_cons.mp hnodup
      -- a field with the key of `g` is nowhere else
      have hfg : f = g := by
        rcases List.mem_cons.mp (h.mem_iff.mp List.mem_cons_self) with hfg | hf
        · exact hfg
        · exact absurd (hkey ▸ List.mem_map_of_mem hf) hg
      subst hfg
      rw [ih h.cons_inv htail hgs]

theorem perm_of_node {kind kind' : String} {fs gs : List (String × Json)}
    (h : (node kind fs).canonical = (node kind' gs).canonical) :
    (("node", str kind) :: canonicalFields fs).Perm
      (("node", str kind') :: canonicalFields gs) := by
  have hsorted := obj.inj h
  exact (sortFields_perm _).symm.trans ((List.Perm.of_eq hsorted).trans (sortFields_perm _))

theorem map_fst_canonicalFields (fs : List (String × Json)) :
    (canonicalFields fs).map Prod.fst = fs.map Prod.fst := by
  rw [canonicalFields_eq_map, List.map_map]
  rfl

/-- **Different kinds are told apart.** -/
theorem kind_eq {kind kind' : String} {fs gs : List (String × Json)}
    (hgs : "node" ∉ gs.map Prod.fst)
    (h : (node kind fs).canonical = (node kind' gs).canonical) : kind = kind' := by
  rcases List.mem_cons.mp ((perm_of_node h).mem_iff.mp List.mem_cons_self) with hkind | hmem
  · exact str.inj (Prod.mk.inj hkind).2
  · rw [← map_fst_canonicalFields] at hgs
    exact absurd (List.mem_map_of_mem (f := Prod.fst) hmem) hgs

/-- **The fields of a node are told apart** by their keys. -/
theorem node_inj {kind : String} {fs gs : List (String × Json)}
    (h : (node kind fs).canonical = (node kind gs).canonical)
    (hkeys : fs.map Prod.fst = gs.map Prod.fst) (hnodup : ("node" :: gs.map Prod.fst).Nodup) :
    canonicalFields fs = canonicalFields gs := by
  have hall := eq_of_perm_of_keys (perm_of_node h)
    (by rw [List.map_cons, List.map_cons, map_fst_canonicalFields, map_fst_canonicalFields, hkeys])
    (by rwa [List.map_cons, map_fst_canonicalFields])
  exact List.tail_eq_of_cons_eq hall

/-- Fields that show a note: none, or one that is no other field of a node. -/
structure Shows {α : Type} (note : α → List (String × Json)) : Prop where
  keys : ∃ keys : List String, keys.Sublist ["span"] ∧ ∀ a, (note a).map Prod.fst = keys
  tells : Function.Injective fun a => canonicalFields (note a)

namespace Shows

variable {α : Type} {note : α → List (String × Json)} {kind kind' : String}
  {fs gs : List (String × Json)} {a b : α}

theorem kind_eq (hn : Shows note) (hgs : "node" ∉ gs.map Prod.fst)
    (h : (node kind (fs ++ note a)).canonical = (node kind' (gs ++ note b)).canonical) :
    kind = kind' := by
  obtain ⟨keys, hsub, hkeys⟩ := hn.keys
  refine Json.kind_eq ?_ h
  rw [List.map_append, List.mem_append, hkeys, not_or]
  exact ⟨hgs, fun hmem => absurd (hsub.mem hmem) (by decide)⟩

/-- **What a node and its note are known by**: fields with given keys. -/
theorem fields_eq (hn : Shows note)
    (h : (node kind (fs ++ note a)).canonical = (node kind (gs ++ note b)).canonical)
    (keys : List String) (hfs : fs.map Prod.fst = keys) (hgs : gs.map Prod.fst = keys)
    (hkeys : ("node" :: (keys ++ ["span"])).Nodup) :
    canonicalFields fs = canonicalFields gs ∧ a = b := by
  obtain ⟨shown, hsub, hshown⟩ := hn.keys
  have hnodup : ("node" :: (gs ++ note b).map Prod.fst).Nodup := by
    rw [List.map_append, hgs, hshown]
    exact hkeys.sublist ((List.Sublist.append_left hsub keys).cons_cons _)
  have hfields := node_inj h (by simp only [List.map_append, hfs, hgs, hshown]) hnodup
  -- the note stands behind as many fields in both
  simp only [canonicalFields_eq_map, List.map_append] at hfields
  have hlength : fs.length = gs.length := by
    simpa using congrArg List.length (hfs.trans hgs.symm)
  obtain ⟨hfs, hnote⟩ := List.append_inj hfields (by simpa using hlength)
  simp only [← canonicalFields_eq_map] at hfs hnote
  exact ⟨hfs, hn.tells hnote⟩

end Shows

theorem shows_nothing : Shows fun _ : Unit => [] :=
  ⟨⟨[], List.nil_sublist _, fun _ => rfl⟩, fun _ _ _ => rfl⟩

theorem shows_span {α : Type} {shape : α → Json} (h : Tells shape) :
    Shows fun a => [("span", shape a)] := by
  refine ⟨⟨["span"], List.Sublist.refl _, fun _ => rfl⟩, fun a b heq => h ?_⟩
  exact (Prod.mk.inj (List.cons.inj heq).1).2

/-- Fields with the same keys are the same if their values are, one by one. -/
theorem canonicalFields_cons {key : String} {v w : Json} {fs gs : List (String × Json)} :
    canonicalFields ((key, v) :: fs) = canonicalFields ((key, w) :: gs) ↔
      v.canonical = w.canonical ∧ canonicalFields fs = canonicalFields gs := by
  simp [canonicalFields]

end Json

open Json

/-! ### Places -/

/-- A place as JSON, which may be given by any integers. -/
def Json.place (path : String) (offset line column : Int) : Json :=
  .node "SourcePos"
    [("path", .str path), ("offset", .int offset), ("line", .int line), ("column", .int column)]

theorem Json.place_inj {path path' : String} {offset offset' line line' column column' : Int}
    (h : (place path offset line column).canonical =
      (place path' offset' line' column').canonical) :
    path = path' ∧ offset = offset' ∧ line = line' ∧ column = column' := by
  have hfields := node_inj h rfl (by simp)
  simp only [canonicalFields_cons] at hfields
  obtain ⟨hpath, hoffset, hline, hcolumn, -⟩ := hfields
  exact ⟨tells_str hpath, tells_int hoffset, tells_int hline, tells_int hcolumn⟩

theorem Pos.tells_toJson : Tells Pos.toJson := by
  rintro ⟨path, offset, line, column⟩ ⟨path', offset', line', column'⟩ h
  obtain ⟨rfl, hoffset, hline, hcolumn⟩ := place_inj h
  obtain rfl := Int.ofNat.inj hoffset
  obtain rfl := Int.ofNat.inj hline
  obtain rfl := Int.ofNat.inj hcolumn
  rfl

theorem Span.tells_toJson : Tells Span.toJson := by
  rintro ⟨start, stop⟩ ⟨start', stop'⟩ h
  have hfields := node_inj h rfl (by simp)
  simp only [canonicalFields_cons] at hfields
  obtain ⟨hstart, hstop, -⟩ := hfields
  obtain rfl := Pos.tells_toJson hstart
  obtain rfl := Pos.tells_toJson hstop
  rfl

/-! ### Nodes of a program -/

section Nodes

variable {α : Type} {note : α → List (String × Json)}

theorem Ref.tells_node (hn : Shows note) (kind : String) :
    Tells fun r : Ref α => .node kind ([("name", .str r.name)] ++ note r.note) := by
  rintro ⟨name, a⟩ ⟨name', b⟩ h
  obtain ⟨hfields, rfl⟩ := hn.fields_eq h ["name"] rfl rfl (by decide)
  obtain rfl := tells_str (canonicalFields_cons.mp hfields).1
  rfl

theorem Ref.tells_varToJson (hn : Shows note) : Tells (Ref.varToJson note) :=
  Ref.tells_node hn "VarRef"

theorem Ref.tells_labelToJson (hn : Shows note) : Tells (Ref.labelToJson note) :=
  Ref.tells_node hn "LabelRef"

theorem intToJson_inj (hn : Shows note) {m n : Int} {a b : α}
    (h : (intToJson note m a).canonical = (intToJson note n b).canonical) : m = n ∧ a = b := by
  obtain ⟨hfields, hnote⟩ := hn.fields_eq h ["value"] rfl rfl (by decide)
  exact ⟨tells_int (canonicalFields_cons.mp hfields).1, hnote⟩

theorem Operand.tells_toJson (hn : Shows note) : Tells (Operand.toJson note) := by
  intro o o' h
  cases o with
  | var r =>
    cases o' with
    | var s => exact congrArg Operand.var (Ref.tells_varToJson hn h)
    | _ => exact absurd (hn.kind_eq (by simp) h) (by decide)
  | int m a =>
    cases o' with
    | int n b =>
      obtain ⟨rfl, rfl⟩ := intToJson_inj hn h
      rfl
    | _ => exact absurd (hn.kind_eq (by simp) h) (by decide)
  | text lexeme a =>
    cases o' with
    | text lexeme' b =>
      obtain ⟨hfields, rfl⟩ := hn.fields_eq h ["lexeme"] rfl rfl (by decide)
      obtain rfl := tells_str (canonicalFields_cons.mp hfields).1
      rfl
    | _ => exact absurd (hn.kind_eq (by simp) h) (by decide)
  | label r =>
    cases o' with
    | label s => exact congrArg Operand.label (Ref.tells_labelToJson hn h)
    | _ => exact absurd (hn.kind_eq (by simp) h) (by decide)

theorem Callee.tells_toJson (hn : Shows note) : Tells (Callee.toJson note) := by
  intro c c' h
  cases c with
  | var r =>
    cases c' with
    | var s => exact congrArg Callee.var (Ref.tells_varToJson hn h)
    | label s => exact absurd (hn.kind_eq (by simp) h) (by decide)
  | label r =>
    cases c' with
    | var s => exact absurd (hn.kind_eq (by simp) h) (by decide)
    | label s => exact congrArg Callee.label (Ref.tells_labelToJson hn h)

theorem Datum.tells_toJson (hn : Shows note) : Tells (Datum.toJson note) := by
  intro d d' h
  cases d with
  | int m a =>
    cases d' with
    | int n b =>
      obtain ⟨rfl, rfl⟩ := intToJson_inj hn h
      rfl
    | label s => exact absurd (hn.kind_eq (by simp) h) (by decide)
  | label r =>
    cases d' with
    | int n b => exact absurd (hn.kind_eq (by simp) h) (by decide)
    | label s => exact congrArg Datum.label (Ref.tells_labelToJson hn h)

theorem Address.tells_toJson (hn : Shows note) : Tells (Address.toJson note) := by
  rintro ⟨base, offset, a⟩ ⟨base', offset', b⟩ h
  obtain ⟨hfields, rfl⟩ := hn.fields_eq h ["base", "byte_offset"] rfl rfl (by decide)
  simp only [canonicalFields_cons] at hfields
  obtain ⟨hbase, hoffset, -⟩ := hfields
  obtain rfl := Ref.tells_varToJson hn hbase
  obtain rfl := tells_int hoffset
  rfl

theorem Ref.tells_opt_varToJson (hn : Shows note) : Tells (Json.opt (Ref.varToJson note)) :=
  (Ref.tells_varToJson hn).opt fun _ => ⟨_, rfl⟩

theorem Operand.tells_opt_toJson (hn : Shows note) : Tells (Json.opt (Operand.toJson note)) :=
  (Operand.tells_toJson hn).opt fun o => by cases o <;> exact ⟨_, rfl⟩

theorem Instr.tells_toJson (hn : Shows note) : Tells (Instr.toJson note) := by
  intro i i' h
  -- the kind tells the constructor, and the fields tell its arguments
  cases i with
  | assign dest source a =>
    cases i' with
    | assign dest' source' b =>
      obtain ⟨hfields, rfl⟩ := hn.fields_eq h ["dest", "source"] rfl rfl (by decide)
      simp only [canonicalFields_cons] at hfields
      obtain ⟨hdest, hsource, -⟩ := hfields
      obtain rfl := Ref.tells_varToJson hn hdest
      obtain rfl := Operand.tells_toJson hn hsource
      rfl
    | _ => exact absurd (hn.kind_eq (by simp) h) (by decide)
  | call dest callee args a =>
    cases i' with
    | call dest' callee' args' b =>
      obtain ⟨hfields, rfl⟩ := hn.fields_eq h ["dest", "addr", "args"] rfl rfl (by decide)
      simp only [canonicalFields_cons] at hfields
      obtain ⟨hdest, hcallee, hargs, -⟩ := hfields
      obtain rfl := Ref.tells_opt_varToJson hn hdest
      obtain rfl := Callee.tells_toJson hn hcallee
      obtain rfl := (Operand.tells_toJson hn).arr hargs
      rfl
    | _ => exact absurd (hn.kind_eq (by simp) h) (by decide)
  | apply dest op args a =>
    cases i' with
    | apply dest' op' args' b =>
      obtain ⟨hfields, rfl⟩ := hn.fields_eq h ["dest", "op_name", "args"] rfl rfl (by decide)
      simp only [canonicalFields_cons] at hfields
      obtain ⟨hdest, hop, hargs, -⟩ := hfields
      obtain rfl := Ref.tells_opt_varToJson hn hdest
      obtain rfl := tells_str hop
      obtain rfl := (Operand.tells_toJson hn).arr hargs
      rfl
    | _ => exact absurd (hn.kind_eq (by simp) h) (by decide)
  | store dest source a =>
    cases i' with
    | store dest' source' b =>
      obtain ⟨hfields, rfl⟩ := hn.fields_eq h ["dest", "source"] rfl rfl (by decide)
      simp only [canonicalFields_cons] at hfields
      obtain ⟨hdest, hsource, -⟩ := hfields
      obtain rfl := Address.tells_toJson hn hdest
      obtain rfl := Operand.tells_toJson hn hsource
      rfl
    | _ => exact absurd (hn.kind_eq (by simp) h) (by decide)
  | load dest source a =>
    cases i' with
    | load dest' source' b =>
      obtain ⟨hfields, rfl⟩ := hn.fields_eq h ["dest", "source"] rfl rfl (by decide)
      simp only [canonicalFields_cons] at hfields
      obtain ⟨hdest, hsource, -⟩ := hfields
      obtain rfl := Ref.tells_varToJson hn hdest
      obtain rfl := Address.tells_toJson hn hsource
      rfl
    | _ => exact absurd (hn.kind_eq (by simp) h) (by decide)
  | branch test positive target a =>
    cases i' with
    | branch test' positive' target' b =>
      obtain ⟨hfields, rfl⟩ := hn.fields_eq h ["value", "positive", "target"] rfl rfl (by decide)
      simp only [canonicalFields_cons] at hfields
      obtain ⟨htest, hpositive, htarget, -⟩ := hfields
      obtain rfl := Operand.tells_toJson hn htest
      obtain rfl := tells_bool hpositive
      obtain rfl := Ref.tells_labelToJson hn htarget
      rfl
    | _ => exact absurd (hn.kind_eq (by simp) h) (by decide)
  | goto target a =>
    cases i' with
    | goto target' b =>
      obtain ⟨hfields, rfl⟩ := hn.fields_eq h ["target"] rfl rfl (by decide)
      obtain rfl := Ref.tells_labelToJson hn (canonicalFields_cons.mp hfields).1
      rfl
    | _ => exact absurd (hn.kind_eq (by simp) h) (by decide)
  | ret value a =>
    cases i' with
    | ret value' b =>
      obtain ⟨hfields, rfl⟩ := hn.fields_eq h ["value"] rfl rfl (by decide)
      obtain rfl := Operand.tells_opt_toJson hn (canonicalFields_cons.mp hfields).1
      rfl
    | _ => exact absurd (hn.kind_eq (by simp) h) (by decide)

theorem Label.tells_toJson (hn : Shows note) : Tells (Label.toJson note) := by
  rintro ⟨name, index, a⟩ ⟨name', index', b⟩ h
  obtain ⟨hfields, rfl⟩ := hn.fields_eq h ["name", "instr_index"] rfl rfl (by decide)
  simp only [canonicalFields_cons] at hfields
  obtain ⟨hname, hindex, -⟩ := hfields
  obtain rfl := tells_str hname
  obtain rfl := tells_int hindex
  rfl

theorem Function.tells_toJson (hn : Shows note) : Tells (Function.toJson note) := by
  rintro ⟨name, params, body, labels, a⟩ ⟨name', params', body', labels', b⟩ h
  obtain ⟨hfields, rfl⟩ :=
    hn.fields_eq h ["name", "params", "body", "labels"] rfl rfl (by decide)
  simp only [canonicalFields_cons] at hfields
  obtain ⟨hname, hparams, hbody, hlabels, -⟩ := hfields
  obtain rfl := tells_str hname
  obtain rfl := (Ref.tells_varToJson hn).arr hparams
  obtain rfl := (Instr.tells_toJson hn).arr hbody
  obtain rfl := (Label.tells_toJson hn).arr hlabels
  rfl

theorem Segment.tells_toJson (hn : Shows note) : Tells (Segment.toJson note) := by
  rintro ⟨name, isMutable, values, a⟩ ⟨name', isMutable', values', b⟩ h
  obtain ⟨hfields, rfl⟩ := hn.fields_eq h ["name", "is_mutable", "values"] rfl rfl (by decide)
  simp only [canonicalFields_cons] at hfields
  obtain ⟨hname, hmutable, hvalues, -⟩ := hfields
  obtain rfl := tells_str hname
  obtain rfl := tells_bool hmutable
  obtain rfl := (Datum.tells_toJson hn).arr hvalues
  rfl

/-- **A program is known from its value**, with its notes if they are shown. -/
theorem Program.tells_toJson (hn : Shows note) : Tells (Program.toJson note) := by
  rintro ⟨segments, functions, a⟩ ⟨segments', functions', b⟩ h
  obtain ⟨hfields, rfl⟩ := hn.fields_eq h ["data_segments", "functions"] rfl rfl (by decide)
  simp only [canonicalFields_cons] at hfields
  obtain ⟨hsegments, hfunctions, -⟩ := hfields
  obtain rfl := (Segment.tells_toJson hn).arr hsegments
  obtain rfl := (Function.tells_toJson hn).arr hfunctions
  rfl

theorem Program.text_toJson_inj (hn : Shows note) {p q : Program α} :
    (p.toJson note).text = (q.toJson note).text ↔ p = q := by
  refine ⟨fun h => Program.tells_toJson hn (text_eq_iff.mp h), ?_⟩
  rintro rfl
  rfl

end Nodes

/-! ### Notes that are not shown -/

section Notes

variable {α β : Type} (f : α → β) (note : β → List (String × Json))

theorem Json.opt_map {γ δ : Type} (toJson : δ → Json) (g : γ → δ) (x : Option γ) :
    Json.opt toJson (x.map g) = Json.opt (fun y => toJson (g y)) x := by
  cases x <;> rfl

@[simp] theorem Ref.varToJson_map (r : Ref α) :
    (r.map f).varToJson note = r.varToJson fun a => note (f a) := rfl

@[simp] theorem Ref.labelToJson_map (r : Ref α) :
    (r.map f).labelToJson note = r.labelToJson fun a => note (f a) := rfl

@[simp] theorem Operand.toJson_map (o : Operand α) :
    (o.map f).toJson note = o.toJson fun a => note (f a) := by
  cases o <;> rfl

@[simp] theorem Callee.toJson_map (c : Callee α) :
    (c.map f).toJson note = c.toJson fun a => note (f a) := by
  cases c <;> rfl

@[simp] theorem Datum.toJson_map (d : Datum α) :
    (d.map f).toJson note = d.toJson fun a => note (f a) := by
  cases d <;> rfl

@[simp] theorem Address.toJson_map (a : Address α) :
    (a.map f).toJson note = a.toJson fun a => note (f a) := rfl

@[simp] theorem Instr.toJson_map (i : Instr α) :
    (i.map f).toJson note = i.toJson fun a => note (f a) := by
  cases i <;> simp [Instr.map, Instr.toJson, Json.opt_map, Function.comp_def]

@[simp] theorem Label.toJson_map (l : Label α) :
    (l.map f).toJson note = l.toJson fun a => note (f a) := rfl

@[simp] theorem Function.toJson_map (fn : Function α) :
    (fn.map f).toJson note = fn.toJson fun a => note (f a) := by
  simp [Function.map, Function.toJson, Function.comp_def]

@[simp] theorem Segment.toJson_map (s : Segment α) :
    (s.map f).toJson note = s.toJson fun a => note (f a) := by
  simp [Segment.map, Segment.toJson, Function.comp_def]

/-- Replacing the notes is showing others. -/
theorem Program.toJson_map (p : Program α) :
    (p.map f).toJson note = p.toJson fun a => note (f a) := by
  simp [Program.map, Program.toJson, Function.comp_def]

end Notes

/-- **Without notes**, what is left of a program once they are erased is known. -/
theorem Program.text_erased_inj {α : Type} {p q : Program α} :
    (p.toJson fun _ => []).text = (q.toJson fun _ => []).text ↔ p.erase = q.erase := by
  rw [← Program.text_toJson_inj shows_nothing, Program.erase, Program.toJson_map, Program.erase,
    Program.toJson_map]

/-- **A dump loses nothing**: with spans it tells the program, and without them the program up to
its spans.  The same holds for notes of any other kind that are known from their texts, such as
places that are given by any integers. -/
theorem dump_faithful :
    (∀ p q : Program Span, p.dump true = q.dump true ↔ p = q) ∧
      (∀ p q : Program Span, p.dump false = q.dump false ↔ p.erase = q.erase) ∧
      ∀ (α : Type) (shape : α → Json), (∀ a b, (shape a).text = (shape b).text → a = b) →
        ∀ p q : Program α,
          ((p.toJson fun a => [("span", shape a)]).text =
              (q.toJson fun a => [("span", shape a)]).text ↔ p = q) ∧
            ((p.toJson fun _ => []).text = (q.toJson fun _ => []).text ↔ p.erase = q.erase) := by
  refine ⟨fun p q => ?_, fun p q => ?_, fun α shape hshape p q => ⟨?_, ?_⟩⟩
  · exact Program.text_toJson_inj (shows_span Span.tells_toJson)
  · exact Program.text_erased_inj
  · exact Program.text_toJson_inj (shows_span fun a b h => hshape a b (text_eq_iff.mpr h))
  · exact Program.text_erased_inj

namespace Sample

/-- The first characters of a text. -/
def opening (count : Nat) : Span :=
  ⟨⟨"main.vapor", 0, 1, 1⟩, ⟨"main.vapor", count, 1, count + 1⟩⟩

/-- A program with a segment and nothing else. -/
def segmentOnly {α : Type} (name : String) (a : α) : Program α :=
  ⟨[⟨name, true, [.int (-7) a, .label ⟨"f", a⟩], a⟩], [], a⟩

/-- The place of an offset, on no line. -/
def placeOf (offset : Int) : Json :=
  place "main.vapor" offset 0 0

end Sample

open Sample in
/-- A character beyond sixteen bits is told from the text of its halves, and an offset from its
opposite. -/
theorem dump_faithful_sample :
    (segmentOnly "𝄞" (opening 3)).dump false
        ≠ (segmentOnly "\\ud834\\udd1e" (opening 3)).dump false ∧
      (segmentOnly "𝄞" (opening 3)).dump false = (segmentOnly "𝄞" (opening 5)).dump false ∧
      (segmentOnly "𝄞" (opening 3)).dump true ≠ (segmentOnly "𝄞" (opening 5)).dump true ∧
      ((segmentOnly "𝄞" (-1)).toJson fun a => [("span", placeOf a)]).text ≠
        ((segmentOnly "𝄞" 1).toJson fun a => [("span", placeOf a)]).text := by
  obtain ⟨hshown, hhidden, hshape⟩ := dump_faithful
  refine ⟨mt (hhidden _ _).mp (by decide), (hhidden _ _).mpr rfl, mt (hshown _ _).mp (by decide),
    mt (hshape Int placeOf (fun a b h => ?_) _ _).1.mp (by decide)⟩
  exact (place_inj (text_eq_iff.mp h)).2.1

end Vapor

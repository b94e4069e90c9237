import Tern.Artifact
import Tern.Proofs.Compile.Storage
import Tern.Proofs.Machine.Spelling

/-!
# From lines to text and back

Nothing that the compiler writes into a line breaks it: registers, numbers and labels have neither
a line feed nor a carriage return in them.  So the lines of a program can be read off its text
again, and the line ending is all in which two texts of it differ.  No two lines have the same
text, so that programs with the same text execute the same instructions.
-/

namespace Tern

namespace Text

/-- The parts of a string between the places where `sep` stands. -/
def pieces (sep text : String) : List String := (split sep.toList text.toList).map String.ofList

/-- The text with every line feed replaced by a carriage return and a line feed. -/
def toCrlf (text : String) : String :=
  String.ofList (text.toList.flatMap fun c => if c = '\n' then ['\r', '\n'] else [c])

def OneLine (text : String) : Prop := ∀ c ∈ text.toList, c ≠ '\n' ∧ c ≠ '\r'

-- Only the characters of the text are looked at, not all that there are.
instance (text : String) : Decidable (OneLine text) := List.decidableBAll _ _

end Text

open Text (OneLine Over append_inj_of_over)

/-! ## Lines -/

def isInstrPart (c : Char) : Bool := isOperandPart c || c == ','

def isLinePart (c : Char) : Bool := isInstrPart c || ":.".toList.contains c

theorem isInstrPart_of_isOperandPart {c : Char} (h : isOperandPart c = true) :
    isInstrPart c = true := by
  rw [isInstrPart, h, Bool.true_or]

theorem isLinePart_of_isInstrPart {c : Char} (h : isInstrPart c = true) : isLinePart c = true := by
  rw [isLinePart, h, Bool.true_or]

theorem isLinePart_of_isLabelPart {c : Char} (h : isLabelPart c = true) : isLinePart c = true :=
  isLinePart_of_isInstrPart (isInstrPart_of_isOperandPart (isOperandPart_of_isLabelPart h))

theorem IsLabel.over {name : String} (h : IsLabel name) : Over isLinePart name :=
  h.parts.mono fun _ => isLinePart_of_isLabelPart

theorem natToString_over (n : Nat) : Over isLinePart (toString n) :=
  (Over.natToString n).mono fun _ hc => isLinePart_of_isLabelPart (isLabelPart_of_isDigit hc)

theorem Width.directive_inj {w w' : Width} (h : w.directive = w'.directive) : w = w' := by
  revert h
  cases w <;> cases w' <;> decide

theorem Instr.render_over {i : Instr} (h : ∀ o ∈ i.operands, o.Within Address.Legible) :
    Over isInstrPart i.render := by
  have hmnemonic : Over isInstrPart i.mnemonic := i.mnemonic_parts.mono fun _ hc =>
    isInstrPart_of_isOperandPart (isOperandPart_of_isLabelPart hc)
  unfold render
  split
  · exact hmnemonic
  · refine (hmnemonic.append (by decide)).append (.intercalate (by decide) ?_)
    exact List.forall_mem_map.2 fun o ho =>
      (Operand.render_over (h o ho)).mono fun _ => isInstrPart_of_isOperandPart

namespace Line

variable {l l' : Line}

/-- The labels in the line are read as nothing else, and the only free text is that of an empty
line. -/
def Legible : Line → Prop
  | exported name | data name .. | label name => IsLabel name
  | instr i => ∀ o ∈ i.operands, o.Within Address.Legible
  | text s => s = ""
  | entryPoint | dataStart | textStart => True

theorem render_over (h : l.Legible) : Over isLinePart l.render := by
  cases l with
  | entryPoint | dataStart | textStart => decide
  | exported name => exact .append (by decide) h.over
  | label name => exact .append h.over (by decide)
  | instr i =>
      exact .append (by decide) ((Instr.render_over h).mono fun _ => isLinePart_of_isInstrPart)
  | text s =>
      obtain rfl : s = "" := h
      decide
  | data name count unit value =>
      have hname : Over isLinePart name := IsLabel.over h
      have hunit : Over isLinePart unit.directive := by cases unit <;> decide
      cases count with
      | none =>
          exact (((((Over.append (by decide) hname).append (by decide)).append hunit).append
            (by decide)).append (natToString_over value))
      | some count =>
          exact ((((((Over.append (by decide) hname).append (by decide)).append
            (natToString_over count)).append (by decide)).append hunit).append (by decide)).append
            (natToString_over value)

inductive Shape where
  | entryPoint
  | dataStart
  | textStart
  | exported
  | data
  | label
  | instr
  | text
  deriving DecidableEq

def shape : Line → Shape
  | entryPoint => .entryPoint
  | dataStart => .dataStart
  | textStart => .textStart
  | exported _ => .exported
  | data .. => .data
  | label _ => .label
  | instr _ => .instr
  | text _ => .text

def shapeOf (x : String) : Shape :=
  if x.toList.head? = some ' ' then
    if ':' ∈ x.toList then .data
    else if "  global ".toList <+: x.toList then .exported
    else .instr
  else if ':' ∈ x.toList then .label
  else if x = "" then .text
  else if x = "section .data" then .dataStart
  else if x = "section .text" then .textStart
  else .entryPoint

/-- What a definition of data says behind its label. -/
def dataText (count : Option Nat) (unit : Width) (value : Nat) : List Char :=
  let units := unit.directive.toList ++ ' ' :: (toString value).toList
  count.elim units fun n => "times".toList ++ ' ' :: ((toString n).toList ++ ' ' :: units)

theorem toList_data (name : String) (count : Option Nat) (unit : Width) (value : Nat) :
    (data name count unit value).render.toList =
      ' ' :: ' ' :: (name.toList ++ ':' :: ' ' :: dataText count unit value) := by
  cases count <;> simp [render, dataText]

theorem shapeOf_instr {i : Instr} (h : ∀ o ∈ i.operands, o.Within Address.Legible) :
    shapeOf (instr i).render = .instr := by
  have hlist : (instr i).render.toList = ' ' :: ' ' :: i.render.toList := String.toList_append
  have hcolon : ':' ∉ (instr i).render.toList :=
    (Over.append (by decide) (Instr.render_over h)).notMem rfl
  have hglobal : ¬ "  global ".toList <+: (instr i).render.toList := by
    rintro ⟨rest, hrest⟩
    have hlists : "global".toList ++ ' ' :: rest =
        i.mnemonic.toList ++ Instr.operandText i.operands := by
      rw [← i.toList_render]
      exact (List.cons.inj (List.cons.inj (hrest.trans hlist)).2).2
    obtain ⟨hmnemonic, -⟩ := append_inj_of_over (by decide) i.mnemonic_over (by simp)
      (Instr.operandText_head _) hlists
    exact absurd (hmnemonic ▸ i.mnemonic_mem) (by decide)
  rw [shapeOf, if_pos (by rw [hlist]; rfl), if_neg hcolon, if_neg hglobal]

theorem shapeOf_render (h : l.Legible) : shapeOf l.render = l.shape := by
  cases l with
  | entryPoint | dataStart | textStart => decide
  | exported name =>
      have hlist : (exported name).render.toList = "  global ".toList ++ name.toList :=
        String.toList_append
      have hcolon : ':' ∉ (exported name).render.toList := by
        rw [hlist, List.mem_append, not_or]
        exact ⟨by decide, h.parts.notMem rfl⟩
      rw [shapeOf, if_pos (by rw [hlist]; rfl), if_neg hcolon, if_pos (by rw [hlist]; simp), shape]
  | data name count unit value =>
      have hlist := toList_data name count unit value
      rw [shapeOf, if_pos (by rw [hlist]; rfl), if_pos (by rw [hlist]; simp), shape]
  | label name =>
      have hlist : (label name).render.toList = name.toList ++ [':'] := String.toList_append
      have hhead : ¬ (label name).render.toList.head? = some ' ' := by
        obtain ⟨c, hc, hstarts⟩ := (Option.any_eq_true _ _).1 h.starts
        rw [hlist, List.head?_append, hc, Option.some_or, Option.some.injEq]
        rintro rfl
        cases hstarts
      rw [shapeOf, if_neg hhead, if_pos (by rw [hlist]; simp), shape]
  | instr i => exact shapeOf_instr h
  | text s =>
      obtain rfl : s = "" := h
      decide

theorem natToString_noBlank (n : Nat) : Over (· != ' ') (toString n) :=
  (Over.natToString n).without rfl

theorem directive_noBlank (w : Width) : Over (· != ' ') w.directive := by
  cases w <;> decide

theorem units_inj {unit unit' : Width} {value value' : Nat}
    (h : unit.directive.toList ++ ' ' :: (toString value).toList =
      unit'.directive.toList ++ ' ' :: (toString value').toList) :
    unit = unit' ∧ value = value' := by
  obtain ⟨hunit, hvalue⟩ := append_inj_of_over (directive_noBlank unit) (directive_noBlank unit')
    (by simp) (by simp) h
  exact ⟨Width.directive_inj hunit,
    Nat.repr_inj.1 (String.toList_inj.1 (List.cons.inj hvalue).2)⟩

theorem directive_ne_times {unit : Width} {rest rest' : List Char} :
    unit.directive.toList ++ ' ' :: rest ≠ "times".toList ++ ' ' :: rest' := by
  intro h
  obtain ⟨hunit, -⟩ := append_inj_of_over (directive_noBlank unit) (by decide) (by simp) (by simp) h
  revert hunit
  cases unit <;> decide

theorem dataText_inj {count count' : Option Nat} {unit unit' : Width} {value value' : Nat}
    (h : dataText count unit value = dataText count' unit' value') :
    count = count' ∧ unit = unit' ∧ value = value' := by
  cases count with
  | none =>
      cases count' with
      | none => exact ⟨rfl, units_inj h⟩
      | some n' => exact absurd h directive_ne_times
  | some n =>
      cases count' with
      | none => exact absurd h.symm directive_ne_times
      | some n' =>
          have hrest := (List.cons.inj (List.append_cancel_left h)).2
          obtain ⟨hn, hunits⟩ := append_inj_of_over (natToString_noBlank n)
            (natToString_noBlank n') (by simp) (by simp) hrest
          exact ⟨congrArg some (Nat.repr_inj.1 hn), units_inj (List.cons.inj hunits).2⟩

theorem data_inj {name name' : String} {count count' : Option Nat} {unit unit' : Width}
    {value value' : Nat} (hname : IsLabel name) (hname' : IsLabel name')
    (h : (data name count unit value).render = (data name' count' unit' value').render) :
    data name count unit value = data name' count' unit' value' := by
  have hlists := congrArg String.toList h
  rw [toList_data, toList_data, List.cons.injEq, List.cons.injEq] at hlists
  have hcolon : ∀ rest : List Char, ∀ c ∈ (':' :: rest).head?, isLabelPart c = false := by
    rintro rest _ ⟨⟩
    rfl
  obtain ⟨rfl, hrest⟩ := append_inj_of_over hname.parts hname'.parts (hcolon _) (hcolon _)
    hlists.2.2
  obtain ⟨rfl, rfl, rfl⟩ := dataText_inj (List.cons.inj (List.cons.inj hrest).2).2
  rfl

theorem render_inj (hl : l.Legible) (hl' : l'.Legible) (h : l.render = l'.render) : l = l' := by
  have hshape : l.shape = l'.shape := by rw [← shapeOf_render hl, h, shapeOf_render hl']
  cases l with
  | entryPoint | dataStart | textStart =>
      cases l' with
      | entryPoint | dataStart | textStart => first | rfl | cases hshape
      | _ => cases hshape
  | exported name =>
      cases l' with
      | exported name' => exact congrArg _ ((String.append_right_inj _).1 h)
      | _ => cases hshape
  | data name count unit value =>
      cases l' with
      | data => exact data_inj hl hl' h
      | _ => cases hshape
  | label name =>
      cases l' with
      | label name' => exact congrArg _ ((String.append_left_inj _).1 h)
      | _ => cases hshape
  | instr i =>
      cases l' with
      | instr i' => exact congrArg _ (Instr.render_inj hl hl' ((String.append_right_inj _).1 h))
      | _ => cases hshape
  | text s =>
      cases l' with
      | text s' => exact congrArg _ h
      | _ => cases hshape

end Line

/-! ## The lines of a program -/

theorem Line.Legible.oneLine {l : Line} (h : l.Legible) : OneLine l.render := by
  intro c hc
  have hpart := render_over h c hc
  constructor <;> (rintro rfl; cases hpart)

theorem registerNames_lower : ∀ name ∈ registerNames, name.toLower = name ∧ '$' ∉ name.toList := by
  decide +kernel

theorem isLabelPart_of_isWordPart {c : Char} (h : Lexer.isWordPart c = true) :
    isLabelPart c = true := by
  rw [isLabelPart, h, Bool.true_or]

theorem isLabel_of_word {name : String} (h : IsWord name) (husable : unusableLabel name = false) :
    IsLabel name where
  starts := h.starts
  parts := Over.mono h.parts fun _ => isLabelPart_of_isWordPart
  unnamed hmem := by
    have hnames : namesRegister name = true := by
      rw [namesRegister, (registerNames_lower name hmem).1]
      exact List.contains_iff_mem.2 hmem
    rw [unusableLabel, hnames, Bool.or_true, Bool.true_or] at husable
    cases husable

namespace Compile

variable {tree : Program} {gvs lvs : List Variable} {data : List Line} {c d : Compilation}
  {lines : Array Line}

theorem globalLabel_isLabel {v : Variable} (h : IsWord v.name)
    (husable : v.exported = true → unusableLabel v.name = false) :
    IsLabel (Emit.globalLabel v) := by
  cases hexp : v.exported with
  | true =>
      rw [Emit.globalLabel_exported hexp]
      exact isLabel_of_word h (husable hexp)
  | false =>
      have hlist := Emit.globalLabel_hidden hexp
      refine ⟨by rw [hlist]; rfl, ?_, fun hmem => ?_⟩
      · have hover : Over isLabelPart (Emit.globalLabelStart ++ v.name) :=
          .append (by decide) (Over.mono h.parts fun _ => isLabelPart_of_isWordPart)
        rwa [Emit.globalLabel, hexp, if_neg Bool.false_ne_true]
      · exact (registerNames_lower _ hmem).2 (Emit.dollar_mem_globalLabel hexp)

theorem labels_isLabel (h : ∀ v ∈ gvs, IsLabel (Emit.globalLabel v)) :
    ∀ name ∈ labels gvs, IsLabel name := by
  refine List.forall_mem_cons.2 ⟨⟨by decide, by decide, by decide⟩, List.forall_mem_append.2 ⟨?_, ?_⟩⟩
  · exact List.forall_mem_map.2 h
  · exact List.forall_mem_singleton.2 ⟨by decide, by decide, by decide⟩

theorem dataLines_legible (h : ∀ v ∈ gvs, IsLabel (Emit.globalLabel v)) :
    ∀ l ∈ dataLines gvs, l.Legible := by
  have hhead : ∀ l ∈ headLines, l.Legible := by
    simp only [headLines, List.forall_mem_cons]
    exact ⟨trivial, rfl, trivial, ⟨by decide, by decide, by decide⟩, List.forall_mem_nil _⟩
  refine List.forall_mem_append.2 ⟨List.forall_mem_append.2 ⟨hhead, ?_⟩,
    List.forall_mem_singleton.2 trivial⟩
  refine List.forall_mem_append.2 ⟨List.forall_mem_map.2 fun v hv => ?_, List.forall_mem_map.2 h⟩
  exact h v (List.mem_of_mem_filter hv)

theorem Stages.legible (h : Stages tree gvs lvs data c d lines) (htree : tree.Proper) :
    ∀ l ∈ lines.toList, l.Legible := by
  obtain ⟨body, hlines, -, hwithin⟩ := h.code
  have hlabels : ∀ v ∈ gvs, IsLabel (Emit.globalLabel v) := fun v hv =>
    globalLabel_isLabel (h.words htree v hv) (h.newGlobals.usable v hv)
  rw [hlines]
  refine List.forall_mem_append.2 ⟨dataLines_legible hlabels, List.forall_mem_cons.2
    ⟨⟨by decide, by decide, by decide⟩, List.forall_mem_map.2 fun i hi o ho => ?_⟩⟩
  exact ((hwithin i hi).within o ho).imp fun m hm =>
    ⟨hm.scale, fun name hname => labels_isLabel hlabels name (hm.labelled name hname)⟩

end Compile

/-- A program that compiles has lines, and these can be read off their texts. -/
theorem compileLines_legible {text : List Char} {lines : Array Line}
    (h : compileLines text = .ok lines) :
    lines.toList ≠ [] ∧ ∀ l ∈ lines.toList, l.Legible := by
  have hproper := Program.ofText?_proper text
  cases htree : Program.ofText? text with
  | error f =>
      rw [compileLines_eq, htree] at h
      cases h
  | ok tree =>
      rw [htree] at hproper
      obtain ⟨d, hprogram, rfl⟩ := compileLines_ok h htree
      obtain ⟨gvs, lvs, data, c, c', hstages⟩ := Compile.program_ok hprogram
      refine ⟨?_, hstages.legible hproper⟩
      obtain ⟨body, hlines, -⟩ := hstages.code
      simp [hlines]

/-! ## Texts and their lines -/

namespace Text

variable {lines : List (List Char)}

theorem crlf_lines (h : ∀ l ∈ lines, '\n' ∉ l) :
    (lines.flatMap (· ++ ['\n'])).flatMap (fun c => if c = '\n' then ['\r', '\n'] else [c]) =
      lines.flatMap (· ++ ['\r', '\n']) := by
  have hline : ∀ l ∈ lines, l.flatMap (fun c => if c = '\n' then ['\r', '\n'] else [c]) = l := by
    intro l hl
    have hchars : ∀ c ∈ l, (if c = '\n' then ['\r', '\n'] else [c]) = [c] := by
      intro c hc
      refine if_neg fun heq => h l hl ?_
      rwa [heq] at hc
    rw [List.flatMap_congr hchars, List.flatMap_singleton']
  rw [List.flatMap_assoc]
  refine List.flatMap_congr fun l hl => ?_
  rw [List.flatMap_append, hline l hl]
  rfl

end Text

theorem LineEnding.toList_lf : LineEnding.lf.text.toList = ['\n'] := by decide

theorem LineEnding.toList_crlf : LineEnding.crlf.text.toList = ['\r', '\n'] := by decide

namespace Layout

def front (layout : Layout) : List String := if layout.header then [headerLine, ""] else []

variable {lines : List String}

theorem toList_render (layout : Layout) (h : lines ≠ []) :
    (layout.render lines).toList =
      ((layout.front ++ lines).map String.toList).flatMap (· ++ layout.ending.text.toList) := by
  have hlines : (if layout.header then headerLine :: "" :: lines else lines) =
      layout.front ++ lines := by
    unfold front
    split <;> rfl
  rw [render, hlines, List.flatMap_map]
  exact Text.toList_intercalate_append _ (by simp [h])

theorem front_oneLine (layout : Layout) : ∀ l ∈ layout.front, OneLine l := by
  unfold front
  split <;> decide

theorem pieces_render (layout : Layout) (h : lines ≠ []) (hlines : ∀ l ∈ lines, OneLine l) :
    Text.pieces layout.ending.text (layout.render lines) = layout.front ++ lines ++ [""] := by
  have hall := List.forall_mem_append.2 ⟨layout.front_oneLine, hlines⟩
  have hsplit : Text.split layout.ending.text.toList (layout.render lines).toList =
      (layout.front ++ lines).map String.toList ++ [[]] := by
    rw [toList_render layout h]
    cases layout.ending with
    | lf =>
        rw [LineEnding.toList_lf]
        exact Text.split_lines (List.forall_mem_map.2 fun l hl hc => (hall l hl _ hc).1 rfl)
    | crlf =>
        rw [LineEnding.toList_crlf]
        exact Text.split_lines (List.forall_mem_map.2 fun l hl hc => (hall l hl _ hc).2 rfl)
  rw [Text.pieces, hsplit]
  simp

theorem render_crlf (header : Bool) (h : lines ≠ []) (hlines : ∀ l ∈ lines, OneLine l) :
    render ⟨.crlf, header⟩ lines = Text.toCrlf (render ⟨.lf, header⟩ lines) := by
  have hall := List.forall_mem_append.2 ⟨front_oneLine ⟨.lf, header⟩, hlines⟩
  have hfeeds := Text.crlf_lines
    (List.forall_mem_map.2 fun l hl hc => (hall l hl _ hc).1 rfl)
  apply String.toList_inj.1
  rw [Text.toCrlf, String.toList_ofList, toList_render _ h, toList_render _ h,
    LineEnding.toList_lf, LineEnding.toList_crlf, hfeeds]
  rfl

end Layout

/-- The options of the output change nothing but how it is written.  A text that does not compile
has the same diagnostic under all of them.  One that compiles has a text for every layout, whatever
path it is meant for: split at the line ending it gives the lines of the program, behind the
comment if there is one, and the two line endings are all that tells two texts apart. -/
theorem output_options_only_render (file : String) (text : List Char) :
    (∃ f, compileLines text = .error f ∧ ∀ layout output,
      compileText file text layout output = .error (.ofFailure file f)) ∨
    ∃ (lines : Array Line) (rendered : Layout → String),
      compileLines text = .ok lines ∧
      (∀ layout output, compileText file text layout output = .ok ⟨rendered layout, output⟩) ∧
      (∀ layout, Text.pieces layout.ending.text (rendered layout) =
        layout.front ++ lines.toList.map Line.render ++ [""]) ∧
      ∀ header, rendered ⟨.crlf, header⟩ = Text.toCrlf (rendered ⟨.lf, header⟩) := by
  cases hcompile : compileLines text with
  | error f => exact .inl ⟨f, rfl, fun layout output => by rw [compileText, hcompile]⟩
  | ok lines =>
      obtain ⟨hne, hlegible⟩ := compileLines_legible hcompile
      have hne' : lines.toList.map Line.render ≠ [] := by simpa using hne
      have hlines' := List.forall_mem_map.2 fun l hl => (hlegible l hl).oneLine
      refine .inr ⟨lines, fun layout => layout.render (lines.toList.map Line.render), rfl,
        fun layout output => ?_, fun layout => layout.pieces_render hne' hlines',
        fun header => Layout.render_crlf header hne' hlines'⟩
      rw [compileText, hcompile]

theorem compileText_ok {file : String} {text : List Char} {layout : Layout}
    {output : Option String} {artifact : Artifact}
    (h : compileText file text layout output = .ok artifact) :
    ∃ lines, compileLines text = .ok lines ∧ (∀ l ∈ lines.toList, l.Legible) ∧
      Text.pieces layout.ending.text artifact.text =
        layout.front ++ lines.toList.map Line.render ++ [""] := by
  cases hcompile : compileLines text with
  | error f =>
      rw [compileText, hcompile] at h
      cases h
  | ok lines =>
      obtain ⟨hne, hlegible⟩ := compileLines_legible hcompile
      rw [compileText, hcompile] at h
      cases h
      refine ⟨lines, rfl, hlegible, layout.pieces_render (by simpa using hne) ?_⟩
      exact List.forall_mem_map.2 fun l hl => (hlegible l hl).oneLine

/-- Programs with the same text have the same lines, and so the same code. -/
theorem compileLines_eq_of_text_eq {file file' : String} {text text' : List Char} {layout : Layout}
    {output output' : Option String} {artifact artifact' : Artifact}
    (h : compileText file text layout output = .ok artifact)
    (h' : compileText file' text' layout output' = .ok artifact')
    (heq : artifact.text = artifact'.text) : compileLines text = compileLines text' := by
  obtain ⟨lines, hlines, hlegible, hpieces⟩ := compileText_ok h
  obtain ⟨lines', hlines', hlegible', hpieces'⟩ := compileText_ok h'
  rw [heq, hpieces'] at hpieces
  have hmap := List.append_cancel_left (List.append_cancel_right hpieces)
  have hlist := map_inj_of_forall (fun _ _ => Line.render_inj) hlegible' hlegible hmap
  rw [hlines, hlines', Array.toList_inj.1 hlist]

end Tern

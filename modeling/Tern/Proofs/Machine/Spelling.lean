import Tern.Proofs.Emit.Encoding
import Tern.Proofs.Text.Parts
import Tern.Proofs.Token.Lexical

/-!
# Reading an instruction off its text

No two instructions that the compiler writes have the same text, so what the machine executes can
be read off it.  A mnemonic ends at the first blank, operands are separated by commas, and the first
characters of an operand tell a register, a number, a label and memory apart; inside the brackets of
an address the base ends at the first character that is not part of a name.
-/

namespace Tern

open Text (Over append_inj_of_over)

/-! ## Names -/

/-- Labels have letters, digits, underscores and dollar signs in them. -/
def isLabelPart (c : Char) : Bool := Lexer.isWordPart c || c == '$'

/-- A label that is read as nothing else. -/
structure IsLabel (name : String) : Prop where
  starts : name.toList.head?.any Lexer.startsWord = true
  parts : Over isLabelPart name
  unnamed : name ∉ registerNames

theorem isLabelPart_of_isDigit {c : Char} (h : c.isDigit = true) : isLabelPart c = true := by
  simp [isLabelPart, Lexer.isWordPart, Char.isAlphanum, h]

theorem Width.mem_all (w : Width) : w ∈ Width.all := by
  cases w <;> decide

namespace Register

variable {r r' : Register} {w w' : Width}

theorem view_mem (r : Register) (w : Width) : r.view w ∈ registerNames :=
  List.mem_append_left _ (List.mem_append_left _
    (List.mem_flatMap.2 ⟨r, r.mem_all, List.mem_map_of_mem w.mem_all⟩))

theorem view_inj (h : r.view w = r'.view w') : r = r' ∧ w = w' := by
  have hnodup : ((all.product Width.all).map fun x => x.1.view x.2).Nodup := by decide +kernel
  have hmem : ∀ (r : Register) (w : Width), (r, w) ∈ all.product Width.all := fun r w =>
    List.pair_mem_product.2 ⟨r.mem_all, w.mem_all⟩
  exact Prod.mk.inj (List.inj_on_of_nodup_map hnodup (hmem r w) (hmem r' w') h)

end Register

theorem registerNames_words : ∀ name ∈ registerNames,
    name.toList.head?.any Lexer.startsWord = true ∧ Over isLabelPart name := by
  decide +kernel

/-! ## Numbers -/

/-- Numbers start with a digit or with a minus sign. -/
def startsNumber (c : Char) : Bool := c.isDigit || c == '-'

theorem not_startsNumber_of_startsWord {cs : List Char}
    (h : cs.head?.any Lexer.startsWord = true) : ¬ cs.head?.any startsNumber = true := by
  intro hnumber
  obtain ⟨c, hc, hstarts⟩ := (Option.any_eq_true _ _).1 hnumber
  rw [hc] at h
  rw [startsNumber, Bool.or_eq_true] at hstarts
  rcases hstarts with hdigit | hminus
  · exact Bool.false_ne_true ((Lexer.startsWord_of_isDigit hdigit).symm.trans h)
  · rw [eq_of_beq hminus] at h
    cases h

theorem notMem_registerNames {x : String} (h : x.toList.head?.any startsNumber = true) :
    x ∉ registerNames :=
  fun hmem => not_startsNumber_of_startsWord (registerNames_words x hmem).1 h

theorem toString_starts (n : Int) : (toString n).toList.head?.any startsNumber = true := by
  have hover := Over.intToString n
  cases hlist : (toString n).toList with
  | nil =>
      rw [Int.toString_eq_repr, Int.repr_eq_if] at hlist
      split at hlist
      · simp [Nat.repr_eq_ofList_toDigits, Nat.toDigits_ne_nil] at hlist
      · simp at hlist
  | cons c cs => exact hover c (by rw [hlist]; exact List.mem_cons_self)

/-! ## Addresses -/

/-- The scale is one of four, and a label in the address is read as nothing else. -/
structure Address.Legible (m : Address) : Prop where
  scale : m.scale ∈ [1, 2, 4, 8]
  labelled : ∀ name, m.base = .label name → IsLabel name

namespace Base

variable {b b' : Base}

theorem render_over (h : ∀ name, b = .label name → IsLabel name) : Over isLabelPart b.render := by
  cases b with
  | label name => exact (h name rfl).parts
  | reg r => exact (registerNames_words _ (r.view_mem .qword)).2

theorem render_inj (hb : ∀ name, b = .label name → IsLabel name)
    (hb' : ∀ name, b' = .label name → IsLabel name) (h : b.render = b'.render) : b = b' := by
  cases b with
  | label name =>
      cases b' with
      | label name' => exact congrArg _ h
      | reg r' =>
          obtain rfl : name = r'.view .qword := h
          exact absurd (r'.view_mem .qword) (hb _ rfl).unnamed
  | reg r =>
      cases b' with
      | label name' =>
          obtain rfl : r.view .qword = name' := h
          exact absurd (r.view_mem .qword) (hb' _ rfl).unnamed
      | reg r' => exact congrArg _ (Register.view_inj h).1

end Base

namespace Offset

variable {o o' : Offset}

theorem render_disp_pos {n : Int} (h : 0 < n) : (disp n).render = "+" ++ toString n := if_pos h

theorem render_disp_zero : (disp 0).render = "" := rfl

theorem render_disp_neg {n : Int} (h : n < 0) : (disp n).render = "-" ++ toString (-n) := by
  have hneg : 0 ≤ -n := by omega
  rw [render, if_neg (by omega), if_pos h, Int.toString_eq_repr, Int.toString_eq_repr,
    Int.repr_eq_if, if_neg (by omega), Int.repr_eq_if, if_pos hneg]

theorem render_head (o : Offset) :
    ∀ c ∈ (o.render.toList ++ [']']).head?, c = '+' ∨ c = '-' ∨ c = ']' := by
  cases o with
  | reg r => simp [render]
  | disp n =>
      obtain hn | rfl | hn := lt_trichotomy n 0
      · simp [render_disp_neg hn]
      · simp [render]
      · simp [render_disp_pos hn]

theorem render_reg_ne_disp (r : Register) (n : Int) : (reg r).render ≠ (disp n).render := by
  intro h
  obtain hn | rfl | hn := lt_trichotomy n 0
  · rw [render_disp_neg hn] at h
    exact absurd (congrArg (·.toList.head?) h) (by simp [render])
  · exact absurd (congrArg (·.toList.head?) h) (by simp [render])
  · rw [render_disp_pos hn, render, String.append_right_inj] at h
    exact notMem_registerNames (toString_starts n) (h ▸ r.view_mem .qword)

theorem render_disp_inj {n n' : Int} (h : (disp n).render = (disp n').render) : n = n' := by
  have hhead := congrArg (·.toList.head?) h
  obtain hn | rfl | hn := lt_trichotomy n 0 <;> obtain hn' | rfl | hn' := lt_trichotomy n' 0
  · rw [render_disp_neg hn, render_disp_neg hn', String.append_right_inj] at h
    have := Int.repr_injective h
    omega
  · simp [render_disp_neg hn, render_disp_zero] at hhead
  · simp [render_disp_neg hn, render_disp_pos hn'] at hhead
  · simp [render_disp_neg hn', render_disp_zero] at hhead
  · rfl
  · simp [render_disp_pos hn', render_disp_zero] at hhead
  · simp [render_disp_pos hn, render_disp_neg hn'] at hhead
  · simp [render_disp_pos hn, render_disp_zero] at hhead
  · rw [render_disp_pos hn, render_disp_pos hn', String.append_right_inj] at h
    exact Int.repr_injective h

theorem render_inj (h : o.render = o'.render) : o = o' := by
  cases o with
  | reg r =>
      cases o' with
      | reg r' =>
          rw [render, render, String.append_right_inj] at h
          exact congrArg _ (Register.view_inj h).1
      | disp n' => exact absurd h (render_reg_ne_disp r n')
  | disp n =>
      cases o' with
      | reg r' => exact absurd h.symm (render_reg_ne_disp r' n)
      | disp n' => exact congrArg _ (render_disp_inj h)

end Offset

namespace Address

def scaleText (n : Int) : String := if n = 1 then "" else "*" ++ toString n

theorem toList_render (m : Address) : m.render.toList =
    '[' :: (m.base.render.toList ++
      ((scaleText m.scale).toList ++ (m.offset.render.toList ++ [']']))) := by
  simp [render, scaleText]

theorem Legible.scale_over {m : Address} (h : m.Legible) :
    Over (fun c => c == '*' || c.isDigit) (scaleText m.scale) := by
  have hall : ∀ n ∈ [(1 : Int), 2, 4, 8], Over (fun c => c == '*' || c.isDigit) (scaleText n) := by
    decide
  exact hall _ h.scale

theorem scaleText_inj {n n' : Int} (h : scaleText n = scaleText n') : n = n' := by
  unfold scaleText at h
  split at h <;> split at h
  · omega
  · exact absurd (congrArg (·.toList.head?) h) (by simp)
  · exact absurd (congrArg (·.toList.head?) h) (by simp)
  · exact Int.repr_injective ((String.append_right_inj _).1 h)

theorem scaleText_head (n : Int) (o : Offset) :
    ∀ c ∈ ((scaleText n).toList ++ (o.render.toList ++ [']'])).head?, isLabelPart c = false := by
  unfold scaleText
  split
  · intro c hc
    rcases o.render_head c hc with rfl | rfl | rfl <;> rfl
  · intro c hc
    obtain rfl : '*' = c := by simpa using hc
    decide

theorem render_inj {m m' : Address} (hm : m.Legible) (hm' : m'.Legible)
    (h : m.render = m'.render) : m = m' := by
  have hlists := congrArg String.toList h
  rw [toList_render, toList_render, List.cons.injEq] at hlists
  obtain ⟨hbase, hrest⟩ := append_inj_of_over (Base.render_over hm.labelled)
    (Base.render_over hm'.labelled) (scaleText_head _ _) (scaleText_head _ _) hlists.2
  have hhead : ∀ (o : Offset), ∀ c ∈ (o.render.toList ++ [']']).head?,
      (c == '*' || c.isDigit) = false := by
    intro o c hc
    rcases o.render_head c hc with rfl | rfl | rfl <;> rfl
  obtain ⟨hscale, hoffset⟩ :=
    append_inj_of_over hm.scale_over hm'.scale_over (hhead _) (hhead _) hrest
  have hbase' := Base.render_inj hm.labelled hm'.labelled hbase
  have hscale' := scaleText_inj hscale
  have hoffset' := Offset.render_inj (String.toList_inj.1 (List.append_cancel_right hoffset))
  obtain ⟨base, scale, offset⟩ := m
  obtain ⟨base', scale', offset'⟩ := m'
  simp only at hbase' hscale' hoffset'
  rw [hbase', hscale', hoffset']

end Address

/-! ## Operands -/

def isOperandPart (c : Char) : Bool := isLabelPart c || " []*+-".toList.contains c

theorem isOperandPart_of_isLabelPart {c : Char} (h : isLabelPart c = true) :
    isOperandPart c = true := by
  rw [isOperandPart, h, Bool.true_or]

theorem isOperandPart_of_number {c : Char} (h : startsNumber c = true) :
    isOperandPart c = true := by
  rw [startsNumber, Bool.or_eq_true] at h
  rcases h with h | h
  · exact isOperandPart_of_isLabelPart (isLabelPart_of_isDigit h)
  · rw [eq_of_beq h]
    rfl

theorem Register.view_over (r : Register) (w : Width) : Over isOperandPart (r.view w) :=
  (registerNames_words _ (r.view_mem w)).2.mono fun _ => isOperandPart_of_isLabelPart

theorem Address.Legible.render_over {m : Address} (h : m.Legible) :
    Over isOperandPart m.render := by
  have hbase : Over isOperandPart m.base.render :=
    (Base.render_over h.labelled).mono fun _ => isOperandPart_of_isLabelPart
  have hnumber : ∀ n : Int, Over isOperandPart (toString n) := fun n =>
    (Over.intToString n).mono fun _ => isOperandPart_of_number
  have hscale : Over isOperandPart (scaleText m.scale) := by
    unfold scaleText
    split
    · decide
    · exact .append (by decide) (hnumber _)
  have hoffset : Over isOperandPart m.offset.render := by
    cases m.offset with
    | reg r => exact .append (by decide) (r.view_over .qword)
    | disp n =>
        simp only [Offset.render]
        split
        · exact .append (by decide) (hnumber n)
        · split
          · exact hnumber n
          · decide
  exact (((Over.append (by decide) hbase).append hscale).append hoffset).append (by decide)

theorem Width.keyword_over (w : Width) : Over (· != ' ') w.keyword := by
  cases w <;> decide

theorem Width.keyword_inj {w w' : Width} (h : w.keyword = w'.keyword) : w = w' := by
  revert h
  cases w <;> cases w' <;> decide

namespace Operand

variable {o o' : Operand}

theorem mask_over (bytes : Nat) : Over isLabelPart (mask bytes).render := by
  refine .append (by decide) (.join fun y hy => ?_)
  rw [(List.mem_replicate.1 hy).2]
  decide

theorem render_over (h : o.Within Address.Legible) : Over isOperandPart o.render := by
  cases o with
  | reg r w => exact r.view_over w
  | ah => decide
  | imm v => exact (Over.intToString v).mono fun _ => isOperandPart_of_number
  | mask bytes => exact (mask_over bytes).mono fun _ => isOperandPart_of_isLabelPart
  | label name => exact (h.labelled name rfl).parts.mono fun _ => isOperandPart_of_isLabelPart
  | mem size m =>
      have hm : Over isOperandPart m.render := Address.Legible.render_over h
      cases size with
      | none => exact hm
      | some w => exact (Over.append (by cases w <;> decide) (by decide)).append hm

inductive Shape where
  | register
  | half
  | number
  | mask
  | label
  | memory (sized : Bool)
  deriving DecidableEq

def shape : Operand → Shape
  | reg .. => .register
  | ah => .half
  | imm _ => .number
  | mask _ => .mask
  | label _ => .label
  | mem size _ => .memory size.isSome

def shapeOf (x : String) : Shape :=
  if x.toList.head? = some '[' then .memory false
  else if '[' ∈ x.toList then .memory true
  else if x = "ah" then .half
  else if x ∈ registerNames then .register
  else if x.toList.head?.any startsNumber then if 'x' ∈ x.toList then .mask else .number
  else .label

theorem shapeOf_word {x : String} (h : '[' ∉ x.toList) :
    shapeOf x = if x = "ah" then .half else if x ∈ registerNames then .register
      else if x.toList.head?.any startsNumber then if 'x' ∈ x.toList then .mask else .number
      else .label := by
  have hhead : x.toList.head? ≠ some '[' := fun hhead => h (List.mem_of_mem_head? hhead)
  rw [shapeOf, if_neg hhead, if_neg h]

theorem shapeOf_number {x : String} (h : '[' ∉ x.toList)
    (hx : x.toList.head?.any startsNumber = true) :
    shapeOf x = if 'x' ∈ x.toList then .mask else .number := by
  have hname : x ∉ registerNames := notMem_registerNames hx
  have hhalf : x ≠ "ah" := fun hhalf => hname (hhalf ▸ by decide)
  rw [shapeOf_word h, if_neg hhalf, if_neg hname, if_pos hx]

theorem shapeOf_render (h : o.Within Address.Legible) : shapeOf o.render = o.shape := by
  cases o with
  | reg r w =>
      have hmem := r.view_mem w
      have hhalf : r.view w ≠ "ah" := by cases r <;> cases w <;> decide
      rw [render, shapeOf_word ((registerNames_words _ hmem).2.notMem rfl), if_neg hhalf,
        if_pos hmem, shape]
  | ah => rw [render, shapeOf_word (by decide), if_pos rfl, shape]
  | imm v =>
      have hover := Over.intToString v
      rw [render, shapeOf_number (hover.notMem rfl) (toString_starts v), if_neg (hover.notMem rfl),
        shape]
  | mask bytes =>
      have hlist : (mask bytes).render.toList =
          '0' :: 'x' :: (String.join (List.replicate bytes "FF")).toList := String.toList_append
      rw [shapeOf_number ((mask_over bytes).notMem rfl) (by rw [hlist]; rfl), if_pos (by rw [hlist]; simp), shape]
  | label name =>
      have hname : IsLabel name := h.labelled name rfl
      have hhalf : name ≠ "ah" := fun hhalf => hname.unnamed (hhalf ▸ by decide)
      rw [render, shapeOf_word (hname.parts.notMem rfl), if_neg hhalf, if_neg hname.unnamed,
        if_neg (not_startsNumber_of_startsWord hname.starts), shape]
  | mem size m =>
      cases size with
      | none =>
          rw [render, shapeOf, m.toList_render, List.head?_cons, if_pos rfl, shape,
            Option.isSome_none]
      | some w =>
          have hhead : (mem (some w) m).render.toList.head? ≠ some '[' := by
            cases w <;> simp [render, Width.keyword]
          have hmem : '[' ∈ (mem (some w) m).render.toList := by
            simp [render, m.toList_render]
          rw [shapeOf, if_neg hhead, if_pos hmem, shape, Option.isSome_some]

theorem render_inj (ho : o.Within Address.Legible) (ho' : o'.Within Address.Legible)
    (h : o.render = o'.render) : o = o' := by
  have hshape : o.shape = o'.shape := by rw [← shapeOf_render ho, h, shapeOf_render ho']
  cases o with
  | reg r w =>
      cases o' with
      | reg r' w' =>
          obtain ⟨rfl, rfl⟩ := Register.view_inj h
          rfl
      | _ => cases hshape
  | ah =>
      cases o' with
      | ah => rfl
      | _ => cases hshape
  | imm v =>
      cases o' with
      | imm v' => exact congrArg _ (Int.repr_injective h)
      | _ => cases hshape
  | mask bytes =>
      cases o' with
      | mask bytes' =>
          have hlength := congrArg (·.toList.length) h
          simp [render, String.toList_join] at hlength
          rw [hlength]
      | _ => cases hshape
  | label name =>
      cases o' with
      | label name' => exact congrArg _ h
      | _ => cases hshape
  | mem size m =>
      cases o' with
      | mem size' m' =>
          cases size with
          | none =>
              cases size' with
              | none => exact congrArg _ (Address.render_inj ho ho' h)
              | some w' => cases hshape
          | some w =>
              cases size' with
              | none => cases hshape
              | some w' =>
                  have hlists : w.keyword.toList ++ ' ' :: m.render.toList =
                      w'.keyword.toList ++ ' ' :: m'.render.toList := by
                    simpa [render] using congrArg String.toList h
                  obtain ⟨hw, hm⟩ := append_inj_of_over w.keyword_over w'.keyword_over
                    (by simp) (by simp) hlists
                  rw [List.cons.injEq] at hm
                  rw [Width.keyword_inj hw, Address.render_inj ho ho' (String.toList_inj.1 hm.2)]
      | _ => cases hshape

end Operand

/-! ## Instructions -/

namespace Instr

variable {i i' : Instr}

def mnemonics : List String :=
  ["mov", "movzx", "lea", "add", "sub", "and", "xor", "neg", "shl", "shr", "imul", "mul", "div",
    "push", "pop", "syscall"]

theorem mnemonic_mem (i : Instr) : i.mnemonic ∈ mnemonics := by
  cases i with
  | combine op => cases op <;> (rw [mnemonic]; decide)
  | shift dir => cases dir <;> (rw [mnemonic]; decide)
  | _ => rw [mnemonic]; decide

theorem mnemonic_parts (i : Instr) : Over isLabelPart i.mnemonic := by
  have hparts : ∀ name ∈ mnemonics, Over isLabelPart name := by decide
  exact hparts _ i.mnemonic_mem

theorem mnemonic_over (i : Instr) : Over (· != ' ') i.mnemonic := i.mnemonic_parts.without rfl

def ofParts? : String → List Operand → Option Instr
  | "mov", [dst, src] => some (.mov dst src)
  | "movzx", [dst, src] => some (.movzx dst src)
  | "lea", [.reg dst _, .mem _ src] => some (.lea dst src)
  | "add", [dst, src] => some (.combine .add dst src)
  | "sub", [dst, src] => some (.combine .sub dst src)
  | "and", [dst, src] => some (.combine .and dst src)
  | "xor", [dst, src] => some (.combine .xor dst src)
  | "neg", [dst] => some (.neg dst)
  | "shl", [dst, count] => some (.shift .left dst count)
  | "shr", [dst, count] => some (.shift .right dst count)
  | "imul", [.reg dst _, _, .imm factor] => some (.imul dst factor.toNat)
  | "mul", [src] => some (.mul src)
  | "div", [src] => some (.div src)
  | "push", [.reg r _] => some (.push r)
  | "pop", [.reg r _] => some (.pop r)
  | "syscall", [] => some .syscall
  | _, _ => none

theorem ofParts?_operands (i : Instr) : ofParts? i.mnemonic i.operands = some i := by
  cases i with
  | combine op => cases op <;> rfl
  | shift dir => cases dir <;> rfl
  | _ => rfl

def operandText : List Operand → List Char
  | [] => []
  | ops => ' ' :: (", ".intercalate (ops.map Operand.render)).toList

theorem toList_render (i : Instr) :
    i.render.toList = i.mnemonic.toList ++ operandText i.operands := by
  unfold render operandText
  cases i.operands <;> simp

theorem operandText_head (ops : List Operand) :
    ∀ c ∈ (operandText ops).head?, (c != ' ') = false := by
  intro c hc
  cases ops with
  | nil => cases hc
  | cons o ops =>
      cases hc
      rfl

theorem operandText_inj {ops ops' : List Operand} (hops : ∀ o ∈ ops, o.Within Address.Legible)
    (hops' : ∀ o ∈ ops', o.Within Address.Legible) (h : operandText ops = operandText ops') :
    ops = ops' := by
  have hcomma : ∀ o : Operand, o.Within Address.Legible → ',' ∉ o.render.toList := fun o ho =>
    (Operand.render_over ho).notMem rfl
  cases ops with
  | nil =>
      cases ops' with
      | nil => rfl
      | cons o' ops' => cases h
  | cons o ops =>
      cases ops' with
      | nil => cases h
      | cons o' ops' =>
          have hseparator : ", ".toList = [',', ' '] := rfl
          have htexts := Text.intercalate_inj hseparator (by simp) (by simp)
            (List.forall_mem_map.2 fun o ho => hcomma o (hops o ho))
            (List.forall_mem_map.2 fun o ho => hcomma o (hops' o ho))
            (String.toList_inj.1 (List.cons.inj h).2)
          exact map_inj_of_forall (fun _ _ => Operand.render_inj) hops hops' htexts

theorem render_inj (hi : ∀ o ∈ i.operands, o.Within Address.Legible)
    (hi' : ∀ o ∈ i'.operands, o.Within Address.Legible) (h : i.render = i'.render) : i = i' := by
  have hlists := congrArg String.toList h
  rw [toList_render, toList_render] at hlists
  obtain ⟨hmnemonic, hrest⟩ := append_inj_of_over i.mnemonic_over i'.mnemonic_over
    (operandText_head _) (operandText_head _) hlists
  have hparts := i.ofParts?_operands
  rw [hmnemonic, operandText_inj hi hi' hrest, i'.ofParts?_operands] at hparts
  exact (Option.some.inj hparts).symm

end Instr

end Tern

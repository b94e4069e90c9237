import Tern.Proofs.Cli.Effects

/-!
# The grammar of command lines

A command line is a row of option groups with the entry behind them.  What it asks for depends
on the flags that occur, on the output named last and on the entry.  The order of the groups does
not count otherwise, and neither do repeated flags.
-/

namespace Tern

/-- How the value of an output option is given: as the next argument, or in the same one. -/
inductive OutputForm where
  | short
  | long
  | joined
  deriving DecidableEq

/-- The arguments that make up one option. -/
inductive OptionGroup where
  | crlf
  | header
  | output (form : OutputForm) (value : String) (nonempty : value ≠ "")
  deriving DecidableEq

namespace OptionGroup

def args : OptionGroup → List String
  | crlf => ["--crlf"]
  | header => ["--header"]
  | output .short value _ => ["-o", value]
  | output .long value _ => ["--output", value]
  | output .joined value _ => ["--output=" ++ value]

def value? : OptionGroup → Option String
  | output _ value _ => some value
  | _ => none

def spell (gs : List OptionGroup) : List String := gs.flatMap args

def lastOutput (gs : List OptionGroup) : Option String := (gs.filterMap value?).getLast?

/-- The layout that groups in a row ask for, on top of another one. -/
def layoutOn (layout : Layout) (gs : List OptionGroup) : Layout where
  ending := if crlf ∈ gs then .crlf else layout.ending
  header := decide (header ∈ gs) || layout.header

@[simp] theorem spell_nil : spell [] = [] := rfl

@[simp] theorem spell_cons (g : OptionGroup) (gs : List OptionGroup) :
    spell (g :: gs) = g.args ++ spell gs := List.flatMap_cons

theorem lastOutput_cons (g : OptionGroup) (gs : List OptionGroup) :
    lastOutput (g :: gs) = (lastOutput gs).or g.value? := by
  unfold lastOutput
  cases hvalue : g.value? with
  | none => rw [List.filterMap_cons_none hvalue, Option.or_none]
  | some v =>
      rw [List.filterMap_cons_some hvalue, List.getLast?_cons]
      cases (gs.filterMap value?).getLast? <;> rfl

theorem layoutOn_cons (layout : Layout) (g : OptionGroup) (gs : List OptionGroup) :
    layoutOn layout (g :: gs) = layoutOn (layoutOn layout [g]) gs := by
  simp only [layoutOn, List.mem_cons, List.not_mem_nil, or_false, Layout.mk.injEq]
  constructor
  · by_cases hg : crlf = g
    · simp [hg]
    · simp [hg]
  · by_cases hg : header = g
    · simp [hg]
    · simp [hg]

/-- The same flags occur in both, and both name the same output last. -/
structure Alike (gs gs' : List OptionGroup) : Prop where
  crlf : crlf ∈ gs ↔ crlf ∈ gs'
  header : header ∈ gs ↔ header ∈ gs'
  output : lastOutput gs = lastOutput gs'

namespace Alike

variable {gs gs' before after : List OptionGroup}

theorem layoutOn (h : Alike gs gs') (layout : Layout) :
    layoutOn layout gs = OptionGroup.layoutOn layout gs' := by
  simp only [OptionGroup.layoutOn, h.crlf, h.header]

theorem ofPerm (h : gs.Perm gs') (hlast : lastOutput gs = lastOutput gs') : Alike gs gs' :=
  ⟨h.mem_iff, h.mem_iff, hlast⟩

theorem repeated {flag : OptionGroup} (hflag : flag.value? = none)
    (hmem : flag ∈ before ++ after) : Alike (before ++ flag :: after) (before ++ after) := by
  have hsame (g : OptionGroup) : g ∈ before ++ flag :: after ↔ g ∈ before ++ after := by
    rw [List.perm_middle.mem_iff, List.mem_cons]
    constructor
    · rintro (rfl | hg)
      · exact hmem
      · exact hg
    · exact .inr
  refine ⟨hsame _, hsame _, ?_⟩
  rw [lastOutput, lastOutput, List.filterMap_append, List.filterMap_cons_none hflag,
    List.filterMap_append]

end Alike

end OptionGroup

def informationFlags : List String := ["-h", "--help", "-V", "--version"]

def AsksForInformation (args : List String) : Prop :=
  ∃ gs flag rest, flag ∈ informationFlags ∧ args = OptionGroup.spell gs ++ flag :: rest

namespace Request

open OptionGroup

variable {args rest : List String} {output : Option String} {layout : Layout}
  {gs gs' : List OptionGroup} {entry : String} {request : Request}

theorem afterStart?_eq_some {start text v : List Char} :
    afterStart? start text = some v ↔ text = start ++ v := by
  unfold afterStart?
  constructor
  · intro h
    split at h
    · next hprefix =>
      obtain ⟨w, rfl⟩ := List.isPrefixOf_iff_prefix.1 hprefix
      rw [List.drop_left] at h
      rw [Option.some.inj h]
    · cases h
  · rintro rfl
    rw [if_pos (List.isPrefixOf_iff_prefix.2 (List.prefix_append start v)), List.drop_left]

/-- How an argument is read that neither asks for information nor names an output. -/
theorem parse_other {a : String} (hinfo : a ∉ informationFlags) (hshort : a ≠ "-o")
    (hlong : a ≠ "--output") (hstart : afterStart? "--output=".toList a.toList = none) :
    parse output layout (a :: rest) =
      if a = "--crlf" then parse output { layout with ending := .crlf } rest
      else if a = "--header" then parse output { layout with header := true } rest
      else if a.toList.head? = some '-' then .error (.unknownOption a)
      else if rest.isEmpty then finish a output layout
      else .error .entryExpected := by
  simp only [informationFlags, List.mem_cons, List.not_mem_nil, or_false, not_or] at hinfo
  rw [parse.eq_def]
  simp only [hinfo, hshort, hlong, hstart, or_self, if_false]

theorem joined_ne {a : String} (v : String)
    (h : "--output=".toList.isPrefixOf a.toList = false) : "--output=" ++ v ≠ a := by
  rintro rfl
  rw [String.toList_append, ← Bool.not_eq_true, List.isPrefixOf_iff_prefix] at h
  exact h (List.prefix_append _ _)

theorem parse_joined {v : String} (hv : v ≠ "") :
    parse output layout (("--output=" ++ v) :: rest) = parse (some v) layout rest := by
  have hstart : afterStart? "--output=".toList ("--output=" ++ v).toList = some v.toList :=
    afterStart?_eq_some.2 String.toList_append
  have hinfo : "--output=" ++ v ∉ informationFlags := by
    intro hmem
    have hother : ∀ a ∈ informationFlags, "--output=".toList.isPrefixOf a.toList = false := by
      decide +kernel
    exact joined_ne v (hother _ hmem) rfl
  have hshort : "--output=" ++ v ≠ "-o" := joined_ne v (by decide +kernel)
  have hlong : "--output=" ++ v ≠ "--output" := joined_ne v (by decide +kernel)
  simp only [informationFlags, List.mem_cons, List.not_mem_nil, or_false, not_or] at hinfo
  cases hlist : v.toList with
  | nil => exact absurd (String.toList_inj.1 hlist) hv
  | cons c cs =>
      rw [hlist] at hstart
      rw [parse.eq_def]
      simp only [hinfo, hshort, hlong, hstart, or_self, if_false]
      rw [← hlist, String.ofList_toList]

theorem parse_group (g : OptionGroup) :
    parse output layout (g.args ++ rest) =
      parse (g.value?.or output) (layoutOn layout [g]) rest := by
  cases g with
  | crlf =>
      have hstart : afterStart? "--output=".toList "--crlf".toList = none := by decide +kernel
      change parse output layout ("--crlf" :: rest) = _
      rw [parse_other (by decide) (by decide) (by decide) hstart]
      simp [value?, layoutOn]
  | header =>
      have hstart : afterStart? "--output=".toList "--header".toList = none := by decide +kernel
      change parse output layout ("--header" :: rest) = _
      rw [parse_other (by decide) (by decide) (by decide) hstart]
      simp [value?, layoutOn]
  | output form v hv =>
      have hlayout : layoutOn layout [.output form v hv] = layout := by simp [layoutOn]
      rw [hlayout]
      cases form with
      | short | long => simp [OptionGroup.args, parse, value?, hv]
      | joined => exact parse_joined hv

/-- Option groups in a row are read: what counts is what they add up to. -/
theorem parse_spell (gs : List OptionGroup) :
    parse output layout (spell gs ++ rest) =
      parse ((lastOutput gs).or output) (layoutOn layout gs) rest := by
  induction gs generalizing output layout with
  | nil => simp [lastOutput, layoutOn]
  | cons g gs ih =>
      rw [spell_cons, List.append_assoc, parse_group, ih, lastOutput_cons,
        layoutOn_cons layout g gs, Option.or_assoc]

theorem parse_entry (hdash : entry.toList.head? ≠ some '-') :
    parse output layout (entry :: rest) =
      if rest.isEmpty then finish entry output layout else .error .entryExpected := by
  have hne : ∀ a : String, a.toList.head? = some '-' → entry ≠ a := by
    rintro a ha rfl
    exact hdash ha
  have hinfo : entry ∉ informationFlags := by
    intro hmem
    have hall : ∀ a ∈ informationFlags, a.toList.head? = some '-' := by decide +kernel
    exact hdash (hall entry hmem)
  have hstart : afterStart? "--output=".toList entry.toList = none := by
    rw [Option.eq_none_iff_forall_ne_some]
    intro v hv
    rw [afterStart?_eq_some.1 hv] at hdash
    exact hdash rfl
  rw [parse_other hinfo (hne _ (by decide +kernel)) (hne _ (by decide +kernel)) hstart]
  simp only [hne "--crlf" (by decide +kernel), hne "--header" (by decide +kernel), hdash, if_false]

theorem finish_eq_ok :
    finish entry output layout = .ok request ↔
      entry ≠ "" ∧ (∀ v ∈ output, (Path.extension v).toLower = outputExtension) ∧
        request = .build entry output layout := by
  have hbuild : (.ok (.build entry output layout) : Except UsageError Request) = .ok request ↔
      request = .build entry output layout := by
    rw [Except.ok.injEq, eq_comm]
  unfold finish
  by_cases hempty : entry = ""
  · simp [hempty]
  · cases output with
    | none => simpa [hempty] using hbuild
    | some v =>
        by_cases hext : (Path.extension v).toLower = outputExtension
        · simpa [hempty, hext] using hbuild
        · simp [hempty, hext]

/-- Behind option groups stands a request for information, or the entry as the last argument. -/
def Readable (args : List String) : Prop :=
  AsksForInformation args ∨
    ∃ gs entry, args = spell gs ++ [entry] ∧ entry.toList.head? ≠ some '-'

theorem Readable.behind (h : Readable rest) (g : OptionGroup) : Readable (g.args ++ rest) := by
  obtain ⟨gs, flag, more, hflag, rfl⟩ | ⟨gs, entry, rfl, hdash⟩ := h
  · exact .inl ⟨g :: gs, flag, more, hflag, by rw [spell_cons, List.append_assoc]⟩
  · exact .inr ⟨g :: gs, entry, by rw [spell_cons, List.append_assoc], hdash⟩

theorem readable_of_parse (h : parse output layout args = .ok request) : Readable args := by
  -- A case that goes on reading has passed one option group.
  fun_induction parse output layout args with
  | case2 _ _ a rest hhelp =>
      refine .inl ⟨[], a, rest, ?_, rfl⟩
      rcases hhelp with rfl | rfl <;> decide
  | case3 _ _ a rest _ hversion =>
      refine .inl ⟨[], a, rest, ?_, rfl⟩
      rcases hversion with rfl | rfl <;> decide
  | case6 _ _ a _ _ hspaced v rest hv ih =>
      have hv : v ≠ "" := by simpa using hv
      rcases hspaced with rfl | rfl
      · exact (ih h).behind (.output .short v hv)
      · exact (ih h).behind (.output .long v hv)
  | case8 _ _ a rest _ _ _ v hnil hstart ih =>
      have hv : String.ofList v ≠ "" := by
        intro hempty
        exact hnil (by simpa using congrArg String.toList hempty)
      have ha : a = "--output=" ++ String.ofList v := by
        apply String.toList_inj.1
        rw [afterStart?_eq_some.1 hstart, String.toList_append, @String.toList_ofList v]
      rw [ha]
      exact (ih h).behind (.output .joined (String.ofList v) hv)
  | case9 _ _ rest _ _ _ _ ih => exact (ih h).behind .crlf
  | case10 _ _ rest _ _ _ _ _ ih => exact (ih h).behind .header
  | case12 _ _ a rest _ _ _ _ _ _ hdash hrest =>
      rw [List.isEmpty_iff.1 hrest]
      exact .inr ⟨[], a, rfl, hdash⟩
  | _ => cases h

theorem ofArgs_eq_ok (hinfo : ¬ AsksForInformation args) :
    ofArgs args = .ok request ↔
      ∃ gs entry, args = spell gs ++ [entry] ∧ entry ≠ "" ∧ entry.toList.head? ≠ some '-' ∧
        (∀ v ∈ lastOutput gs, (Path.extension v).toLower = outputExtension) ∧
        request = .build entry (lastOutput gs) (layoutOn {} gs) := by
  constructor
  · intro h
    obtain hasks | ⟨gs, entry, rfl, hdash⟩ := readable_of_parse h
    · exact absurd hasks hinfo
    · rw [ofArgs, parse_spell, parse_entry hdash, List.isEmpty_nil, if_pos rfl, finish_eq_ok,
        Option.or_none] at h
      exact ⟨gs, entry, rfl, h.1, hdash, h.2.1, h.2.2⟩
  · rintro ⟨gs, entry, rfl, hempty, hdash, hext, rfl⟩
    rw [ofArgs, parse_spell, parse_entry hdash, List.isEmpty_nil, if_pos rfl, finish_eq_ok,
      Option.or_none]
    exact ⟨hempty, hext, rfl⟩

theorem ofArgs_of_asksForInformation (h : AsksForInformation args) :
    ofArgs args = .ok .help ∨ ofArgs args = .ok .version := by
  obtain ⟨gs, flag, rest, hflag, rfl⟩ := h
  simp only [informationFlags, List.mem_cons, List.not_mem_nil, or_false] at hflag
  rw [ofArgs, parse_spell, parse.eq_def]
  rcases hflag with rfl | rfl | rfl | rfl <;> simp

theorem ofArgs_congr (h : Alike gs gs') (rest : List String) :
    ofArgs (spell gs ++ rest) = ofArgs (spell gs' ++ rest) := by
  rw [ofArgs, ofArgs, parse_spell, parse_spell, h.output, h.layoutOn]

end Request

/-- Where no information is asked for, a command line is accepted exactly if it is option groups
and then a non-empty entry that is no option, and the output named last is an assembly file.  What
a run does depends on the flags that occur, on the output named last and on what stands behind
the groups; so groups may change places around the last output, and flags may be repeated. -/
theorem command_line_grammar :
    (∀ args, ¬ AsksForInformation args → ∀ request, Request.ofArgs args = .ok request ↔
      ∃ gs entry, args = OptionGroup.spell gs ++ [entry] ∧
        entry ≠ "" ∧ entry.toList.head? ≠ some '-' ∧
        (∀ v ∈ OptionGroup.lastOutput gs, (Path.extension v).toLower = ".asm") ∧
        request = .build entry (OptionGroup.lastOutput gs) (OptionGroup.layoutOn {} gs)) ∧
    ∀ (m : Type → Type) [Monad m] (files : Files m) (cwd : Path) (rest : List String),
      (∀ gs gs', OptionGroup.Alike gs gs' →
        run files cwd (OptionGroup.spell gs ++ rest) =
          run files cwd (OptionGroup.spell gs' ++ rest)) ∧
      (∀ gs gs', gs.Perm gs' → OptionGroup.lastOutput gs = OptionGroup.lastOutput gs' →
        run files cwd (OptionGroup.spell gs ++ rest) =
          run files cwd (OptionGroup.spell gs' ++ rest)) ∧
      ∀ flag before after, flag.value? = none → flag ∈ before ++ after →
        run files cwd (OptionGroup.spell (before ++ flag :: after) ++ rest) =
          run files cwd (OptionGroup.spell (before ++ after) ++ rest) := by
  refine ⟨fun args hinfo request => Request.ofArgs_eq_ok hinfo, fun m _ files cwd rest => ?_⟩
  have hrun : ∀ gs gs', OptionGroup.Alike gs gs' →
      run files cwd (OptionGroup.spell gs ++ rest) =
        run files cwd (OptionGroup.spell gs' ++ rest) := by
    intro gs gs' h
    rw [run, run, Request.ofArgs_congr h]
  refine ⟨hrun, fun gs gs' hperm hlast => hrun gs gs' (.ofPerm hperm hlast), ?_⟩
  intro flag before after hflag hmem
  exact hrun _ _ (.repeated hflag hmem)

/-- The first output looks like a request for help, and a flag is given twice.  Where the last output
has no extension, or another one, nothing is compiled. -/
theorem command_line_grammar_crowded :
    let crowded := ["-o", "--help", "--crlf", "--output=Out.ASM", "--crlf", "main.tern"]
    let once := ["-o", "--help", "--output=Out.ASM", "--crlf", "main.tern"]
    let moved := ["--crlf", "-o", "--help", "--output=Out.ASM", "main.tern"]
    let short := ["--crlf", "-o", "Out.ASM", "main.tern"]
    ¬ AsksForInformation crowded ∧
      Request.ofArgs crowded = .ok (.build "main.tern" (some "Out.ASM") { ending := .crlf }) ∧
      (∀ output ∈ [".asm", "out.s", "out.asm.", "out.asm/.."],
        Request.ofArgs ["-o", "Out.ASM", "-o", output, "main.tern"] = .error .badOutput) ∧
      ∀ (files : Files (StateM FileTree)) (cwd : Path),
        run files cwd crowded = run files cwd once ∧ run files cwd once = run files cwd moved ∧
          run files cwd moved = run files cwd short := by
  intro crowded once moved short
  let help : OptionGroup := .output .short "--help" (by decide)
  let joined : OptionGroup := .output .joined "Out.ASM" (by decide)
  let spaced : OptionGroup := .output .short "Out.ASM" (by decide)
  have hinfo : ¬ AsksForInformation crowded := by
    intro hasks
    have hanswers := Request.ofArgs_of_asksForInformation hasks
    revert hanswers
    decide +kernel
  refine ⟨hinfo, ?_, by decide +kernel, fun files cwd => ⟨?_, ?_, ?_⟩⟩
  · exact (command_line_grammar.1 crowded hinfo _).2
      ⟨[help, .crlf, joined, .crlf], "main.tern", by decide +kernel, by decide, by decide +kernel,
        by decide +kernel, by decide +kernel⟩
  · exact (command_line_grammar.2 _ files cwd ["main.tern"]).2.2 .crlf [help] [joined, .crlf]
      rfl (by decide)
  · exact (command_line_grammar.2 _ files cwd ["main.tern"]).2.1 [help, joined, .crlf]
      [.crlf, help, joined] (by decide) (by decide)
  · exact (command_line_grammar.2 _ files cwd ["main.tern"]).1 [.crlf, help, joined]
      [.crlf, spaced] ⟨by decide, by decide, by decide⟩

end Tern

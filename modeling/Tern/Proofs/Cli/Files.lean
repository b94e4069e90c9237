import Mathlib
import Tern.Cli.Run

/-!
# File systems

A run needs little of a file system, and this says what.  Reading changes nothing, and what is read
is the text of the file.  Writing changes the entry at one path and may make the directories above
it; every other entry stays what it was.  Trees of files meet these laws.

A file name is split at its last dot, if that is not its first character.  A path keeps its name
when it is resolved, and replacing its extension gives the path back only if that was the
extension before.
-/

namespace Tern

namespace Path

def nameExtension (p : Path) : String := (splitExtension (p.getLast?.getD "")).2

variable {p : Path} {text name stem ext : String}

theorem ancestors_concat (p : Path) (name : String) :
    (p ++ [name]).ancestors = p.ancestors ++ [p] := by
  rw [ancestors, List.length_append, List.length_singleton, List.range_succ, List.map_append,
    List.map_singleton, List.take_left, ancestors]
  congr 1
  refine List.map_congr_left fun n hn => ?_
  exact List.take_append_of_le_length (Nat.le_of_lt (List.mem_range.1 hn))

/-- A file name is its stem and its extension.  The extension starts at the last dot, but not at the
first character of the name, and `..` has none. -/
inductive NameParts : String → String → String → Prop where
  | dotted {stem ext : String} (hstem : stem ≠ "") (hext : '.' ∉ ext.toList)
      (hup : stem ++ ("." ++ ext) ≠ "..") : NameParts (stem ++ ("." ++ ext)) stem ("." ++ ext)
  | plain {name : String} (hname : '.' ∉ name.toList.tail) : NameParts name name ""
  | up : NameParts ".." ".." ""

theorem NameParts.append_eq (h : NameParts name stem ext) : stem ++ ext = name := by
  cases h with
  | dotted => rfl
  | plain => exact String.append_empty
  | up => exact String.append_empty

theorem all_ne_dot {cs : List Char} (h : '.' ∉ cs) : ∀ c ∈ cs.reverse, (c != '.') = true := by
  intro c hc
  have hne : c ≠ '.' := fun heq => h (heq ▸ List.mem_reverse.1 hc)
  simpa using hne

theorem splitExtension_dotted (hstem : stem ≠ "") (hext : '.' ∉ ext.toList)
    (hup : stem ++ ("." ++ ext) ≠ "..") :
    splitExtension (stem ++ ("." ++ ext)) = (stem, "." ++ ext) := by
  have hback : (stem ++ ("." ++ ext)).toList.reverse =
      ext.toList.reverse ++ '.' :: stem.toList.reverse := by
    simp
  obtain ⟨c, cs, hcs⟩ : ∃ c cs, stem.toList.reverse = c :: cs := by
    apply List.exists_cons_of_ne_nil
    simpa using hstem
  have hstem' : (c :: cs).reverse = stem.toList := by rw [← hcs, List.reverse_reverse]
  simp only [splitExtension, hback, List.dropWhile_append_of_pos (all_ne_dot hext),
    List.takeWhile_append_of_pos (all_ne_dot hext), hcs]
  simp [hup, hstem']

theorem splitExtension_plain (hname : '.' ∉ name.toList.tail) :
    splitExtension name = (name, "") := by
  cases hcs : name.toList with
  | nil => simp only [splitExtension, hcs, List.reverse_nil, List.dropWhile_nil]
  | cons c cs =>
      rw [hcs, List.tail_cons] at hname
      simp only [splitExtension, hcs, List.reverse_cons,
        List.dropWhile_append_of_pos (all_ne_dot hname)]
      by_cases hc : c = '.' <;> simp [hc]

theorem splitExtension_of_nameParts (h : NameParts name stem ext) :
    splitExtension name = (stem, ext) := by
  cases h with
  | dotted hstem hext hup => exact splitExtension_dotted hstem hext hup
  | plain hname => exact splitExtension_plain hname
  | up => decide

theorem exists_nameParts (name : String) : ∃ stem ext, NameParts name stem ext := by
  by_cases htail : '.' ∈ name.toList.tail
  · by_cases hup : name = ".."
    · subst hup
      exact ⟨_, _, .up⟩
    · cases hcs : name.toList with
      | nil => simp [hcs] at htail
      | cons c cs =>
          rw [hcs, List.tail_cons] at htail
          -- The last dot is the first one from behind.
          obtain ⟨after, before, hrev, hafter⟩ :=
            List.eq_append_cons_of_mem (List.mem_reverse.2 htail)
          have htail' : cs = before.reverse ++ '.' :: after.reverse := by
            simpa using congrArg List.reverse hrev
          have hname : name = String.ofList (c :: before.reverse) ++
              ("." ++ String.ofList after.reverse) := by
            apply String.toList_inj.1
            simp [hcs, htail']
          rw [hname] at hup ⊢
          exact ⟨_, _, .dotted (by simp) (by simpa using hafter) hup⟩
  · exact ⟨_, _, .plain htail⟩

/-- Splitting a name gives its parts, and a name has no others. -/
theorem splitExtension_eq_iff : splitExtension name = (stem, ext) ↔ NameParts name stem ext := by
  constructor
  · intro h
    obtain ⟨stem', ext', hparts⟩ := exists_nameParts name
    rw [splitExtension_of_nameParts hparts] at h
    cases h
    exact hparts
  · exact splitExtension_of_nameParts

theorem withExtension_eq_self_iff (hext : ext ≠ "") :
    p.withExtension ext = p ↔ p.nameExtension = ext := by
  unfold withExtension nameExtension
  obtain rfl | ⟨dir, name, rfl⟩ := List.eq_nil_or_concat p
  · constructor
    · intro h
      cases h
    · intro h
      exact absurd h.symm hext
  · rw [List.concat_eq_append, List.dropLast_concat, List.getLast?_concat, Option.getD_some]
    have hname := (splitExtension_eq_iff.1 (Prod.eta (splitExtension name)).symm).append_eq
    constructor
    · intro h
      have hlast := List.singleton_inj.1 (List.append_cancel_left h)
      exact (String.append_right_inj _).1 (hname.trans hlast.symm)
    · intro h
      rw [← h, hname]

theorem enter_of_extension (h : (splitExtension name).2 ≠ "") :
    p.enter name = p ++ [name] := by
  unfold enter
  split
  · next hdot =>
      subst hdot
      exact absurd (by decide) h
  · split
    · next hdots =>
        subst hdots
        exact absurd (by decide) h
    · rfl

theorem nameExtension_resolve (cwd : Path) (h : extension text ≠ "") :
    (resolve cwd text).nameExtension = extension text := by
  unfold extension at h ⊢
  unfold resolve nameExtension
  obtain hnil | ⟨init, name, hname⟩ := List.eq_nil_or_concat (components text)
  · rw [hnil] at h
    exact absurd rfl h
  · rw [hname, List.concat_eq_append, List.getLast?_concat, Option.elim_some] at h ⊢
    rw [List.foldl_append, List.foldl_cons, List.foldl_nil, enter_of_extension h,
      List.getLast?_concat, Option.getD_some]

end Path

/-- The file at `p` has been given its text; besides, directories above it were made where there
was nothing. -/
structure Writes (p : Path) (text : String) (before after : Path → Option Entry) : Prop where
  written : after p = some (.file text)
  others : ∀ q, q ≠ p →
    after q = before q ∨ q ∈ p.ancestors ∧ before q = none ∧ after q = some .dir

theorem Writes.get_eq {p q : Path} {text : String} {before after : Path → Option Entry} {e : Entry}
    (h : Writes p text before after) (hq : q ≠ p) (he : before q = some e) : after q = some e := by
  obtain heq | ⟨-, hnone, -⟩ := h.others q hq
  · exact heq.trans he
  · rw [he] at hnone
    cases hnone

/-- What a run relies on in a file system with states `σ`.  Every path names a text or a directory
of its own, so that there are no links, and an operation that fails leaves all as it was. -/
structure FileSystem (σ : Type) extends Files (StateM σ) where
  /-- What a path names. -/
  names : σ → Path → Option Entry
  root : ∀ s, names s [] = some .dir
  read_keeps : ∀ p s, ((read p).run s).2 = s
  read_text : ∀ p s text, ((read p).run s).1 = .ok text → names s p = some (.file text)
  write_keeps : ∀ p text s e, ((write p text).run s).1 = .error e → ((write p text).run s).2 = s
  write_text : ∀ p text s, ((write p text).run s).1 = .ok () →
    Writes p text (names s) (names ((write p text).run s).2)

theorem FileSystem.run_bind {σ α β : Type} (x : StateM σ α) (f : α → StateM σ β) (s : σ) :
    (x >>= f).run s = (f (x.run s).1).run (x.run s).2 := rfl

namespace FileTree

variable {t t' t'' : FileTree} {p q : Path} {dirs : List Path} {e : Entry} {text : String}

theorem lookup_filter_ne {entries : List (Path × Entry)} (h : q ≠ p) :
    (entries.filter fun x => x.1 != p).lookup q = entries.lookup q := by
  induction entries with
  | nil => rfl
  | cons x xs ih =>
      obtain ⟨r, e⟩ := x
      by_cases hr : r = p
      · rw [List.filter_cons_of_neg (by simp [hr]), ih, List.lookup_cons, hr, beq_false_of_ne h]
      · rw [List.filter_cons_of_pos (by simp [hr]), List.lookup_cons, List.lookup_cons, ih]

theorem get?_nil (t : FileTree) : t.get? [] = some .dir := rfl

theorem get?_put_self (h : p ≠ []) : (t.put p e).get? p = some e := by
  rw [get?, if_neg (by simpa using h), put, List.lookup_cons, beq_self_eq_true]

theorem get?_put_of_ne (h : q ≠ p) : (t.put p e).get? q = t.get? q := by
  rw [get?, get?, put, List.lookup_cons, beq_false_of_ne h, lookup_filter_ne h]

/-! ## Directories -/

/-- Nothing but directories was added, and only at places of `dirs`. -/
def AddsDirs (dirs : List Path) (t t' : FileTree) : Prop :=
  ∀ q, t'.get? q = t.get? q ∨ q ∈ dirs ∧ t.get? q = none ∧ t'.get? q = some .dir

namespace AddsDirs

theorem trans {more : List Path} (h : AddsDirs dirs t t') (h' : AddsDirs more t' t'') :
    AddsDirs (dirs ++ more) t t'' := by
  intro q
  obtain heq' | ⟨hmem', hnone', hdir'⟩ := h' q
  · rw [heq']
    exact (h q).imp_right fun hadded => ⟨List.mem_append_left _ hadded.1, hadded.2⟩
  · obtain heq | ⟨-, -, hdir⟩ := h q
    · exact .inr ⟨List.mem_append_right _ hmem', heq.symm.trans hnone', hdir'⟩
    · rw [hnone'] at hdir
      cases hdir

theorem addDir (t : FileTree) (p : Path) : AddsDirs [p] t (t.addDir p) := by
  intro q
  unfold FileTree.addDir
  split
  · next hnone =>
      by_cases hq : q = p
      · subst hq
        have hne : q ≠ [] := by
          rintro rfl
          rw [get?_nil] at hnone
          cases hnone
        exact .inr ⟨List.mem_singleton_self q, hnone, get?_put_self hne⟩
      · exact .inl (get?_put_of_ne hq)
  · exact .inl rfl

theorem foldl (t : FileTree) (dirs : List Path) :
    AddsDirs dirs t (dirs.foldl FileTree.addDir t) := by
  induction dirs generalizing t with
  | nil => exact fun q => .inl rfl
  | cons p ps ih => exact (addDir t p).trans (ih (t.addDir p))

theorem makeDirs (h : t.makeDirs p = .ok t') : AddsDirs (p.ancestors ++ [p]) t t' := by
  unfold FileTree.makeDirs at h
  split at h
  · cases h
  · split at h
    · cases h
    · cases h
      exact foldl t _

end AddsDirs

/-! ## Files -/

theorem write_ok (h : t.write p text = .ok t') : Writes p text t.get? t'.get? := by
  unfold write at h
  split at h
  · cases h
  · next made hmade =>
      split at h
      · cases h
      · next hdir =>
          cases h
          obtain rfl | ⟨dir, name, rfl⟩ := List.eq_nil_or_concat p
          · exact absurd (get?_nil made) hdir
          rw [List.concat_eq_append] at hmade ⊢
          rw [List.dropLast_concat] at hmade
          refine ⟨get?_put_self (by simp), fun q hq => ?_⟩
          rw [get?_put_of_ne hq, Path.ancestors_concat]
          exact AddsDirs.makeDirs hmade q

theorem read_ok (h : t.read p = .ok text) : t.get? p = some (.file text) := by
  unfold read at h
  split at h
  · cases h
  · split at h
    · cases h
    · cases h
    · next hfile =>
        cases h
        exact hfile

theorem write_run (t : FileTree) (p : Path) (text : String) :
    (operations.write p text).run t =
      match t.write p text with
      | .error e => (.error e, t)
      | .ok t' => (.ok (), t') := by
  have hget : (get : StateM FileTree FileTree).run t = (t, t) := rfl
  simp only [operations, FileSystem.run_bind, hget]
  cases t.write p text <;> rfl

def fileSystem : FileSystem FileTree where
  toFiles := operations
  names := get?
  root := get?_nil
  read_keeps _ _ := rfl
  read_text _ _ _ h := read_ok h
  write_keeps p text t e h := by
    rw [write_run] at h ⊢
    cases hwrite : t.write p text with
    | error e => rfl
    | ok t' =>
        rw [hwrite] at h
        cases h
  write_text p text t h := by
    rw [write_run] at h ⊢
    cases hwrite : t.write p text with
    | error e =>
        rw [hwrite] at h
        cases h
    | ok t' => exact write_ok hwrite

end FileTree

end Tern

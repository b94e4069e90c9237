import Tern.Proofs.Tree.Parallel

/-!
# Programs with the same declarations

Of two programs with the same declarations, the statements of one can be put in front of those of
the other.  All three are read to the same declarations, and the third to the statements of the
first and what was read of the body of the second.
-/

namespace Tern

open Grammar (Derives)

/-- Nothing, or something that starts as a statement does. -/
def StartsStatement (ls : List Lexeme) : Prop := ∀ l ∈ ls.head?, l.kind = .identifier

namespace StartsStatement

variable {s s' : List Lexeme}

theorem append (hs : StartsStatement s) (hs' : StartsStatement s') :
    StartsStatement (s ++ s') := by
  cases s with
  | nil => exact hs'
  | cons l s => exact hs

theorem exists_cons (hs : StartsStatement s) :
    ∃ l ks, s ++ [.keyword .endWord, .eof] = l :: ks ∧
      (l.kind = .identifier ∨ l.kind.isBorder = true) := by
  cases s with
  | nil => exact ⟨_, _, rfl, .inr rfl⟩
  | cons l s => exact ⟨_, _, rfl, .inl (hs l rfl)⟩

end StartsStatement

def programLexemes (globals locals body : List Lexeme) : List Lexeme :=
  globals ++ .keyword .beginWord :: (locals ++ (body ++ [.keyword .endWord]))

/-- The programs start with the same declarations. -/
structure Program.SameHead (p q : Program) : Prop where
  globals : p.globals.map DeclList.unplaced = q.globals.map DeclList.unplaced
  opening : p.opening.unplaced = q.opening.unplaced
  locals : p.locals.map DeclList.unplaced = q.locals.map DeclList.unplaced

def Block.after (es : List Expr) (b : Block) : Block := { b with statements := es ++ b.statements }

/-- The program `p` consists of the statements of `p₁` in front of those of `p₂`, and of the
declarations that both have. -/
structure Program.Joins (p₁ p₂ p : Program) : Prop where
  head₁ : p₁.SameHead p
  head₂ : p₂.SameHead p
  body : ∃ (es : List Expr) (b : Block), p.body = b.after es ∧
    es.map Expr.unplaced = p₁.body.statements.map Expr.unplaced ∧ b.unplaced = p₂.body.unplaced
  finish : p.finish.unplaced = p₂.finish.unplaced

namespace Reader

variable {r r' : List Lexeme} {fuel fuel' n : Nat} {c c' : Cursor}

/-! ## Statements -/

theorem statements_parallel (fuel : Nat) (hfuel : 4 * n + 1 < fuel ∧ 4 * n + 1 < fuel')
    (hc : c.Parallel [] [] n c') :
    (statements fuel c).Parallel [] [] n Block.unplaced (statements fuel' c') :=
  .of_lockstep (Lockstep.statements (not_not_intro rfl) fuel hfuel (Seam.never.near hc))
    Block.unplaced_eq

/-- Statements up to the seam, and then what the second text goes on with. -/
theorem statements_resume (hseam : Seam r r') {b : Block} {rest : Cursor} (fuel : Nat)
    (hfuel : 4 * n + 1 < fuel ∧ 4 * (n + r'.length) + 1 < fuel') (hc : c.Parallel r r' n c')
    (h : statements fuel c = .done b rest) (hrest : rest.Spells id r) :
    ∃ es fuel'' d, d.Spells id r' ∧ 4 * r'.length + 1 < fuel'' ∧
      es.map Expr.unplaced = b.statements.map Expr.unplaced ∧
      statements fuel' c' = (statements fuel'' d).map (Block.after es) := by
  induction fuel generalizing fuel' n c c' b with
  | zero => omega
  | succ fuel ih =>
      unfold statements at h
      split at h
      · next hl =>
        cases h
        obtain ⟨xs, -, hspells, hspells'⟩ := hc
        obtain rfl : xs = [] := by
          have heq := hspells.unique hrest
          simpa using heq
        refine ⟨[], fuel', c', hspells', by omega, rfl, ?_⟩
        cases statements fuel' c' <;> rfl
      · next name hl =>
        obtain ⟨fuel', rfl⟩ := Nat.exists_eq_add_one.2 (show 0 < fuel' by omega)
        have hk : c.kind.isBorder = false := Lockstep.At.border_of_lexeme hl rfl
        have hlexeme := Lockstep.lexeme_eq (hseam.near hc) (.inl hk)
        have hn := (hc.advance hseam (.inl hk)).1
        have hnamed : (named fuel ⟨name, c.pos⟩ c).Parallel r r' (n - 1) Expr.unplaced
            (named fuel' ⟨name, c'.pos⟩ c') :=
          (parallelAt hseam fuel).named (by omega) rfl hc (congrArg Lexeme.kind hl)
        obtain ⟨e, b, d, hread, hd, rfl⟩ := statement_done h
        rw [hread] at hnamed
        obtain ⟨e', d', hread', he, hd'⟩ := hnamed
        have hless : 4 * (n - 1) + 1 < fuel ∧ 4 * (n - 1 + r'.length) + 1 < fuel' := by omega
        obtain ⟨es, fuel'', d'', hspells, hfuel'', hes, hrest'⟩ := ih hless hd' hd
        refine ⟨e' :: es, fuel'', d'', hspells, hfuel'', ?_, ?_⟩
        · simp only [List.map_cons, he, hes]
        · simp only [statements, hlexeme, hl, hread', Outcome.andThen, hrest']
          cases statements fuel'' d'' <;> rfl
      · cases h
      · cases h

/-! ## Declarations -/

theorem declList?_same {ls : List Lexeme} (h : Derives .declPart (ls.map Lexeme.kind) [])
    (heof : .eof ∉ ls) :
    ∃ t, ∀ (c : Cursor) (l : Lexeme) (ks : List Lexeme),
      l.kind = .identifier ∨ l.kind.isBorder = true → c.Spells id (ls ++ l :: ks) →
      ∃ t' d, declList? c = .done t' d ∧ d.Spells id (l :: ks) ∧
        t'.map DeclList.unplaced = t := by
  obtain ⟨v, hv⟩ := exists_spells (ls ++ [.keyword .endWord]) (by simpa using heof)
  rw [List.append_assoc] at hv
  have hoffers := hv.map Lexeme.kind
  rw [List.map_append] at hoffers
  have hfinishes := declList?_complete (c := v) hoffers (h.append nofun _ nofun nofun) nofun nofun
  cases hread : declList? v with
  | stopped t why rest => rw [hread] at hfinishes; exact hfinishes.elim
  | done t rest =>
      rw [hread] at hfinishes
      obtain ⟨_, hrest, rfl⟩ := hfinishes
      refine ⟨t.map DeclList.unplaced, fun c l ks hl hc => ?_⟩
      have hseam : Seam [.keyword .endWord, .eof] (l :: ks) := .parts rfl hl
      obtain ⟨m, hparallel⟩ := declList?_parallel hseam ⟨ls, Nat.le_refl _, hv, hc⟩
      rw [hread] at hparallel
      obtain ⟨t', d, hread', ht, xs, -, hxs, hd⟩ := hparallel
      obtain rfl : xs = [] := by
        have heq := congrArg List.length ((hxs.map Lexeme.kind).unique hrest)
        simpa using heq
      exact ⟨t', d, hread', hd, ht.symm⟩

/-! ## Programs -/

theorem program_head {globals locals : List Lexeme}
    (hglobals : Derives .declPart (globals.map Lexeme.kind) [])
    (hlocals : Derives .declPart (locals.map Lexeme.kind) []) (heof : .eof ∉ globals)
    (heof' : .eof ∉ locals) :
    ∃ gs ls, ∀ (c : Cursor) (s : List Lexeme), StartsStatement s →
      c.Spells id (programLexemes globals locals s ++ [.eof]) →
      ∃ gs' ls' d, program c = programTail gs' ls' (block d) ∧
        d.Spells id (s ++ [.keyword .endWord, .eof]) ∧
        gs'.map DeclList.unplaced = gs ∧ ls'.map DeclList.unplaced = ls := by
  obtain ⟨gs, hgs⟩ := declList?_same hglobals heof
  obtain ⟨ls, hls⟩ := declList?_same hlocals heof'
  refine ⟨gs, ls, fun c s hs hc => ?_⟩
  obtain ⟨l, ks, hhead, hl⟩ := hs.exists_cons
  simp only [programLexemes, List.append_assoc, List.cons_append, List.nil_append, hhead] at hc
  obtain ⟨gs', d, hread, hd, hgs'⟩ := hgs c _ _ (.inr rfl) hc
  have hbegin : d.current.lexeme = .keyword .beginWord := hd.head_eq
  have hkind : d.kind = .keyword .beginWord := congrArg Lexeme.kind hbegin
  obtain ⟨d', hd', hstep⟩ := hd.step (by rw [hbegin]; decide)
  obtain ⟨ls', d'', hread', hd'', hls'⟩ := hls d' _ _ hl hd'
  refine ⟨gs', ls', d'', ?_, hhead ▸ hd'', hgs', hls'⟩
  unfold program
  rw [hread]
  simp only [Outcome.andThen, Cursor.pass, Cursor.expect]
  rw [if_pos hkind, hstep, hread']
  rfl

theorem block_parallel {ks : List Lexeme} (hc : c.Spells id ks) (hc' : c'.Spells id ks)
    (hfuel : 4 * ks.length + 1 < fuel') :
    (block c).Parallel [] [] ks.length Block.unplaced (statements fuel' c') := by
  have hbudget := hc.mul_length_le_budget
  have hparallel : c.Parallel [] [] ks.length c' :=
    ⟨ks, Nat.le_refl _, by rwa [List.append_nil], by rwa [List.append_nil]⟩
  have hpos : 8 ≤ budget c := by unfold budget; omega
  exact statements_parallel _ (by omega) hparallel

/-- Behind the statements of a program that was read to its end there is `end` and nothing. -/
theorem programTail_done {gs ls : Option DeclList} {p : Program} {rest : Cursor}
    {ks : List Lexeme} (hc : c.Spells id ks) (h : programTail gs ls (block c) = .done p rest) :
    ∃ b d, block c = .done b d ∧ d.Spells id [.keyword .endWord, .eof] ∧
      p = ⟨gs, .ok (), ls, b, .ok ()⟩ := by
  have hparallel := block_parallel hc hc (Nat.lt_succ_self _)
  cases hread : block c with
  | stopped b why d => rw [hread] at h; cases h
  | done b d =>
      have hend := statements_rest _ hread
      rw [hread] at h hparallel
      obtain ⟨b', d', -, -, xs, -, hxs, -⟩ := hparallel
      rw [List.append_nil] at hxs
      cases hxs with
      | eof heof => rw [hend] at heof; cases heof
      | @cons _ d' xs hne hadvance hxs =>
          simp only [programTail, Outcome.andThen, Cursor.step, hadvance, Cursor.expect] at h
          split at h
          · next hk =>
            cases h
            have heof := Lexeme.eq_eof hk
            obtain rfl := hxs.eq_of_eof heof
            exact ⟨b, d, rfl, by rw [← hend]; exact .cons hne hadvance hxs, rfl⟩
          · cases h

/-- What follows the first statements of a body is read as if it stood alone. -/
theorem programTail_after (gs ls gs' ls' : Option DeclList) {x x' : Outcome Block}
    (es : List Expr) (hx : x.Parallel [] [] n Block.unplaced x')
    (hend : ∀ b c, x = .done b c → c.current.lexeme = .keyword .endWord) :
    ∃ (b : Block) (finish : Read Unit), (programTail gs' ls' (x'.map (Block.after es))).tree =
        ⟨gs', .ok (), ls', b.after es, finish⟩ ∧
      b.unplaced = (programTail gs ls x).tree.body.unplaced ∧
      finish.unplaced = (programTail gs ls x).tree.finish.unplaced := by
  cases x with
  | stopped b why c =>
      obtain ⟨b', why', c', rfl, hb, hwhy⟩ := hx rfl
      refine ⟨b', .error why', rfl, hb.symm, ?_⟩
      simp [programTail, Outcome.andThen, Outcome.tree, Read.unplaced, hwhy]
  | done b c =>
      obtain ⟨b', c', rfl, hb, xs, -, hxs, hxs'⟩ := hx
      rw [List.append_nil] at hxs hxs'
      have hlexeme : c.current.lexeme = .keyword .endWord := hend b c rfl
      obtain ⟨l, xs, rfl⟩ : ∃ l ls, xs = l :: ls := by cases hxs <;> exact ⟨_, _, rfl⟩
      obtain rfl : .keyword .endWord = l := hlexeme.symm.trans hxs.head_eq
      have hlexeme' : c'.current.lexeme = .keyword .endWord := hxs'.head_eq
      obtain ⟨d, hd, hstep⟩ := hxs.step (by rw [hlexeme]; decide)
      obtain ⟨d', hd', hstep'⟩ := hxs'.step (by rw [hlexeme']; decide)
      have hkind : d'.kind = d.kind := congrArg Lexeme.kind (hd'.head_congr hd)
      simp only [programTail, Outcome.map, Outcome.andThen, hstep, hstep', Cursor.expect, hkind]
      by_cases heof : d.kind = .eof
      · simp only [if_pos heof]
        exact ⟨b', .ok (), rfl, hb.symm, rfl⟩
      · simp only [if_neg heof]
        exact ⟨b', .error ⟨.expected .eof d.kind, d'.pos⟩, rfl, hb.symm, rfl⟩

theorem programTail_head (gs ls : Option DeclList) (x : Outcome Block) :
    ∃ b finish, (programTail gs ls x).tree = ⟨gs, .ok (), ls, b, finish⟩ := by
  cases x with
  | stopped b why c => exact ⟨b, .error why, rfl⟩
  | done b c =>
      simp only [programTail, Outcome.andThen, Cursor.step, Cursor.expect]
      split
      · split
        · exact ⟨b, .ok (), rfl⟩
        · exact ⟨b, .error _, rfl⟩
      · exact ⟨b, .error _, rfl⟩

theorem program_done {ls : List Lexeme} (hc : c.Spells id ls)
    (hcomplete : (program c).tree.Complete) : ∃ p rest, program c = .done p rest := by
  have hsound := program_sound (hc.map Lexeme.kind)
  cases hread : program c with
  | done p rest => exact ⟨p, rest, rfl⟩
  | stopped p why rest =>
      rw [hread] at hsound hcomplete
      exact absurd hcomplete hsound

/-- Statements that make a complete program can stand in front of any body that starts as one
does, and the two are read one after the other. -/
theorem program_joins {globals locals s₁ s₂ : List Lexeme} {c₁ c₂ c : Cursor}
    (hglobals : Derives .declPart (globals.map Lexeme.kind) [])
    (hlocals : Derives .declPart (locals.map Lexeme.kind) [])
    (hs₁ : StartsStatement s₁) (hs₂ : StartsStatement s₂)
    (hc₁ : c₁.Spells id (programLexemes globals locals s₁ ++ [.eof]))
    (hc₂ : c₂.Spells id (programLexemes globals locals s₂ ++ [.eof]))
    (hc : c.Spells id (programLexemes globals locals (s₁ ++ s₂) ++ [.eof]))
    (hcomplete : (program c₁).tree.Complete) :
    (program c₁).tree.Joins (program c₂).tree (program c).tree := by
  have heof : .eof ∉ programLexemes globals locals s₁ := hc₁.eof_notMem
  simp only [programLexemes, List.mem_append, List.mem_cons, not_or] at heof
  obtain ⟨gs, ls, hhead⟩ := program_head hglobals hlocals heof.1 heof.2.2.1
  obtain ⟨gs₁, ls₁, d₁, hread₁, hd₁, hgs₁, hls₁⟩ := hhead c₁ s₁ hs₁ hc₁
  obtain ⟨gs₂, ls₂, d₂, hread₂, hd₂, hgs₂, hls₂⟩ := hhead c₂ s₂ hs₂ hc₂
  obtain ⟨gs', ls', d, hread, hd, hgs', hls'⟩ := hhead c (s₁ ++ s₂) (hs₁.append hs₂) hc
  rw [List.append_assoc] at hd
  obtain ⟨p₁, rest, hdone⟩ := program_done hc₁ hcomplete
  rw [hread₁] at hdone
  obtain ⟨b₁, rest₁, hblock₁, hrest₁, rfl⟩ := programTail_done hd₁ hdone
  -- The first body stands in front of `end` in its own program and of the second body in `c`.
  have hseam : Seam [.keyword .endWord, .eof] (s₂ ++ [.keyword .endWord, .eof]) := by
    obtain ⟨l, ks, heq, hl⟩ := hs₂.exists_cons
    rw [heq]
    exact .parts rfl hl
  have hbudget₁ := hd₁.mul_length_le_budget
  have hbudget := hd.mul_length_le_budget
  have hspent : 4 * s₁.length + 1 < budget d₁ ∧
      4 * (s₁.length + (s₂ ++ [Lexeme.keyword .endWord, .eof]).length) + 1 < budget d := by
    simp only [List.length_append, List.length_cons] at hbudget₁ hbudget ⊢
    omega
  obtain ⟨es, fuel, e, he, hfuel, hes, hblock⟩ := statements_resume hseam (budget d₁) hspent
    ⟨s₁, Nat.le_refl _, hd₁, hd⟩ hblock₁ hrest₁
  obtain ⟨b, finish, htree, hb, hfinish⟩ := programTail_after gs₂ ls₂ gs' ls' es
    (block_parallel hd₂ he hfuel) fun _ _ h => statements_rest _ h
  rw [hread₁, hdone, hread₂, hread, show block d = _ from hblock, htree]
  obtain ⟨b₂, finish₂, htree₂⟩ := programTail_head gs₂ ls₂ (block d₂)
  rw [htree₂] at hb hfinish ⊢
  exact {
    head₁ := ⟨hgs₁.trans hgs'.symm, rfl, hls₁.trans hls'.symm⟩
    head₂ := ⟨hgs₂.trans hgs'.symm, rfl, hls₂.trans hls'.symm⟩
    body := ⟨es, b, rfl, hes, hb⟩
    finish := hfinish }

end Reader

end Tern

import PatternCircuit.Proofs.Pattern.Lexeme

/-! # Expansion keeps the structure of a pattern

The expanded form of a pattern is parsed as if every escape and every class were one letter, and
its tree has the symbols of the escape or class in the place of that letter. The two texts are read
side by side: the frames hold the same trees, up to spans and the leaves that stand for pieces of
the pattern. -/

namespace PatternCircuit

/-! ### Trees without spans -/

namespace Tree

mutual

/-- The tree without its spans, its leaves replaced. -/
def mapLeaves (leaf : Span → Symbol → Tree) : Tree → Tree
  | empty _ => empty ⟨0, 0⟩
  | text s a => leaf s a
  | cat _ parts => cat ⟨0, 0⟩ (mapLeavesAll leaf parts)
  | alt _ parts => alt ⟨0, 0⟩ (mapLeavesAll leaf parts)
  | star _ body => star ⟨0, 0⟩ (mapLeaves leaf body)

def mapLeavesAll (leaf : Span → Symbol → Tree) : List Tree → List Tree
  | [] => []
  | t :: rest => mapLeaves leaf t :: mapLeavesAll leaf rest

end

/-- The tree without its spans. -/
def bare : Tree → Tree := mapLeaves fun _ a => text ⟨0, 0⟩ a

/-- One of the symbols; a single one stands for itself. -/
def oneOf (symbols : List Symbol) : Tree := altOf ⟨0, 0⟩ (symbols.map (text ⟨0, 0⟩))

end Tree

namespace Lexeme

/-- The byte of a piece in the text that has one letter for each piece that stands for symbols. -/
def placeholder (letter : UInt8) : Lexeme → UInt8
  | escape _ => letter
  | bracket _ _ => letter
  | single byte => if byte = Ascii.closeBracket then letter else byte

/-- The piece at a leaf whose span starts at `start`. The span of a leaf in parentheses takes them
in, so opening parentheses are passed over. -/
def leaf? (lexemes : List Lexeme) (start : Nat) : Option Lexeme :=
  (lexemes.drop start).find? fun x => x ≠ .single Ascii.openParen

end Lexeme

/-- The tree without its spans, each leaf that holds the place of a piece replaced by the symbols of
the piece. -/
def Tree.filled (lexemes : List Lexeme) : Tree → Tree := mapLeaves fun s a =>
  match (Lexeme.leaf? lexemes s.start).bind Lexeme.symbols? with
  | some symbols => oneOf symbols
  | none => text ⟨0, 0⟩ a

namespace Tree

variable {leaf leaf' : Span → Symbol → Tree}

@[simp] theorem mapLeavesAll_eq (parts : List Tree) :
    mapLeavesAll leaf parts = parts.map (mapLeaves leaf) := by
  induction parts with
  | nil => rfl
  | cons t rest ih => rw [mapLeavesAll, ih, List.map_cons]

theorem mapLeaves_catOf (s : Span) (parts : List Tree) :
    mapLeaves leaf (catOf s parts) = catOf ⟨0, 0⟩ (parts.map (mapLeaves leaf)) := by
  match parts with
  | [] => rfl
  | [t] => rfl
  | t :: u :: rest => simp [catOf, mapLeaves]

theorem mapLeaves_altOf (s : Span) (parts : List Tree) :
    mapLeaves leaf (altOf s parts) = altOf ⟨0, 0⟩ (parts.map (mapLeaves leaf)) := by
  match parts with
  | [] => rfl
  | [t] => rfl
  | t :: u :: rest => simp [altOf, mapLeaves]

theorem eq_of_catOf_eq_text {s s' : Span} {a : Symbol} {parts : List Tree}
    (h : catOf s parts = text s' a) : parts = [text s' a] := by
  unfold catOf at h
  split at h
  · rw [h]
  · cases h

theorem eq_of_altOf_eq_text {s s' : Span} {a : Symbol} {parts : List Tree}
    (h : altOf s parts = text s' a) : parts = [text s' a] := by
  unfold altOf at h
  split at h
  · rw [h]
  · cases h

/-- Another span matters only to a leaf. -/
theorem mapLeaves_withSpan (t : Tree) (s : Span)
    (h : ∀ s' a, t = text s' a → leaf s a = leaf s' a) :
    mapLeaves leaf (t.withSpan s) = mapLeaves leaf t := by
  cases t with
  | text s' a => exact h s' a rfl
  | empty _ => rfl
  | cat _ _ => rfl
  | alt _ _ => rfl
  | star _ _ => rfl

theorem mapLeaves_postfixed {t u : Tree} (h : mapLeaves leaf t = mapLeaves leaf' u)
    (operator : UInt8) (pos pos' : Nat) :
    mapLeaves leaf (Parser.postfixed operator pos t) =
      mapLeaves leaf' (Parser.postfixed operator pos' u) := by
  unfold Parser.postfixed
  simp only
  split
  · simp [mapLeaves, h]
  · split
    · simp [mapLeaves, h]
    · simp [mapLeaves, h]

@[simp] theorem bare_withSpan (t : Tree) (s : Span) : (t.withSpan s).bare = t.bare :=
  mapLeaves_withSpan t s fun _ _ _ => rfl

end Tree

/-! ### Pieces in the expanded form -/

/-- The symbols that a token stands for. -/
def Token.symbols? : Token → Option (List Symbol)
  | plain _ => none
  | control code => some [.byte code]
  | escaped byte => some [.byte byte]
  | oneOf negated members => some (symbols negated members)

namespace Lexeme

theorem leaf?_of_paren {lexemes : List Lexeme} {i : Nat}
    (h : lexemes[i]? = some (.single Ascii.openParen)) : leaf? lexemes i = leaf? lexemes (i + 1) := by
  obtain ⟨hi, hget⟩ := List.getElem?_eq_some_iff.mp h
  rw [leaf?, List.drop_eq_getElem_cons hi, hget]
  simp [leaf?]

theorem leaf?_of_ne {lexemes : List Lexeme} {i : Nat} {x : Lexeme} (h : lexemes[i]? = some x)
    (hx : x ≠ .single Ascii.openParen) : leaf? lexemes i = some x := by
  obtain ⟨hi, hget⟩ := List.getElem?_eq_some_iff.mp h
  rw [leaf?, List.drop_eq_getElem_cons hi, hget]
  simp [hx]

theorem symbols?_token (x : Lexeme) : x.token.symbols? = x.symbols? := by
  cases x with
  | escape letter =>
      rw [token, symbols?, Token.eraseDups_escapedMembers]
      unfold Token.ofEscape Token.escapedMembers
      cases Token.shorthand? letter with
      | some members => rfl
      | none =>
          cases Token.control? letter with
          | some code => rfl
          | none => rfl
  | bracket negated items => rfl
  | single byte =>
      simp only [token, symbols?]
      split
      · rfl
      · rfl

/-- A piece without symbols is a byte that keeps its meaning. -/
theorem eq_single_of_symbols? {x : Lexeme} (h : x.symbols? = none) :
    ∃ byte, x = single byte ∧ x.token = .plain byte ∧ ∀ letter, x.placeholder letter = byte := by
  cases x with
  | escape letter => cases h
  | bracket negated items => cases h
  | single byte =>
      have hbyte : byte ≠ Ascii.closeBracket := by
        rintro rfl
        cases h
      exact ⟨byte, rfl, if_neg hbyte, fun letter => if_neg hbyte⟩

theorem placeholder_of_symbols? {x : Lexeme} {as : List Symbol} (h : x.symbols? = some as)
    (letter : UInt8) : x.placeholder letter = letter := by
  cases x with
  | escape _ => rfl
  | bracket _ _ => rfl
  | single byte =>
      simp only [symbols?] at h
      split at h
      · rename_i hbyte
        exact if_pos hbyte
      · cases h

end Lexeme

namespace Parser

open Token

theorem Leaves.map_bare {trees : List Tree} {symbols : List Symbol} (h : Leaves trees symbols) :
    trees.map Tree.bare = symbols.map (.text ⟨0, 0⟩) := by
  induction h with
  | nil => rfl
  | cons hleaf _ ih =>
      obtain ⟨span, rfl⟩ := hleaf
      rw [List.map_cons, List.map_cons, ih]
      rfl

theorem ClassTree.bare {negated : Bool} {members : List UInt8} {t : Tree}
    (h : ClassTree negated members t) : t.bare = .oneOf (symbols negated members) := by
  obtain ⟨span, span', trees, hleaves, rfl⟩ := h
  rw [Tree.bare_withSpan, Tree.bare, Tree.mapLeaves_altOf, ← Tree.bare, hleaves.map_bare]
  rfl

/-- A token that stands for symbols is read as one term. -/
theorem read_token {token : Token} (hlegal : token.Legal) {as : List Symbol}
    (has : token.symbols? = some as) (pos : Nat) (f : Frame) (outer : List Frame)
    (rest : List UInt8) :
    ∃ stop t, t.bare = .oneOf as ∧
      read pos f outer (token.expansion ++ rest) = read stop (f.push t) outer rest := by
  cases token with
  | plain byte => cases has
  | control code =>
      cases has
      exact ⟨pos + 1, .text ⟨pos, pos + 1⟩ (.byte code), rfl,
        read_literal pos f outer (notMem_reserved hlegal) rest⟩
  | escaped byte =>
      cases has
      exact ⟨pos + 2, .text ⟨pos, pos + 2⟩ (.byte byte), rfl, read_escaped pos f outer byte rest⟩
  | oneOf negated members =>
      cases has
      obtain ⟨stop, t, hclass, hread⟩ := read_oneOf negated hlegal pos f outer rest
      exact ⟨stop, t, hclass.bare, hread⟩

end Parser

/-! ### Reading side by side -/

/-- The cause of a fault, apart from the place of a parenthesis. -/
def PatternCause.unplaced : PatternCause → PatternCause
  | missingClose _ => missingClose 0
  | cause => cause

/-- Both computations give related results, or both fail for the same cause, which is not an escape
at the end. -/
inductive Alike {α β : Type} (R : α → β → Prop) :
    Except PatternFault α → Except PatternFault β → Prop where
  | ok {a : α} {b : β} : R a b → Alike R (.ok a) (.ok b)
  | error {fault fault' : PatternFault} : fault.cause.unplaced = fault'.cause.unplaced →
      fault.cause ≠ .trailingEscape → Alike R (.error fault) (.error fault')

theorem Alike.bind {α β γ δ : Type} {R : α → β → Prop} {S : γ → δ → Prop}
    {x : Except PatternFault α} {y : Except PatternFault β} {f : α → Except PatternFault γ}
    {g : β → Except PatternFault δ} (h : Alike R x y)
    (hfg : ∀ a b, y = .ok b → R a b → Alike S (f a) (g b)) : Alike S (x >>= f) (y >>= g) := by
  cases h with
  | ok hab => exact hfg _ _ rfl hab
  | error hcause htrailing => exact .error hcause htrailing

/-- A leaf that was read from one piece. -/
theorem Tree.filled_text {lexemes : List Lexeme} {s : Span} {x : Lexeme}
    (hx : lexemes[s.start]? = some x) (hne : x ≠ .single Ascii.openParen) (a : Symbol) :
    (text s a).filled lexemes = (x.symbols?.map oneOf).getD (text ⟨0, 0⟩ a) := by
  rw [filled, mapLeaves, Lexeme.leaf?_of_ne hx hne, Option.bind_some]
  cases x.symbols? with
  | none => rfl
  | some as => rfl

theorem Alike.ne_trailingEscape {α β : Type} {R : α → β → Prop} {x : Except PatternFault α}
    {y : Except PatternFault β} (h : Alike R x y) (offset : Nat) :
    x ≠ .error ⟨.trailingEscape, offset⟩ := by
  cases h with
  | ok _ => exact nofun
  | error _ htrailing =>
      intro heq
      cases heq
      exact htrailing rfl

namespace Parser

variable {lexemes : List Lexeme}

/-- The frames hold the same trees. -/
structure Frame.Mirrors (lexemes : List Lexeme) (f g : Frame) : Prop where
  alternatives : f.alternatives.map Tree.bare = g.alternatives.map (Tree.filled lexemes)
  terms : f.terms.map Tree.bare = g.terms.map (Tree.filled lexemes)

/-- The frame is that of a parenthesis, and its current alternative starts with its first term, or
at `pos` if there is none yet. -/
structure Frame.Placed (lexemes : List Lexeme) (pos : Nat) (g : Frame) : Prop where
  paren : lexemes[g.opened]? = some (.single Ascii.openParen)
  first : (g.terms.getLast?.map fun t => t.span.start).getD pos = g.start
  only : g.alternatives = [] → g.start = g.opened + 1

/-- The frames of the open groups, in the expanded form and in the text with placeholders. -/
inductive Mirrored (lexemes : List Lexeme) :
    Nat → Frame → List Frame → Frame → List Frame → Prop where
  | root {pos : Nat} {f g : Frame} : f.Mirrors lexemes g → Mirrored lexemes pos f [] g []
  | group {pos : Nat} {f g p q : Frame} {outer outer' : List Frame} : f.Mirrors lexemes g →
      g.Placed lexemes pos → Mirrored lexemes g.opened p outer q outer' →
      Mirrored lexemes pos f (p :: outer) g (q :: outer')

namespace Frame

variable {f g next : Frame} {pos pos' : Nat} {t u : Tree}

theorem Mirrors.push (h : f.Mirrors lexemes g) (ht : t.bare = u.filled lexemes) :
    (f.push t).Mirrors lexemes (g.push u) where
  alternatives := h.alternatives
  terms := by simp [Frame.push, ht, h.terms]

theorem Mirrors.alternative (h : f.Mirrors lexemes g) (pos pos' : Nat) :
    Alike (fun t u => t.bare = u.filled lexemes) (f.alternative pos) (g.alternative pos') := by
  have hterms := h.terms
  unfold Frame.alternative
  cases hf : f.terms with
  | nil =>
      rw [hf] at hterms
      rw [List.map_eq_nil_iff.mp hterms.symm]
      exact .error rfl (by simp)
  | cons t rest =>
      cases hg : g.terms with
      | nil => simp [hf, hg] at hterms
      | cons u rest' =>
          rw [hf, hg] at hterms
          refine .ok ?_
          rw [Tree.bare, Tree.filled, Tree.mapLeaves_catOf, Tree.mapLeaves_catOf, ← Tree.bare,
            ← Tree.filled, List.map_reverse, List.map_reverse, hterms]

theorem Mirrors.bar (h : f.Mirrors lexemes g) (pos pos' : Nat) :
    Alike (Mirrors lexemes) (f.bar pos) (g.bar pos') :=
  (h.alternative pos pos').bind fun t u _ htu =>
    .ok ⟨by simp [htu, h.alternatives], rfl⟩

theorem Mirrors.close (h : f.Mirrors lexemes g) (s s' : Span) (pos pos' : Nat) :
    Alike (fun t u => t.bare = u.filled lexemes) (f.close s pos) (g.close s' pos') := by
  refine (h.alternative pos pos').bind fun t u _ htu => .ok ?_
  have hparts : (t :: f.alternatives).map Tree.bare =
      (u :: g.alternatives).map (Tree.filled lexemes) := by
    rw [List.map_cons, List.map_cons, htu, h.alternatives]
  rw [Tree.bare, Tree.filled, Tree.mapLeaves_altOf, Tree.mapLeaves_altOf, ← Tree.bare,
    ← Tree.filled, List.map_reverse, List.map_reverse, hparts]

theorem Mirrors.applyPostfix (h : f.Mirrors lexemes g) (operator : UInt8) (pos pos' : Nat) :
    Alike (Mirrors lexemes) (applyPostfix operator pos f) (applyPostfix operator pos' g) := by
  have hterms := h.terms
  unfold Parser.applyPostfix
  cases hf : f.terms with
  | nil =>
      rw [hf] at hterms
      rw [List.map_eq_nil_iff.mp hterms.symm]
      exact .error rfl (by simp)
  | cons t rest =>
      cases hg : g.terms with
      | nil => simp [hf, hg] at hterms
      | cons u rest' =>
          rw [hf, hg, List.map_cons, List.map_cons] at hterms
          obtain ⟨hhead, hrest⟩ := List.cons.inj hterms
          refine .ok ⟨h.alternatives, ?_⟩
          have hpost := Tree.mapLeaves_postfixed hhead operator pos pos'
          simp only [List.map_cons, hrest]
          exact congrArg (· :: _) hpost

/-! The place of a frame in the text with placeholders. -/

theorem placed_fresh {n : Nat} (h : lexemes[n]? = some (.single Ascii.openParen)) :
    (fresh n (n + 1)).Placed lexemes (n + 1) :=
  ⟨h, rfl, fun _ => rfl⟩

theorem Placed.push (h : g.Placed lexemes pos) (hu : u.span.start = pos) (pos' : Nat) :
    (g.push u).Placed lexemes pos' where
  paren := h.paren
  first := by
    have hfirst := h.first
    cases hterms : g.terms with
    | nil => simpa [Frame.push, hterms, hu] using hfirst
    | cons v rest => simpa [Frame.push, hterms, List.getLast?_cons] using hfirst
  only := h.only

theorem Placed.bar (h : g.Placed lexemes pos) (hnext : g.bar pos = .ok next) :
    next.Placed lexemes (pos + 1) := by
  obtain ⟨u, _, heq⟩ := Outcome.bind_eq_ok.mp hnext
  cases heq
  exact ⟨h.paren, rfl, nofun⟩

theorem span_postfixed (operator : UInt8) (pos : Nat) (t : Tree) :
    (postfixed operator pos t).span.start = t.span.start := by
  unfold postfixed
  simp only
  split
  · rfl
  · split
    · rfl
    · rfl

theorem Placed.applyPostfix (h : g.Placed lexemes pos) {operator : UInt8} {at' : Nat}
    (hnext : applyPostfix operator at' g = .ok next) (pos' : Nat) : next.Placed lexemes pos' := by
  unfold Parser.applyPostfix at hnext
  cases hterms : g.terms with
  | nil =>
      rw [hterms] at hnext
      cases hnext
  | cons u rest =>
      rw [hterms] at hnext
      cases hnext
      refine ⟨h.paren, ?_, h.only⟩
      have hfirst := h.first
      cases rest with
      | nil => simpa [hterms, span_postfixed] using hfirst
      | cons v rest => simpa [hterms, List.getLast?_cons] using hfirst

/-- A group that is one leaf starts right behind its parenthesis. -/
theorem Placed.start_of_leaf (h : g.Placed lexemes pos) {s s' : Span} {a : Symbol}
    (hclose : g.close s pos = .ok (.text s' a)) : s'.start = g.opened + 1 := by
  obtain ⟨u, halternative, hgroup⟩ := Outcome.bind_eq_ok.mp hclose
  have hparts := Tree.eq_of_altOf_eq_text (Except.ok.inj hgroup)
  rw [List.reverse_eq_iff] at hparts
  obtain ⟨rfl, hnone⟩ := List.cons.inj hparts
  have hterms : g.terms = [.text s' a] := by
    unfold Frame.alternative at halternative
    split at halternative
    · cases halternative
    · exact List.reverse_eq_iff.mp (Tree.eq_of_catOf_eq_text (Except.ok.inj halternative))
  have hfirst := h.first
  rw [hterms] at hfirst
  exact hfirst.trans (h.only hnone)

/-- The parentheses around a leaf do not change the piece that it stands for. -/
theorem Placed.filled_group (h : g.Placed lexemes pos) {s : Span} (hclose : g.close s pos = .ok u)
    (stop : Nat) : (u.withSpan ⟨g.opened, stop⟩).filled lexemes = u.filled lexemes := by
  refine Tree.mapLeaves_withSpan u _ fun s' a hu => ?_
  rw [hu] at hclose
  simp only [Lexeme.leaf?_of_paren h.paren, h.start_of_leaf hclose]

end Frame

/-- A step in the innermost frame. -/
theorem Mirrored.step {f f' g g' : Frame} {outer outer' : List Frame} {pos pos' : Nat}
    (h : Mirrored lexemes pos f outer g outer')
    (hmirrors : f.Mirrors lexemes g → f'.Mirrors lexemes g')
    (hplaced : g.Placed lexemes pos → g'.Placed lexemes pos') (hopened : g'.opened = g.opened) :
    Mirrored lexemes pos' f' outer g' outer' := by
  cases h with
  | root h => exact .root (hmirrors h)
  | group h hp houter => exact .group (hmirrors h) (hplaced hp) (hopened ▸ houter)

theorem Mirrored.mirrors {f g : Frame} {outer outer' : List Frame} {pos : Nat}
    (h : Mirrored lexemes pos f outer g outer') : f.Mirrors lexemes g := by
  cases h with
  | root h => exact h
  | group h _ _ => exact h

/-- A term in the innermost frame, read at `n` in the text with placeholders. -/
theorem Mirrored.push {f g : Frame} {outer outer' : List Frame} {n : Nat} {t u : Tree}
    (h : Mirrored lexemes n f outer g outer') (htu : t.bare = u.filled lexemes)
    (hu : u.span.start = n) (pos : Nat) :
    Mirrored lexemes pos (f.push t) outer (g.push u) outer' :=
  h.step (fun hm => hm.push htu) (fun hp => hp.push hu pos) rfl

/-- A byte that keeps its meaning does the same in both texts, if what follows it does. -/
theorem read_single_alike {b : UInt8} (hb : b ≠ Ascii.backslash ∧ b ≠ Ascii.caret) {n pos : Nat}
    {f g : Frame} {outer outer' : List Frame} {rest rest' : List UInt8}
    (hn : lexemes[n]? = some (.single b)) (hsymbols : (Lexeme.single b).symbols? = none)
    (h : Mirrored lexemes n f outer g outer')
    (hrest : ∀ f g outer outer', Mirrored lexemes (n + 1) f outer g outer' →
      Alike (fun t u => t.bare = u.filled lexemes) (read (pos + 1) f outer rest)
        (read (n + 1) g outer' rest')) :
    Alike (fun t u => t.bare = u.filled lexemes) (read pos f outer (b :: rest))
      (read n g outer' (b :: rest')) := by
  rw [read_cons _ _ _ hb.1, read_cons _ _ _ hb.1]
  by_cases hopen : b = Ascii.openParen
  · subst hopen
    exact hrest _ _ _ _ (.group ⟨rfl, rfl⟩ (Frame.placed_fresh hn) h)
  · rw [if_neg hopen, if_neg hopen]
    split
    · -- The group becomes a term of the frame around it.
      refine (h.mirrors.close _ _ _ _).bind fun t u hclose htu => ?_
      cases h with
      | root _ => exact .error rfl (by simp)
      | group _ hplaced houter =>
          refine hrest _ _ _ _ (houter.push ?_ (by simp) _)
          rw [Tree.bare_withSpan, htu, hplaced.filled_group hclose]
    · split
      · refine (h.mirrors.bar _ _).bind fun next next' hbar hmirrors => ?_
        exact hrest _ _ _ _ (h.step (fun _ => hmirrors) (fun hp => hp.bar hbar)
          (Frame.opened_bar hbar))
      · split
        · refine (h.mirrors.applyPostfix _ _ _).bind fun next next' hpost hmirrors => ?_
          exact hrest _ _ _ _ (h.step (fun _ => hmirrors) (fun hp => hp.applyPostfix hpost _)
            (opened_applyPostfix hpost))
        · rw [if_neg hb.2, if_neg hb.2]
          refine hrest _ _ _ _ (h.push ?_ rfl _)
          rw [Tree.filled_text hn (by simpa using hopen), hsymbols]
          rfl

/-- The pieces that are left, read in both texts. The invariant is that the frames mirror each
other; the index of the next piece is the offset in the text with placeholders. -/
theorem read_alike {letter : UInt8} (hletter : letter ∉ reserved) (done rest : List Lexeme)
    (hlexemes : done ++ rest = lexemes) (hlegal : ∀ x ∈ rest, x.token.Legal) {pos : Nat}
    {f g : Frame} {outer outer' : List Frame}
    (h : Mirrored lexemes done.length f outer g outer') :
    Alike (fun t u => t.bare = u.filled lexemes)
      (read pos f outer (rest.flatMap fun x => x.token.expansion))
      (read done.length g outer' (rest.map (Lexeme.placeholder letter))) := by
  induction rest generalizing done pos f g outer outer' with
  | nil =>
      cases h with
      | root h => exact h.close _ _ _ _
      | group h _ _ => exact (h.alternative _ _).bind fun _ _ _ _ => .error rfl (by simp)
  | cons x rest ih =>
      have hx : lexemes[done.length]? = some x := by
        rw [← hlexemes]
        simp
      have hrest : ∀ pos f g outer outer', Mirrored lexemes (done.length + 1) f outer g outer' →
          Alike (fun t u => t.bare = u.filled lexemes)
            (read pos f outer (rest.flatMap fun x => x.token.expansion))
            (read (done.length + 1) g outer' (rest.map (Lexeme.placeholder letter))) := by
        intro pos f g outer outer' h
        have hlength : done.length + 1 = (done ++ [x]).length := by simp
        rw [hlength] at h ⊢
        exact ih (done ++ [x]) (by simpa using hlexemes)
          (fun y hy => hlegal y (List.mem_cons_of_mem x hy)) h
      rw [List.flatMap_cons, List.map_cons]
      cases hsymbols : x.symbols? with
      | some as =>
          have hne : x ≠ .single Ascii.openParen := by
            rintro rfl
            cases hsymbols
          obtain ⟨stop, t, ht, hread⟩ := read_token (hlegal x List.mem_cons_self)
            (x.symbols?_token.trans hsymbols) pos f outer _
          rw [hread, Lexeme.placeholder_of_symbols? hsymbols, read_literal _ _ _ hletter]
          refine hrest _ _ _ _ _ (h.push ?_ rfl _)
          rw [ht, Tree.filled_text hx hne, hsymbols]
          rfl
      | none =>
          obtain ⟨b, rfl, htoken, hplace⟩ := Lexeme.eq_single_of_symbols? hsymbols
          have hb := hlegal _ List.mem_cons_self
          rw [htoken] at hb
          rw [htoken, hplace, Token.expansion, List.singleton_append]
          exact read_single_alike hb hx hsymbols h (hrest _)

end Parser

/-! ### Patterns -/

theorem Dialect.bytes_eq_of_split {pattern : String} {d : Dialect}
    (hd : Dialect.expand pattern = .ok d) {lexemes : List Lexeme}
    (hsplit : Lexeme.Split pattern.toUTF8.toList lexemes) :
    d.bytes = lexemes.flatMap (fun x => x.token.expansion) ∧ ∀ x ∈ lexemes, x.token.Legal := by
  obtain ⟨tokens, htokens, heq⟩ := Outcome.bind_eq_ok.mp hd
  cases heq
  have hplaced := Except.ok.inj (htokens.symm.trans (hsplit.readAll_eq 0))
  refine ⟨Dialect.bytes_of_tokensAt hplaced, ?_⟩
  intro x hx
  have hmem : x.token ∈ tokens.map Prod.snd := by
    rw [hplaced, Lexeme.map_snd_tokensAt]
    exact List.mem_map_of_mem hx
  obtain ⟨entry, hentry, heq⟩ := List.mem_map.mp hmem
  exact heq ▸ Token.legal_readAll htokens entry hentry

theorem Dialect.parse_alike {pattern : String} {d : Dialect}
    (hd : Dialect.expand pattern = .ok d) {lexemes : List Lexeme}
    (hsplit : Lexeme.Split pattern.toUTF8.toList lexemes) {letter : UInt8}
    (hletter : letter ∉ Parser.reserved) :
    Alike (fun t u => t.bare = u.filled lexemes) (Parser.parse d.bytes)
      (Parser.parse (lexemes.map (Lexeme.placeholder letter))) := by
  obtain ⟨hbytes, hlegal⟩ := Dialect.bytes_eq_of_split hd hsplit
  rw [hbytes, Parser.parse_eq_read, Parser.parse_eq_read]
  exact Parser.read_alike hletter [] lexemes rfl hlegal (.root ⟨rfl, rfl⟩)

/-- A pattern that can be expanded is cut into escapes, classes and single bytes. However it is cut,
its expanded form is parsed just as the text that has one letter in the place of each escape, class
and closing bracket: both are accepted, and the trees agree once the letters are replaced by the
symbols of the pieces, or both are refused for the same cause, which is never an escape at the
end. -/
theorem expansion_parses_like_placeholders {pattern : String} {d : Dialect}
    (hd : Dialect.expand pattern = .ok d) {letter : UInt8} (hletter : letter ∉ Parser.reserved) :
    (∃ lexemes, Lexeme.Split pattern.toUTF8.toList lexemes) ∧
    (∀ lexemes, Lexeme.Split pattern.toUTF8.toList lexemes →
      d.bytes = lexemes.flatMap (fun x => x.token.expansion) ∧
      ((∃ t, Parser.parse d.bytes = .ok t) ↔
        ∃ u, Parser.parse (lexemes.map (Lexeme.placeholder letter)) = .ok u) ∧
      (∀ t u, Parser.parse d.bytes = .ok t →
        Parser.parse (lexemes.map (Lexeme.placeholder letter)) = .ok u →
        t.bare = u.filled lexemes) ∧
      ∀ fault fault', Parser.parse d.bytes = .error fault →
        Parser.parse (lexemes.map (Lexeme.placeholder letter)) = .error fault' →
        fault.cause.unplaced = fault'.cause.unplaced) ∧
    ∀ offset, Parser.parse d.bytes ≠ .error ⟨.trailingEscape, offset⟩ ∧
      d.parse ≠ .error (.pattern ⟨.trailingEscape, offset⟩) := by
  obtain ⟨tokens, htokens, _⟩ := Outcome.bind_eq_ok.mp hd
  obtain ⟨lexemes, hsplit⟩ := Lexeme.exists_split htokens
  refine ⟨⟨lexemes, hsplit⟩, ?_, ?_⟩
  · intro other hother
    have halike := Dialect.parse_alike hd hother hletter
    refine ⟨(Dialect.bytes_eq_of_split hd hother).1, ?_⟩
    generalize Parser.parse d.bytes = x at halike ⊢
    generalize Parser.parse (other.map (Lexeme.placeholder letter)) = y at halike ⊢
    cases halike with
    | ok htu =>
        refine ⟨⟨fun _ => ⟨_, rfl⟩, fun _ => ⟨_, rfl⟩⟩, ?_, nofun⟩
        intro t u ht hu
        cases ht
        cases hu
        exact htu
    | error hcause _ =>
        refine ⟨⟨nofun, nofun⟩, nofun, ?_⟩
        intro fault fault' hfault hfault'
        cases hfault
        cases hfault'
        exact hcause
  · intro offset
    have hparse := (Dialect.parse_alike hd hsplit hletter).ne_trailingEscape
    refine ⟨hparse offset, ?_⟩
    unfold Dialect.parse
    split
    · exact nofun
    · rename_i fault hfault
      intro heq
      obtain ⟨cause, place⟩ := fault
      cases heq
      exact hparse place hfault

theorem starred_escape_parses_like_placeholders :
    ∃ d t u, Dialect.expand "(\\*)+[^a-c*]|]x" = .ok d ∧ Parser.parse d.bytes = .ok t ∧
      Parser.parse [40, 120, 41, 43, 120, 124, 120, 120] = .ok u ∧
      t.bare = u.filled [.single 40, .escape 42, .single 41, .single 43,
        .bracket true [.range 97 99, .single 42], .single 124, .single 93, .single 120] := by
  have hparses : (Dialect.expand "(\\*)+[^a-c*]|]x").toOption.any
      (fun d => (Parser.parse d.bytes).toOption.any fun _ => true) = true := by decide +kernel
  obtain ⟨d, hd, hd'⟩ := Outcome.exists_ok_of_any hparses
  obtain ⟨t, ht, _⟩ := Outcome.exists_ok_of_any hd'
  have hbytes : "(\\*)+[^a-c*]|]x".toUTF8.toList =
      [40, 92, 42, 41, 43, 91, 94, 97, 45, 99, 42, 93, 124, 93, 120] := by decide +kernel
  have hclass : ClassSplit [97, 45, 99, 42, 93, 124, 93, 120] [.range 97 99, .single 42]
      [124, 93, 120] := by
    refine .range (by decide) (by decide) (by decide)
      (.single (by decide) (by decide) ?_ (.close _))
    intro dash hi tail heq
    cases heq
    decide
  obtain ⟨_, hsplit, _⟩ := expansion_parses_like_placeholders hd
    (show (120 : UInt8) ∉ Parser.reserved by decide)
  obtain ⟨_, hiff, hfilled, _⟩ := hsplit
    [.single 40, .escape 42, .single 41, .single 43, .bracket true [.range 97 99, .single 42],
      .single 124, .single 93, .single 120]
    (hbytes ▸ .single (by decide) (.escape 42 (.single (by decide) (.single (by decide)
      (.bracket rfl hclass (by decide) (.single (by decide) (.single (by decide)
        (.single (by decide) .nil))))))))
  obtain ⟨u, hu⟩ := hiff.mp ⟨t, ht⟩
  exact ⟨d, t, u, hd, ht, hu, hfilled t u ht hu⟩

end PatternCircuit

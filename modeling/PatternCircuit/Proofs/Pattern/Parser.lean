import PatternCircuit.Proofs.Label
import PatternCircuit.Proofs.Pattern.Language
import PatternCircuit.Proofs.Pattern.Stack

/-! # Trees of patterns

Expansion and parsing put the negation marker in front of the members of a class and nowhere
else. -/

namespace PatternCircuit

/-! ### Tokens -/

namespace Token

/-- What the reader of a pattern makes sure of. -/
def Legal : Token → Prop
  | plain byte => byte ≠ Ascii.backslash ∧ byte ≠ Ascii.caret
  | control code => code ∉ operators
  | escaped _ => True
  | oneOf _ members => members ≠ []

theorem shorthand?_ne_nil {letter : UInt8} {members : List UInt8}
    (h : shorthand? letter = some members) : members ≠ [] := by
  unfold shorthand? at h
  split at h
  · cases h
    exact List.ne_nil_of_mem ((ByteSet.mem_interval 48 57 48).mpr (by decide))
  · split at h
    · cases h
      simp
    · split at h <;> cases h
      simp

theorem control?_notMem_operators {letter code : UInt8} (h : control? letter = some code) :
    code ∉ operators := by
  have hcode : code ∈ [10, 13, 9, 11, 12] := by
    unfold control? at h
    repeat' split at h
    all_goals cases h
    all_goals simp
  revert code
  simp only [List.mem_cons, List.not_mem_nil, or_false]
  rintro code _ (rfl | rfl | rfl | rfl | rfl) <;> decide

theorem legal_ofEscape (letter : UInt8) : (ofEscape letter).Legal := by
  unfold ofEscape
  split
  · rename_i hmembers
    exact shorthand?_ne_nil hmembers
  · split
    · rename_i hcode
      exact control?_notMem_operators hcode
    · trivial

theorem distinct_ne_nil {bytes : List UInt8} (h : bytes ≠ []) : distinct .empty bytes ≠ [] := by
  cases bytes with
  | nil => exact absurd rfl h
  | cons b rest => simp [distinct]

theorem legal_readClass {opened stop : Nat} {bytes rest : List UInt8} {token : Token}
    (h : readClass opened bytes = .ok (token, stop, rest)) : token.Legal := by
  obtain ⟨⟨members, st, rs⟩, _, he⟩ := Outcome.bind_eq_ok.mp h
  dsimp only at he
  split at he
  · cases he
  · rename_i hne
    cases he
    exact distinct_ne_nil (by simpa using hne)

/-- A byte that a reader does not take as the start of an escape. -/
theorem ne_backslash {byte : UInt8} {bytes : List UInt8}
    (hlast : byte = Ascii.backslash → bytes = [] → False)
    (hescape : ∀ letter rest, byte = Ascii.backslash → bytes = letter :: rest → False) :
    byte ≠ Ascii.backslash := by
  intro heq
  cases bytes with
  | nil => exact hlast heq rfl
  | cons letter rest => exact hescape letter rest heq rfl

theorem legal_readAll {pos : Nat} {bytes : List UInt8} {tokens : List (Nat × Token)}
    (h : readAll pos bytes = .ok tokens) : ∀ t ∈ tokens, t.2.Legal := by
  fun_induction readAll pos bytes generalizing tokens with
  | case1 =>
      cases h
      simp
  | case2 => cases h
  | case3 pos letter rest ih =>
      obtain ⟨rest, hrest, he⟩ := Outcome.bind_eq_ok.mp h
      cases he
      simpa [legal_ofEscape] using ih hrest
  | case4 => cases h
  | case5 pos rest token stop tail hclass _ ih =>
      obtain ⟨rest, hrest, he⟩ := Outcome.bind_eq_ok.mp h
      cases he
      simpa [legal_readClass hclass] using ih hrest
  | case6 => cases h
  | case7 pos rest ih =>
      obtain ⟨rest, hrest, he⟩ := Outcome.bind_eq_ok.mp h
      cases he
      simpa [Legal] using ih hrest
  | case8 pos byte bytes hlast hescape _ hcaret _ ih =>
      obtain ⟨rest, hrest, he⟩ := Outcome.bind_eq_ok.mp h
      cases he
      intro t ht
      rcases List.mem_cons.mp ht with rfl | ht
      · exact ⟨ne_backslash hlast hescape, hcaret⟩
      · exact ih hrest t ht

/-! ### Classes -/

theorem isRange_iff {lo dash hi : UInt8} : isRange lo dash hi = true ↔
    dash = Ascii.dash ∧ (Ascii.family? lo).isSome = true ∧ (Ascii.family? hi).isSome = true := by
  simp [isRange, and_assoc]

theorem rangeFault?_eq_none {lo hi : UInt8} {offset : Nat} : rangeFault? lo hi offset = none ↔
    Ascii.family? lo = Ascii.family? hi ∧ lo < hi := by
  unfold rangeFault?
  by_cases hsame : Ascii.family? lo = Ascii.family? hi
  · simp [hsame]
  · simp [hsame]

/-- A symbol as it is written in the dialect. -/
def spell : Symbol → List UInt8
  | .negate => [Ascii.caret]
  | .byte b => member b

/-- The symbols of a class. -/
def symbols (negated : Bool) (members : List UInt8) : List Symbol :=
  (if negated then [.negate] else []) ++ members.map .byte

theorem alternatives_eq (negated : Bool) (members : List UInt8) :
    alternatives negated members = (symbols negated members).map spell := by
  cases negated <;> simp [alternatives, symbols, spell, Function.comp_def]

end Token

/-! ### Reading the dialect -/

namespace Parser

open Token

/-- The bytes that do not stand for themselves in the dialect. -/
def reserved : List UInt8 :=
  [Ascii.openParen, Ascii.closeParen, Ascii.bar, Ascii.star, Ascii.plus, Ascii.question,
    Ascii.backslash, Ascii.caret]

theorem notMem_reserved {b : UInt8} (hb : b ∉ operators) : b ∉ reserved := by
  simp only [operators, reserved, List.mem_cons, List.not_mem_nil, or_false, not_or] at hb ⊢
  tauto

theorem read_literal (pos : Nat) (frame : Frame) (outer : List Frame) {b : UInt8}
    (hb : b ∉ reserved) (rest : List UInt8) : read pos frame outer (b :: rest) =
      read (pos + 1) (frame.push (.text ⟨pos, pos + 1⟩ (.byte b))) outer rest := by
  simp only [reserved, List.mem_cons, List.not_mem_nil, or_false, not_or] at hb
  rw [read_cons pos frame outer hb.2.2.2.2.2.2.1]
  simp [hb, isPostfix]

theorem read_spell (pos : Nat) (frame : Frame) (outer : List Frame) (a : Symbol)
    (rest : List UInt8) : ∃ stop span, read pos frame outer (spell a ++ rest) =
      read stop (frame.push (.text span a)) outer rest := by
  cases a with
  | negate => exact ⟨pos + 1, ⟨pos, pos + 1⟩, read_caret pos frame outer rest⟩
  | byte b =>
      by_cases hb : b ∈ operators
      · refine ⟨pos + 2, ⟨pos, pos + 2⟩, ?_⟩
        have hspell : spell (.byte b) = [Ascii.backslash, b] := by simp [spell, member, hb]
        rw [hspell]
        exact read_escaped pos frame outer b rest
      · refine ⟨pos + 1, ⟨pos, pos + 1⟩, ?_⟩
        have hspell : spell (.byte b) = [b] := by simp [spell, member, hb]
        rw [hspell]
        exact read_literal pos frame outer (notMem_reserved hb) rest

/-! ### Reading a class -/

/-- Leaves for the given symbols. -/
def Leaves (trees : List Tree) (symbols : List Symbol) : Prop :=
  List.Forall₂ (fun t a => ∃ span, t = .text span a) trees symbols

/-- Reading the alternatives of a class up to its closing parenthesis. -/
theorem read_alternatives (symbols : List Symbol) (hne : symbols ≠ []) (pos : Nat)
    (f : Frame) (hterms : f.terms = []) (parent : Frame) (outer : List Frame)
    (rest : List UInt8) : ∃ stop span span' trees, Leaves trees symbols ∧
      read pos f (parent :: outer)
          (List.intercalate [Ascii.bar] (symbols.map spell) ++ Ascii.closeParen :: rest) =
        read stop
          (parent.push ((Tree.altOf span (f.alternatives.reverse ++ trees)).withSpan span'))
          outer rest := by
  induction symbols generalizing pos f with
  | nil => exact absurd rfl hne
  | cons a symbols ih =>
      have halternative : ∀ span stop, (f.push (.text span a)).alternative stop =
          .ok (.text span a) := by
        intro span stop
        simp [Frame.alternative, Frame.push, hterms, Tree.catOf]
      cases symbols with
      | nil =>
          obtain ⟨stop, span, hread⟩ :=
            read_spell pos f (parent :: outer) a (Ascii.closeParen :: rest)
          have hclose : (f.push (.text span a)).close ⟨f.opened, stop + 1⟩ stop =
              .ok (.altOf ⟨f.opened, stop + 1⟩ (f.alternatives.reverse ++ [.text span a])) := by
            rw [Frame.close, halternative, ← List.reverse_cons]
            rfl
          refine ⟨stop + 1, ⟨f.opened, stop + 1⟩, ⟨f.opened, stop + 1⟩, [.text span a],
            .cons ⟨span, rfl⟩ .nil, ?_⟩
          rw [List.map_singleton, List.intercalate_singleton, hread]
          exact read_close hclose parent outer rest
      | cons b symbols =>
          obtain ⟨stop, span, hread⟩ :=
            read_spell pos f (parent :: outer) a
              (Ascii.bar :: (List.intercalate [Ascii.bar] ((b :: symbols).map spell) ++
                Ascii.closeParen :: rest))
          have hbar : (f.push (.text span a)).bar stop =
              .ok ⟨f.opened, .text span a :: f.alternatives, stop + 1, []⟩ := by
            rw [Frame.bar, halternative]
            rfl
          obtain ⟨stop', whole, whole', trees, hleaves, hrest⟩ := ih (by simp) (stop + 1)
            ⟨f.opened, .text span a :: f.alternatives, stop + 1, []⟩ rfl
          refine ⟨stop', whole, whole', .text span a :: trees, .cons ⟨span, rfl⟩ hleaves, ?_⟩
          rw [List.map_cons, List.map_cons, List.intercalate_cons_cons, ← List.map_cons,
            List.append_assoc, List.append_assoc, List.singleton_append, hread,
            read_bar hbar, hrest]
          simp

/-- The tree of a class. -/
def ClassTree (negated : Bool) (members : List UInt8) (t : Tree) : Prop :=
  ∃ span span' trees, Leaves trees (symbols negated members) ∧
    t = (Tree.altOf span trees).withSpan span'

theorem read_oneOf (negated : Bool) {members : List UInt8} (hne : members ≠ []) (pos : Nat)
    (frame : Frame) (outer : List Frame) (rest : List UInt8) :
    ∃ stop t, ClassTree negated members t ∧
      read pos frame outer ((oneOf negated members).expansion ++ rest) =
        read stop (frame.push t) outer rest := by
  have hsymbols : symbols negated members ≠ [] := by simp [symbols, hne]
  obtain ⟨stop, span, span', trees, hleaves, hread⟩ :=
    read_alternatives (symbols negated members) hsymbols (pos + 1) (.fresh pos (pos + 1)) rfl frame
      outer rest
  refine ⟨stop, _, ⟨span, span', trees, hleaves, rfl⟩, ?_⟩
  rw [expansion, alternatives_eq, List.cons_append, List.append_assoc, List.singleton_append,
    read_open, hread]
  rfl

theorem Leaves.literals {trees : List Tree} {bytes : List UInt8}
    (h : Leaves trees (bytes.map .byte)) : ∀ t ∈ trees, ∃ s b, t = .text s (.byte b) := by
  induction bytes generalizing trees with
  | nil =>
      cases h
      simp
  | cons b bytes ih =>
      cases h with
      | cons hhead htail =>
          obtain ⟨s, rfl⟩ := hhead
          simpa using ih htail

end Parser

/-! ### Properties kept by the parser -/

namespace Tree

@[simp] theorem span_withSpan (t : Tree) (s : Span) : (t.withSpan s).span = s := by
  cases t <;> rfl

/-- A property that larger trees inherit from their parts. -/
structure Closed (P : Tree → Prop) : Prop where
  empty : ∀ s, P (.empty s)
  cat : ∀ s {parts : List Tree}, parts ≠ [] → (∀ t ∈ parts, P t) → P (.cat s parts)
  alt : ∀ s {parts : List Tree}, parts ≠ [] → (∀ t ∈ parts, P t) → P (.alt s parts)
  star : ∀ s (body : Tree), P body → P (.star s body)
  withSpan : ∀ (t : Tree) s, P t → P (t.withSpan s)

namespace Closed

variable {P : Tree → Prop}

theorem catOf (hP : Closed P) (s : Span) {parts : List Tree} (hne : parts ≠ [])
    (h : ∀ t ∈ parts, P t) : P (Tree.catOf s parts) := by
  unfold Tree.catOf
  split
  · exact h _ List.mem_cons_self
  · exact hP.cat s hne h

theorem altOf (hP : Closed P) (s : Span) {parts : List Tree} (hne : parts ≠ [])
    (h : ∀ t ∈ parts, P t) : P (Tree.altOf s parts) := by
  unfold Tree.altOf
  split
  · exact h _ List.mem_cons_self
  · exact hP.alt s hne h

theorem postfixed (hP : Closed P) (operator : UInt8) (pos : Nat) {t : Tree} (h : P t) :
    P (Parser.postfixed operator pos t) := by
  unfold Parser.postfixed
  simp only
  split
  · exact hP.star _ t h
  · split
    · exact hP.cat _ (by simp) (by simpa using ⟨h, hP.star _ t h⟩)
    · exact hP.alt _ (by simp) (by simpa using ⟨h, hP.empty _⟩)

end Closed

theorem closed_shaped (negation : Prop) : Closed (Shaped negation) where
  empty := .empty
  cat s _ hne hparts := .cat s hne hparts
  alt s _ hne hparts := .alt s hne hparts
  star := .star
  withSpan t s h := by
    cases h with
    | empty _ => exact .empty s
    | literal _ b => exact .literal s b
    | cat _ hne hparts => exact .cat s hne hparts
    | alt _ hne hparts => exact .alt s hne hparts
    | outside _ marker hneg hmembers => exact .outside s marker hneg hmembers
    | star _ body hbody => exact .star s body hbody

end Tree

namespace Parser

/-- All trees read so far have a property. -/
structure Frame.All (P : Tree → Prop) (f : Frame) : Prop where
  terms : ∀ t ∈ f.terms, P t
  alternatives : ∀ t ∈ f.alternatives, P t

namespace Frame

variable {P : Tree → Prop} {f next : Frame} {pos : Nat} {t : Tree}

theorem all_fresh (opened start : Nat) : (fresh opened start).All P :=
  ⟨by simp [fresh], by simp [fresh]⟩

theorem All.push (h : f.All P) (ht : P t) : (f.push t).All P where
  terms t' ht' := by
    rcases List.mem_cons.mp ht' with rfl | ht'
    · exact ht
    · exact h.terms t' ht'
  alternatives := h.alternatives

theorem All.alternative (hP : Tree.Closed P) (h : f.All P) (ht : f.alternative pos = .ok t) :
    P t := by
  unfold Frame.alternative at ht
  split at ht
  · cases ht
  · rename_i hne
    cases ht
    exact hP.catOf _ (by simpa using hne) (by simpa using h.terms)

theorem All.bar (hP : Tree.Closed P) (h : f.All P) (hbar : f.bar pos = .ok next) :
    next.All P := by
  obtain ⟨t, ht, hnext⟩ := Outcome.bind_eq_ok.mp hbar
  cases hnext
  refine ⟨by simp, ?_⟩
  intro t' ht'
  rcases List.mem_cons.mp ht' with rfl | ht'
  · exact h.alternative hP ht
  · exact h.alternatives t' ht'

theorem All.close (hP : Tree.Closed P) (h : f.All P) {span : Span}
    (hclose : f.close span pos = .ok t) : P t := by
  obtain ⟨last, hlast, hgroup⟩ := Outcome.bind_eq_ok.mp hclose
  cases hgroup
  apply hP.altOf span (by simp)
  intro t' ht'
  rw [List.mem_reverse] at ht'
  rcases List.mem_cons.mp ht' with rfl | ht'
  · exact h.alternative hP hlast
  · exact h.alternatives t' ht'

theorem All.applyPostfix (hP : Tree.Closed P) (h : f.All P) {operator : UInt8}
    (hpost : applyPostfix operator pos f = .ok next) : next.All P := by
  unfold Parser.applyPostfix at hpost
  split at hpost
  · cases hpost
  · rename_i t rest hterms
    cases hpost
    refine ⟨?_, h.alternatives⟩
    intro t' ht'
    rcases List.mem_cons.mp ht' with rfl | ht'
    · exact hP.postfixed operator pos (h.terms t (by simp [hterms]))
    · exact h.terms t' (by simp [hterms, ht'])

end Frame

end Parser

/-! ### Shapes -/

namespace Parser

open Token

variable {negation : Prop}

theorem ClassTree.shaped {negated : Bool} {members : List UInt8} {t : Tree}
    (h : ClassTree negated members t) (hne : members ≠ []) (hneg : negated = true → negation) :
    t.Shaped negation := by
  obtain ⟨span, span', trees, hleaves, rfl⟩ := h
  refine (Tree.closed_shaped negation).withSpan _ span' ?_
  cases negated with
  | true =>
      cases hleaves with
      | cons hmarker hrest =>
          obtain ⟨marker, rfl⟩ := hmarker
          have hliterals := Leaves.literals hrest
          have hlength := hrest.length_eq
          have hpos := List.length_pos_iff.mpr hne
          unfold Tree.altOf
          split
          · rename_i heq
            cases heq
            simp at hlength
            omega
          · exact .outside span marker (hneg rfl) hliterals
  | false =>
      have hliterals := Leaves.literals hleaves
      have hlength := hleaves.length_eq
      have hpos := List.length_pos_iff.mpr hne
      refine (Tree.closed_shaped negation).altOf span ?_ ?_
      · rintro rfl
        simp [symbols] at hlength
        omega
      · intro t ht
        obtain ⟨s, b, rfl⟩ := hliterals t ht
        exact .literal s b

/-- The tree of a sequence of tokens, read behind shaped trees, is shaped. -/
theorem shaped_read (tokens : List Token) (hlegal : ∀ t ∈ tokens, t.Legal)
    (hneg : ∀ members, oneOf true members ∈ tokens → negation) {pos : Nat} {f : Frame}
    {outer : List Frame} (hf : f.All (Tree.Shaped negation))
    (houter : ∀ g ∈ outer, g.All (Tree.Shaped negation)) {t : Tree}
    (h : read pos f outer (tokens.flatMap expansion) = .ok t) : t.Shaped negation := by
  have hclosed := Tree.closed_shaped negation
  induction tokens generalizing pos f outer with
  | nil =>
      cases outer with
      | nil => exact hf.close hclosed h
      | cons g outer =>
          obtain ⟨_, _, herror⟩ := Outcome.bind_eq_ok.mp h
          cases herror
  | cons token tokens ih =>
      have hlegal' : ∀ t ∈ tokens, t.Legal := fun t ht => hlegal t (by simp [ht])
      have hneg' : ∀ members, oneOf true members ∈ tokens → negation :=
        fun members hm => hneg members (by simp [hm])
      have hread := fun pos f outer => @ih hlegal' hneg' pos f outer
      rw [List.flatMap_cons] at h
      cases token with
      | plain b =>
          obtain ⟨hbackslash, hcaret⟩ := hlegal _ List.mem_cons_self
          rw [expansion, List.singleton_append, read_cons _ _ _ hbackslash, if_neg hcaret] at h
          split at h
          · refine hread _ _ _ (Frame.all_fresh _ _) ?_ h
            intro g hg
            rcases List.mem_cons.mp hg with rfl | hg
            · exact hf
            · exact houter g hg
          · split at h
            · obtain ⟨group, hclose, hnext⟩ := Outcome.bind_eq_ok.mp h
              cases outer with
              | nil => cases hnext
              | cons parent outer =>
                  refine hread _ _ _ ?_ (fun g hg => houter g (by simp [hg])) hnext
                  have hgroup := hf.close hclosed hclose
                  exact (houter parent (by simp)).push (hclosed.withSpan _ _ hgroup)
            · split at h
              · obtain ⟨next, hbar, hnext⟩ := Outcome.bind_eq_ok.mp h
                exact hread _ _ _ (hf.bar hclosed hbar) houter hnext
              · split at h
                · obtain ⟨next, hpost, hnext⟩ := Outcome.bind_eq_ok.mp h
                  exact hread _ _ _ (hf.applyPostfix hclosed hpost) houter hnext
                · exact hread _ _ _ (hf.push (.literal _ b)) houter h
      | control code =>
          rw [expansion, List.singleton_append,
            read_literal _ _ _ (notMem_reserved (hlegal _ List.mem_cons_self))] at h
          exact hread _ _ _ (hf.push (.literal _ code)) houter h
      | escaped b => exact hread _ _ _ (hf.push (.literal _ b)) houter h
      | oneOf negated members =>
          have hne : members ≠ [] := hlegal _ List.mem_cons_self
          obtain ⟨stop, tree, hclass, heq⟩ := read_oneOf negated hne pos f outer _
          rw [heq] at h
          refine hread _ _ _ (hf.push (hclass.shaped hne ?_)) houter h
          rintro rfl
          exact hneg members List.mem_cons_self

end Parser

/-- The tree of a pattern; it holds the marker only if the pattern has a negated class. -/
theorem Tree.shaped_ofPattern {pattern : String} {d : Dialect} {t : Tree}
    (hd : Dialect.expand pattern = .ok d) (ht : d.parse = .ok t) :
    t.Shaped (∃ offset members, (offset, Token.oneOf true members) ∈ d.tokens) := by
  have hlegal : ∀ token ∈ d.tokens, token.2.Legal := by
    obtain ⟨tokens, htokens, heq⟩ := Outcome.bind_eq_ok.mp hd
    cases heq
    exact Token.legal_readAll htokens
  have hparse : Parser.read 0 (.fresh 0 0) [] ((d.tokens.map Prod.snd).flatMap Token.expansion) =
      .ok t := by
    rw [List.flatMap_map]
    unfold Dialect.parse at ht
    split at ht
    · rename_i hok
      cases ht
      exact (Parser.parse_eq_read _).symm.trans hok
    · cases ht
  refine Parser.shaped_read _ ?_ ?_ (Parser.Frame.all_fresh 0 0) (by simp) hparse
  · intro token htoken
    obtain ⟨entry, hentry, rfl⟩ := List.mem_map.mp htoken
    exact hlegal entry hentry
  · intro members hmembers
    obtain ⟨entry, hentry, heq⟩ := List.mem_map.mp hmembers
    exact ⟨entry.1, members, heq ▸ hentry⟩

/-- The tree of a pattern without negated classes does not hold the marker. -/
theorem Tree.shaped_of_no_negation {pattern : String} {d : Dialect} {t : Tree}
    (hd : Dialect.expand pattern = .ok d) (ht : d.parse = .ok t)
    (hneg : ∀ offset members, (offset, Token.oneOf true members) ∉ d.tokens) : t.Shaped False := by
  refine (Tree.shaped_ofPattern hd ht).mono fun hnegated => ?_
  obtain ⟨offset, members, hmem⟩ := hnegated
  exact hneg offset members hmem

end PatternCircuit

import PatternCircuit.Proofs.Pattern.Parser

/-! # The grammar of the dialect

Derivations of the grammar, one type for each of its symbols. A text has at most one derivation:
which production comes next can be told from the next byte. -/

namespace PatternCircuit.Grammar

/-! ### Derivations -/

/-- One of the operators `*`, `+` and `?`. -/
inductive Postfix where
  | star
  | plus
  | question
deriving DecidableEq

mutual

/-- One or more sequences, separated by bars. -/
inductive Choice where
  | last (sequence : Sequence)
  | bar (sequence : Sequence) (rest : Choice)

/-- One or more terms. -/
inductive Sequence where
  | last (term : Term)
  | cons (term : Term) (rest : Sequence)

/-- An atom followed by operators. -/
inductive Term where
  | mk (atom : Atom) (operators : List Postfix)

/-- A byte that stands for itself, an escaped byte, the marker or a choice in parentheses. -/
inductive Atom where
  | literal (byte : UInt8) (free : byte ∉ Parser.reserved)
  | escaped (byte : UInt8)
  | marker
  | group (content : Choice)

end

def Postfix.byte : Postfix → UInt8
  | star => Ascii.star
  | plus => Ascii.plus
  | question => Ascii.question

mutual

/-- The text that a derivation derives. -/
def Choice.text : Choice → List UInt8
  | .last sequence => sequence.text
  | .bar sequence rest => sequence.text ++ Ascii.bar :: rest.text

def Sequence.text : Sequence → List UInt8
  | .last term => term.text
  | .cons term rest => term.text ++ rest.text

def Term.text : Term → List UInt8
  | .mk atom operators => atom.text ++ operators.map Postfix.byte

def Atom.text : Atom → List UInt8
  | .literal byte _ => [byte]
  | .escaped byte => [Ascii.backslash, byte]
  | .marker => [Ascii.caret]
  | .group content => Ascii.openParen :: (content.text ++ [Ascii.closeParen])

end

/-! ### Desugaring -/

/-- What an operator that ends before `stop` makes of the tree before it. -/
def Postfix.apply (stop : Nat) (t : Tree) : Postfix → Tree
  | star => .star ⟨t.span.start, stop⟩ t
  | plus => .cat ⟨t.span.start, stop⟩ [t, .star ⟨t.span.start, stop⟩ t]
  | question => .alt ⟨t.span.start, stop⟩ [t, .empty ⟨t.span.start, stop⟩]

/-- The operators from `pos` on, applied one after the other. -/
def Postfix.applyAll (pos : Nat) (t : Tree) : List Postfix → Tree
  | [] => t
  | operator :: rest => applyAll (pos + 1) (operator.apply (pos + 1) t) rest

mutual

/-- The trees of the sequences of a choice that starts at `pos`. -/
def Choice.trees (pos : Nat) : Choice → List Tree
  | .last sequence => [.catOf ⟨pos, pos + sequence.text.length⟩ (sequence.trees pos)]
  | .bar sequence rest =>
      .catOf ⟨pos, pos + sequence.text.length⟩ (sequence.trees pos) ::
        rest.trees (pos + sequence.text.length + 1)

/-- The trees of the terms of a sequence that starts at `pos`. -/
def Sequence.trees (pos : Nat) : Sequence → List Tree
  | .last term => [term.tree pos]
  | .cons term rest => term.tree pos :: rest.trees (pos + term.text.length)

def Term.tree (pos : Nat) : Term → Tree
  | .mk atom operators => Postfix.applyAll (pos + atom.text.length) (atom.tree pos) operators

/-- The tree of an atom at `pos`. That of a group takes in the parentheses. -/
def Atom.tree (pos : Nat) : Atom → Tree
  | .literal byte _ => .text ⟨pos, pos + 1⟩ (.byte byte)
  | .escaped byte => .text ⟨pos, pos + 2⟩ (.byte byte)
  | .marker => .text ⟨pos, pos + 1⟩ .negate
  | .group content =>
      (Tree.altOf ⟨pos, pos + content.text.length + 2⟩ (content.trees (pos + 1))).withSpan
        ⟨pos, pos + content.text.length + 2⟩

end

/-- The tree of a whole text. -/
def Choice.tree (c : Choice) : Tree := .altOf ⟨0, c.text.length⟩ (c.trees 0)

theorem Choice.trees_ne_nil (c : Choice) (pos : Nat) : c.trees pos ≠ [] := by
  cases c <;> simp [Choice.trees]

theorem Sequence.trees_ne_nil (s : Sequence) (pos : Nat) : s.trees pos ≠ [] := by
  cases s <;> simp [Sequence.trees]

/-! ### Unambiguity -/

/-- The first byte of a text, if there is one, is among the given ones. -/
def LedBy (bytes : List UInt8) (rest : List UInt8) : Prop := ∀ b ∈ rest.head?, b ∈ bytes

/-- The bytes that no term starts with. -/
def closers : List UInt8 :=
  [Ascii.closeParen, Ascii.bar, Ascii.star, Ascii.plus, Ascii.question]

theorem Postfix.byte_injective : Function.Injective Postfix.byte := by
  intro p q h
  cases p <;> cases q <;> first | rfl | exact absurd h (by decide)

theorem Postfix.byte_mem_closers (p : Postfix) : p.byte ∈ closers := by
  cases p <;> decide

/-- Operators are read up to the first byte that is none. -/
theorem operators_append_inj {ps qs : List Postfix} {r r' : List UInt8}
    (hr : ∀ p : Postfix, r.head? ≠ some p.byte) (hr' : ∀ p : Postfix, r'.head? ≠ some p.byte)
    (h : ps.map Postfix.byte ++ r = qs.map Postfix.byte ++ r') : ps = qs ∧ r = r' := by
  induction ps generalizing qs with
  | nil =>
      cases qs with
      | nil => exact ⟨rfl, h⟩
      | cons q qs => exact absurd (congrArg List.head? h) (hr q)
  | cons p ps ih =>
      cases qs with
      | nil => exact absurd (congrArg List.head? h).symm (hr' p)
      | cons q qs =>
          obtain ⟨hbyte, hrest⟩ := List.cons.inj h
          obtain ⟨rfl, rfl⟩ := ih hrest
          exact ⟨by rw [Postfix.byte_injective hbyte], rfl⟩

theorem Atom.exists_head (a : Atom) : ∃ b u, a.text = b :: u ∧ b ∉ closers := by
  cases a with
  | literal b free =>
      refine ⟨b, [], by rw [Atom.text], fun hmem => free ?_⟩
      simp only [closers, Parser.reserved, List.mem_cons, List.not_mem_nil, or_false] at hmem ⊢
      tauto
  | escaped b => exact ⟨_, _, by rw [Atom.text], by decide⟩
  | marker => exact ⟨_, _, by rw [Atom.text], by decide⟩
  | group content => exact ⟨_, _, by rw [Atom.text], by decide⟩

theorem Term.exists_head (t : Term) : ∃ b u, t.text = b :: u ∧ b ∉ closers := by
  obtain ⟨atom, operators⟩ := t
  obtain ⟨b, u, htext, hb⟩ := atom.exists_head
  exact ⟨b, u ++ operators.map Postfix.byte, by rw [Term.text, htext, List.cons_append], hb⟩

theorem Sequence.exists_head (s : Sequence) : ∃ b u, s.text = b :: u ∧ b ∉ closers := by
  cases s with
  | last term =>
      obtain ⟨b, u, htext, hb⟩ := term.exists_head
      exact ⟨b, u, by rw [Sequence.text, htext], hb⟩
  | cons term rest =>
      obtain ⟨b, u, htext, hb⟩ := term.exists_head
      exact ⟨b, u ++ rest.text, by rw [Sequence.text, htext, List.cons_append], hb⟩

theorem LedBy.head?_ne {bytes rest : List UInt8} (h : LedBy bytes rest) {b : UInt8}
    (hb : b ∉ bytes) : rest.head? ≠ some b := fun heq => hb (h b heq)

/-- No operator follows what starts a sequence or stands behind one. -/
theorem Sequence.head?_ne_operator (s : Sequence) (r : List UInt8) (p : Postfix) :
    (s.text ++ r).head? ≠ some p.byte := by
  obtain ⟨b, u, htext, hb⟩ := s.exists_head
  rw [htext]
  rintro ⟨⟩
  exact hb p.byte_mem_closers

theorem LedBy.head?_ne_operator {r : List UInt8} (h : LedBy [Ascii.bar, Ascii.closeParen] r)
    (p : Postfix) : r.head? ≠ some p.byte := h.head?_ne (by cases p <;> decide)

theorem Sequence.not_ledBy (s : Sequence) (r : List UInt8) :
    ¬LedBy [Ascii.bar, Ascii.closeParen] (s.text ++ r) := by
  obtain ⟨b, u, htext, hb⟩ := s.exists_head
  rw [htext]
  intro h
  have hmem := h b rfl
  simp only [closers, List.mem_cons, List.not_mem_nil, or_false] at hb hmem
  tauto

theorem LedBy.mono {bytes bytes' rest : List UInt8} (h : LedBy bytes rest)
    (hsub : bytes ⊆ bytes') : LedBy bytes' rest := fun b hb => hsub (h b hb)

mutual

/-- Behind a choice stands nothing or a closing parenthesis. -/
theorem Choice.text_append_inj (c c' : Choice) {r r' : List UInt8} (hr : LedBy [Ascii.closeParen] r)
    (hr' : LedBy [Ascii.closeParen] r') (h : c.text ++ r = c'.text ++ r') : c = c' ∧ r = r' := by
  have hbar : ∀ u, LedBy [Ascii.bar, Ascii.closeParen] (Ascii.bar :: u) := by
    rintro u b ⟨⟩
    exact List.mem_cons_self
  have hwide : [Ascii.closeParen] ⊆ [Ascii.bar, Ascii.closeParen] := by simp
  match c, c' with
  | .last s, .last s' =>
      rw [Choice.text, Choice.text] at h
      obtain ⟨rfl, hrest⟩ := s.text_append_inj s' (hr.mono hwide) (hr'.mono hwide) h
      exact ⟨rfl, hrest⟩
  | .last s, .bar s' rest' =>
      rw [Choice.text, Choice.text, List.append_assoc] at h
      obtain ⟨_, rfl⟩ := s.text_append_inj s' (hr.mono hwide) (hbar _) h
      exact absurd (hr Ascii.bar rfl) (by decide)
  | .bar s rest, .last s' =>
      rw [Choice.text, Choice.text, List.append_assoc] at h
      obtain ⟨_, rfl⟩ := s.text_append_inj s' (hbar _) (hr'.mono hwide) h
      exact absurd (hr' Ascii.bar rfl) (by decide)
  | .bar s rest, .bar s' rest' =>
      rw [Choice.text, Choice.text, List.append_assoc, List.append_assoc] at h
      obtain ⟨rfl, htail⟩ := s.text_append_inj s' (hbar _) (hbar _) h
      obtain ⟨rfl, hrest⟩ := rest.text_append_inj rest' hr hr' (List.cons.inj htail).2
      exact ⟨rfl, hrest⟩

/-- Behind a sequence stands nothing, a bar or a closing parenthesis. -/
theorem Sequence.text_append_inj (s s' : Sequence) {r r' : List UInt8}
    (hr : LedBy [Ascii.bar, Ascii.closeParen] r) (hr' : LedBy [Ascii.bar, Ascii.closeParen] r')
    (h : s.text ++ r = s'.text ++ r') : s = s' ∧ r = r' := by
  match s, s' with
  | .last t, .last t' =>
      rw [Sequence.text, Sequence.text] at h
      obtain ⟨rfl, hrest⟩ := t.text_append_inj t' hr.head?_ne_operator hr'.head?_ne_operator h
      exact ⟨rfl, hrest⟩
  | .last t, .cons t' rest' =>
      rw [Sequence.text, Sequence.text, List.append_assoc] at h
      obtain ⟨_, rfl⟩ := t.text_append_inj t' hr.head?_ne_operator
        (rest'.head?_ne_operator r') h
      exact absurd hr (rest'.not_ledBy r')
  | .cons t rest, .last t' =>
      rw [Sequence.text, Sequence.text, List.append_assoc] at h
      obtain ⟨_, rfl⟩ := t.text_append_inj t' (rest.head?_ne_operator r)
        hr'.head?_ne_operator h
      exact absurd hr' (rest.not_ledBy r)
  | .cons t rest, .cons t' rest' =>
      rw [Sequence.text, Sequence.text, List.append_assoc, List.append_assoc] at h
      obtain ⟨rfl, htail⟩ := t.text_append_inj t' (rest.head?_ne_operator r)
        (rest'.head?_ne_operator r') h
      obtain ⟨rfl, hrest⟩ := rest.text_append_inj rest' hr hr' htail
      exact ⟨rfl, hrest⟩

/-- Behind a term stands no operator. -/
theorem Term.text_append_inj (t t' : Term) {r r' : List UInt8}
    (hr : ∀ p : Postfix, r.head? ≠ some p.byte) (hr' : ∀ p : Postfix, r'.head? ≠ some p.byte)
    (h : t.text ++ r = t'.text ++ r') : t = t' ∧ r = r' := by
  match t, t' with
  | .mk atom ps, .mk atom' qs =>
      rw [Term.text, Term.text, List.append_assoc, List.append_assoc] at h
      obtain ⟨rfl, htail⟩ := atom.text_append_inj atom' h
      obtain ⟨rfl, hrest⟩ := operators_append_inj hr hr' htail
      exact ⟨rfl, hrest⟩

/-- An atom ends where it ends, whatever follows. -/
theorem Atom.text_append_inj (a a' : Atom) {r r' : List UInt8}
    (h : a.text ++ r = a'.text ++ r') : a = a' ∧ r = r' := by
  have hlead := congrArg List.head? h
  cases a with
  | literal b free =>
      cases a' with
      | literal b' free' =>
          obtain ⟨rfl, hrest⟩ := List.cons.inj h
          exact ⟨rfl, hrest⟩
      | _ => exact absurd (Option.some.inj hlead ▸ (by decide)) free
  | escaped b =>
      cases a' with
      | literal b' free' => exact absurd (Option.some.inj hlead ▸ (by decide)) free'
      | escaped b' =>
          obtain ⟨rfl, hrest⟩ := List.cons.inj (List.cons.inj h).2
          exact ⟨rfl, hrest⟩
      | _ => exact absurd (Option.some.inj hlead) (by decide)
  | marker =>
      cases a' with
      | literal b' free' => exact absurd (Option.some.inj hlead ▸ (by decide)) free'
      | marker => exact ⟨rfl, (List.cons.inj h).2⟩
      | _ => exact absurd (Option.some.inj hlead) (by decide)
  | group c =>
      cases a' with
      | literal b' free' => exact absurd (Option.some.inj hlead ▸ (by decide)) free'
      | group c' =>
          have hclose : ∀ u, LedBy [Ascii.closeParen] (Ascii.closeParen :: u) := by
            rintro u b ⟨⟩
            exact List.mem_cons_self
          rw [Atom.text, Atom.text, List.cons_append, List.cons_append, List.append_assoc,
            List.append_assoc] at h
          obtain ⟨rfl, hrest⟩ := c.text_append_inj c' (hclose _) (hclose _) (List.cons.inj h).2
          exact ⟨rfl, (List.cons.inj hrest).2⟩
      | _ => exact absurd (Option.some.inj hlead) (by decide)

end

/-- A text has at most one derivation. -/
theorem Choice.text_injective : Function.Injective Choice.text := by
  intro c c' h
  have hend : LedBy [Ascii.closeParen] [] := by
    rintro b ⟨⟩
  refine (c.text_append_inj c' hend hend ?_).1
  rw [h]

end PatternCircuit.Grammar

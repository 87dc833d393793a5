import PatternCircuit.Proofs.Pattern.Grammar

/-! # The parser reads its grammar

What the parser accepts are the texts that the grammar derives, and the tree is that of the
derivation. What it refuses, it refuses at a place of the text that shows the reason. -/

namespace PatternCircuit.Parser

open Grammar

/-! ### Reading a derivation -/

theorem read_operator (p : Postfix) (pos : Nat) (f : Frame) (t : Tree) (outer : List Frame)
    (rest : List UInt8) : read pos (f.push t) outer (p.byte :: rest) =
      read (pos + 1) (f.push (p.apply (pos + 1) t)) outer rest := by
  cases p <;> rfl

theorem read_operators (ps : List Postfix) (pos : Nat) (f : Frame) (t : Tree) (outer : List Frame)
    (rest : List UInt8) : read pos (f.push t) outer (ps.map Postfix.byte ++ rest) =
      read (pos + ps.length) (f.push (Postfix.applyAll pos t ps)) outer rest := by
  induction ps generalizing pos t with
  | nil => rfl
  | cons p ps ih =>
      rw [List.map_cons, List.cons_append, read_operator, ih, Postfix.applyAll, List.length_cons,
        Nat.add_assoc, Nat.add_comm 1]

mutual

/-- A choice is read into a frame that closes with its trees. -/
theorem read_choice (c : Choice) (f : Frame) (hterms : f.terms = []) (outer : List Frame)
    (rest : List UInt8) :
    ∃ g : Frame, g.opened = f.opened ∧
      (∀ span, g.close span (f.start + c.text.length) =
        .ok (.altOf span (f.alternatives.reverse ++ c.trees f.start))) ∧
      read f.start f outer (c.text ++ rest) = read (f.start + c.text.length) g outer rest := by
  match c with
  | .last s =>
      refine ⟨f.pushAll (s.trees f.start), rfl, fun span => ?_, ?_⟩
      · rw [Choice.text, Frame.close,
          Frame.alternative_pushAll hterms (s.trees_ne_nil f.start), Choice.trees,
          ← List.reverse_cons]
        rfl
      · rw [Choice.text]
        exact read_sequence s f.start f outer rest
  | .bar s c =>
      have hbar : (f.pushAll (s.trees f.start)).bar (f.start + s.text.length) =
          .ok ⟨f.opened, .catOf ⟨f.start, f.start + s.text.length⟩ (s.trees f.start) ::
            f.alternatives, f.start + s.text.length + 1, []⟩ := by
        rw [Frame.bar, Frame.alternative_pushAll hterms (s.trees_ne_nil f.start)]
        rfl
      obtain ⟨g, hopened, hclose, hread⟩ := read_choice c
        ⟨f.opened, .catOf ⟨f.start, f.start + s.text.length⟩ (s.trees f.start) ::
          f.alternatives, f.start + s.text.length + 1, []⟩ rfl outer rest
      have hlength : f.start + (Choice.bar s c).text.length =
          f.start + s.text.length + 1 + c.text.length := by
        rw [Choice.text, List.length_append, List.length_cons]
        omega
      refine ⟨g, hopened, fun span => ?_, ?_⟩
      · rw [hlength, hclose, Choice.trees]
        simp
      · rw [hlength, ← hread, Choice.text, List.append_assoc, List.cons_append, read_sequence s,
          read_bar hbar]

theorem read_sequence (s : Sequence) (pos : Nat) (f : Frame) (outer : List Frame)
    (rest : List UInt8) : read pos f outer (s.text ++ rest) =
      read (pos + s.text.length) (f.pushAll (s.trees pos)) outer rest := by
  match s with
  | .last t =>
      rw [Sequence.text, Sequence.trees]
      exact read_term t pos f outer rest
  | .cons t s =>
      rw [Sequence.text, Sequence.trees, List.append_assoc, read_term, read_sequence s,
        List.length_append, Nat.add_assoc]
      simp [Frame.pushAll, Frame.push]

theorem read_term (t : Term) (pos : Nat) (f : Frame) (outer : List Frame) (rest : List UInt8) :
    read pos f outer (t.text ++ rest) =
      read (pos + t.text.length) (f.push (t.tree pos)) outer rest := by
  match t with
  | .mk atom ps =>
      rw [Term.text, Term.tree, List.append_assoc, read_atom atom, read_operators,
        List.length_append, List.length_map, Nat.add_assoc]

theorem read_atom (a : Atom) (pos : Nat) (f : Frame) (outer : List Frame) (rest : List UInt8) :
    read pos f outer (a.text ++ rest) =
      read (pos + a.text.length) (f.push (a.tree pos)) outer rest := by
  match a with
  | .literal b free => exact read_literal pos f outer free rest
  | .escaped b => rfl
  | .marker => rfl
  | .group c =>
      obtain ⟨g, hopened, hclose, hread⟩ := read_choice c (.fresh pos (pos + 1)) rfl (f :: outer)
        (Ascii.closeParen :: rest)
      have hlength : pos + (Atom.group c).text.length = pos + 1 + c.text.length + 1 := by
        rw [Atom.text, List.length_cons, List.length_append, List.length_singleton]
        omega
      have hspan : pos + 1 + c.text.length + 1 = pos + c.text.length + 2 := by omega
      rw [hlength, Atom.tree, ← hspan, Atom.text, List.cons_append, List.append_assoc,
        List.singleton_append, read_open]
      refine hread.trans ((read_close (hclose _) f outer rest).trans ?_)
      rw [hopened]
      rfl

end

/-- A text that the grammar derives is read as the tree of its derivation. -/
theorem parse_text (c : Choice) : parse c.text = .ok c.tree := by
  obtain ⟨g, _, hclose, hread⟩ := read_choice c (.fresh 0 0) rfl [] []
  rw [List.append_nil] at hread
  rw [parse_eq_read]
  refine hread.trans ((hclose ⟨0, (Frame.fresh 0 0).start + c.text.length⟩).trans ?_)
  rw [Choice.tree]
  simp [Frame.fresh]

/-! ### Deriving what is read -/

theorem exists_sequence {terms : List Term} (hne : terms ≠ []) :
    ∃ s : Sequence, s.text = terms.flatMap Term.text := by
  induction terms with
  | nil => exact absurd rfl hne
  | cons t terms ih =>
      cases terms with
      | nil => exact ⟨.last t, by simp [Sequence.text]⟩
      | cons t' terms =>
          obtain ⟨s, hs⟩ := ih (by simp)
          exact ⟨.cons t s, by rw [Sequence.text, hs, ← List.flatMap_cons]⟩

theorem exists_choice (alternatives : List Sequence) (s : Sequence) :
    ∃ c : Choice, c.text =
      (alternatives.flatMap fun s => s.text ++ [Ascii.bar]) ++ s.text := by
  induction alternatives with
  | nil => exact ⟨.last s, by rw [Choice.text]; rfl⟩
  | cons first alternatives ih =>
      obtain ⟨c, hc⟩ := ih
      exact ⟨.bar first c, by simp [Choice.text, hc]⟩

/-- The frame has read a text of finished alternatives and further terms. -/
def Frame.Reads (f : Frame) (u : List UInt8) : Prop :=
  ∃ (alternatives : List Sequence) (terms : List Term),
    u = (alternatives.flatMap fun s => s.text ++ [Ascii.bar]) ++ terms.flatMap Term.text ∧
      (f.terms = [] ↔ terms = [])

namespace Frame

variable {f g : Frame} {u : List UInt8} {pos : Nat}

theorem reads_fresh (opened start : Nat) : (fresh opened start).Reads [] :=
  ⟨[], [], rfl, by simp [fresh]⟩

theorem Reads.push (h : f.Reads u) (a : Atom) (t : Tree) : (f.push t).Reads (u ++ a.text) := by
  obtain ⟨alternatives, terms, rfl, _⟩ := h
  refine ⟨alternatives, terms ++ [.mk a []], ?_, by simp [Frame.push]⟩
  simp [Term.text]

theorem Reads.operator (h : f.Reads u) (p : Postfix) (hpost : applyPostfix p.byte pos f = .ok g) :
    g.Reads (u ++ [p.byte]) := by
  obtain ⟨alternatives, terms, rfl, hnil⟩ := h
  unfold applyPostfix at hpost
  split at hpost
  · cases hpost
  · rename_i t rest hterms
    cases hpost
    -- The operator belongs to the last term.
    have hne : terms ≠ [] := fun heq => by simp [hnil.mpr heq] at hterms
    obtain ⟨before, last, rfl⟩ := List.eq_nil_or_concat terms |>.resolve_left hne
    obtain ⟨atom, ps⟩ := last
    refine ⟨alternatives, before ++ [.mk atom (ps ++ [p])], ?_, by simp⟩
    simp [Term.text]

theorem Reads.exists_sequence (h : f.Reads u) {t : Tree} (ht : f.alternative pos = .ok t) :
    ∃ (alternatives : List Sequence) (s : Sequence),
      u = (alternatives.flatMap fun s => s.text ++ [Ascii.bar]) ++ s.text := by
  obtain ⟨alternatives, terms, rfl, hnil⟩ := h
  unfold Frame.alternative at ht
  split at ht
  · cases ht
  · rename_i hne
    have hterms : terms ≠ [] := fun heq => hne (hnil.mpr heq)
    obtain ⟨s, hs⟩ := Parser.exists_sequence hterms
    exact ⟨alternatives, s, by rw [hs]⟩

theorem Reads.bar (h : f.Reads u) (hbar : f.bar pos = .ok g) : g.Reads (u ++ [Ascii.bar]) := by
  obtain ⟨t, ht, hg⟩ := Outcome.bind_eq_ok.mp hbar
  obtain ⟨alternatives, s, rfl⟩ := h.exists_sequence ht
  cases hg
  exact ⟨alternatives ++ [s], [], by simp, by simp⟩

theorem Reads.close (h : f.Reads u) {span : Span} {t : Tree} (hclose : f.close span pos = .ok t) :
    ∃ c : Choice, c.text = u := by
  obtain ⟨last, hlast, _⟩ := Outcome.bind_eq_ok.mp hclose
  obtain ⟨alternatives, s, rfl⟩ := h.exists_sequence hlast
  exact exists_choice alternatives s

end Frame

/-- The text read so far, given what the frames have read, the innermost last. -/
def enclosed : List (List UInt8) → List UInt8 → List UInt8
  | [], u => u
  | v :: outer, u => enclosed outer (v ++ Ascii.openParen :: u)

theorem enclosed_append (texts : List (List UInt8)) (u w : List UInt8) :
    enclosed texts (u ++ w) = enclosed texts u ++ w := by
  induction texts generalizing u with
  | nil => rfl
  | cons v texts ih =>
      rw [enclosed, enclosed, ← ih, List.append_assoc, List.cons_append]

theorem exists_operator {b : UInt8} (h : isPostfix b = true) : ∃ p : Postfix, p.byte = b := by
  simp only [isPostfix, Bool.or_eq_true, decide_eq_true_eq] at h
  rcases h with (rfl | rfl) | rfl
  · exact ⟨.star, rfl⟩
  · exact ⟨.plus, rfl⟩
  · exact ⟨.question, rfl⟩

/-- A text that is read to its end is derived by the grammar. -/
theorem exists_derivation_of_read {pos : Nat} {f : Frame} {outer : List Frame}
    {bytes u : List UInt8} {texts : List (List UInt8)} {t : Tree} (hf : f.Reads u)
    (houter : List.Forall₂ Frame.Reads outer texts) (h : read pos f outer bytes = .ok t) :
    ∃ c : Choice, c.text = enclosed texts u ++ bytes := by
  -- What has been read moves from the rest of the text into the innermost frame.
  have hmove : ∀ {texts : List (List UInt8)} {u w rest : List UInt8},
      (∃ c : Choice, c.text = enclosed texts (u ++ w) ++ rest) →
      ∃ c : Choice, c.text = enclosed texts u ++ (w ++ rest) := by
    intro texts u w rest hc
    rwa [enclosed_append, List.append_assoc] at hc
  fun_induction read pos f outer bytes generalizing u texts with
  | case1 pos f =>
      cases houter
      obtain ⟨c, hc⟩ := hf.close h
      exact ⟨c, by rw [hc, enclosed, List.append_nil]⟩
  | case2 =>
      obtain ⟨_, _, herror⟩ := Outcome.bind_eq_ok.mp h
      cases herror
  | case3 => cases h
  | case4 pos f outer b rest ih => exact hmove (ih (hf.push (.escaped b) _) houter h)
  | case5 pos f outer rest _ _ ih =>
      obtain ⟨c, hc⟩ := ih (Frame.reads_fresh _ _) (.cons hf houter) h
      refine ⟨c, hc.trans ?_⟩
      rw [enclosed, enclosed_append, List.append_assoc, List.singleton_append]
  | case6 pos f outer rest _ _ _ ih =>
      obtain ⟨group, hclose, hnext⟩ := Outcome.bind_eq_ok.mp h
      obtain ⟨content, rfl⟩ := hf.close hclose
      cases houter with
      | nil => cases hnext
      | @cons parent v outer texts hparent houter =>
          obtain ⟨c, hc⟩ := ih group parent outer (hparent.push (.group content) _) houter hnext
          refine ⟨c, hc.trans ?_⟩
          rw [enclosed, Atom.text, ← List.cons_append, ← List.append_assoc, enclosed_append,
            List.append_assoc, List.singleton_append]
  | case7 pos f outer rest _ _ _ _ ih =>
      obtain ⟨next, hbar, hnext⟩ := Outcome.bind_eq_ok.mp h
      exact hmove (ih next (hf.bar hbar) houter hnext)
  | case8 pos f outer b rest _ _ _ _ _ hoperator ih =>
      obtain ⟨next, hpost, hnext⟩ := Outcome.bind_eq_ok.mp h
      obtain ⟨p, rfl⟩ := exists_operator hoperator
      exact hmove (ih next (hf.operator p hpost) houter hnext)
  | case9 pos f outer rest _ _ _ _ _ _ ih => exact hmove (ih (hf.push .marker _) houter h)
  | case10 pos f outer b rest hlast hescape hopen hclose hbar hoperator hcaret ih =>
      have hbackslash := Token.ne_backslash hlast hescape
      have hfree : b ∉ reserved := by
        simp only [isPostfix, Bool.or_eq_true, decide_eq_true_eq, not_or] at hoperator
        simp only [reserved, List.mem_cons, List.not_mem_nil, or_false, not_or]
        tauto
      exact hmove (ih (hf.push (.literal b hfree) _) houter h)

/-- What the parser accepts is derived by the grammar. -/
theorem exists_derivation {d : List UInt8} {t : Tree} (h : parse d = .ok t) :
    ∃ c : Choice, c.text = d :=
  exists_derivation_of_read (Frame.reads_fresh 0 0) .nil ((parse_eq_read d).symm.trans h)

end PatternCircuit.Parser

/-! ### Sequences and choices have several parts -/

namespace PatternCircuit.Tree

/-- Every sequence and every choice in the tree has at least two parts. -/
inductive Branching : Tree → Prop where
  | empty (s : Span) : Branching (.empty s)
  | text (s : Span) (a : Symbol) : Branching (.text s a)
  | cat (s : Span) {parts : List Tree} :
      2 ≤ parts.length → (∀ t ∈ parts, Branching t) → Branching (.cat s parts)
  | alt (s : Span) {parts : List Tree} :
      2 ≤ parts.length → (∀ t ∈ parts, Branching t) → Branching (.alt s parts)
  | star (s : Span) (body : Tree) : Branching body → Branching (.star s body)

namespace Branching

theorem catOf (s : Span) {parts : List Tree} (hne : parts ≠ []) (h : ∀ t ∈ parts, Branching t) :
    Branching (Tree.catOf s parts) := by
  match parts with
  | [] => exact absurd rfl hne
  | [t] => exact h t (by simp)
  | t :: t' :: parts => exact .cat s (by simp) h

theorem altOf (s : Span) {parts : List Tree} (hne : parts ≠ []) (h : ∀ t ∈ parts, Branching t) :
    Branching (Tree.altOf s parts) := by
  match parts with
  | [] => exact absurd rfl hne
  | [t] => exact h t (by simp)
  | t :: t' :: parts => exact .alt s (by simp) h

theorem withSpan {t : Tree} (h : Branching t) (s : Span) : Branching (t.withSpan s) := by
  cases h with
  | empty _ => exact .empty s
  | text _ a => exact .text s a
  | cat _ htwo hparts => exact .cat s htwo hparts
  | alt _ htwo hparts => exact .alt s htwo hparts
  | star _ body hbody => exact .star s body hbody

theorem apply {t : Tree} (h : Branching t) (p : Grammar.Postfix) (stop : Nat) :
    Branching (p.apply stop t) := by
  cases p with
  | star => exact .star _ t h
  | plus => exact .cat _ (Nat.le_refl 2) (by simpa using ⟨h, .star _ t h⟩)
  | question => exact .alt _ (Nat.le_refl 2) (by simpa using ⟨h, .empty _⟩)

theorem applyAll {t : Tree} (h : Branching t) (ps : List Grammar.Postfix) (pos : Nat) :
    Branching (Grammar.Postfix.applyAll pos t ps) := by
  induction ps generalizing pos t with
  | nil => exact h
  | cons p ps ih => exact ih (h.apply p (pos + 1)) (pos + 1)

end Branching

end PatternCircuit.Tree

namespace PatternCircuit.Grammar

mutual

theorem Choice.branching (c : Choice) (pos : Nat) : ∀ t ∈ c.trees pos, t.Branching := by
  match c with
  | .last s =>
      intro t ht
      rw [Choice.trees, List.mem_singleton] at ht
      rw [ht]
      exact .catOf _ (s.trees_ne_nil pos) (s.branching pos)
  | .bar s c =>
      intro t ht
      rw [Choice.trees, List.mem_cons] at ht
      rcases ht with rfl | ht
      · exact .catOf _ (s.trees_ne_nil pos) (s.branching pos)
      · exact c.branching _ t ht

theorem Sequence.branching (s : Sequence) (pos : Nat) : ∀ t ∈ s.trees pos, t.Branching := by
  match s with
  | .last term =>
      intro t ht
      rw [Sequence.trees, List.mem_singleton] at ht
      rw [ht]
      exact term.branching pos
  | .cons term rest =>
      intro t ht
      rw [Sequence.trees, List.mem_cons] at ht
      rcases ht with rfl | ht
      · exact term.branching pos
      · exact rest.branching _ t ht

theorem Term.branching (t : Term) (pos : Nat) : (t.tree pos).Branching := by
  match t with
  | .mk atom ps =>
      rw [Term.tree]
      exact (atom.branching pos).applyAll ps _

theorem Atom.branching (a : Atom) (pos : Nat) : (a.tree pos).Branching := by
  match a with
  | .literal b _ => exact .text _ _
  | .escaped b => exact .text _ _
  | .marker => exact .text _ _
  | .group c =>
      rw [Atom.tree]
      exact (Tree.Branching.altOf _ (c.trees_ne_nil _) (c.branching _)).withSpan _

end

end PatternCircuit.Grammar

/-! ### Refused texts -/

namespace PatternCircuit

/-- The text shows the cause of the fault at its offset. -/
def PatternFault.ShownBy (d : List UInt8) (fault : PatternFault) : Prop :=
  match fault.cause with
  | .emptyAlternative =>
      d[fault.offset]? ∈ [none, some Ascii.bar, some Ascii.closeParen]
  | .unmatchedClose => d[fault.offset]? = some Ascii.closeParen
  | .missingClose opened => fault.offset = d.length ∧ d[opened]? = some Ascii.openParen
  | .danglingPostfix operator =>
      d[fault.offset]? = some operator ∧ ∃ p : Grammar.Postfix, p.byte = operator
  | .trailingEscape => d[fault.offset]? = some Ascii.backslash ∧ fault.offset + 1 = d.length
  | _ => False

namespace Parser

open Grammar

theorem Frame.eq_of_alternative_error {f : Frame} {pos : Nat} {fault : PatternFault}
    (h : f.alternative pos = .error fault) : fault = ⟨.emptyAlternative, pos⟩ := by
  unfold Frame.alternative at h
  split at h
  · cases h
    rfl
  · cases h

theorem Frame.eq_of_close_error {f : Frame} {span : Span} {pos : Nat} {fault : PatternFault}
    (h : f.close span pos = .error fault) : fault = ⟨.emptyAlternative, pos⟩ :=
  Frame.eq_of_alternative_error (Outcome.eq_error_of_bind (fun _ => ⟨_, rfl⟩) h)

theorem Frame.eq_of_bar_error {f : Frame} {pos : Nat} {fault : PatternFault}
    (h : f.bar pos = .error fault) : fault = ⟨.emptyAlternative, pos⟩ :=
  Frame.eq_of_alternative_error (Outcome.eq_error_of_bind (fun _ => ⟨_, rfl⟩) h)

theorem eq_of_applyPostfix_error {f : Frame} {operator : UInt8} {pos : Nat} {fault : PatternFault}
    (h : applyPostfix operator pos f = .error fault) : fault = ⟨.danglingPostfix operator, pos⟩ := by
  unfold applyPostfix at h
  split at h
  · cases h
    rfl
  · cases h

/-- Every frame but the outermost is that of a parenthesis in the text. -/
def OpenedIn (d : List UInt8) : Frame → List Frame → Prop
  | _, [] => True
  | f, parent :: outer => d[f.opened]? = some Ascii.openParen ∧ OpenedIn d parent outer

theorem OpenedIn.of_opened_eq {d : List UInt8} {f g : Frame} {outer : List Frame}
    (h : OpenedIn d f outer) (heq : g.opened = f.opened) : OpenedIn d g outer := by
  cases outer with
  | nil => trivial
  | cons parent outer => exact ⟨heq ▸ h.1, h.2⟩

/-- A fault is found at a place that shows it. -/
theorem shown_of_read {d u bytes : List UInt8} {pos : Nat} {f : Frame} {outer : List Frame}
    {fault : PatternFault} (hd : u ++ bytes = d) (hpos : u.length = pos)
    (hopened : OpenedIn d f outer) (h : read pos f outer bytes = .error fault) :
    fault.offset ≤ d.length ∧ fault.ShownBy d := by
  have hplace : ∀ {u bytes : List UInt8} {pos : Nat}, u ++ bytes = d → u.length = pos →
      d.length = pos + bytes.length ∧ d[pos]? = bytes.head? := by
    rintro u bytes _ hd rfl
    rw [← hd, List.length_append, List.getElem?_append_right (Nat.le_refl _), Nat.sub_self,
      List.head?_eq_getElem?]
    exact ⟨rfl, rfl⟩
  fun_induction read pos f outer bytes generalizing u with
  | case1 pos f =>
      obtain ⟨hlength, hhead⟩ := hplace hd hpos
      rw [Frame.eq_of_close_error h]
      exact ⟨hlength.ge, by simp [PatternFault.ShownBy, hhead]⟩
  | case2 pos f parent outer =>
      obtain ⟨hlength, hhead⟩ := hplace hd hpos
      rcases Outcome.bind_eq_error.mp h with herror | ⟨_, _, hmissing⟩
      · rw [Frame.eq_of_alternative_error herror]
        exact ⟨hlength.ge, by simp [PatternFault.ShownBy, hhead]⟩
      · cases hmissing
        exact ⟨hlength.ge, hlength.symm, hopened.1⟩
  | case3 pos f outer =>
      obtain ⟨hlength, hhead⟩ := hplace hd hpos
      cases h
      exact ⟨Nat.le.intro hlength.symm, hhead, hlength.symm⟩
  | case4 pos f outer b rest ih =>
      exact ih (u := u ++ [Ascii.backslash, b]) (by simpa using hd) (by simp [hpos])
        (hopened.of_opened_eq rfl) h
  | case5 pos f outer rest _ _ ih =>
      obtain ⟨_, hhead⟩ := hplace hd hpos
      exact ih (u := u ++ [Ascii.openParen]) (by simpa using hd) (by simp [hpos])
        ⟨hhead, hopened⟩ h
  | case6 pos f outer rest _ _ _ ih =>
      obtain ⟨hlength, hhead⟩ := hplace hd hpos
      rcases Outcome.bind_eq_error.mp h with herror | ⟨group, _, hnext⟩
      · rw [Frame.eq_of_close_error herror]
        exact ⟨Nat.le.intro hlength.symm, by simp [PatternFault.ShownBy, hhead]⟩
      · cases outer with
        | nil =>
            cases hnext
            exact ⟨Nat.le.intro hlength.symm, hhead⟩
        | cons parent outer =>
            exact ih group parent outer (u := u ++ [Ascii.closeParen])
              (by simpa using hd) (by simp [hpos]) (hopened.2.of_opened_eq rfl) hnext
  | case7 pos f outer rest _ _ _ _ ih =>
      obtain ⟨hlength, hhead⟩ := hplace hd hpos
      rcases Outcome.bind_eq_error.mp h with herror | ⟨next, hbar, hnext⟩
      · rw [Frame.eq_of_bar_error herror]
        exact ⟨Nat.le.intro hlength.symm, by simp [PatternFault.ShownBy, hhead]⟩
      · exact ih next (u := u ++ [Ascii.bar]) (by simpa using hd) (by simp [hpos])
          (hopened.of_opened_eq (Frame.opened_bar hbar)) hnext
  | case8 pos f outer b rest _ _ _ _ _ hoperator ih =>
      obtain ⟨hlength, hhead⟩ := hplace hd hpos
      rcases Outcome.bind_eq_error.mp h with herror | ⟨next, hpost, hnext⟩
      · rw [eq_of_applyPostfix_error herror]
        exact ⟨Nat.le.intro hlength.symm, hhead, exists_operator hoperator⟩
      · exact ih next (u := u ++ [b]) (by simpa using hd) (by simp [hpos])
          (hopened.of_opened_eq (opened_applyPostfix hpost)) hnext
  | case9 pos f outer rest _ _ _ _ _ _ ih =>
      exact ih (u := u ++ [Ascii.caret]) (by simpa using hd) (by simp [hpos])
        (hopened.of_opened_eq rfl) h
  | case10 pos f outer b rest hlast hescape hopen hclose hbar hoperator hcaret ih =>
      exact ih (u := u ++ [b]) (by simpa using hd) (by simp [hpos])
        (hopened.of_opened_eq rfl) h

/-- The parser accepts the texts that the grammar derives. The derivation is unique and its
desugaring is the tree, in which every sequence and choice has several parts. Any other text is
refused for one of five causes, which the text shows at the offset of the fault; the two fallbacks
of the descent are never reached. -/
theorem parse_iff_unique_derivation (d : List UInt8) :
    (∀ t, parse d = .ok t ↔
      ∃ c : Choice, c.text = d ∧ (∀ c' : Choice, c'.text = d → c' = c) ∧ c.tree = t) ∧
    (∀ t, parse d = .ok t → t.Branching) ∧
    ∀ fault, parse d = .error fault → fault.offset ≤ d.length ∧ fault.ShownBy d ∧
      fault.cause ≠ .unexpectedEnd ∧ (∀ byte, fault.cause ≠ .unexpected byte) ∧
      (fault.cause.message = "empty alternative" ∨ fault.cause.message = "unmatched ')'" ∨
        fault.cause.message = "trailing escape" ∨
        (∃ opened : Nat, fault.cause.message = s!"missing ')' for '(' at {opened}") ∨
        ∃ p : Postfix,
          fault.cause.message = s!"dangling postfix operator '{Ascii.toChar p.byte}'") := by
  have hparse : ∀ t, parse d = .ok t ↔
      ∃ c : Choice, c.text = d ∧ (∀ c' : Choice, c'.text = d → c' = c) ∧ c.tree = t := by
    intro t
    constructor
    · intro h
      obtain ⟨c, rfl⟩ := exists_derivation h
      rw [parse_text] at h
      exact ⟨c, rfl, fun c' hc' => Choice.text_injective hc', Except.ok.inj h⟩
    · rintro ⟨c, rfl, _, rfl⟩
      exact parse_text c
  refine ⟨hparse, ?_, ?_⟩
  · intro t ht
    obtain ⟨c, _, _, rfl⟩ := (hparse t).mp ht
    exact .altOf _ (c.trees_ne_nil 0) (c.branching 0)
  · intro fault hfault
    obtain ⟨hoffset, hshown⟩ : fault.offset ≤ d.length ∧ fault.ShownBy d := by
      rw [parse_eq_read] at hfault
      refine shown_of_read (d := d) (u := []) rfl rfl ?_ hfault
      trivial
    obtain ⟨cause, offset⟩ := fault
    refine ⟨hoffset, hshown, ?_, ?_, ?_⟩
    · rintro rfl
      exact hshown
    · rintro byte rfl
      exact hshown
    cases cause with
    | emptyAlternative => exact .inl rfl
    | unmatchedClose => exact .inr (.inl rfl)
    | trailingEscape => exact .inr (.inr (.inl rfl))
    | missingClose opened => exact .inr (.inr (.inr (.inl ⟨opened, rfl⟩)))
    | danglingPostfix operator =>
        obtain ⟨_, p, rfl⟩ := hshown
        exact .inr (.inr (.inr (.inr ⟨p, rfl⟩)))
    | bareCaret | unterminatedClass | emptyClass | unexpected | unexpectedEnd => exact hshown.elim

end Parser

end PatternCircuit

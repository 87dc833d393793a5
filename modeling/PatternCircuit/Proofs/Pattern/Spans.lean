import Mathlib.Data.List.Induction
import PatternCircuit.Proofs.Pattern.Parsing

/-! # Spans of a parsed text

The tree of a text spans the whole of it, the spans of its nodes are nested, and the bytes under
each of them are a text of the grammar again, which is read as the same node. A group spans its
parentheses, and what an operator adds to the tree spans the whole term, so that no span is empty. -/

namespace PatternCircuit

/-! ### Spans and nodes -/

namespace Span

/-- The first span lies in the second. -/
def Within (inner outer : Span) : Prop := outer.start ≤ inner.start ∧ inner.stop ≤ outer.stop

/-- The bytes of a text under a span. -/
def bytes (s : Span) (d : List UInt8) : List UInt8 := d.extract s.start s.stop

/-- The span by so many bytes further on. -/
def moved (k : Nat) (s : Span) : Span := ⟨s.start + k, s.stop + k⟩

theorem moved_of_length (k pos length : Nat) :
    moved k ⟨pos, pos + length⟩ = ⟨pos + k, pos + k + length⟩ := by
  rw [moved, Nat.add_right_comm]

theorem Within.refl (s : Span) : s.Within s := ⟨Nat.le_refl _, Nat.le_refl _⟩

theorem Within.trans {r s t : Span} (h : r.Within s) (h' : s.Within t) : r.Within t :=
  ⟨Nat.le_trans h'.1 h.1, Nat.le_trans h.2 h'.2⟩

theorem start_lt_stop_of_bytes {s : Span} {d : List UInt8} (h : s.bytes d ≠ []) :
    s.start < s.stop := by
  by_contra hle
  refine h ?_
  rw [bytes, List.extract_eq_take_drop, Nat.sub_eq_zero_of_le (Nat.le_of_not_lt hle),
    List.take_zero]

end Span

namespace Tree

/-- The nodes directly below the root. -/
def children : Tree → List Tree
  | empty _ | text _ _ => []
  | cat _ parts | alt _ parts => parts
  | star _ body => [body]

/-- The nodes of a tree, each with what is below it. -/
inductive HasNode : Tree → Tree → Prop where
  | root (t : Tree) : HasNode t t
  | child {t child node : Tree} : child ∈ t.children → HasNode child node → HasNode t node

/-- The node is the root, or it is what `+` or `?` added to the operand to make the root. -/
inductive AtTop : Tree → Tree → Prop where
  | root (t : Tree) : AtTop t t
  | repeated (s : Span) (body : Tree) : AtTop (.cat s [body, .star s body]) (.star s body)
  | skipped (s : Span) (body : Tree) : AtTop (.alt s [body, .empty s]) (.empty s)

mutual

/-- The tree with all its spans by so many bytes further on. -/
def moved (k : Nat) : Tree → Tree
  | empty s => empty (s.moved k)
  | text s a => text (s.moved k) a
  | cat s parts => cat (s.moved k) (movedAll k parts)
  | alt s parts => alt (s.moved k) (movedAll k parts)
  | star s body => star (s.moved k) (moved k body)

def movedAll (k : Nat) : List Tree → List Tree
  | [] => []
  | t :: rest => moved k t :: movedAll k rest

end

@[simp] theorem children_withSpan (t : Tree) (s : Span) : (t.withSpan s).children = t.children := by
  cases t <;> rfl

/-- The tree is a node over the parts, or the single part itself. -/
def Joins (s : Span) (parts : List Tree) (t : Tree) : Prop :=
  parts = [t] ∨ t.span = s ∧ t.children = parts

theorem joins_catOf (s : Span) (parts : List Tree) : Joins s parts (catOf s parts) := by
  unfold catOf
  split
  · exact .inl rfl
  · exact .inr ⟨rfl, rfl⟩

theorem joins_altOf (s : Span) (parts : List Tree) : Joins s parts (altOf s parts) := by
  unfold altOf
  split
  · exact .inl rfl
  · exact .inr ⟨rfl, rfl⟩

theorem Joins.span_eq {s : Span} {parts : List Tree} {t : Tree} (h : Joins s parts t)
    (hsingle : ∀ part, parts = [part] → part.span = s) : t.span = s := by
  cases h with
  | inl hpart => exact hsingle t hpart
  | inr hnode => exact hnode.1

/-! ### Moved trees -/

theorem span_moved (k : Nat) (t : Tree) : (t.moved k).span = t.span.moved k := by
  cases t <;> simp [moved, span]

theorem moved_catOf (k : Nat) (s : Span) (parts : List Tree) :
    (catOf s parts).moved k = catOf (s.moved k) (movedAll k parts) := by
  match parts with
  | [] => simp [catOf, moved, movedAll]
  | [t] => simp [catOf, movedAll]
  | t :: t' :: parts => simp [catOf, moved, movedAll]

theorem moved_altOf (k : Nat) (s : Span) (parts : List Tree) :
    (altOf s parts).moved k = altOf (s.moved k) (movedAll k parts) := by
  match parts with
  | [] => simp [altOf, moved, movedAll]
  | [t] => simp [altOf, movedAll]
  | t :: t' :: parts => simp [altOf, moved, movedAll]

theorem moved_withSpan (k : Nat) (t : Tree) (s : Span) :
    (t.withSpan s).moved k = (t.moved k).withSpan (s.moved k) := by
  cases t <;> simp [withSpan, moved]

end Tree

namespace Grammar

theorem Postfix.moved_apply (p : Postfix) (k stop : Nat) (t : Tree) :
    (p.apply stop t).moved k = p.apply (stop + k) (t.moved k) := by
  cases p <;> simp [Postfix.apply, Tree.moved, Tree.movedAll, Tree.span_moved, Span.moved]

theorem Postfix.moved_applyAll (ps : List Postfix) (k pos : Nat) (t : Tree) :
    (applyAll pos t ps).moved k = applyAll (pos + k) (t.moved k) ps := by
  induction ps generalizing pos t with
  | nil => rfl
  | cons p ps ih => rw [applyAll, ih, moved_apply, Nat.add_right_comm, applyAll]

mutual

/-- The trees of a choice further on are the same ones, moved. -/
theorem Choice.movedAll_trees (c : Choice) (k pos : Nat) :
    Tree.movedAll k (c.trees pos) = c.trees (pos + k) := by
  match c with
  | .last s =>
      rw [Choice.trees, Choice.trees, Tree.movedAll, Tree.movedAll, Tree.moved_catOf,
        Span.moved_of_length, s.movedAll_trees]
  | .bar s rest =>
      rw [Choice.trees, Choice.trees, Tree.movedAll, Tree.moved_catOf, Span.moved_of_length,
        s.movedAll_trees, rest.movedAll_trees, Nat.add_right_comm _ 1 k,
        Nat.add_right_comm pos s.text.length k]

theorem Sequence.movedAll_trees (s : Sequence) (k pos : Nat) :
    Tree.movedAll k (s.trees pos) = s.trees (pos + k) := by
  match s with
  | .last t => rw [Sequence.trees, Sequence.trees, Tree.movedAll, Tree.movedAll, t.moved_tree]
  | .cons t rest =>
      rw [Sequence.trees, Sequence.trees, Tree.movedAll, t.moved_tree, rest.movedAll_trees,
        Nat.add_right_comm]

theorem Term.moved_tree (t : Term) (k pos : Nat) : (t.tree pos).moved k = t.tree (pos + k) := by
  match t with
  | .mk atom ps =>
      rw [Term.tree, Term.tree, Postfix.moved_applyAll, atom.moved_tree, Nat.add_right_comm]

theorem Atom.moved_tree (a : Atom) (k pos : Nat) : (a.tree pos).moved k = a.tree (pos + k) := by
  match a with
  | .literal b free => simp only [Atom.tree, Tree.moved, Span.moved_of_length]
  | .escaped b => simp only [Atom.tree, Tree.moved, Span.moved_of_length]
  | .marker => simp only [Atom.tree, Tree.moved, Span.moved_of_length]
  | .group c =>
      simp only [Atom.tree, Tree.moved_withSpan, Tree.moved_altOf, c.movedAll_trees, Nat.add_assoc,
        Span.moved_of_length, Nat.add_comm 1 k]

end

/-! ### Spans of derivations -/

theorem Postfix.span_apply (p : Postfix) (stop : Nat) (t : Tree) :
    (p.apply stop t).span = ⟨t.span.start, stop⟩ := by
  cases p <;> rfl

theorem Postfix.applyAll_concat (ps : List Postfix) (p : Postfix) (pos : Nat) (t : Tree) :
    applyAll pos t (ps ++ [p]) = p.apply (pos + ps.length + 1) (applyAll pos t ps) := by
  induction ps generalizing pos t with
  | nil => rfl
  | cons q ps ih =>
      rw [List.cons_append, applyAll, ih, applyAll, List.length_cons, Nat.add_right_comm pos 1,
        ← Nat.add_assoc pos]

theorem Postfix.span_applyAll (ps : List Postfix) {start pos : Nat} {t : Tree}
    (h : t.span = ⟨start, pos⟩) : (applyAll pos t ps).span = ⟨start, pos + ps.length⟩ := by
  induction ps using List.reverseRecOn with
  | nil => exact h
  | append_singleton ps p ih =>
      rw [applyAll_concat, span_apply, ih, List.length_append, List.length_singleton,
        Nat.add_assoc]

theorem Atom.span_tree (a : Atom) (pos : Nat) :
    (a.tree pos).span = ⟨pos, pos + a.text.length⟩ := by
  cases a with
  | literal b free => rfl
  | escaped b => rfl
  | marker => rfl
  | group c =>
      rw [Atom.tree, Tree.span_withSpan, Atom.text, List.length_cons, List.length_append,
        List.length_singleton, Nat.add_assoc]

theorem Term.span_tree (t : Term) (pos : Nat) :
    (t.tree pos).span = ⟨pos, pos + t.text.length⟩ := by
  obtain ⟨atom, ps⟩ := t
  rw [Term.tree, Postfix.span_applyAll ps (atom.span_tree pos), Term.text, List.length_append,
    List.length_map, Nat.add_assoc]

theorem Sequence.within_of_mem_trees (s : Sequence) (pos : Nat) :
    ∀ t ∈ s.trees pos, t.span.Within ⟨pos, pos + s.text.length⟩ := by
  match s with
  | .last term =>
      intro t ht
      rw [Sequence.trees, List.mem_singleton] at ht
      rw [ht, term.span_tree, Sequence.text]
      exact .refl _
  | .cons term rest =>
      intro t ht
      rw [Sequence.text, List.length_append, ← Nat.add_assoc]
      rw [Sequence.trees, List.mem_cons] at ht
      cases ht with
      | inl hfirst =>
          rw [hfirst, term.span_tree]
          exact ⟨Nat.le_refl _, Nat.le_add_right _ _⟩
      | inr hrest =>
          exact (rest.within_of_mem_trees _ t hrest).trans ⟨Nat.le_add_right _ _, Nat.le_refl _⟩

theorem Sequence.span_catOf (s : Sequence) (pos : Nat) :
    (Tree.catOf ⟨pos, pos + s.text.length⟩ (s.trees pos)).span = ⟨pos, pos + s.text.length⟩ := by
  apply (Tree.joins_catOf _ _).span_eq
  intro part hpart
  cases s with
  | last term =>
      rw [Sequence.trees] at hpart
      rw [← List.singleton_inj.mp hpart, term.span_tree, Sequence.text]
  | cons term rest =>
      rw [Sequence.trees] at hpart
      exact absurd (List.cons.inj hpart).2 (rest.trees_ne_nil _)

theorem Choice.within_of_mem_trees (c : Choice) (pos : Nat) :
    ∀ t ∈ c.trees pos, t.span.Within ⟨pos, pos + c.text.length⟩ := by
  match c with
  | .last s =>
      intro t ht
      rw [Choice.trees, List.mem_singleton] at ht
      rw [ht, s.span_catOf, Choice.text]
      exact .refl _
  | .bar s rest =>
      intro t ht
      have hlength : pos + (Choice.bar s rest).text.length =
          pos + s.text.length + 1 + rest.text.length := by
        rw [Choice.text, List.length_append, List.length_cons]
        omega
      rw [hlength]
      rw [Choice.trees, List.mem_cons] at ht
      cases ht with
      | inl hfirst =>
          rw [hfirst, s.span_catOf]
          exact ⟨Nat.le_refl _, by dsimp only; omega⟩
      | inr hrest =>
          exact (rest.within_of_mem_trees _ t hrest).trans
            ⟨by dsimp only; omega, Nat.le_refl _⟩

theorem Choice.span_tree (c : Choice) : c.tree.span = ⟨0, c.text.length⟩ := by
  apply (Tree.joins_altOf _ _).span_eq
  intro part hpart
  cases c with
  | last s =>
      rw [Choice.trees] at hpart
      rw [← List.singleton_inj.mp hpart, s.span_catOf, Choice.text, Nat.zero_add]
  | bar s rest =>
      rw [Choice.trees] at hpart
      exact absurd (List.cons.inj hpart).2 (rest.trees_ne_nil _)

/-! ### Readings of a text -/

/-- The word stands in the text at the offset. -/
def StandsAt (d : List UInt8) (pos : Nat) (w : List UInt8) : Prop := w <+: d.drop pos

/-- The bytes under the span of the tree, read on their own and in place, give the other tree. -/
def ReadsAs (d : List UInt8) (t whole : Tree) : Prop :=
  ∃ c : Choice, c.text = t.span.bytes d ∧ c.tree.moved t.span.start = whole

section StandsAt

variable {d w w' : List UInt8} {pos : Nat}

theorem StandsAt.left (h : StandsAt d pos (w ++ w')) : StandsAt d pos w :=
  (List.prefix_append w w').trans h

theorem StandsAt.right (h : StandsAt d pos (w ++ w')) : StandsAt d (pos + w.length) w' := by
  obtain ⟨rest, hrest⟩ := h
  refine ⟨rest, ?_⟩
  rw [← List.drop_drop, ← hrest, List.append_assoc, List.drop_left]

theorem StandsAt.bytes (h : StandsAt d pos w) : Span.bytes ⟨pos, pos + w.length⟩ d = w := by
  obtain ⟨rest, hrest⟩ := h
  rw [Span.bytes, List.extract_eq_take_drop, Nat.add_sub_cancel_left, ← hrest, List.take_left]

/-- A derivation of a word that stands in the text reads the word there. -/
theorem StandsAt.readsAs {c : Choice} {t : Tree} (h : StandsAt d pos c.text)
    (hspan : t.span = ⟨pos, pos + c.text.length⟩) (htree : c.tree.moved pos = t) :
    ReadsAs d t t := by
  refine ⟨c, ?_, ?_⟩
  · rw [hspan, h.bytes]
  · rw [hspan, htree]

end StandsAt

theorem Choice.text_ne_nil (c : Choice) : c.text ≠ [] := by
  cases c with
  | last s =>
      obtain ⟨b, u, htext, _⟩ := s.exists_head
      simp [Choice.text, htext]
  | bar s rest => simp [Choice.text]

theorem Sequence.readsAs (s : Sequence) {d : List UInt8} {pos : Nat} (h : StandsAt d pos s.text) :
    ReadsAs d (.catOf ⟨pos, pos + s.text.length⟩ (s.trees pos))
      (.catOf ⟨pos, pos + s.text.length⟩ (s.trees pos)) := by
  have htext : (Choice.last s).text = s.text := by rw [Choice.text]
  rw [← htext] at h
  refine h.readsAs (by rw [s.span_catOf, htext]) ?_
  rw [Choice.tree, Choice.trees, Tree.altOf, Tree.moved_catOf, Span.moved_of_length,
    s.movedAll_trees, Nat.zero_add]

theorem Term.readsAs (t : Term) {d : List UInt8} {pos : Nat} (h : StandsAt d pos t.text) :
    ReadsAs d (t.tree pos) (t.tree pos) := by
  have hlast : StandsAt d pos (Sequence.last t).text := by rwa [Sequence.text]
  have hread := (Sequence.last t).readsAs hlast
  rwa [Sequence.trees, Tree.catOf] at hread

theorem Atom.readsAs (a : Atom) {d : List UInt8} {pos : Nat} (h : StandsAt d pos a.text) :
    ReadsAs d (a.tree pos) (a.tree pos) := by
  have hbare : StandsAt d pos (Term.mk a []).text := by
    rwa [Term.text, List.map_nil, List.append_nil]
  have hread := (Term.mk a []).readsAs hbare
  rwa [Term.tree, Postfix.applyAll] at hread

end Grammar

/-! ### Trees over a text -/

namespace Tree

open Grammar

/-- Every node is at the top of what the bytes under its span are read as, and its children have
their spans in it. -/
inductive Spelled (d : List UInt8) : Tree → Prop where
  | node {t whole : Tree} : ReadsAs d t whole → whole.AtTop t →
      (∀ child ∈ t.children, child.span.Within t.span) →
      (∀ child ∈ t.children, Spelled d child) → Spelled d t

variable {d : List UInt8} {s : Span} {t : Tree}

theorem Spelled.exists_reading (h : Spelled d t) : ∃ whole, ReadsAs d t whole ∧ whole.AtTop t := by
  cases h with
  | node hread htop _ _ => exact ⟨_, hread, htop⟩

theorem Spelled.within (h : Spelled d t) : ∀ child ∈ t.children, child.span.Within t.span := by
  cases h with
  | node _ _ hwithin _ => exact hwithin

theorem Spelled.children (h : Spelled d t) : ∀ child ∈ t.children, Spelled d child := by
  cases h with
  | node _ _ _ hchildren => exact hchildren

/-- A spelled tree is spelled at every node, inside the span of the root. -/
theorem Spelled.of_hasNode {node : Tree} (h : Spelled d t) (hnode : t.HasNode node) :
    Spelled d node ∧ node.span.Within t.span := by
  induction hnode with
  | root t => exact ⟨h, .refl _⟩
  | child hchild _ ih =>
      obtain ⟨hspelled, hwithin⟩ := ih (h.children _ hchild)
      exact ⟨hspelled, hwithin.trans (h.within _ hchild)⟩

theorem Spelled.leaf {whole : Tree} (hread : ReadsAs d t whole) (htop : whole.AtTop t)
    (hleaf : t.children = []) : Spelled d t :=
  .node hread htop (by simp [hleaf]) (by simp [hleaf])

theorem Joins.spelled {parts : List Tree} (h : Joins s parts t) (hread : ReadsAs d t t)
    (hwithin : ∀ part ∈ parts, part.span.Within s) (hparts : ∀ part ∈ parts, Spelled d part) :
    Spelled d t := by
  cases h with
  | inl hpart => exact hparts t (by simp [hpart])
  | inr hnode =>
      obtain ⟨rfl, rfl⟩ := hnode
      exact .node hread (.root t) hwithin hparts

/-- The span of a group replaces that of its content. -/
theorem Joins.spelled_withSpan {parts : List Tree} (h : Joins s parts t)
    (hread : ReadsAs d (t.withSpan s) (t.withSpan s))
    (hwithin : ∀ part ∈ parts, part.span.Within s) (hparts : ∀ part ∈ parts, Spelled d part) :
    Spelled d (t.withSpan s) := by
  have hchildren : ∀ child ∈ t.children, child.span.Within s ∧ Spelled d child := by
    intro child hchild
    cases h with
    | inl hpart =>
        have hmem : t ∈ parts := by simp [hpart]
        exact ⟨((hparts t hmem).within child hchild).trans (hwithin t hmem),
          (hparts t hmem).children child hchild⟩
    | inr hnode =>
        rw [hnode.2] at hchild
        exact ⟨hwithin child hchild, hparts child hchild⟩
  refine .node hread (.root _) ?_ ?_
  · rw [span_withSpan, children_withSpan]
    exact fun child hchild => (hchildren child hchild).1
  · rw [children_withSpan]
    exact fun child hchild => (hchildren child hchild).2

/-- An operator adds nodes over its own span, which takes in that of the tree. -/
theorem Spelled.apply (h : Spelled d t) (p : Postfix) {stop : Nat} (hstop : t.span.stop ≤ stop)
    (hread : ReadsAs d (p.apply stop t) (p.apply stop t)) : Spelled d (p.apply stop t) := by
  have hwithin : t.span.Within ⟨t.span.start, stop⟩ := ⟨Nat.le_refl _, hstop⟩
  cases p with
  | star =>
      refine .node hread (.root _) ?_ ?_
      · exact List.forall_mem_singleton.mpr hwithin
      · exact List.forall_mem_singleton.mpr h
  | plus =>
      have hstar : Spelled d (.star ⟨t.span.start, stop⟩ t) := by
        refine .node hread (.repeated _ _) ?_ ?_
        · exact List.forall_mem_singleton.mpr hwithin
        · exact List.forall_mem_singleton.mpr h
      refine .node hread (.root _) ?_ ?_
      · exact List.forall_mem_cons.mpr ⟨hwithin, List.forall_mem_singleton.mpr (.refl _)⟩
      · exact List.forall_mem_cons.mpr ⟨h, List.forall_mem_singleton.mpr hstar⟩
  | question =>
      have hempty : Spelled d (.empty ⟨t.span.start, stop⟩) := .leaf hread (.skipped _ _) rfl
      refine .node hread (.root _) ?_ ?_
      · exact List.forall_mem_cons.mpr ⟨hwithin, List.forall_mem_singleton.mpr (.refl _)⟩
      · exact List.forall_mem_cons.mpr ⟨h, List.forall_mem_singleton.mpr hempty⟩

end Tree

namespace Grammar

variable {d : List UInt8}

/-- Each operator ends a longer term over the same atom. -/
theorem Term.spelled_of_atom {atom : Atom} {pos : Nat} (hatom : (atom.tree pos).Spelled d)
    (ps : List Postfix) (h : StandsAt d pos (Term.mk atom ps).text) :
    ((Term.mk atom ps).tree pos).Spelled d := by
  induction ps using List.reverseRecOn with
  | nil =>
      rw [Term.tree]
      exact hatom
  | append_singleton ps p ih =>
      have hread := (Term.mk atom (ps ++ [p])).readsAs h
      have htext : (Term.mk atom (ps ++ [p])).text = (Term.mk atom ps).text ++ [p.byte] := by
        simp [Term.text]
      rw [htext] at h
      have hfirst := ih h.left
      have hspan := (Term.mk atom ps).span_tree pos
      rw [Term.tree] at hfirst hspan hread ⊢
      rw [Postfix.applyAll_concat] at hread ⊢
      refine hfirst.apply p ?_ hread
      rw [hspan, Term.text, List.length_append, List.length_map, ← Nat.add_assoc]
      exact Nat.le_succ _

mutual

theorem Choice.spelled (c : Choice) {pos : Nat} (h : StandsAt d pos c.text) :
    ∀ t ∈ c.trees pos, t.Spelled d := by
  match c with
  | .last s =>
      intro t ht
      rw [Choice.text] at h
      rw [Choice.trees, List.mem_singleton] at ht
      rw [ht]
      exact (Tree.joins_catOf _ _).spelled (s.readsAs h) (s.within_of_mem_trees pos) (s.spelled h)
  | .bar s rest =>
      intro t ht
      rw [Choice.text] at h
      rw [Choice.trees, List.mem_cons] at ht
      cases ht with
      | inl hfirst =>
          rw [hfirst]
          exact (Tree.joins_catOf _ _).spelled (s.readsAs h.left) (s.within_of_mem_trees pos)
            (s.spelled h.left)
      | inr hrest =>
          rw [List.append_cons] at h
          have hbehind := h.right
          rw [List.length_append, List.length_singleton, ← Nat.add_assoc] at hbehind
          exact rest.spelled hbehind t hrest

theorem Sequence.spelled (s : Sequence) {pos : Nat} (h : StandsAt d pos s.text) :
    ∀ t ∈ s.trees pos, t.Spelled d := by
  match s with
  | .last term =>
      intro t ht
      rw [Sequence.text] at h
      rw [Sequence.trees, List.mem_singleton] at ht
      rw [ht]
      exact term.spelled h
  | .cons term rest =>
      intro t ht
      rw [Sequence.text] at h
      rw [Sequence.trees, List.mem_cons] at ht
      cases ht with
      | inl hfirst =>
          rw [hfirst]
          exact term.spelled h.left
      | inr hrest => exact rest.spelled h.right t hrest

theorem Term.spelled (t : Term) {pos : Nat} (h : StandsAt d pos t.text) :
    (t.tree pos).Spelled d := by
  match t with
  | .mk atom ps =>
      have hatom := h
      rw [Term.text] at hatom
      exact Term.spelled_of_atom (atom.spelled hatom.left) ps h

theorem Atom.spelled (a : Atom) {pos : Nat} (h : StandsAt d pos a.text) :
    (a.tree pos).Spelled d := by
  have hread := a.readsAs h
  match a with
  | .literal b free => exact .leaf hread (.root _) rfl
  | .escaped b => exact .leaf hread (.root _) rfl
  | .marker => exact .leaf hread (.root _) rfl
  | .group c =>
      rw [Atom.text, ← List.singleton_append] at h
      rw [Atom.tree] at hread ⊢
      refine (Tree.joins_altOf _ _).spelled_withSpan hread ?_ (c.spelled h.right.left)
      intro part hpart
      refine (c.within_of_mem_trees (pos + 1) part hpart).trans ⟨Nat.le_succ pos, ?_⟩
      dsimp only
      omega

end

/-- The tree of a derivation is spelled by its text. -/
theorem Choice.spelled_tree (c : Choice) : c.tree.Spelled c.text := by
  have hwhole : StandsAt c.text 0 c.text := List.prefix_refl _
  have hread : ReadsAs c.text c.tree c.tree := by
    refine hwhole.readsAs (by rw [c.span_tree, Nat.zero_add]) ?_
    rw [Choice.tree, Tree.moved_altOf, c.movedAll_trees]
    rfl
  have hwithin := c.within_of_mem_trees 0
  rw [Nat.zero_add] at hwithin
  exact (Tree.joins_altOf _ _).spelled hread hwithin (c.spelled hwhole)

end Grammar

/-- The root of a parsed text spans the text. The span of every node has bytes in it and takes in
the spans of the nodes below. Its bytes are accepted on their own, and in place they are read as the
node again, or as the term whose operator added the node. -/
theorem parse_spans_nested {d : List UInt8} {t : Tree} (h : Parser.parse d = .ok t) :
    t.span = ⟨0, d.length⟩ ∧
      ∀ node, t.HasNode node →
        node.span.start < node.span.stop ∧ node.span.stop ≤ d.length ∧
        (∀ child ∈ node.children, child.span.Within node.span) ∧
        ∃ tree, Parser.parse (node.span.bytes d) = .ok tree ∧
          (tree.moved node.span.start).AtTop node := by
  obtain ⟨c, rfl⟩ := Parser.exists_derivation h
  rw [Parser.parse_text] at h
  cases h
  refine ⟨c.span_tree, ?_⟩
  intro node hnode
  obtain ⟨hspelled, hwithin⟩ := c.spelled_tree.of_hasNode hnode
  rw [c.span_tree] at hwithin
  obtain ⟨whole, ⟨own, hown, hmoved⟩, htop⟩ := hspelled.exists_reading
  have hbytes : node.span.bytes c.text ≠ [] := hown ▸ own.text_ne_nil
  refine ⟨Span.start_lt_stop_of_bytes hbytes, hwithin.2, hspelled.within, own.tree, ?_, ?_⟩
  · rw [← hown]
    exact Parser.parse_text own
  · rw [hmoved]
    exact htop

/-- In `(a+|b)?c` the star that the operator of `a+` adds spans all of `a+`, which on its own is
read as the term with that star. -/
theorem parse_spans_nested_star :
    ∃ t node, Parser.parse [40, 97, 43, 124, 98, 41, 63, 99] = .ok t ∧ t.HasNode node ∧
      node = .star ⟨1, 3⟩ (.text ⟨1, 2⟩ (.byte 97)) ∧ t.span = ⟨0, 8⟩ ∧
      (∀ child ∈ node.children, child.span.Within node.span) ∧
      ∃ tree, Parser.parse [97, 43] = .ok tree ∧ (tree.moved 1).AtTop node := by
  obtain ⟨t, ht, hnode⟩ : ∃ t, Parser.parse [40, 97, 43, 124, 98, 41, 63, 99] = .ok t ∧
      t.HasNode (.star ⟨1, 3⟩ (.text ⟨1, 2⟩ (.byte 97))) := by
    refine ⟨_, Parser.parse_eq_read _, ?_⟩
    exact .child (.head _) (.child (.head _) (.child (.head _)
      (.child (.tail _ (.head _)) (.root _))))
  obtain ⟨hspan, hnodes⟩ := parse_spans_nested ht
  obtain ⟨_, _, hwithin, hread⟩ := hnodes _ hnode
  exact ⟨t, _, ht, hnode, rfl, hspan, hwithin, hread⟩

end PatternCircuit

import Mathlib.Computability.MyhillNerode
import PatternCircuit.Pattern.Tree

/-! # Languages of pattern trees

A tree denotes a set of symbol words, in which the negation marker is a symbol like any other.
Over bytes, a choice that starts with the marker denotes the single bytes that none of its other
parts takes. -/

namespace PatternCircuit.Tree

open scoped Computability

/-- Induction over trees, with the hypothesis for every part of a node. -/
theorem induction {P : Tree → Prop} (hempty : ∀ s, P (empty s)) (htext : ∀ s a, P (text s a))
    (hcat : ∀ s parts, (∀ t ∈ parts, P t) → P (cat s parts))
    (halt : ∀ s parts, (∀ t ∈ parts, P t) → P (alt s parts))
    (hstar : ∀ s body, P body → P (star s body)) (t : Tree) : P t :=
  @Tree.rec P (fun parts => ∀ t ∈ parts, P t) hempty htext hcat halt hstar
    (by simp) (fun _ _ hhead htail => by simpa using ⟨hhead, htail⟩) t

/-- Every sequence and every choice in the tree has a part. -/
inductive Proper : Tree → Prop where
  | empty (s : Span) : Proper (.empty s)
  | text (s : Span) (a : Symbol) : Proper (.text s a)
  | cat (s : Span) {parts : List Tree} :
      parts ≠ [] → (∀ t ∈ parts, Proper t) → Proper (.cat s parts)
  | alt (s : Span) {parts : List Tree} :
      parts ≠ [] → (∀ t ∈ parts, Proper t) → Proper (.alt s parts)
  | star (s : Span) (body : Tree) : Proper body → Proper (.star s body)

/-! ### Symbol words -/

mutual

/-- The symbol words of a tree. -/
def language : Tree → Language Symbol
  | empty _ => 1
  | text _ a => {[a]}
  | cat _ parts => sequence parts
  | alt _ parts => choice parts
  | star _ body => (language body)∗

/-- A word of each part, one after the other. -/
def sequence : List Tree → Language Symbol
  | [] => 1
  | part :: rest => language part * sequence rest

/-- A word of some part. -/
def choice : List Tree → Language Symbol
  | [] => 0
  | part :: rest => language part + choice rest

end

/-! ### Byte words -/

/-- The first part is the negation marker. -/
def leadsWithMarker : List Tree → Bool
  | text _ .negate :: _ => true
  | _ => false

/-- The single bytes that are not words of a language. -/
def bytesOutside (L : Language UInt8) : Language UInt8 := {w | ∃ b, w = [b] ∧ [b] ∉ L}

mutual

/-- The byte words of a tree. -/
def byteLanguage : Tree → Language UInt8
  | empty _ => 1
  | text _ (.byte b) => {[b]}
  | text _ .negate => 0
  | cat _ parts => byteSequence parts
  | alt _ parts =>
      if leadsWithMarker parts then bytesOutside (byteChoice parts) else byteChoice parts
  | star _ body => (byteLanguage body)∗

def byteSequence : List Tree → Language UInt8
  | [] => 1
  | part :: rest => byteLanguage part * byteSequence rest

def byteChoice : List Tree → Language UInt8
  | [] => 0
  | part :: rest => byteLanguage part + byteChoice rest

end

/-- A negated class matches the single bytes that are not listed. -/
theorem mem_byteLanguage_outside {s marker : Span} {members : List Tree} {w : List UInt8} :
    w ∈ (alt s (.text marker .negate :: members)).byteLanguage ↔
      ∃ b, w = [b] ∧ [b] ∉ byteChoice members := by
  rw [byteLanguage, if_pos (by rfl), byteChoice, byteLanguage, zero_add]
  exact Iff.rfl

/-- The trees of patterns. The marker stands in front of the members of a class only, and only if
there are negated classes. -/
inductive Shaped (negation : Prop) : Tree → Prop where
  | empty (s : Span) : Shaped negation (.empty s)
  | literal (s : Span) (b : UInt8) : Shaped negation (.text s (.byte b))
  | cat (s : Span) {parts : List Tree} :
      parts ≠ [] → (∀ t ∈ parts, Shaped negation t) → Shaped negation (.cat s parts)
  | alt (s : Span) {parts : List Tree} :
      parts ≠ [] → (∀ t ∈ parts, Shaped negation t) → Shaped negation (.alt s parts)
  | outside (s marker : Span) {members : List Tree} :
      negation → (∀ t ∈ members, ∃ s b, t = .text s (.byte b)) →
      Shaped negation (.alt s (.text marker .negate :: members))
  | star (s : Span) (body : Tree) : Shaped negation body → Shaped negation (.star s body)

theorem Shaped.mono {negation negation' : Prop} (hneg : negation → negation') {t : Tree}
    (h : t.Shaped negation) : t.Shaped negation' := by
  induction h with
  | empty s => exact .empty s
  | literal s b => exact .literal s b
  | cat s hne _ ih => exact .cat s hne ih
  | alt s hne _ ih => exact .alt s hne ih
  | outside s marker hnegation hmembers => exact .outside s marker (hneg hnegation) hmembers
  | star s body _ ih => exact .star s body ih

theorem Shaped.proper {negation : Prop} {t : Tree} (h : t.Shaped negation) : t.Proper := by
  induction h with
  | empty s => exact .empty s
  | literal s b => exact .text s _
  | cat s hne _ ih => exact .cat s hne ih
  | alt s hne _ ih => exact .alt s hne ih
  | outside s marker _ hmembers =>
      refine .alt s (by simp) ?_
      intro t ht
      rcases List.mem_cons.mp ht with rfl | ht
      · exact .text marker _
      · obtain ⟨s, b, rfl⟩ := hmembers t ht
        exact .text s _
  | star s body _ ih => exact .star s body ih

theorem leadsWithMarker_of_shaped {negation : Prop} {parts : List Tree}
    (h : ∀ t ∈ parts, t.Shaped negation) : leadsWithMarker parts = false := by
  unfold leadsWithMarker
  split
  · cases h _ List.mem_cons_self
  · rfl

theorem sequence_eq_map {parts : List Tree}
    (h : ∀ t ∈ parts, t.language = Language.map Symbol.byte t.byteLanguage) :
    sequence parts = Language.map Symbol.byte (byteSequence parts) := by
  induction parts with
  | nil => rw [sequence, byteSequence, map_one]
  | cons part rest ih =>
      rw [sequence, byteSequence, map_mul, h part (by simp), ih fun t ht => h t (by simp [ht])]

theorem choice_eq_map {parts : List Tree}
    (h : ∀ t ∈ parts, t.language = Language.map Symbol.byte t.byteLanguage) :
    choice parts = Language.map Symbol.byte (byteChoice parts) := by
  induction parts with
  | nil => rw [choice, byteChoice, map_zero]
  | cons part rest ih =>
      rw [choice, byteChoice, map_add, h part (by simp), ih fun t ht => h t (by simp [ht])]

/-- Without negated classes, the symbol words are the byte words. -/
theorem Shaped.language_eq_map {t : Tree} (h : t.Shaped False) :
    t.language = Language.map Symbol.byte t.byteLanguage := by
  induction h with
  | empty s => rw [language, byteLanguage, map_one]
  | literal s b =>
      rw [language, byteLanguage]
      exact (Set.image_singleton (f := List.map Symbol.byte) (a := [b])).symm
  | cat s _ _ ih => rw [language, byteLanguage, sequence_eq_map ih]
  | @alt s parts _ hparts ih =>
      rw [language, byteLanguage, choice_eq_map ih]
      simp [leadsWithMarker_of_shaped hparts]
  | outside _ _ hneg => exact hneg.elim
  | star s body _ ih => rw [language, byteLanguage, ih, Language.map_kstar]

end PatternCircuit.Tree

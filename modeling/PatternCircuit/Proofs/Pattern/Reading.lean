import Mathlib.Data.List.Forall2
import PatternCircuit.Proofs.Pattern.Language

/-! # Reading bytes as symbols

A byte can be read as itself or as the negation marker. Bytes read as a symbol word of a pattern
make up a byte word of it, unless some byte of them could as well be read the other way. -/

namespace PatternCircuit

open scoped Computability

/-- A byte can be read as a symbol. -/
def Symbol.ReadFrom (b : UInt8) : Symbol → Prop
  | byte c => c = b
  | negate => True

/-- Bytes that are read as one symbol word can also be read as another that differs at one byte. -/
inductive Exchange : List UInt8 → List Symbol → List Symbol → Prop where
  | marker (b : UInt8) (u : List UInt8) (w : List Symbol) :
      Exchange (b :: u) (.byte b :: w) (.negate :: w)
  | byte (b : UInt8) (u : List UInt8) (w : List Symbol) :
      Exchange (b :: u) (.negate :: w) (.byte b :: w)
  | cons (b : UInt8) (a : Symbol) {u : List UInt8} {w w' : List Symbol} :
      Exchange u w w' → Exchange (b :: u) (a :: w) (a :: w')

namespace Exchange

variable {u v : List UInt8} {w w' z : List Symbol}

theorem append_right (h : Exchange u w w') (v : List UInt8) (z : List Symbol) :
    Exchange (u ++ v) (w ++ z) (w' ++ z) := by
  induction h with
  | marker b u w => exact .marker b _ _
  | byte b u w => exact .byte b _ _
  | cons b a _ ih => exact .cons b a ih

theorem append_left (hv : List.Forall₂ Symbol.ReadFrom v z) (h : Exchange u w w') :
    Exchange (v ++ u) (z ++ w) (z ++ w') := by
  induction hv with
  | nil => exact h
  | cons _ _ ih => exact .cons _ _ ih

end Exchange

/-- Bytes that are read as a word of the symbol language make up a word of the byte language, unless
one of them can be exchanged. -/
def Resolves (M : Language Symbol) (B : Language UInt8) : Prop :=
  ∀ w ∈ M, ∀ u, List.Forall₂ Symbol.ReadFrom u w → u ∈ B ∨ ∃ w' ∈ M, Exchange u w w'

namespace Resolves

variable {M N : Language Symbol} {B C : Language UInt8}

theorem one : Resolves 1 1 := by
  intro w hw u hu
  obtain rfl := (Language.mem_one w).mp hw
  cases hu
  exact .inl Language.nil_mem_one

theorem literal (b : UInt8) : Resolves {[.byte b]} {[b]} := by
  intro w hw u hu
  obtain rfl : w = [.byte b] := hw
  cases hu with
  | cons hb hnil =>
      cases hnil
      cases hb
      exact .inl rfl

theorem add (hM : Resolves M B) (hN : Resolves N C) : Resolves (M + N) (B + C) := by
  intro w hw u hu
  rcases hw with hw | hw
  · rcases hM w hw u hu with hmem | ⟨w', hw', hex⟩
    · exact .inl (.inl hmem)
    · exact .inr ⟨w', .inl hw', hex⟩
  · rcases hN w hw u hu with hmem | ⟨w', hw', hex⟩
    · exact .inl (.inr hmem)
    · exact .inr ⟨w', .inr hw', hex⟩

theorem mul (hM : Resolves M B) (hN : Resolves N C) : Resolves (M * N) (B * C) := by
  intro w hw u hu
  obtain ⟨w₁, hw₁, w₂, hw₂, rfl⟩ := Language.mem_mul.mp hw
  have hfirst := List.forall₂_take_append u w₁ w₂ hu
  have hsecond := List.forall₂_drop_append u w₁ w₂ hu
  rw [← List.take_append_drop w₁.length u]
  rcases hM w₁ hw₁ _ hfirst with hmem₁ | ⟨w', hw', hex⟩
  · rcases hN w₂ hw₂ _ hsecond with hmem₂ | ⟨w', hw', hex⟩
    · exact .inl (Language.append_mem_mul hmem₁ hmem₂)
    · exact .inr ⟨w₁ ++ w', Language.append_mem_mul hw₁ hw', hex.append_left hfirst⟩
  · exact .inr ⟨w' ++ w₂, Language.append_mem_mul hw' hw₂, hex.append_right _ _⟩

theorem pow (hM : Resolves M B) (n : Nat) : Resolves (M ^ n) (B ^ n) := by
  induction n with
  | zero =>
      rw [pow_zero, pow_zero]
      exact one
  | succ n ih =>
      rw [pow_succ, pow_succ]
      exact ih.mul hM

theorem kstar (hM : Resolves M B) : Resolves M∗ B∗ := by
  intro w hw u hu
  rw [Language.kstar_eq_iSup_pow, Language.mem_iSup] at hw
  obtain ⟨n, hw⟩ := hw
  rcases hM.pow n w hw u hu with hmem | ⟨w', hw', hex⟩
  · exact .inl (pow_le_kstar (a := B) hmem)
  · exact .inr ⟨w', pow_le_kstar (a := M) hw', hex⟩

end Resolves

/-! ### Trees -/

namespace Tree

theorem resolves_sequence {parts : List Tree}
    (h : ∀ t ∈ parts, Resolves t.language t.byteLanguage) :
    Resolves (sequence parts) (byteSequence parts) := by
  induction parts with
  | nil => exact .one
  | cons part rest ih => exact (h part (by simp)).mul (ih fun t ht => h t (by simp [ht]))

theorem resolves_choice {parts : List Tree}
    (h : ∀ t ∈ parts, Resolves t.language t.byteLanguage) :
    Resolves (choice parts) (byteChoice parts) := by
  induction parts with
  | nil => exact fun w hw => absurd hw (Language.notMem_zero w)
  | cons part rest ih => exact (h part (by simp)).add (ih fun t ht => h t (by simp [ht]))

/-- The members of a class are its words, over symbols and over bytes. -/
theorem choice_members {members : List Tree} (h : ∀ t ∈ members, ∃ s b, t = .text s (.byte b)) :
    choice members = Language.map Symbol.byte (byteChoice members) := by
  refine choice_eq_map fun t ht => ?_
  obtain ⟨s, b, rfl⟩ := h t ht
  exact (Shaped.literal s b).language_eq_map

theorem exists_byte_of_mem_members {members : List Tree}
    (h : ∀ t ∈ members, ∃ s b, t = .text s (.byte b)) {v : List UInt8}
    (hv : v ∈ byteChoice members) : ∃ b, v = [b] := by
  induction members with
  | nil => exact absurd hv (Language.notMem_zero v)
  | cons part rest ih =>
      rcases hv with hv | hv
      · obtain ⟨s, b, rfl⟩ := h part (by simp)
        exact ⟨b, hv⟩
      · exact ih (fun t ht => h t (by simp [ht])) hv

/-- A negated class: a listed byte can be read as itself and as the marker, any other byte can only
be read as the marker. -/
theorem resolves_outside (s marker : Span) {members : List Tree}
    (h : ∀ t ∈ members, ∃ s b, t = .text s (.byte b)) :
    Resolves (alt s (.text marker .negate :: members)).language
      (alt s (.text marker .negate :: members)).byteLanguage := by
  intro w hw u hu
  rcases hw with hw | hw
  · obtain rfl : w = [.negate] := hw
    obtain ⟨b, rfl⟩ : ∃ b, u = [b] := by
      cases hu with
      | cons _ hnil =>
          cases hnil
          exact ⟨_, rfl⟩
    by_cases hlisted : [b] ∈ byteChoice members
    · refine .inr ⟨[.byte b], .inr ?_, .byte b [] []⟩
      rw [choice_members h]
      exact ⟨[b], hlisted, rfl⟩
    · exact .inl (mem_byteLanguage_outside.mpr ⟨b, rfl, hlisted⟩)
  · rw [choice_members h] at hw
    obtain ⟨v, hv, rfl⟩ := hw
    obtain ⟨b, rfl⟩ := exists_byte_of_mem_members h hv
    cases hu with
    | cons hb hnil =>
        cases hnil
        cases hb
        exact .inr ⟨[.negate], .inl rfl, .marker b [] []⟩

/-- Bytes that are read as a symbol word of a pattern's tree make up a byte word of it, unless one
of them can be read the other way. -/
theorem Shaped.resolves {negation : Prop} {t : Tree} (h : t.Shaped negation) :
    Resolves t.language t.byteLanguage := by
  induction h with
  | empty s => exact .one
  | literal s b => exact .literal b
  | cat s _ _ ih => exact resolves_sequence ih
  | @alt s parts _ hparts ih =>
      rw [language, byteLanguage, leadsWithMarker_of_shaped hparts]
      exact resolves_choice ih
  | outside s marker _ hmembers => exact resolves_outside s marker hmembers
  | star s body _ ih => exact ih.kstar

end Tree

end PatternCircuit

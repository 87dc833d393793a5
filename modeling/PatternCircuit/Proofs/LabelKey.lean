import PatternCircuit.Proofs.Label
import PatternCircuit.Proofs.TextBytes

/-! # Label keys

The spelling of a symbol can be read off the front of a text, whatever stands behind it. A key is
therefore read back as the label it was written from, and no two inhabited labels have one key. -/

namespace PatternCircuit

/-! ### Hexadecimal digits -/

/-- A digit is written as one byte, from which its value is read. -/
theorem exists_code_hexDigit : ∀ n < 16, ∃ c, String.utf8EncodeChar (Numeral.hexDigit n) = [c] ∧
    c ≠ Ascii.plus ∧ Numeral.hexValue? c = some (UInt8.ofNat n) := by
  intro n hn
  refine ⟨UInt8.ofNat (Numeral.hexDigit n).toNat, ?_⟩
  revert n
  decide

theorem exists_codes_hexByte (b : UInt8) : ∃ high low,
    (Numeral.hexByte b).toUTF8.toList = [high, low] ∧ Numeral.readHexPair? high low = some b := by
  have hb : b.toNat < 256 := b.toNat_lt
  obtain ⟨high, hhigh, hplus, hhighValue⟩ := exists_code_hexDigit (b.toNat / 16) (by omega)
  obtain ⟨low, hlow, _, hlowValue⟩ := exists_code_hexDigit (b.toNat % 16) (by omega)
  refine ⟨high, low, ?_, ?_⟩
  · rw [toList_toUTF8, Numeral.hexByte, String.toList_ofList, List.flatMap_cons, List.flatMap_cons,
      hhigh, hlow]
    rfl
  · have hvalue : UInt8.ofNat (b.toNat / 16) * 16 + UInt8.ofNat (b.toNat % 16) = b := by
      rw [← UInt8.toNat_inj]
      simp
      omega
    rw [Numeral.readHexPair?, if_neg hplus, hhighValue, hlowValue]
    exact congrArg some hvalue

namespace Label

/-! ### Symbols -/

/-- A symbol is read off the front of its spelling, whatever stands behind it. -/
theorem readSymbol?_text (a : Symbol) (rest : List UInt8) :
    readSymbol? (a.text.toUTF8.toList ++ rest) = some (a, rest) := by
  cases a with
  | negate =>
      rw [Symbol.text, toList_toUTF8]
      rfl
  | byte b =>
      by_cases hescaped : (b = Ascii.caret || b = Ascii.comma || b = Ascii.backslash) = true
      · rw [Symbol.text, if_pos hescaped]
        simp only [Bool.or_eq_true, decide_eq_true_eq] at hescaped
        rcases hescaped with (rfl | rfl) | rfl <;> rw [toList_toUTF8] <;> rfl
      · by_cases hprintable : Ascii.isPrintable b = true
        · have hlt : b < 128 := by
            simp only [Ascii.isPrintable, Bool.and_eq_true, decide_eq_true_eq,
              UInt8.le_iff_toNat_le] at hprintable
            exact UInt8.lt_iff_toNat_lt.mpr (Nat.lt_of_le_of_lt hprintable.2 (by decide))
          rw [Symbol.text, if_neg hescaped, if_pos hprintable, toList_toUTF8_singleton hlt]
          simp only [Bool.or_eq_true, decide_eq_true_eq, not_or] at hescaped
          simp [readSymbol?, hescaped]
        · obtain ⟨high, low, hcodes, hread⟩ := exists_codes_hexByte b
          rw [Symbol.text, if_neg hescaped, if_neg hprintable, toList_toUTF8_append, hcodes,
            toList_toUTF8]
          change (Numeral.readHexPair? high low).map _ = _
          rw [hread]
          rfl

/-! ### Sequences of symbols -/

theorem readSymbols?_of_last {bytes : List UInt8} {a : Symbol}
    (h : readSymbol? bytes = some (a, [])) : readSymbols? bytes = some [a] := by
  rw [readSymbols?]
  split <;> simp_all

theorem readSymbols?_of_comma {bytes rest : List UInt8} {a : Symbol} (hrest : rest ≠ [])
    (h : readSymbol? bytes = some (a, Ascii.comma :: rest)) :
    readSymbols? bytes = (readSymbols? rest).map (a :: ·) := by
  obtain ⟨c, rest, rfl⟩ := List.exists_cons_of_ne_nil hrest
  rw [readSymbols?]
  split <;> simp_all

theorem bytes_ne_nil_of_readSymbols? {bytes : List UInt8} {as : List Symbol}
    (h : readSymbols? bytes = some as) : bytes ≠ [] := by
  rintro rfl
  rw [readSymbols?] at h
  cases h

/-- Symbols are read back from their spellings between commas. -/
theorem readSymbols?_intercalate_text (a : Symbol) (as : List Symbol) :
    readSymbols? (String.intercalate "," ((a :: as).map Symbol.text)).toUTF8.toList =
      some (a :: as) := by
  induction as generalizing a with
  | nil =>
      have hread := readSymbol?_text a []
      rw [List.append_nil] at hread
      rw [List.map_singleton, String.intercalate_singleton]
      exact readSymbols?_of_last hread
  | cons c as ih =>
      have hne := bytes_ne_nil_of_readSymbols? (ih c)
      have hcomma : ",".toUTF8.toList = [Ascii.comma] := by
        rw [toList_toUTF8]
        rfl
      have hread := readSymbols?_of_comma hne (readSymbol?_text a _)
      rw [ih c] at hread
      rw [List.map_cons, List.map_cons, String.intercalate_cons_cons, toList_toUTF8_append,
        toList_toUTF8_append, hcomma, List.append_assoc, ← List.map_cons]
      exact hread

/-- At least one symbol is read. -/
theorem ne_nil_of_readSymbols? {bytes : List UInt8} {as : List Symbol}
    (h : readSymbols? bytes = some as) : as ≠ [] := by
  rw [readSymbols?] at h
  split at h
  · cases h
  · cases h
    simp
  · obtain ⟨_, _, rfl⟩ := Option.map_eq_some_iff.mp h
    simp
  · cases h

/-! ### Keys -/

/-- A label that is read from a key has a symbol. -/
theorem exists_symbol_of_ofKey? {key : String} {l : Label} (h : ofKey? key = some l) :
    ∃ a, l.contains a = true := by
  obtain ⟨as, has, rfl⟩ := Option.map_eq_some_iff.mp h
  obtain ⟨a, as, rfl⟩ := List.exists_cons_of_ne_nil (ne_nil_of_readSymbols? has)
  exact ⟨a, by simp⟩

/-- The key of an inhabited label is read back as the label. -/
theorem ofKey?_key {l : Label} (h : ∃ a, l.contains a = true) : ofKey? l.key = some l := by
  obtain ⟨a, ha⟩ := h
  have hne : l.symbols ≠ [] := List.ne_nil_of_mem ((mem_symbols l a).mpr ha)
  obtain ⟨c, as, hsymbols⟩ := List.exists_cons_of_ne_nil hne
  rw [ofKey?, key, hsymbols, readSymbols?_intercalate_text, ← hsymbols, Option.map_some,
    Option.some.injEq]
  apply ext_contains
  intro b
  rw [contains_ofSymbols, Bool.eq_iff_iff, List.contains_iff_mem, mem_symbols]

theorem eq_empty_of_not_contains {l : Label} (h : ¬∃ a, l.contains a = true) : l = empty := by
  apply ext_contains
  intro a
  rw [contains_empty, ← Bool.not_eq_true]
  exact fun ha => h ⟨a, ha⟩

theorem key_inj {l m : Label} (hl : ∃ a, l.contains a = true) (hm : ∃ a, m.contains a = true)
    (h : l.key = m.key) : l = m := by
  have hread := ofKey?_key hl
  rw [h, ofKey?_key hm] at hread
  exact (Option.some.inj hread).symm

/-- The key of the empty label is not read. -/
theorem ofKey?_key_empty : ofKey? empty.key = none := by decide +kernel

/-- No two labels have one key. -/
theorem key_injective : Function.Injective key := by
  intro l m h
  by_cases hl : ∃ a, l.contains a = true
  · by_cases hm : ∃ a, m.contains a = true
    · exact key_inj hl hm h
    · have hread := ofKey?_key hl
      rw [h, eq_empty_of_not_contains hm, ofKey?_key_empty] at hread
      cases hread
  · by_cases hm : ∃ a, m.contains a = true
    · have hread := ofKey?_key hm
      rw [← h, eq_empty_of_not_contains hl, ofKey?_key_empty] at hread
      cases hread
    · rw [eq_empty_of_not_contains hl, eq_empty_of_not_contains hm]

end Label

/-! ### Accepted keys -/

/-- How a symbol may be spelled in a key. A byte other than the caret and the backslash may stand
for itself, the comma included; the two hexadecimal digits may be in either case, and a plus sign
may stand for the first of them. -/
inductive Symbol.SpelledBy : Symbol → List UInt8 → Prop where
  | marker : SpelledBy .negate [Ascii.caret]
  | plain {b : UInt8} : b ≠ Ascii.caret → b ≠ Ascii.backslash → SpelledBy (.byte b) [b]
  | escaped {b : UInt8} : b = Ascii.caret ∨ b = Ascii.comma ∨ b = Ascii.backslash →
      SpelledBy (.byte b) [Ascii.backslash, b]
  | coded {high low b : UInt8} : Numeral.readHexPair? high low = some b →
      SpelledBy (.byte b) [Ascii.backslash, Ascii.lowerX, high, low]

namespace Label

/-- A symbol is read off the front of a text exactly if the text begins with a spelling of it. -/
theorem readSymbol?_eq_some_iff {bytes rest : List UInt8} {a : Symbol} :
    readSymbol? bytes = some (a, rest) ↔ ∃ word, a.SpelledBy word ∧ bytes = word ++ rest := by
  constructor
  · intro h
    unfold readSymbol? at h
    split at h
    · cases h
    · cases h
      exact ⟨_, .marker, rfl⟩
    · obtain ⟨b, hb, heq⟩ := Option.map_eq_some_iff.mp h
      cases heq
      exact ⟨_, .coded hb, rfl⟩
    · split at h
      · rename_i hescaped
        cases h
        simp only [Bool.or_eq_true, decide_eq_true_eq, or_assoc] at hescaped
        exact ⟨_, .escaped hescaped, rfl⟩
      · cases h
    · rename_i hcaret _ _
      split at h
      · cases h
      · rename_i hbackslash
        cases h
        exact ⟨_, .plain hcaret hbackslash, rfl⟩
  · rintro ⟨word, hword, rfl⟩
    cases hword with
    | marker => rfl
    | plain hcaret hbackslash => simp [readSymbol?, hcaret, hbackslash]
    | escaped hescaped =>
        rcases hescaped with rfl | rfl | rfl
        · rfl
        · rfl
        · rfl
    | coded hb =>
        change (Numeral.readHexPair? _ _).map _ = _
        rw [hb]
        rfl

/-- Symbols are read from a text exactly if it has spellings of them between commas. -/
theorem readSymbols?_eq_some_iff {bytes : List UInt8} {as : List Symbol} :
    readSymbols? bytes = some as ↔ as ≠ [] ∧ ∃ words, List.Forall₂ Symbol.SpelledBy as words ∧
      bytes = List.intercalate [Ascii.comma] words := by
  constructor
  · intro h
    fun_induction readSymbols? bytes generalizing as with
    | case1 => cases h
    | case2 bytes a hread =>
        cases h
        obtain ⟨word, hword, rfl⟩ := readSymbol?_eq_some_iff.mp hread
        exact ⟨by simp, [word], .cons hword .nil, by simp⟩
    | case3 bytes a c rest hread _ ih =>
        obtain ⟨as, has, rfl⟩ := Option.map_eq_some_iff.mp h
        obtain ⟨hne, words, hwords, hrest⟩ := ih has
        obtain ⟨word, hword, rfl⟩ := readSymbol?_eq_some_iff.mp hread
        refine ⟨by simp, word :: words, .cons hword hwords, ?_⟩
        have hsome : words ≠ [] := by
          rintro rfl
          cases hwords
          exact hne rfl
        rw [List.intercalate_cons_of_ne_nil hsome, ← hrest, List.append_assoc]
        rfl
    | case4 => cases h
  · rintro ⟨hne, words, hwords, rfl⟩
    induction hwords with
    | nil => exact absurd rfl hne
    | cons hword hrest ih =>
        cases hrest with
        | nil =>
            refine readSymbols?_of_last (readSymbol?_eq_some_iff.mpr ⟨_, hword, ?_⟩)
            simp
        | cons hnext hrest =>
            have hread := ih (by simp)
            have hsome := bytes_ne_nil_of_readSymbols? hread
            rw [List.intercalate_cons_cons, List.append_assoc]
            have hcomma := readSymbols?_of_comma hsome
              (readSymbol?_eq_some_iff.mpr ⟨_, hword, rfl⟩)
            rw [hread] at hcomma
            exact hcomma

/-- A key that spells at least one symbol, between commas, is read as the label of the symbols it
spells, and no other key is read. The key that is written for a label with a symbol spells the
symbols of this label, so that it is read back as the label and no two labels have the same key. -/
theorem keys_spell_labels :
    (∀ l : Label, l.isEmpty = false → ofKey? l.key = some l) ∧ Function.Injective key ∧
    (∀ text l, ofKey? text = some l ↔ ∃ as, as ≠ [] ∧ l = ofSymbols as ∧
      ∃ words, List.Forall₂ Symbol.SpelledBy as words ∧
        text.toUTF8.toList = List.intercalate [Ascii.comma] words) ∧
    ∀ text l, ofKey? text = some l → l.isEmpty = false ∧ ofKey? l.key = some l := by
  refine ⟨?_, key_injective, ?_, ?_⟩
  · intro l hl
    exact ofKey?_key ((isEmpty_eq_false_iff l).mp hl)
  · intro text l
    rw [ofKey?, Option.map_eq_some_iff]
    constructor
    · rintro ⟨as, has, rfl⟩
      obtain ⟨hne, hwords⟩ := readSymbols?_eq_some_iff.mp has
      exact ⟨as, hne, rfl, hwords⟩
    · rintro ⟨as, hne, rfl, hwords⟩
      exact ⟨as, readSymbols?_eq_some_iff.mpr ⟨hne, hwords⟩, rfl⟩
  · intro text l h
    have hsome := exists_symbol_of_ofKey? h
    exact ⟨(isEmpty_eq_false_iff l).mpr hsome, ofKey?_key hsome⟩

/-- The bytes that keys have to escape, and the marker. -/
def delimiters : Label := ofSymbols [.byte 44, .byte 92, .byte 10, .byte 255, .byte 32, .negate]

theorem keys_spell_delimiters :
    delimiters.isEmpty = false ∧ delimiters.key = "\\x0a, ,\\,,\\\\,^,\\xff" ∧
      ofKey? delimiters.key = some delimiters ∧
      ofKey? "^,\\x+A,,,\\xFF,\\\\, ,\\x2c" = some delimiters := by
  have hsome : delimiters.isEmpty = false := by decide +kernel
  exact ⟨hsome, by decide +kernel, keys_spell_labels.1 _ hsome, by decide +kernel⟩

end Label

end PatternCircuit

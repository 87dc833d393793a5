import PatternCircuit.Text.Ascii

/-! # Bytes of a text

A text is stored as the bytes of its characters. Where a character begins can be told from the bytes
alone, and so one text stands in another exactly if its bytes stand in the other's bytes. -/

namespace PatternCircuit

open String (utf8EncodeChar utf8EncodeChar_ne_nil)

theorem toList_loop_eq_append (bytes : ByteArray) (i : Nat) (read : List UInt8) :
    ByteArray.toList.loop bytes i read = read.reverse ++ bytes.data.toList.drop i := by
  induction i, read using ByteArray.toList.loop.induct bytes with
  | case1 i read hlt ih =>
      have hi : i < bytes.data.toList.length := hlt
      have hget : bytes.get! i = bytes.data.toList[i] := getElem!_pos bytes.data i hlt
      rw [ByteArray.toList.loop, if_pos hlt, ih, List.drop_eq_getElem_cons hi, hget]
      simp
  | case2 i read hge =>
      have hi : bytes.data.toList.length ≤ i := Nat.le_of_not_lt hge
      rw [ByteArray.toList.loop, if_neg hge, List.drop_eq_nil_of_le hi, List.append_nil]

/-- The bytes of a text are those of its characters. -/
theorem toList_toUTF8 (s : String) : s.toUTF8.toList = s.toList.flatMap utf8EncodeChar := by
  have hbytes : s.toUTF8 = s.toList.utf8Encode := by
    rw [String.toUTF8_eq_toByteArray, ← String.toByteArray_ofList, String.ofList_toList]
  rw [hbytes, ByteArray.toList, toList_loop_eq_append]
  simp [List.utf8Encode]

theorem length_toList_toUTF8 (s : String) : s.toUTF8.toList.length = s.utf8ByteSize := by
  rw [ByteArray.toList, toList_loop_eq_append]
  rfl

theorem toList_toUTF8_append (s t : String) :
    (s ++ t).toUTF8.toList = s.toUTF8.toList ++ t.toUTF8.toList := by
  simp only [toList_toUTF8, String.toList_append, List.flatMap_append]

theorem utf8EncodeChar_toChar {b : UInt8} (h : b < 128) :
    utf8EncodeChar (Ascii.toChar b) = [b] := by
  have hlt : b.toNat < 128 := UInt8.lt_iff_toNat_lt.mp h
  have hval : (Ascii.toChar b).val.toNat = b.toNat := by
    have hvalid : b.toNat.isValidChar := .inl (by omega)
    rw [Ascii.toChar, Char.ofNat, dif_pos hvalid]
    rfl
  rw [utf8EncodeChar, hval, if_pos (by omega), UInt8.ofNat_toNat]

theorem toList_toUTF8_singleton {b : UInt8} (h : b < 128) :
    (String.singleton (Ascii.toChar b)).toUTF8.toList = [b] := by
  rw [toList_toUTF8, String.toList_singleton, List.flatMap_singleton, utf8EncodeChar_toChar h]

/-! ### Texts within texts -/

/-- The first character of a text can be told from the bytes of the text. -/
theorem utf8EncodeChar_append_inj {c c' : Char} {u v : List UInt8}
    (h : utf8EncodeChar c ++ u = utf8EncodeChar c' ++ v) : c = c' ∧ u = v := by
  have hdecode : ∀ (c : Char) (u : List UInt8),
      ByteArray.utf8DecodeChar? (utf8EncodeChar c ++ u).toByteArray 0 = some c := by
    intro c u
    rw [List.toByteArray_append]
    exact ByteArray.utf8DecodeChar?_utf8EncodeChar_append
  have hc : c = c' := Option.some.inj ((hdecode c u).symm.trans (h ▸ hdecode c' v))
  subst hc
  exact ⟨rfl, List.append_cancel_left h⟩

theorem prefix_of_bytes {s p : List Char}
    (h : s.flatMap utf8EncodeChar <+: p.flatMap utf8EncodeChar) : s <+: p := by
  induction s generalizing p with
  | nil => exact List.nil_prefix
  | cons c s ih =>
      obtain ⟨v, hv⟩ := h
      cases p with
      | nil => simp [utf8EncodeChar_ne_nil] at hv
      | cons c' p =>
          rw [List.flatMap_cons, List.flatMap_cons, List.append_assoc] at hv
          obtain ⟨rfl, hrest⟩ := utf8EncodeChar_append_inj hv
          exact (List.prefix_cons_inj c).mpr (ih ⟨v, hrest⟩)

/-- Only the first byte of a character looks like one. -/
theorem eq_nil_of_utf8EncodeChar_eq {c c' : Char} {u w x y : List UInt8}
    (hc : utf8EncodeChar c = u ++ w) (hw : w ≠ []) (h : utf8EncodeChar c' ++ x = w ++ y) :
    u = [] := by
  obtain ⟨b, w, rfl⟩ := List.exists_cons_of_ne_nil hw
  obtain ⟨b', w', hc'⟩ := List.exists_cons_of_ne_nil (@utf8EncodeChar_ne_nil c')
  have hfirst : b'.IsUTF8FirstByte := by
    have hzero := @UInt8.isUTF8FirstByte_getElem_zero_utf8EncodeChar c'
    simpa only [hc', List.getElem_cons_zero] using hzero
  have hb : b' = b := by
    rw [hc'] at h
    exact (List.cons.inj h).1
  have hlength : u.length < (utf8EncodeChar c).length := by
    rw [hc, List.length_append, List.length_cons]
    omega
  have hget : (utf8EncodeChar c)[u.length] = b := by
    simp [hc]
  rw [hb, ← hget, UInt8.isUTF8FirstByte_getElem_utf8EncodeChar] at hfirst
  exact List.length_eq_zero_iff.mp hfirst

theorem infix_of_bytes {s p : List Char}
    (h : s.flatMap utf8EncodeChar <:+: p.flatMap utf8EncodeChar) : s <:+: p := by
  cases s with
  | nil => exact List.nil_infix
  | cons c s =>
      obtain ⟨u, v, huv⟩ := h
      induction p generalizing u with
      | nil => simp [utf8EncodeChar_ne_nil] at huv
      | cons c' p ih =>
          have hsplit : u ++ ((c :: s).flatMap utf8EncodeChar ++ v) =
              utf8EncodeChar c' ++ p.flatMap utf8EncodeChar := by
            rw [← List.append_assoc]
            exact huv
          -- Either the first character of `p` stands before `s`, or `s` begins within it.
          rcases List.append_eq_append_iff.mp hsplit with ⟨w, hc', hs⟩ | ⟨w, hu, hp⟩
          · by_cases hw : w = []
            · subst hw
              exact (prefix_of_bytes ⟨v, hs⟩).isInfix.trans (List.infix_cons List.infix_rfl)
            · rw [List.flatMap_cons, List.append_assoc] at hs
              have hnil := eq_nil_of_utf8EncodeChar_eq hc' hw hs
              subst hnil
              exact (prefix_of_bytes ⟨v, huv⟩).isInfix
          · exact (ih w (by rw [List.append_assoc, hp])).trans (List.infix_cons List.infix_rfl)

/-- A text stands in another if and only if its bytes do. -/
theorem bytes_infix_iff {s p : String} :
    s.toUTF8.toList <:+: p.toUTF8.toList ↔ s.toList <:+: p.toList := by
  rw [toList_toUTF8, toList_toUTF8]
  constructor
  · exact infix_of_bytes
  · intro h
    obtain ⟨u, v, huv⟩ := h
    rw [← huv, List.flatMap_append, List.flatMap_append]
    exact ⟨_, _, rfl⟩

end PatternCircuit

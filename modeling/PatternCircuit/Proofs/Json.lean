import PatternCircuit.Json.Basic

/-! # Values that survive their JSON form

An encoder and a decoder belong together if decoding what is encoded gives the value back. The only
values for which it does not are those with a number that is no word, and these are refused. -/

namespace PatternCircuit

/-- Decoding an encoded value gives the value itself if it fits, and nothing otherwise. -/
def RoundTrips {α : Type} (encode : α → Json) (decode : Json → Option α) (Fits : α → Prop) : Prop :=
  ∀ x y, decode (encode x) = some y ↔ Fits x ∧ x = y

section Decoded

variable {α β : Type} {encode : α → Json} {decode : Json → Option α} {Fits : α → Prop}
  (h : RoundTrips encode decode Fits)
include h

/-- What is made of a decoded value is made of the value itself. -/
theorem RoundTrips.bind_eq_some {x : α} {k : α → Option β} {y : β} :
    (decode (encode x)).bind k = some y ↔ Fits x ∧ k x = some y := by
  simp only [Option.bind_eq_some_iff, h x, and_assoc, exists_and_left, exists_eq_left']

theorem RoundTrips.map_eq_some {x : α} {f : α → β} {y : β} :
    (decode (encode x)).map f = some y ↔ Fits x ∧ f x = y := by
  simp only [Option.map_eq_some_iff, h x, and_assoc, exists_and_left, exists_eq_left']

end Decoded

namespace Json

/-! ### Single values -/

@[simp] theorem ofNat_ne_null (n : Nat) : ofNat n ≠ null := by
  simp [ofNat]

theorem roundTrips_bool : RoundTrips bool bool? fun _ => True := by
  intro x y
  simp [bool?]

theorem roundTrips_string : RoundTrips string string? fun _ => True := by
  intro x y
  simp [string?]

theorem roundTrips_word : RoundTrips ofNat word? (· < Numeral.wordBound) := by
  intro n m
  have hword : (ofNat n).word? = if n < Numeral.wordBound then some n else none := by
    simp [ofNat, word?]
  rw [hword]
  split
  · rename_i hlt
    simp [hlt]
  · rename_i hge
    simp [hge]

theorem roundTrips_byte : RoundTrips ofByte byte? fun _ => True := by
  intro b c
  have hlt : b.toNat < Numeral.wordBound := Nat.lt_trans b.toNat_lt (by decide)
  have hword : (ofByte b).word? = some b.toNat := (roundTrips_word _ _).mpr ⟨hlt, rfl⟩
  have hbyte : (ofByte b).byte? = some b := by
    simp [byte?, hword, b.toNat_lt]
  simp [hbyte]

/-! ### Containers -/

section Containers

variable {α β : Type} {encode : α → Json} {decode : Json → Option α} {Fits : α → Prop}
  {encode' : β → Json} {decode' : Json → Option β} {Fits' : β → Prop}

theorem roundTrips_list (h : RoundTrips encode decode Fits) :
    RoundTrips (ofList encode) (list? decode) fun xs => ∀ x ∈ xs, Fits x := by
  intro xs ys
  rw [ofList, list?]
  induction xs generalizing ys with
  | nil => simp [readAll]
  | cons x xs ih =>
      simp only [List.map_cons, readAll, Option.bind_eq_bind, h.bind_eq_some,
        Option.bind_eq_some_iff, ih, Option.pure_def, Option.some.injEq, List.forall_mem_cons,
        and_assoc, exists_and_left, exists_eq_left']

theorem roundTrips_pair (h : RoundTrips encode decode Fits)
    (h' : RoundTrips encode' decode' Fits') :
    RoundTrips (fun p : α × β => array [encode p.1, encode' p.2]) (pair? decode decode')
      fun p => Fits p.1 ∧ Fits' p.2 := by
  intro p q
  simp only [pair?, Option.bind_eq_bind, h.bind_eq_some, h'.bind_eq_some, Option.pure_def,
    Option.some.injEq, and_assoc]

end Containers

/-! ### Records -/

theorem values_of_mem {fields : List (String × Json)} (h : (fields.map Prod.fst).Nodup)
    {f : String × Json} (hf : f ∈ fields) : values f.1 fields = [f.2] := by
  induction fields with
  | nil => cases hf
  | cons g fields ih =>
      obtain ⟨hfresh, hrest⟩ := List.nodup_cons.mp h
      cases List.mem_cons.mp hf with
      | inl heq =>
          have hnone : fields.filter (fun e => e.1 == f.1) = [] := by
            rw [List.filter_eq_nil_iff]
            intro e he hsame
            rw [beq_iff_eq, heq] at hsame
            exact hfresh (hsame ▸ List.mem_map_of_mem he)
          simp [values, hnone, ← heq]
      | inr hmem =>
          have hne : g.1 ≠ f.1 := by
            intro heq
            exact hfresh (heq ▸ List.mem_map_of_mem hmem)
          rw [values, List.filter_cons_of_neg (by simpa using hne)]
          exact ih hrest hmem

/-- An object with different field names is read as a record with these fields. -/
theorem record?_object {fields : List (String × Json)} (h : (fields.map Prod.fst).Nodup) :
    (object fields).record? (fields.map Prod.fst) = some (fields.map fun f => some f.2) := by
  have hread : ∀ part : List (String × Json), (∀ f ∈ part, f ∈ fields) →
      fieldsOf? fields (part.map Prod.fst) = some (part.map fun f => some f.2) := by
    intro part hpart
    induction part with
    | nil => rfl
    | cons f part ih =>
        rw [List.forall_mem_cons] at hpart
        rw [List.map_cons, fieldsOf?, single?, values_of_mem h hpart.1, ih hpart.2]
        rfl
  exact hread fields fun f hf => hf

end Json

end PatternCircuit

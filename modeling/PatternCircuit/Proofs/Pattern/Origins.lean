import Mathlib.Order.Monotone.Basic
import PatternCircuit.Proofs.Pattern.Hygiene
import PatternCircuit.Proofs.Pattern.Parsing
import PatternCircuit.Proofs.TextBytes

/-! # Offsets of faults

The expanded form of a pattern has the expansions of the pieces one behind the other, and each of
its bytes is counted as a byte of the piece whose expansion it is in. The parser stops where the
text before it can still be continued to an accepted one and no longer with the next byte; a fault
is reported at the piece that this byte belongs to. -/

namespace PatternCircuit

/-! ### Where pieces stand -/

namespace Lexeme

variable {spelling : Lexeme → List UInt8} {lexemes : List Lexeme} {i j k : Nat}

/-- The offset of the piece with index `i` in a text that has the spellings of the pieces one behind
the other. -/
def offset (spelling : Lexeme → List UInt8) (lexemes : List Lexeme) (i : Nat) : Nat :=
  ((lexemes.take i).flatMap spelling).length

/-- How a piece is written in the expanded form. -/
def expansion (x : Lexeme) : List UInt8 := x.token.expansion

/-- The spelling of the piece with index `i` holds the byte at `j`. -/
structure Holds (spelling : Lexeme → List UInt8) (lexemes : List Lexeme) (i j : Nat) : Prop where
  index_lt : i < lexemes.length
  offset_le : offset spelling lexemes i ≤ j
  lt_offset : j < offset spelling lexemes (i + 1)

theorem offset_succ {x : Lexeme} (h : lexemes[i]? = some x) :
    offset spelling lexemes (i + 1) = offset spelling lexemes i + (spelling x).length := by
  simp [offset, List.take_add_one, h]

theorem offset_of_length_le (h : lexemes.length ≤ i) :
    offset spelling lexemes i = (lexemes.flatMap spelling).length := by
  rw [offset, List.take_of_length_le h]

theorem monotone_offset (spelling : Lexeme → List UInt8) (lexemes : List Lexeme) :
    Monotone (offset spelling lexemes) := by
  apply monotone_nat_of_le_succ
  intro i
  rw [offset, offset, List.take_add_one, List.flatMap_append, List.length_append]
  exact Nat.le_add_right _ _

/-- Some piece in front of offset `k` holds the byte at `j`. -/
theorem exists_offset_le (h : j < offset spelling lexemes k) :
    ∃ i < k, offset spelling lexemes i ≤ j ∧ j < offset spelling lexemes (i + 1) := by
  induction k with
  | zero => exact absurd h (Nat.not_lt_zero j)
  | succ k ih =>
      by_cases hk : j < offset spelling lexemes k
      · obtain ⟨i, hi, hplace⟩ := ih hk
        exact ⟨i, Nat.lt_succ_of_lt hi, hplace⟩
      · exact ⟨k, Nat.lt_succ_self k, Nat.le_of_not_lt hk, h⟩

theorem exists_holds (h : j < (lexemes.flatMap spelling).length) :
    ∃ i, Holds spelling lexemes i j := by
  rw [← offset_of_length_le (Nat.le_refl _)] at h
  obtain ⟨i, hi, hle, hlt⟩ := exists_offset_le h
  exact ⟨i, hi, hle, hlt⟩

/-- Later bytes are held by later pieces. -/
theorem Holds.le_of_le {i' j' : Nat} (h : Holds spelling lexemes i j)
    (h' : Holds spelling lexemes i' j') (hle : j ≤ j') : i ≤ i' := by
  by_contra hlt
  have hmono := monotone_offset spelling lexemes (show i' + 1 ≤ i by omega)
  have hi := h.offset_le
  have hi' := h'.lt_offset
  omega

theorem Holds.unique {i' : Nat} (h : Holds spelling lexemes i j)
    (h' : Holds spelling lexemes i' j) : i = i' :=
  Nat.le_antisymm (h.le_of_le h' (Nat.le_refl j)) (h'.le_of_le h (Nat.le_refl j))

/-- Every piece is written with at least one byte. -/
theorem offset_text_lt (h : i < lexemes.length) :
    offset text lexemes i < (lexemes.flatMap text).length := by
  have htext : 0 < lexemes[i].text.length := by
    cases lexemes[i] <;> simp [text]
  calc offset text lexemes i
      < offset text lexemes i + lexemes[i].text.length := Nat.lt_add_of_pos_right htext
    _ = offset text lexemes (i + 1) := (offset_succ (List.getElem?_eq_getElem h)).symm
    _ ≤ offset text lexemes lexemes.length := monotone_offset text lexemes h
    _ = (lexemes.flatMap text).length := offset_of_length_le (Nat.le_refl _)

/-! ### Tokens and their origins -/

theorem tokensAt_append (pos : Nat) (xs ys : List Lexeme) :
    tokensAt pos (xs ++ ys) = tokensAt pos xs ++ tokensAt (pos + (xs.flatMap text).length) ys := by
  induction xs generalizing pos with
  | nil => rfl
  | cons x xs ih =>
      rw [List.cons_append, tokensAt, tokensAt, ih, List.flatMap_cons, List.length_append,
        Nat.add_assoc, List.cons_append]

/-- The tokens around the one of the piece with index `i`. -/
theorem tokensAt_eq_append (h : i < lexemes.length) :
    tokensAt 0 lexemes = tokensAt 0 (lexemes.take i) ++ (offset text lexemes i, lexemes[i].token) ::
      tokensAt (offset text lexemes i + lexemes[i].text.length) (lexemes.drop (i + 1)) := by
  conv_lhs => rw [← List.take_append_drop i lexemes, tokensAt_append, Nat.zero_add,
    List.drop_eq_getElem_cons h, tokensAt]
  rfl

end Lexeme

namespace Dialect

open Lexeme (Holds offset)

theorem length_origins (d : Dialect) : d.origins.length = d.bytes.length := by
  simp [origins, bytes, List.length_flatMap]

theorem patternOffset_of_length_le {d : Dialect} {j : Nat} (h : d.bytes.length ≤ j) :
    d.patternOffset j = d.patternLength := by
  rw [patternOffset, List.getElem?_eq_none (by rwa [length_origins]), Option.getD_none]

theorem exists_pieces {pattern : String} {d : Dialect} (hd : expand pattern = .ok d) :
    ∃ lexemes, Lexeme.Split pattern.toUTF8.toList lexemes ∧
      d.tokens = Lexeme.tokensAt 0 lexemes ∧
      d.patternLength = (lexemes.flatMap Lexeme.text).length := by
  obtain ⟨tokens, htokens, heq⟩ := Outcome.bind_eq_ok.mp hd
  obtain ⟨lexemes, hsplit⟩ := Lexeme.exists_split htokens
  cases heq
  refine ⟨lexemes, hsplit, Except.ok.inj (htokens.symm.trans (hsplit.readAll_eq 0)), ?_⟩
  rw [← hsplit.bytes_eq]

section Pieces

variable {d : Dialect} {lexemes : List Lexeme} {i j : Nat}

/-- A byte of the expanded form comes from the piece whose expansion holds it. -/
theorem patternOffset_of_holds (h : d.tokens = Lexeme.tokensAt 0 lexemes)
    (hj : Holds Lexeme.expansion lexemes i j) :
    d.patternOffset j = offset Lexeme.text lexemes i := by
  have hi := hj.index_lt
  have hle := hj.offset_le
  have hlt := hj.lt_offset
  rw [Lexeme.offset_succ (List.getElem?_eq_getElem hi)] at hlt
  let before : Dialect := ⟨0, Lexeme.tokensAt 0 (lexemes.take i)⟩
  have hbefore : before.origins.length = offset Lexeme.expansion lexemes i := by
    rw [before.length_origins, bytes_of_tokensAt rfl]
    rfl
  -- The origins in front of the piece, those of the piece and those behind it.
  have horigins : d.origins = before.origins ++
      (List.replicate lexemes[i].expansion.length (offset Lexeme.text lexemes i) ++
        (Lexeme.tokensAt (offset Lexeme.text lexemes i + lexemes[i].text.length)
          (lexemes.drop (i + 1))).flatMap fun t => List.replicate t.2.expansion.length t.1) := by
    rw [origins, h, Lexeme.tokensAt_eq_append hi, List.flatMap_append, List.flatMap_cons]
    rfl
  rw [patternOffset, horigins, List.getElem?_append_right (by omega),
    List.getElem?_append_left (by rw [List.length_replicate]; omega),
    List.getElem?_replicate_of_lt (by omega), Option.getD_some]

variable (htokens : d.tokens = Lexeme.tokensAt 0 lexemes)
  (hlength : d.patternLength = (lexemes.flatMap Lexeme.text).length)
include htokens hlength

theorem patternOffset_lt (hj : j < d.bytes.length) : d.patternOffset j < d.patternLength := by
  rw [bytes_of_tokensAt htokens] at hj
  obtain ⟨i, hi⟩ := Lexeme.exists_holds hj
  rw [patternOffset_of_holds htokens hi, hlength]
  exact Lexeme.offset_text_lt hi.index_lt

theorem patternOffset_le (j : Nat) : d.patternOffset j ≤ d.patternLength := by
  by_cases hj : j < d.bytes.length
  · exact Nat.le_of_lt (patternOffset_lt htokens hlength hj)
  · exact Nat.le_of_eq (patternOffset_of_length_le (Nat.le_of_not_lt hj))

theorem monotone_patternOffset : Monotone d.patternOffset := by
  intro j k hjk
  by_cases hk : k < d.bytes.length
  · rw [bytes_of_tokensAt htokens] at hk
    obtain ⟨i, hi⟩ := Lexeme.exists_holds (Nat.lt_of_le_of_lt hjk hk)
    obtain ⟨i', hi'⟩ := Lexeme.exists_holds hk
    rw [patternOffset_of_holds htokens hi, patternOffset_of_holds htokens hi']
    exact Lexeme.monotone_offset Lexeme.text lexemes (hi.le_of_le hi' hjk)
  · rw [patternOffset_of_length_le (Nat.le_of_not_lt hk)]
    exact patternOffset_le htokens hlength j

end Pieces

end Dialect

/-! ### Where the parser stops -/

namespace Parser

/-- The text can be continued to one that the parser accepts. -/
def Viable (u : List UInt8) : Prop := ∃ w t, parse (u ++ w) = .ok t

/-- What is before the offset can be continued to an accepted text, but no longer with the byte at
the offset. -/
structure StopsAt (d : List UInt8) (k : Nat) : Prop where
  le_length : k ≤ d.length
  viable : Viable (d.take k)
  refused : k < d.length → ¬Viable (d.take (k + 1))

theorem Viable.of_append {u v : List UInt8} (h : Viable (u ++ v)) : Viable u := by
  obtain ⟨w, t, ht⟩ := h
  exact ⟨v ++ w, t, by rwa [← List.append_assoc]⟩

/-- A text is stopped at in one place. -/
theorem StopsAt.unique {d : List UInt8} {k k' : Nat} (h : StopsAt d k) (h' : StopsAt d k') :
    k = k' := by
  have hle : ∀ {k k'}, StopsAt d k → StopsAt d k' → k' ≤ k := by
    intro k k' h h'
    by_contra hlt
    have hk := h'.le_length
    refine h.refused (by omega) (Viable.of_append (v := (d.take k').drop (k + 1)) ?_)
    have htake : d.take (k + 1) = (d.take k').take (k + 1) := by
      rw [List.take_take, Nat.min_eq_left (by omega)]
    rw [htake, List.take_append_drop]
    exact h'.viable
  exact Nat.le_antisymm (hle h' h) (hle h h')

/-- A frame with a term can be closed. -/
theorem Frame.exists_close {f : Frame} (hf : f.terms ≠ []) (span : Span) (pos : Nat) :
    ∃ t, f.close span pos = .ok t := by
  unfold Frame.close Frame.alternative
  cases hterms : f.terms with
  | nil => exact absurd hterms hf
  | cons t terms => exact ⟨_, rfl⟩

theorem exists_read_closers (outer : List Frame) {f : Frame} (hf : f.terms ≠ []) (pos : Nat) :
    ∃ t, read pos f outer (List.replicate outer.length Ascii.closeParen) = .ok t := by
  induction outer generalizing f pos with
  | nil => exact Frame.exists_close hf _ _
  | cons parent outer ih =>
      obtain ⟨group, hclose⟩ := Frame.exists_close hf ⟨f.opened, pos + 1⟩ pos
      rw [List.length_cons, List.replicate_succ, read_close hclose]
      exact ih (by simp [Frame.push]) _

/-- Whatever has been read, one more letter and the missing parentheses complete it. -/
theorem exists_completion (pos : Nat) (f : Frame) (outer : List Frame) :
    ∃ w t, read pos f outer w = .ok t := by
  obtain ⟨t, ht⟩ := exists_read_closers outer (f := f.push (.text ⟨pos, pos + 1⟩ (.byte 97)))
    (by simp [Frame.push]) (pos + 1)
  refine ⟨97 :: List.replicate outer.length Ascii.closeParen, t, ?_⟩
  rw [read_literal pos f outer (by decide)]
  exact ht

/-- The parser stops where it refuses the next byte, whatever follows that byte. -/
theorem stopsAt_of_refused {u bytes : List UInt8} {pos : Nat} {f : Frame} {outer : List Frame}
    (hu : ∀ w, parse (u ++ w) = read pos f outer w)
    (hbytes : ∀ b ∈ bytes.head?, ∀ w, ∃ fault, read pos f outer (b :: w) = .error fault) :
    StopsAt (u ++ bytes) u.length := by
  refine ⟨by simp, ?_, ?_⟩
  · obtain ⟨w, t, ht⟩ := exists_completion pos f outer
    rw [List.take_left]
    exact ⟨w, t, (hu w).trans ht⟩
  · intro hlt
    cases bytes with
    | nil => simp at hlt
    | cons b rest =>
        rintro ⟨w, t, ht⟩
        obtain ⟨fault, hfault⟩ := hbytes b rfl w
        have htake : (u ++ b :: rest).take (u.length + 1) ++ w = u ++ b :: w := by
          rw [List.take_length_add_append]
          simp
        rw [htake, hu, hfault] at ht
        cases ht

/-- A byte other than a backslash leads on to other frames or is refused, whatever follows it. -/
theorem read_step {b : UInt8} (hb : b ≠ Ascii.backslash) (pos : Nat) (f : Frame)
    (outer : List Frame) :
    (∃ g outer', ∀ rest, read pos f outer (b :: rest) = read (pos + 1) g outer' rest) ∨
      ∃ cause, ∀ rest, read pos f outer (b :: rest) = .error ⟨cause, pos⟩ := by
  simp only [read_cons pos f outer hb]
  split
  · exact .inl ⟨_, _, fun _ => rfl⟩
  · split
    · cases hclose : f.close ⟨f.opened, pos + 1⟩ pos with
      | error fault =>
          rw [Frame.eq_of_close_error hclose]
          exact .inr ⟨_, fun _ => rfl⟩
      | ok group =>
          cases outer with
          | nil => exact .inr ⟨_, fun _ => rfl⟩
          | cons parent outer => exact .inl ⟨_, _, fun _ => rfl⟩
    · split
      · cases hbar : f.bar pos with
        | error fault =>
            rw [Frame.eq_of_bar_error hbar]
            exact .inr ⟨_, fun _ => rfl⟩
        | ok next => exact .inl ⟨_, _, fun _ => rfl⟩
      · split
        · cases hpost : applyPostfix b pos f with
          | error fault =>
              rw [eq_of_applyPostfix_error hpost]
              exact .inr ⟨_, fun _ => rfl⟩
          | ok next => exact .inl ⟨_, _, fun _ => rfl⟩
        · split
          · exact .inl ⟨_, _, fun _ => rfl⟩
          · exact .inl ⟨_, _, fun _ => rfl⟩

/-- What is missing at the end is reported at the end. -/
theorem offset_of_read_nil {pos : Nat} {f : Frame} {outer : List Frame} {fault : PatternFault}
    (h : read pos f outer [] = .error fault) : fault.offset = pos := by
  cases outer with
  | nil => rw [Frame.eq_of_close_error h]
  | cons parent outer =>
      cases Outcome.bind_eq_error.mp h with
      | inl herror => rw [Frame.eq_of_alternative_error herror]
      | inr hmissing =>
          obtain ⟨_, _, heq⟩ := hmissing
          cases heq
          rfl

/-- A fault other than an escape at the end is found where the parser stops. The invariant is that
reading on from the frames is parsing the whole text. -/
theorem stopsAt_of_read {u bytes : List UInt8} {pos : Nat} {f : Frame} {outer : List Frame}
    {fault : PatternFault} (hu : ∀ w, parse (u ++ w) = read pos f outer w) (hpos : u.length = pos)
    (h : read pos f outer bytes = .error fault) (hcause : fault.cause ≠ .trailingEscape) :
    StopsAt (u ++ bytes) fault.offset := by
  match bytes, h with
  | [], h =>
      rw [offset_of_read_nil h, ← hpos]
      exact stopsAt_of_refused hu (by simp)
  | b :: rest, h =>
      by_cases hb : b = Ascii.backslash
      · subst hb
        cases rest with
        | nil =>
            cases h
            exact absurd rfl hcause
        | cons c rest =>
            rw [read_escaped] at h
            have hstops := stopsAt_of_read (u := u ++ [Ascii.backslash, c])
              (fun w => by rw [List.append_assoc, hu]; exact read_escaped pos f outer c w)
              (by simp [hpos]) h hcause
            rwa [List.append_assoc] at hstops
      · cases read_step hb pos f outer with
        | inl hnext =>
            obtain ⟨g, outer', hnext⟩ := hnext
            rw [hnext] at h
            have hstops := stopsAt_of_read (u := u ++ [b])
              (fun w => by rw [List.append_assoc, hu]; exact hnext w) (by simp [hpos]) h hcause
            rwa [List.append_assoc] at hstops
        | inr hrefuse =>
            obtain ⟨cause, hrefuse⟩ := hrefuse
            rw [hrefuse] at h
            cases h
            subst hpos
            refine stopsAt_of_refused hu fun c hc w => ?_
            cases hc
            exact ⟨_, hrefuse w⟩
termination_by bytes.length

/-- Any fault of the expanded form of a pattern is found where the parser stops. -/
theorem stopsAt_of_parse {d : List UInt8} {fault : PatternFault} (h : parse d = .error fault)
    (hcause : fault.cause ≠ .trailingEscape) : StopsAt d fault.offset :=
  stopsAt_of_read (u := []) parse_eq_read rfl ((parse_eq_read d).symm.trans h) hcause

end Parser

/-- Each byte of the expanded form has one origin, which is where the piece starts whose expansion
holds the byte; behind the end it is the end of the pattern. So origins ascend, and a fault of the
expanded form is reported where the piece starts at whose expansion the parser stops, or at the end
of the pattern if it stops at the end. -/
theorem faults_point_at_pieces {pattern : String} {d : Dialect}
    (hd : Dialect.expand pattern = .ok d) :
    d.origins.length = d.bytes.length ∧ Monotone d.patternOffset ∧
    (∀ j, d.patternOffset j ≤ pattern.utf8ByteSize) ∧
    (∀ j, d.patternOffset j = pattern.utf8ByteSize ↔ d.bytes.length ≤ j) ∧
    ∃ lexemes, (∀ other, Lexeme.Split pattern.toUTF8.toList other ↔ other = lexemes) ∧
      pattern.toUTF8.toList = lexemes.flatMap Lexeme.text ∧
      d.bytes = lexemes.flatMap Lexeme.expansion ∧
      (∀ j < d.bytes.length, ∃ i, (∀ k, Lexeme.Holds Lexeme.expansion lexemes k j ↔ k = i) ∧
        d.patternOffset j = Lexeme.offset Lexeme.text lexemes i) ∧
      ∀ e, d.parse = .error e → ∃ fault, Parser.parse d.bytes = .error fault ∧
        (∀ k, Parser.StopsAt d.bytes k ↔ k = fault.offset) ∧
        ∃ offset, e = .pattern ⟨fault.cause, offset⟩ ∧
          ((fault.offset = d.bytes.length ∧ offset = pattern.utf8ByteSize) ∨
            ∃ i, Lexeme.Holds Lexeme.expansion lexemes i fault.offset ∧
              offset = Lexeme.offset Lexeme.text lexemes i) := by
  obtain ⟨lexemes, hsplit, htokens, hlength⟩ := Dialect.exists_pieces hd
  have hsize : d.patternLength = pattern.utf8ByteSize := by
    rw [hlength, ← hsplit.bytes_eq, length_toList_toUTF8]
  have hbytes := Dialect.bytes_of_tokensAt htokens
  have hbehind : ∀ j, d.bytes.length ≤ j → d.patternOffset j = pattern.utf8ByteSize :=
    fun j hj => (Dialect.patternOffset_of_length_le hj).trans hsize
  have hinside : ∀ j < d.bytes.length, ∃ i, Lexeme.Holds Lexeme.expansion lexemes i j ∧
      d.patternOffset j = Lexeme.offset Lexeme.text lexemes i := by
    intro j hj
    rw [hbytes] at hj
    obtain ⟨i, hi⟩ := Lexeme.exists_holds hj
    exact ⟨i, hi, Dialect.patternOffset_of_holds htokens hi⟩
  refine ⟨d.length_origins, Dialect.monotone_patternOffset htokens hlength,
    fun j => hsize ▸ Dialect.patternOffset_le htokens hlength j, fun j => ⟨?_, hbehind j⟩,
    lexemes, fun other => ⟨fun h => h.unique hsplit, fun h => h ▸ hsplit⟩, hsplit.bytes_eq, hbytes,
    ?_, ?_⟩
  · intro heq
    by_contra hj
    have hlt := Dialect.patternOffset_lt htokens hlength (Nat.lt_of_not_le hj)
    omega
  · intro j hj
    obtain ⟨i, hi, hoffset⟩ := hinside j hj
    exact ⟨i, fun k => ⟨fun hk => hk.unique hi, fun hk => hk ▸ hi⟩, hoffset⟩
  · intro e he
    unfold Dialect.parse at he
    split at he
    · cases he
    · rename_i fault hfault
      cases he
      have hcause : fault.cause ≠ .trailingEscape := by
        intro hcause
        refine (Dialect.parse_alike hd hsplit
          (show (97 : UInt8) ∉ Parser.reserved by decide)).ne_trailingEscape fault.offset ?_
        rw [hfault, ← hcause]
      have hstops := Parser.stopsAt_of_parse hfault hcause
      refine ⟨fault, hfault, fun k => ⟨fun hk => hk.unique hstops, fun hk => hk ▸ hstops⟩, _, rfl,
        ?_⟩
      cases Nat.eq_or_lt_of_le hstops.le_length with
      | inl hend => exact .inl ⟨hend, hbehind _ hend.ge⟩
      | inr hlt => exact .inr (hinside _ hlt)

theorem fault_points_at_closing_piece :
    ∃ d, Dialect.expand "[ab]|)" = .ok d ∧ d.bytes.length = 7 ∧
      Parser.parse d.bytes = .error ⟨.emptyAlternative, 6⟩ ∧ Parser.StopsAt d.bytes 6 ∧
      d.parse = .error (.pattern ⟨.emptyAlternative, 5⟩) ∧ d.patternOffset 7 = 6 := by
  have hexpand : (Dialect.expand "[ab]|)").toOption.any (fun d => decide
      (d = ⟨6, [(0, .oneOf false [97, 98]), (4, .plain 124), (5, .plain 41)]⟩)) = true := by
    decide +kernel
  obtain ⟨d, hd, htest⟩ := Outcome.exists_ok_of_any hexpand
  obtain ⟨_, _, _, hend, _, _, _, _, _, hfaults⟩ := faults_point_at_pieces hd
  obtain rfl := of_decide_eq_true htest
  have hread := Parser.parse_eq_read [40, 97, 124, 98, 41, 124, 41]
  have hparse : Dialect.parse ⟨6, [(0, .oneOf false [97, 98]), (4, .plain 124), (5, .plain 41)]⟩ =
      .error (.pattern ⟨.emptyAlternative, 5⟩) := by
    rw [Dialect.parse, Parser.parse_eq_read]
    rfl
  obtain ⟨fault, hfault, hstops, _⟩ := hfaults _ hparse
  cases hread.symm.trans hfault
  exact ⟨_, hd, rfl, hread, (hstops 6).mpr rfl, hparse, (hend 7).mpr (by decide)⟩

end PatternCircuit

import PatternCircuit.Proofs.LabelKey
import PatternCircuit.Proofs.Pattern.Parser

/-! # Bytes and symbols of a pattern

The symbols of a pattern's words are leaves of its tree. A byte among them is written in the pattern
itself, or it is a letter, a digit, a blank or an operator, which classes and the dialect supply. -/

namespace PatternCircuit

open scoped Computability

/-! ### Bytes of a text -/

/-- The highest codes never occur in an encoded text. -/
theorem lt_of_mem_toUTF8 {s : String} {b : UInt8} (h : b ∈ s.toUTF8.toList) : b < 248 := by
  have hcode : ∀ n < 248, UInt8.ofNat n < 248 := by
    intro n hn
    rw [UInt8.lt_iff_toNat_lt, UInt8.toNat_ofNat_of_lt' (by show n < 256; omega)]
    exact hn
  rw [toList_toUTF8, List.mem_flatMap] at h
  obtain ⟨c, _, hb⟩ := h
  dsimp only [String.utf8EncodeChar] at hb
  split at hb
  · rw [List.mem_singleton.mp hb]
    exact hcode _ (by omega)
  · split at hb
    · simp only [List.mem_cons, List.not_mem_nil, or_false] at hb
      rcases hb with rfl | rfl
      all_goals exact hcode _ (by omega)
    · split at hb
      · simp only [List.mem_cons, List.not_mem_nil, or_false] at hb
        rcases hb with rfl | rfl | rfl
        all_goals exact hcode _ (by omega)
      · simp only [List.mem_cons, List.not_mem_nil, or_false] at hb
        rcases hb with rfl | rfl | rfl | rfl
        all_goals exact hcode _ (by omega)

/-! ### Bytes of tokens -/

theorem Ascii.isSome_family?_iff {b : UInt8} : (family? b).isSome = true ↔
    (48 ≤ b ∧ b ≤ 57) ∨ (97 ≤ b ∧ b ≤ 122) ∨ (65 ≤ b ∧ b ≤ 90) := by
  unfold family?
  grind

/-- What lies between two members of a family belongs to it. -/
theorem Ascii.isSome_family?_of_between {lo hi b : UInt8} (hsome : (family? lo).isSome = true)
    (hsame : family? lo = family? hi) (hlo : lo ≤ b) (hhi : b ≤ hi) :
    (family? b).isSome = true := by
  unfold family? at *
  simp only [Bool.and_eq_true, decide_eq_true_eq, UInt8.le_iff_toNat_le] at *
  grind

namespace Token

/-- Bytes that can stand in the dialect of a pattern though the pattern does not hold them. -/
def Supplied (b : UInt8) : Prop :=
  (Ascii.family? b).isSome = true ∨ b ∈ [9, 10, 11, 12, 13, 32, 95] ∨ b ∈ operators

instance (b : UInt8) : Decidable (Supplied b) :=
  inferInstanceAs (Decidable ((Ascii.family? b).isSome = true ∨
    b ∈ [9, 10, 11, 12, 13, 32, 95] ∨ b ∈ operators))

theorem supplied_of_shorthand? {letter b : UInt8} {members : List UInt8}
    (h : shorthand? letter = some members) (hb : b ∈ members) : Supplied b := by
  unfold shorthand? at h
  split at h
  · cases h
    rw [ByteSet.mem_interval] at hb
    exact .inl (Ascii.isSome_family?_iff.mpr (.inl hb))
  · split at h
    · cases h
      simp only [List.mem_append, ByteSet.mem_interval, List.mem_singleton] at hb
      rcases hb with ((hdigit | hupper) | rfl) | hlower
      · exact .inl (Ascii.isSome_family?_iff.mpr (.inl hdigit))
      · exact .inl (Ascii.isSome_family?_iff.mpr (.inr (.inr hupper)))
      · exact .inr (.inl (by decide))
      · exact .inl (Ascii.isSome_family?_iff.mpr (.inr (.inl hlower)))
    · split at h
      · cases h
        refine .inr (.inl ?_)
        simp only [List.mem_cons, List.not_mem_nil, or_false] at hb ⊢
        tauto
      · cases h

theorem supplied_of_control? {letter code : UInt8} (h : control? letter = some code) :
    Supplied code := by
  unfold control? at h
  repeat' split at h
  all_goals cases h
  all_goals decide

/-- A byte that an escape stands for is the letter itself or supplied. -/
theorem eq_or_supplied_of_escapedMembers {letter b : UInt8} (h : b ∈ escapedMembers letter) :
    b = letter ∨ Supplied b := by
  unfold escapedMembers at h
  split at h
  · rename_i hmembers
    exact .inr (supplied_of_shorthand? hmembers h)
  · rw [List.mem_singleton] at h
    cases hcode : control? letter with
    | none =>
        rw [hcode] at h
        exact .inl h
    | some code =>
        rw [hcode] at h
        exact .inr (h ▸ supplied_of_control? hcode)

/-- The members of a class stand in the text or are supplied, and what follows is part of the
text. -/
theorem mem_of_classMembers {opened pos stop : Nat} {bytes members rest : List UInt8}
    (h : classMembers opened pos bytes = .ok (members, stop, rest)) :
    (∀ b ∈ members, b ∈ bytes ∨ Supplied b) ∧ rest ⊆ bytes := by
  fun_induction classMembers opened pos bytes generalizing members stop rest with
  | case1 => cases h
  | case2 =>
      cases h
      simp
  | case3 => cases h
  | case4 pos letter tail ih =>
      obtain ⟨⟨ms, st, rs⟩, hr, he⟩ := Outcome.bind_eq_ok.mp h
      obtain ⟨hmembers, hrest⟩ := ih hr
      cases he
      refine ⟨?_, fun b hb => by simp [hrest hb]⟩
      intro b hb
      rcases List.mem_append.mp hb with hescaped | hb
      · rcases eq_or_supplied_of_escapedMembers hescaped with rfl | hsupplied
        · simp
        · exact .inr hsupplied
      · exact (hmembers b hb).imp_left fun hmem => by simp [hmem]
  | case5 => cases h
  | case6 pos lo dash hi tail _ _ hrange hfault ih =>
      obtain ⟨⟨ms, st, rs⟩, hr, he⟩ := Outcome.bind_eq_ok.mp h
      obtain ⟨hmembers, hrest⟩ := ih hr
      cases he
      refine ⟨?_, fun b hb => by simp [hrest hb]⟩
      intro b hb
      rcases List.mem_append.mp hb with hbetween | hb
      · obtain ⟨_, hfamily, _⟩ := isRange_iff.mp hrange
        rw [ByteSet.mem_interval] at hbetween
        exact .inr (.inl (Ascii.isSome_family?_of_between hfamily
          (rangeFault?_eq_none.mp hfault).1 hbetween.1 hbetween.2))
      · exact (hmembers b hb).imp_left fun hmem => by simp [hmem]
  | case7 pos lo dash hi tail _ _ _ ih =>
      obtain ⟨⟨ms, st, rs⟩, hr, he⟩ := Outcome.bind_eq_ok.mp h
      obtain ⟨hmembers, hrest⟩ := ih hr
      cases he
      refine ⟨?_, fun b hb => List.mem_cons_of_mem lo (hrest hb)⟩
      intro b hb
      rcases List.mem_cons.mp hb with rfl | hb
      · simp
      · exact (hmembers b hb).imp_left (List.mem_cons_of_mem lo)
  | case8 pos byte tail _ _ _ _ ih =>
      obtain ⟨⟨ms, st, rs⟩, hr, he⟩ := Outcome.bind_eq_ok.mp h
      obtain ⟨hmembers, hrest⟩ := ih hr
      cases he
      refine ⟨?_, fun b hb => List.mem_cons_of_mem byte (hrest hb)⟩
      intro b hb
      rcases List.mem_cons.mp hb with rfl | hb
      · simp
      · exact (hmembers b hb).imp_left (List.mem_cons_of_mem byte)

theorem mem_of_mem_distinct {seen : ByteSet} {bytes : List UInt8} {b : UInt8}
    (h : b ∈ distinct seen bytes) : b ∈ bytes := by
  induction bytes generalizing seen with
  | nil => cases h
  | cons c bytes ih =>
      rw [distinct] at h
      split at h
      · exact List.mem_cons_of_mem c (ih h)
      · rcases List.mem_cons.mp h with rfl | h
        · simp
        · exact List.mem_cons_of_mem c (ih h)

theorem mem_of_readClass {opened stop : Nat} {bytes rest : List UInt8} {token : Token}
    (h : readClass opened bytes = .ok (token, stop, rest)) :
    (∃ negated members, token = oneOf negated members ∧ ∀ b ∈ members, b ∈ bytes ∨ Supplied b) ∧
      rest ⊆ bytes := by
  obtain ⟨⟨members, st, rs⟩, hread, he⟩ := Outcome.bind_eq_ok.mp h
  obtain ⟨hmembers, hrest⟩ := mem_of_classMembers hread
  have hsub : (negation bytes).2 ⊆ bytes := by
    unfold negation
    split
    · exact List.subset_cons_self _ _
    · exact List.Subset.refl _
  dsimp only at he
  split at he
  · cases he
  · cases he
    refine ⟨⟨_, _, rfl, fun b hb => ?_⟩, List.Subset.trans hrest hsub⟩
    exact (hmembers b (mem_of_mem_distinct hb)).imp_left fun hmem => hsub hmem

theorem mem_of_mem_intercalate {separator : List UInt8} {parts : List (List UInt8)} {b : UInt8}
    (h : b ∈ List.intercalate separator parts) : b ∈ separator ∨ ∃ part ∈ parts, b ∈ part := by
  induction parts with
  | nil => cases h
  | cons part parts ih =>
      cases parts with
      | nil =>
          rw [List.intercalate_singleton] at h
          exact .inr ⟨part, by simp, h⟩
      | cons next parts =>
          rw [List.intercalate_cons_cons, List.mem_append, List.mem_append] at h
          rcases h with (h | h) | h
          · exact .inr ⟨part, by simp, h⟩
          · exact .inl h
          · exact (ih h).imp_right fun ⟨p, hp, hb⟩ => ⟨p, List.mem_cons_of_mem part hp, hb⟩

theorem mem_of_mem_spell {a : Symbol} {b : UInt8} (h : b ∈ spell a) :
    a = .byte b ∨ b ∈ operators := by
  cases a with
  | negate =>
      cases List.mem_singleton.mp h
      exact .inr (by decide)
  | byte c =>
      dsimp only [spell, member] at h
      split at h
      · rcases List.mem_cons.mp h with rfl | h
        · exact .inr (by decide)
        · exact .inl (congrArg Symbol.byte (List.mem_singleton.mp h).symm)
      · exact .inl (congrArg Symbol.byte (List.mem_singleton.mp h).symm)

/-- The bytes by which a class is written are members or operators. -/
theorem mem_of_mem_expansion_oneOf {negated : Bool} {members : List UInt8} {b : UInt8}
    (h : b ∈ (oneOf negated members).expansion) : b ∈ members ∨ b ∈ operators := by
  rw [expansion, alternatives_eq, List.mem_cons, List.mem_append, List.mem_singleton] at h
  rcases h with rfl | hb | rfl
  · exact .inr (by decide)
  · rcases mem_of_mem_intercalate hb with hbar | ⟨part, hpart, hb⟩
    · rw [List.mem_singleton.mp hbar]
      exact .inr (by decide)
    · obtain ⟨a, ha, rfl⟩ := List.mem_map.mp hpart
      rcases mem_of_mem_spell hb with rfl | hoperator
      · exact .inl (by cases negated <;> simpa [symbols] using ha)
      · exact .inr hoperator
  · exact .inr (by decide)

theorem mem_of_mem_expansion_ofEscape {letter b : UInt8} (h : b ∈ (ofEscape letter).expansion) :
    b = letter ∨ Supplied b := by
  unfold ofEscape at h
  split at h
  · rename_i hmembers
    rcases mem_of_mem_expansion_oneOf h with hb | hb
    · exact .inr (supplied_of_shorthand? hmembers hb)
    · exact .inr (.inr (.inr hb))
  · split at h
    · rename_i hcode
      rw [expansion, List.mem_singleton] at h
      exact .inr (h ▸ supplied_of_control? hcode)
    · rcases List.mem_cons.mp h with rfl | h
      · exact .inr (by decide)
      · exact .inl (List.mem_singleton.mp h)

/-- The bytes by which a pattern's tokens are written stand in the pattern or are supplied. -/
theorem mem_expansion_of_readAll {pos : Nat} {bytes : List UInt8} {tokens : List (Nat × Token)}
    (h : readAll pos bytes = .ok tokens) :
    ∀ t ∈ tokens, ∀ b ∈ t.2.expansion, b ∈ bytes ∨ Supplied b := by
  have hstep : ∀ {head : Nat × Token} {tail : List (Nat × Token)} {bytes rest : List UInt8},
      rest ⊆ bytes → (∀ b ∈ head.2.expansion, b ∈ bytes ∨ Supplied b) →
      (∀ t ∈ tail, ∀ b ∈ t.2.expansion, b ∈ rest ∨ Supplied b) →
      ∀ t ∈ head :: tail, ∀ b ∈ t.2.expansion, b ∈ bytes ∨ Supplied b := by
    intro head tail bytes rest hsub hhead htail t ht b hb
    rcases List.mem_cons.mp ht with rfl | ht
    · exact hhead b hb
    · exact (htail t ht b hb).imp_left fun hmem => hsub hmem
  fun_induction readAll pos bytes generalizing tokens with
  | case1 =>
      cases h
      simp
  | case2 => cases h
  | case3 pos letter rest ih =>
      obtain ⟨tail, htail, he⟩ := Outcome.bind_eq_ok.mp h
      cases he
      refine hstep (by simp) ?_ (ih htail)
      intro b hb
      exact (mem_of_mem_expansion_ofEscape hb).imp_left fun heq => by simp [heq]
  | case4 => cases h
  | case5 pos rest token stop tail hclass _ ih =>
      obtain ⟨tokens, htokens, he⟩ := Outcome.bind_eq_ok.mp h
      cases he
      obtain ⟨⟨negated, members, rfl, hmembers⟩, hsub⟩ := mem_of_readClass hclass
      refine hstep (List.subset_cons_of_subset _ hsub) ?_ (ih htokens)
      intro b hb
      rcases mem_of_mem_expansion_oneOf hb with hb | hb
      · exact (hmembers b hb).imp_left (List.mem_cons_of_mem _)
      · exact .inr (.inr (.inr hb))
  | case6 => cases h
  | case7 pos rest ih =>
      obtain ⟨tail, htail, he⟩ := Outcome.bind_eq_ok.mp h
      cases he
      refine hstep (List.subset_cons_self _ _) ?_ (ih htail)
      intro b hb
      rcases List.mem_cons.mp hb with rfl | hb
      · exact .inr (by decide)
      · exact .inl (by simp [List.mem_singleton.mp hb])
  | case8 pos byte bytes _ _ _ _ _ ih =>
      obtain ⟨tail, htail, he⟩ := Outcome.bind_eq_ok.mp h
      cases he
      refine hstep (List.subset_cons_self _ _) ?_ (ih htail)
      intro b hb
      exact .inl (by simp [List.mem_singleton.mp hb])

end Token

/-! ### Bytes of a tree -/

/-- The bytes in the words of a language have a property. -/
def OverBytes (P : UInt8 → Prop) (L : Language Symbol) : Prop := ∀ w ∈ L, ∀ b, .byte b ∈ w → P b

namespace OverBytes

variable {P : UInt8 → Prop} {M N : Language Symbol}

theorem one : OverBytes P 1 := by
  intro w hw
  rw [(Language.mem_one w).mp hw]
  simp

theorem add (hM : OverBytes P M) (hN : OverBytes P N) : OverBytes P (M + N) := by
  intro w hw
  exact hw.elim (hM w) (hN w)

theorem mul (hM : OverBytes P M) (hN : OverBytes P N) : OverBytes P (M * N) := by
  intro w hw b hb
  obtain ⟨u, hu, v, hv, rfl⟩ := Language.mem_mul.mp hw
  rcases List.mem_append.mp hb with hb | hb
  · exact hM u hu b hb
  · exact hN v hv b hb

theorem kstar (hM : OverBytes P M) : OverBytes P M∗ := by
  intro w hw b hb
  obtain ⟨words, rfl, hwords⟩ := Language.mem_kstar.mp hw
  obtain ⟨u, hu, hb⟩ := List.mem_flatten.mp hb
  exact hM u (hwords u hu) b hb

theorem sequence {parts : List Tree} (h : ∀ t ∈ parts, OverBytes P t.language) :
    OverBytes P (Tree.sequence parts) := by
  induction parts with
  | nil => exact one
  | cons part rest ih => exact (h part (by simp)).mul (ih fun t ht => h t (by simp [ht]))

theorem choice {parts : List Tree} (h : ∀ t ∈ parts, OverBytes P t.language) :
    OverBytes P (Tree.choice parts) := by
  induction parts with
  | nil => exact fun w hw => absurd hw (Language.notMem_zero w)
  | cons part rest ih => exact (h part (by simp)).add (ih fun t ht => h t (by simp [ht]))

end OverBytes

theorem Tree.closed_overBytes (P : UInt8 → Prop) : Closed fun t => OverBytes P t.language where
  empty _ := OverBytes.one
  cat _ _ _ hparts := OverBytes.sequence hparts
  alt _ _ _ hparts := OverBytes.choice hparts
  star _ _ hbody := hbody.kstar
  withSpan t s h := by
    cases t <;> exact h

namespace Parser

variable {P : UInt8 → Prop}

theorem overBytes_byte (span : Span) {b : UInt8} (hb : P b) :
    OverBytes P (Tree.text span (.byte b)).language := by
  intro w hw c hc
  obtain rfl : w = [.byte b] := hw
  cases List.mem_singleton.mp hc
  exact hb

theorem overBytes_negate (span : Span) : OverBytes P (Tree.text span .negate).language := by
  intro w hw c hc
  obtain rfl : w = [.negate] := hw
  cases List.mem_singleton.mp hc

/-- The words of a tree hold bytes of the text it was read from. -/
theorem overBytes_read {pos : Nat} {f : Frame} {outer : List Frame} {bytes : List UInt8} {t : Tree}
    (hf : f.All fun t => OverBytes P t.language)
    (houter : ∀ g ∈ outer, g.All fun t => OverBytes P t.language) (hbytes : ∀ b ∈ bytes, P b)
    (h : read pos f outer bytes = .ok t) : OverBytes P t.language := by
  have hclosed := Tree.closed_overBytes P
  fun_induction read pos f outer bytes with
  | case1 pos f => exact hf.close hclosed h
  | case2 =>
      obtain ⟨_, _, herror⟩ := Outcome.bind_eq_ok.mp h
      cases herror
  | case3 => cases h
  | case4 pos f outer b rest ih =>
      exact ih (hf.push (overBytes_byte _ (hbytes b (by simp)))) houter
        (fun c hc => hbytes c (by simp [hc])) h
  | case5 pos f outer rest _ _ ih =>
      refine ih (Frame.all_fresh _ _) ?_ (fun c hc => hbytes c (by simp [hc])) h
      intro g hg
      rcases List.mem_cons.mp hg with rfl | hg
      · exact hf
      · exact houter g hg
  | case6 pos f outer rest _ _ _ ih =>
      obtain ⟨group, hclose, hnext⟩ := Outcome.bind_eq_ok.mp h
      cases outer with
      | nil => cases hnext
      | cons parent outer =>
          refine ih group parent outer ?_ (fun g hg => houter g (by simp [hg]))
            (fun c hc => hbytes c (by simp [hc])) hnext
          exact (houter parent (by simp)).push (hclosed.withSpan _ _ (hf.close hclosed hclose))
  | case7 pos f outer rest _ _ _ _ ih =>
      obtain ⟨next, hbar, hnext⟩ := Outcome.bind_eq_ok.mp h
      exact ih next (hf.bar hclosed hbar) houter (fun c hc => hbytes c (by simp [hc])) hnext
  | case8 pos f outer operator rest _ _ _ _ _ _ ih =>
      obtain ⟨next, hpost, hnext⟩ := Outcome.bind_eq_ok.mp h
      exact ih next (hf.applyPostfix hclosed hpost) houter (fun c hc => hbytes c (by simp [hc]))
        hnext
  | case9 pos f outer rest _ _ _ _ _ _ ih =>
      exact ih (hf.push (overBytes_negate _)) houter (fun c hc => hbytes c (by simp [hc])) h
  | case10 pos f outer b rest _ _ _ _ _ _ _ ih =>
      exact ih (hf.push (overBytes_byte _ (hbytes b (by simp)))) houter
        (fun c hc => hbytes c (by simp [hc])) h

end Parser

/-- The bytes in the words of a pattern's tree stand in the pattern or are supplied. -/
theorem Tree.overBytes_ofPattern {pattern : String} {t : Tree}
    (h : Tree.ofPattern pattern = .ok t) :
    OverBytes (fun b => b ∈ pattern.toUTF8.toList ∨ Token.Supplied b) t.language := by
  obtain ⟨d, hd, hparse⟩ := Outcome.bind_eq_ok.mp h
  obtain ⟨tokens, htokens, heq⟩ := Outcome.bind_eq_ok.mp hd
  cases heq
  unfold Dialect.parse at hparse
  split at hparse
  · rename_i hread
    cases hparse
    rw [Parser.parse_eq_read] at hread
    refine Parser.overBytes_read (Parser.Frame.all_fresh 0 0) (by simp) ?_ hread
    intro b hb
    obtain ⟨token, htoken, hb⟩ := List.mem_flatMap.mp hb
    exact Token.mem_expansion_of_readAll htokens token htoken b hb
  · cases hparse

end PatternCircuit

import PatternCircuit.Proofs.Automaton.Canonical

/-! # The order of labels

A label lists its symbols in strictly ascending order, with the marker directly behind the caret.
Labels compare as these lists do, so the order tells labels apart, and whatever is sorted by it has
one ascending list only. -/

namespace PatternCircuit.Label

/-! ### The place of the marker -/

theorem compare_byte_byte (b c : UInt8) :
    compare (Symbol.byte b) (Symbol.byte c) = compare b.toNat c.toNat := by
  have hdouble : compare (2 * b.toNat) (2 * c.toNat) = compare b.toNat c.toNat := by
    rcases Nat.lt_trichotomy b.toNat c.toNat with h | h | h
    · rw [Nat.compare_eq_lt.mpr h, Nat.compare_eq_lt]
      omega
    · rw [Nat.compare_eq_eq.mpr h, Nat.compare_eq_eq]
      omega
    · rw [Nat.compare_eq_gt.mpr h, Nat.compare_eq_gt]
      omega
  exact hdouble

theorem compare_byte_negate (b : UInt8) :
    compare (Symbol.byte b) .negate = if b ≤ Ascii.caret then .lt else .gt := by
  have hrank : compare (Symbol.byte b) .negate =
      compare (2 * b.toNat) (2 * Ascii.caret.toNat + 1) := rfl
  rw [hrank]
  split
  · rename_i h
    rw [UInt8.le_iff_toNat_le] at h
    rw [Nat.compare_eq_lt]
    omega
  · rename_i h
    rw [UInt8.le_iff_toNat_le] at h
    rw [Nat.compare_eq_gt]
    omega

theorem symbols_pairwise (l : Label) : l.symbols.Pairwise (compare · · = .lt) :=
  (List.pairwise_map.mp l.ranks_pairwise).imp compare_symbol_eq_lt.mpr

/-- No symbol stands between the caret and the marker. -/
theorem caret_negate_infix {l : Label} (hnegated : l.negated = true)
    (hcaret : Ascii.caret ∈ l.bytes) : [.byte Ascii.caret, .negate] <:+: l.symbols := by
  have hranks := List.pairwise_map.mp l.ranks_pairwise
  have hmarker : Symbol.negate ∈ l.symbols := (l.mem_symbols _).mpr hnegated
  have hbyte : Symbol.byte Ascii.caret ∈ l.symbols := (l.mem_symbols _).mpr hcaret
  obtain ⟨front, back, hsplit⟩ := List.append_of_mem hmarker
  rw [hsplit, List.pairwise_append, List.pairwise_cons] at hranks
  obtain ⟨hfront, ⟨hback, _⟩, hbelow⟩ := hranks
  have hmem : Symbol.byte Ascii.caret ∈ front := by
    rw [hsplit, List.mem_append, List.mem_cons] at hbyte
    rcases hbyte with hin | heq | hin
    · exact hin
    · cases heq
    · have hlt := hback _ hin
      simp [Symbol.rank] at hlt
  obtain ⟨first, last, hfirst⟩ := List.append_of_mem hmem
  cases last with
  | nil =>
      refine ⟨first, back, ?_⟩
      rw [hsplit, hfirst]
      simp
  | cons a rest =>
      -- another symbol behind the caret would have a rank between two neighbours
      have hlt := hbelow a (by simp [hfirst]) .negate List.mem_cons_self
      rw [hfirst, List.pairwise_append, List.pairwise_cons] at hfront
      have hgt := hfront.2.1.1 a List.mem_cons_self
      simp only [Symbol.rank] at hlt hgt
      omega

/-! ### One ascending list -/

theorem le_iff_compare_ne_gt {l m : Label} : l.le m = true ↔ compare l m ≠ .gt := by
  rw [le]
  cases compare l m <;> simp

/-- A set of labels has one ascending list. -/
theorem sortBy_eraseDups_eq {ls ms : List Label} (h : ∀ l, l ∈ ls ↔ l ∈ ms) :
    sortBy le ls.eraseDups = sortBy le ms.eraseDups := by
  apply sortBy_eq_of_perm le_total le_trans le_antisymm
  refine (List.perm_ext_iff_of_nodup (nodup_eraseDups ls) (nodup_eraseDups ms)).mpr fun l => ?_
  rw [List.mem_eraseDups, List.mem_eraseDups, h]

/-- A label lists exactly its symbols, strictly ascending; bytes stand by their codes, the marker
directly behind the caret. Labels are compared by these lists. They compare as equal only when they
are equal, one way as the other way round, and transitively, so a set of labels and the edges of a
state have one ascending list each. -/
theorem enumeration_and_order (l m n : Label) :
    (∀ b, .byte b ∈ l.symbols ↔ b ∈ l.bytes) ∧
      (.negate ∈ l.symbols ↔ l.negated = true) ∧
      l.symbols.Pairwise (compare · · = .lt) ∧
      (∀ b c : UInt8, compare (Symbol.byte b) (.byte c) = compare b.toNat c.toNat) ∧
      (∀ b : UInt8, compare (Symbol.byte b) .negate = if b ≤ 94 then .lt else .gt) ∧
      (l.negated = true → 94 ∈ l.bytes → [.byte 94, .negate] <:+: l.symbols) ∧
      (compare l m = .eq ↔ l = m) ∧
      compare m l = (compare l m).swap ∧
      (compare l m = .lt → compare m n = .lt → compare l n = .lt) ∧
      (l.le m = true ↔ compare l m ≠ .gt) ∧
      (∀ ls ms : List Label, (∀ k, k ∈ ls ↔ k ∈ ms) →
        sortBy le ls.eraseDups = sortBy le ms.eraseDups) ∧
      (∀ es fs : List (Label × Nat), es.Perm fs →
        sortBy Dfa.edgeLe es = sortBy Dfa.edgeLe fs) := by
  refine ⟨fun b => l.mem_symbols (.byte b), l.mem_symbols .negate, l.symbols_pairwise,
    compare_byte_byte, compare_byte_negate, caret_negate_infix, Std.LawfulEqOrd.compare_eq_iff_eq,
    Std.OrientedOrd.eq_swap, Std.TransCmp.lt_trans, le_iff_compare_ne_gt,
    fun _ _ => sortBy_eraseDups_eq, fun _ _ => ?_⟩
  exact sortBy_eq_of_perm Dfa.edgeLe_total Dfa.edgeLe_trans Dfa.edgeLe_antisymm

example : symbols ⟨.ofList [97, 65, 94], true⟩ = [.byte 65, .byte 94, .negate, .byte 97] := by
  decide +kernel

end PatternCircuit.Label

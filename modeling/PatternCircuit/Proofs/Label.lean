import Mathlib.Data.List.Induction
import Mathlib.Data.List.Nodup
import PatternCircuit.Label
import PatternCircuit.Proofs.ByteSet
import PatternCircuit.Proofs.Sorting

/-! # Membership in labels, and the order of labels -/

namespace PatternCircuit

/-! ### Lists without repetitions -/

section EraseDups

variable {α : Type} [BEq α] [LawfulBEq α]

theorem eraseDups_concat (xs : List α) (x : α) :
    (xs ++ [x]).eraseDups = if x ∈ xs then xs.eraseDups else xs.eraseDups ++ [x] := by
  rw [List.eraseDups_append]
  split
  · rename_i hmem
    simp [List.removeAll, hmem]
  · rename_i hmem
    simp [List.removeAll, hmem, List.eraseDups_cons]

theorem eraseDups_sublist (xs : List α) : xs.eraseDups.Sublist xs := by
  induction xs using List.reverseRecOn with
  | nil => exact List.Sublist.refl _
  | append_singleton xs x ih =>
      rw [eraseDups_concat]
      split
      · exact ih.trans (List.sublist_append_left xs [x])
      · exact ih.append (List.Sublist.refl [x])

/-- The items are in the order of their first appearance. -/
theorem pairwise_idxOf_eraseDups (xs : List α) :
    xs.eraseDups.Pairwise fun a b => xs.idxOf a < xs.idxOf b := by
  induction xs using List.reverseRecOn with
  | nil => exact .nil
  | append_singleton xs x ih =>
      have hkeep : xs.eraseDups.Pairwise fun a b => (xs ++ [x]).idxOf a < (xs ++ [x]).idxOf b := by
        apply ih.imp_of_mem
        intro a b ha hb hlt
        rwa [List.idxOf_append_of_mem (List.mem_eraseDups.mp ha),
          List.idxOf_append_of_mem (List.mem_eraseDups.mp hb)]
      rw [eraseDups_concat]
      split
      · exact hkeep
      · rename_i hmem
        refine List.pairwise_append.mpr ⟨hkeep, List.pairwise_singleton _ _, ?_⟩
        intro a ha b hb
        rw [List.mem_singleton] at hb
        rw [List.idxOf_append_of_mem (List.mem_eraseDups.mp ha), hb,
          List.idxOf_append_of_notMem hmem]
        exact Nat.lt_add_right _ (List.idxOf_lt_length_iff.mpr (List.mem_eraseDups.mp ha))

theorem nodup_eraseDups (xs : List α) : xs.eraseDups.Nodup := by
  apply (pairwise_idxOf_eraseDups xs).imp
  intro a b hlt heq
  rw [heq] at hlt
  exact Nat.lt_irrefl _ hlt

end EraseDups

namespace Label

@[simp] theorem contains_empty (a : Symbol) : empty.contains a = false := by
  cases a <;> simp [contains, empty]

@[simp] theorem contains_insert (l : Label) (a c : Symbol) :
    (l.insert a).contains c = (l.contains c || decide (c = a)) := by
  cases a <;> cases c <;> simp [contains, insert]

@[simp] theorem contains_ofSymbol (a c : Symbol) : (ofSymbol a).contains c = decide (c = a) := by
  simp [ofSymbol]

theorem contains_foldl_insert (as : List Symbol) (l : Label) (c : Symbol) :
    (as.foldl insert l).contains c = (l.contains c || as.contains c) := by
  induction as generalizing l with
  | nil => simp
  | cons a rest ih => simp [ih, Bool.or_assoc]

@[simp] theorem contains_ofSymbols (as : List Symbol) (c : Symbol) :
    (ofSymbols as).contains c = as.contains c := by
  simp [ofSymbols, contains_foldl_insert]

@[simp] theorem contains_union (l m : Label) (a : Symbol) :
    (l.union m).contains a = (l.contains a || m.contains a) := by
  cases a <;> simp [contains, union]

theorem ext_contains {l m : Label} (h : ∀ a, l.contains a = m.contains a) : l = m :=
  Label.ext (ByteSet.ext_contains fun b => h (.byte b)) (h .negate)

theorem isEmpty_eq_false_iff (l : Label) : l.isEmpty = false ↔ ∃ a, l.contains a = true := by
  constructor
  · intro h
    by_contra hnone
    have hbytes : l.bytes.isEmpty = true := by
      rw [ByteSet.isEmpty_eq_true_iff]
      intro b
      exact Bool.eq_false_iff.mpr fun hb => hnone ⟨.byte b, hb⟩
    have hnegated : l.negated = false := Bool.eq_false_iff.mpr fun hn => hnone ⟨.negate, hn⟩
    simp [isEmpty, hbytes, hnegated] at h
  · rintro ⟨a, ha⟩
    rw [← Bool.not_eq_true, isEmpty, Bool.and_eq_true, ByteSet.isEmpty_eq_true_iff]
    rintro ⟨hbytes, hnegated⟩
    cases a with
    | byte b => simp [contains, hbytes b] at ha
    | negate =>
        rw [contains] at ha
        simp [ha] at hnegated

/-- Labels overlap when they share a symbol. -/
theorem overlaps_eq_true_iff (l m : Label) :
    l.overlaps m = true ↔ ∃ a, l.contains a = true ∧ m.contains a = true := by
  constructor
  · intro h
    rw [overlaps, Bool.or_eq_true, Bool.not_eq_true', Bool.and_eq_true] at h
    cases h with
    | inl hbytes =>
        rw [← Bool.not_eq_true, ByteSet.isEmpty_eq_true_iff, not_forall] at hbytes
        obtain ⟨b, hb⟩ := hbytes
        refine ⟨.byte b, ?_⟩
        simpa [contains] using hb
    | inr hnegated => exact ⟨.negate, hnegated⟩
  · rintro ⟨a, hl, hm⟩
    cases a with
    | byte b =>
        rw [overlaps, Bool.or_eq_true, Bool.not_eq_true', ← Bool.not_eq_true,
          ByteSet.isEmpty_eq_true_iff]
        refine .inl fun hnone => ?_
        have hb := hnone b
        rw [contains] at hl hm
        simp [hl, hm] at hb
    | negate =>
        rw [contains] at hl hm
        simp [overlaps, hl, hm]

/-- The union of the labels that `f` gives for the items of a list. -/
theorem contains_foldl_union {α : Type} (f : α → Label) (xs : List α) (l : Label) (a : Symbol) :
    (xs.foldl (fun l x => l.union (f x)) l).contains a =
      (l.contains a || xs.any fun x => (f x).contains a) := by
  induction xs generalizing l with
  | nil => simp
  | cons x rest ih => simp [ih, Bool.or_assoc]

/-! ### Symbols in order -/

theorem rank_injective : Function.Injective Symbol.rank := by
  intro a c h
  cases a with
  | negate =>
      cases c with
      | negate => rfl
      | byte c =>
          simp only [Symbol.rank] at h
          omega
  | byte b =>
      cases c with
      | negate =>
          simp only [Symbol.rank] at h
          omega
      | byte c =>
          simp only [Symbol.rank] at h
          exact congrArg Symbol.byte (UInt8.toNat_inj.mp (by omega))

instance : Std.TransOrd Symbol := inferInstanceAs (Std.TransCmp (compareOn Symbol.rank))

instance : Std.LawfulEqOrd Symbol where
  eq_of_compare h := rank_injective (Nat.compare_eq_eq.mp h)

theorem compare_symbol_eq_lt {a c : Symbol} : compare a c = .lt ↔ a.rank < c.rank :=
  Nat.compare_eq_lt

theorem symbol_le_iff {a c : Symbol} : a.le c = true ↔ a.rank ≤ c.rank := Nat.isLE_compare

theorem symbol_le_total (a c : Symbol) : a.le c = true ∨ c.le a = true := by
  rw [symbol_le_iff, symbol_le_iff]
  exact Nat.le_total a.rank c.rank

theorem symbol_le_trans {a b c : Symbol} (h : a.le b = true) (h' : b.le c = true) :
    a.le c = true :=
  Std.TransOrd.isLE_trans h h'

/-- The marker is merged into the bytes. -/
theorem symbols_perm (l : Label) :
    l.symbols.Perm ((if l.negated then [.negate] else []) ++ l.bytes.toList.map Symbol.byte) := by
  unfold symbols
  split
  · exact insertSorted_perm Symbol.le .negate _
  · exact List.Perm.refl _

@[simp] theorem mem_symbols (l : Label) (a : Symbol) : a ∈ l.symbols ↔ l.contains a = true := by
  rw [l.symbols_perm.mem_iff, List.mem_append, List.mem_map]
  cases a with
  | negate => cases h : l.negated <;> simp [contains, h]
  | byte b => cases h : l.negated <;> simp [contains]

theorem bytes_pairwise (l : Label) :
    (l.bytes.toList.map Symbol.byte).Pairwise fun a c => a.rank < c.rank := by
  rw [List.pairwise_map]
  refine l.bytes.toList_pairwise.imp fun {b c} h => ?_
  rw [UInt8.lt_iff_toNat_lt] at h
  simp only [Symbol.rank]
  omega

theorem symbols_nodup (l : Label) : l.symbols.Nodup := by
  have hbytes : (l.bytes.toList.map Symbol.byte).Nodup := by
    refine l.bytes_pairwise.imp fun {a c} hlt heq => ?_
    rw [heq] at hlt
    exact Nat.lt_irrefl _ hlt
  rw [l.symbols_perm.nodup_iff]
  cases l.negated with
  | false => exact hbytes
  | true => exact List.nodup_cons.mpr ⟨by simp, hbytes⟩

theorem ranks_pairwise (l : Label) : (l.symbols.map Symbol.rank).Pairwise (· < ·) := by
  have hbytes : (l.bytes.toList.map Symbol.byte).Pairwise (Symbol.le · · = true) :=
    l.bytes_pairwise.imp fun h => symbol_le_iff.mpr (Nat.le_of_lt h)
  have hle : l.symbols.Pairwise (Symbol.le · · = true) := by
    unfold symbols
    split
    · exact pairwise_insertSorted symbol_le_total symbol_le_trans .negate hbytes
    · exact hbytes
  rw [List.pairwise_map]
  refine (hle.and l.symbols_nodup).imp fun {a c} ⟨h, hne⟩ => ?_
  exact Nat.lt_of_le_of_ne (symbol_le_iff.mp h) fun heq => hne (rank_injective heq)

/-- A label is known by its symbols. -/
theorem symbols_injective : Function.Injective symbols := by
  intro l m h
  apply ext_contains
  intro a
  rw [Bool.eq_iff_iff, ← mem_symbols, ← mem_symbols, h]

/-! ### Order -/

instance : Std.TransOrd Label := inferInstanceAs (Std.TransCmp (compareOn symbols))

instance : Std.LawfulEqOrd Label where
  eq_of_compare h := symbols_injective (Std.LawfulEqOrd.eq_of_compare h)

theorem le_total (l m : Label) : l.le m = true ∨ m.le l = true := by
  cases h : compare l m with
  | gt => exact .inr (by simp [le, Std.OrientedCmp.lt_of_gt h])
  | lt => exact .inl (by simp [le, h])
  | eq => exact .inl (by simp [le, h])

theorem le_trans {l m n : Label} (h : l.le m = true) (h' : m.le n = true) : l.le n = true :=
  Std.TransOrd.isLE_trans h h'

theorem le_antisymm {l m : Label} (h : l.le m = true) (h' : m.le l = true) : l = m :=
  Std.LawfulEqOrd.eq_of_compare (Std.OrientedCmp.isLE_antisymm h h')

end Label

end PatternCircuit

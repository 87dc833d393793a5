import Mathlib.Data.List.Induction
import Mathlib.Data.Set.Insert
import PatternCircuit.ByteSet

/-! # Members and runs of byte sets

Whatever is done to the words of a set, its members change as set algebra says. The loop that
decomposes a set keeps, behind each code, the runs of the codes so far: they are not empty, lie
apart and hold just these codes. The result is therefore the list of all maximal runs. -/

namespace PatternCircuit.ByteSet

/-! ### Words -/

@[simp] theorem word_ofWords (f : Fin 4 → UInt64) (i : Fin 4) : (ofWords f).word i = f i := by
  match i with
  | 0 | 1 | 2 | 3 => rfl

theorem ext_word {s t : ByteSet} (h : ∀ i, s.word i = t.word i) : s = t :=
  ByteSet.ext (h 0) (h 1) (h 2) (h 3)

theorem val_slot (b : UInt8) : (slot b).1.val = b.toNat / 64 := toNat_shiftRight_six b

theorem toBitVec_slot (b : UInt8) : (slot b).2.toBitVec = BitVec.twoPow 64 (b.toNat % 64) := by
  have hmask : b.toNat &&& 63 = b.toNat % 64 := Nat.and_two_pow_sub_one_eq_mod b.toNat 6
  simp [slot, BitVec.twoPow_eq, hmask]

/-- A code is a member when its bit is set in its word. -/
theorem contains_eq_getLsbD (s : ByteSet) (b : UInt8) :
    s.contains b = (s.word (slot b).1).toBitVec.getLsbD (b.toNat % 64) := by
  have hlt : b.toNat % 64 < 64 := Nat.mod_lt _ (by decide)
  rw [contains, Bool.eq_iff_iff, bne_iff_ne, ne_eq, ← UInt64.toBitVec_inj, UInt64.toBitVec_and,
    toBitVec_slot, BitVec.and_twoPow]
  cases (s.word (slot b).1).toBitVec.getLsbD (b.toNat % 64) with
  | false => simp
  | true =>
      have hne : BitVec.twoPow 64 (b.toNat % 64) ≠ 0#64 := by
        intro hzero
        have hbit := BitVec.getLsbD_twoPow (w := 64) (b.toNat % 64) (b.toNat % 64)
        simp [hzero, hlt] at hbit
      simpa using hne

/-- Codes of one word have different bits. -/
theorem getLsbD_slot {b c : UInt8} (hword : (slot c).1 = (slot b).1) :
    (slot b).2.toBitVec.getLsbD (c.toNat % 64) = decide (c = b) := by
  have hlt : b.toNat % 64 < 64 := Nat.mod_lt _ (by decide)
  have hdiv : c.toNat / 64 = b.toNat / 64 := by rw [← val_slot, ← val_slot, hword]
  rw [toBitVec_slot, BitVec.getLsbD_twoPow, decide_eq_true hlt, Bool.true_and, decide_eq_decide,
    ← UInt8.toNat_inj]
  omega

/-- The code that is kept at a bit of a word. -/
theorem slot_ofNat (i : Fin 4) {k : Nat} (hk : k < 64) :
    (slot (UInt8.ofNat (64 * i + k))).1 = i ∧ (UInt8.ofNat (64 * i + k)).toNat % 64 = k := by
  have hlt : 64 * i.val + k < 256 := by omega
  have hcode := UInt8.toNat_ofNat_of_lt' hlt
  refine ⟨Fin.ext ?_, ?_⟩
  · rw [val_slot, hcode]
    omega
  · rw [hcode]
    omega

theorem contains_ofNat (s : ByteSet) (i : Fin 4) {k : Nat} (hk : k < 64) :
    s.contains (UInt8.ofNat (64 * i + k)) = (s.word i).toBitVec.getLsbD k := by
  obtain ⟨hword, hbit⟩ := slot_ofNat i hk
  rw [contains_eq_getLsbD, hword, hbit]

theorem ext_contains {s t : ByteSet} (h : ∀ b, s.contains b = t.contains b) : s = t := by
  apply ext_word
  intro i
  apply UInt64.toBitVec_inj.mp
  ext k hk
  rw [← BitVec.getLsbD_eq_getElem hk, ← BitVec.getLsbD_eq_getElem hk, ← contains_ofNat s i hk,
    ← contains_ofNat t i hk, h]

/-! ### Members -/

theorem contains_modify (s : ByteSet) (b c : UInt8) (f : UInt64 → UInt64) :
    (s.modify (slot b).1 f).contains c =
      if (slot c).1 = (slot b).1 then (f (s.word (slot c).1)).toBitVec.getLsbD (c.toNat % 64)
      else s.contains c := by
  rw [contains_eq_getLsbD, contains_eq_getLsbD, modify, word_ofWords]
  split <;> rfl

theorem contains_zipWith (f : UInt64 → UInt64 → UInt64) (s t : ByteSet) (b : UInt8) :
    (zipWith f s t).contains b =
      (f (s.word (slot b).1) (t.word (slot b).1)).toBitVec.getLsbD (b.toNat % 64) := by
  rw [contains_eq_getLsbD, zipWith, word_ofWords]

@[simp] theorem contains_empty (b : UInt8) : empty.contains b = false := by
  simp [contains_eq_getLsbD, empty]

@[simp] theorem contains_full (b : UInt8) : full.contains b = true := by
  have hlt : b.toNat % 64 < 64 := Nat.mod_lt _ (by decide)
  rw [contains_eq_getLsbD, full, word_ofWords, UInt64.toBitVec_not, BitVec.getLsbD_not,
    decide_eq_true hlt]
  simp

@[simp] theorem contains_insert (s : ByteSet) (b c : UInt8) :
    (s.insert b).contains c = (s.contains c || decide (c = b)) := by
  rw [insert, contains_modify]
  split
  · rename_i hword
    rw [UInt64.toBitVec_or, BitVec.getLsbD_or, ← contains_eq_getLsbD, getLsbD_slot hword]
  · rename_i hword
    have hne : ¬c = b := fun heq => hword (by rw [heq])
    rw [decide_eq_false hne, Bool.or_false]

@[simp] theorem contains_erase (s : ByteSet) (b c : UInt8) :
    (s.erase b).contains c = (s.contains c && !decide (c = b)) := by
  have hlt : c.toNat % 64 < 64 := Nat.mod_lt _ (by decide)
  rw [erase, contains_modify]
  split
  · rename_i hword
    rw [UInt64.toBitVec_and, UInt64.toBitVec_not, BitVec.getLsbD_and, BitVec.getLsbD_not,
      ← contains_eq_getLsbD, getLsbD_slot hword, decide_eq_true hlt, Bool.true_and]
  · rename_i hword
    have hne : ¬c = b := fun heq => hword (by rw [heq])
    rw [decide_eq_false hne, Bool.not_false, Bool.and_true]

@[simp] theorem contains_singleton (b c : UInt8) : (singleton b).contains c = decide (c = b) := by
  simp [singleton]

@[simp] theorem contains_union (s t : ByteSet) (b : UInt8) :
    (s.union t).contains b = (s.contains b || t.contains b) := by
  rw [union, contains_zipWith, contains_eq_getLsbD s, contains_eq_getLsbD t, UInt64.toBitVec_or,
    BitVec.getLsbD_or]

@[simp] theorem contains_inter (s t : ByteSet) (b : UInt8) :
    (s.inter t).contains b = (s.contains b && t.contains b) := by
  rw [inter, contains_zipWith, contains_eq_getLsbD s, contains_eq_getLsbD t, UInt64.toBitVec_and,
    BitVec.getLsbD_and]

@[simp] theorem contains_compl (s : ByteSet) (b : UInt8) :
    s.compl.contains b = !s.contains b := by
  have hlt : b.toNat % 64 < 64 := Nat.mod_lt _ (by decide)
  simp [contains_eq_getLsbD, compl, hlt]

@[simp] theorem contains_diff (s t : ByteSet) (b : UInt8) :
    (s.diff t).contains b = (s.contains b && !t.contains b) := by
  rw [diff, contains_zipWith, UInt64.toBitVec_and, BitVec.getLsbD_and, ← contains_eq_getLsbD,
    ← contains_compl, contains_eq_getLsbD t.compl, compl, word_ofWords]

theorem isEmpty_eq_true_iff (s : ByteSet) : s.isEmpty = true ↔ ∀ b, s.contains b = false := by
  simp only [isEmpty, List.all_eq_true, List.mem_finRange, true_imp_iff, beq_iff_eq]
  constructor
  · intro hwords b
    rw [contains_eq_getLsbD, hwords]
    simp
  · intro hnone i
    have hempty : s = empty := ext_contains fun b => by rw [hnone b, contains_empty]
    rw [hempty, empty, word_ofWords]

/-- The union of the sets that `f` gives for the items of a list. -/
theorem contains_foldl_union {α : Type} (f : α → ByteSet) (xs : List α) (s : ByteSet) (b : UInt8) :
    (xs.foldl (fun s x => s.union (f x)) s).contains b =
      (s.contains b || xs.any fun x => (f x).contains b) := by
  induction xs generalizing s with
  | nil => simp
  | cons x rest ih => simp [ih, Bool.or_assoc]

theorem contains_insertAll (s : ByteSet) (bs : List UInt8) (b : UInt8) :
    (s.insertAll bs).contains b = (s.contains b || decide (b ∈ bs)) := by
  rw [insertAll]
  induction bs generalizing s with
  | nil => simp
  | cons c rest ih => simp [ih, Bool.or_assoc]

/-! ### Lists of codes -/

theorem mem_codes (b : UInt8) : b ∈ codes := by
  refine List.mem_map.mpr ⟨b.toNat, List.mem_range.mpr b.toNat_lt, ?_⟩
  exact UInt8.ofNat_toNat

theorem codes_pairwise : codes.Pairwise (· < ·) := by
  rw [codes, List.pairwise_map]
  apply List.pairwise_lt_range.imp_of_mem
  intro a b ha hb hab
  rw [List.mem_range] at ha hb
  rw [UInt8.lt_iff_toNat_lt, UInt8.toNat_ofNat_of_lt' ha, UInt8.toNat_ofNat_of_lt' hb]
  exact hab

@[simp] theorem mem_toList (s : ByteSet) (b : UInt8) : b ∈ s.toList ↔ s.contains b = true := by
  simp [toList, mem_codes]

@[simp] theorem mem_interval (lo hi b : UInt8) : b ∈ interval lo hi ↔ lo ≤ b ∧ b ≤ hi := by
  simp [interval, mem_codes]

theorem toList_pairwise (s : ByteSet) : s.toList.Pairwise (· < ·) := codes_pairwise.filter _

/-- A set is made of its members. -/
theorem ofList_toList (s : ByteSet) : ofList s.toList = s := by
  apply ext_contains
  intro b
  rw [ofList, contains_insertAll, contains_empty, Bool.false_or, Bool.eq_iff_iff,
    decide_eq_true_eq, mem_toList]

@[simp] theorem contains_ofRange (lo hi b : UInt8) :
    (ofRange lo hi).contains b = decide (lo ≤ b ∧ b ≤ hi) := by
  rw [ofRange, ofList, contains_insertAll, contains_empty, Bool.false_or, decide_eq_decide,
    mem_interval]

/-! ### Size -/

theorem toNat_cpop_eq_countP (w : BitVec 64) :
    w.cpop.toNat = (List.range 64).countP w.getLsbD := by
  have hrec : ∀ n, w.cpopNatRec n 0 = (List.range n).countP w.getLsbD := by
    intro n
    induction n with
    | zero => rfl
    | succ n ih =>
        rw [BitVec.cpopNatRec_succ, BitVec.cpopNatRec_add, ih, List.range_succ, List.countP_append,
          List.countP_cons, List.countP_nil]
        cases w.getLsbD n <;> rfl
  rw [BitVec.toNat_cpop, hrec]

/-- The bits that are counted are those of the members. -/
theorem size_eq_length (s : ByteSet) : s.size = s.toList.length := by
  have hcodes : codes = (List.finRange 4).flatMap fun i : Fin 4 =>
      (List.range 64).map fun k => UInt8.ofNat (64 * i + k) := by decide +kernel
  have hword : ∀ i : Fin 4, (s.word i).toBitVec.cpop.toNat =
      ((List.range 64).map fun k => UInt8.ofNat (64 * i + k)).countP s.contains := by
    intro i
    rw [toNat_cpop_eq_countP, List.countP_map]
    apply List.countP_congr
    intro k hk
    rw [Function.comp_apply, contains_ofNat s i (List.mem_range.mp hk)]
  rw [size, toList, ← List.countP_eq_length_filter, hcodes, List.countP_flatMap,
    List.sum_eq_foldl, List.foldl_map]
  simp only [hword, Function.comp_apply]

/-! ### Runs -/

/-- Whether a code lies in one of some runs. -/
def covers (rs : List (UInt8 × UInt8)) (b : UInt8) : Prop := ∃ r ∈ rs, r.1 ≤ b ∧ b ≤ r.2

theorem covers_cons {r : UInt8 × UInt8} {rs : List (UInt8 × UInt8)} {b : UInt8} :
    covers (r :: rs) b ↔ (r.1 ≤ b ∧ b ≤ r.2) ∨ covers rs b := by
  simp [covers]

/-- How many codes are in a run. -/
def width (r : UInt8 × UInt8) : Nat := r.2.toNat - r.1.toNat + 1

/-- The runs, listed latest first, are those of some ascending codes. -/
structure RunsOf (rs : List (UInt8 × UInt8)) (bs : List UInt8) : Prop where
  nonempty : ∀ r ∈ rs, r.1 ≤ r.2
  apart : rs.Pairwise fun r r' => r'.2.toNat + 1 < r.1.toNat
  covers : ∀ b, covers rs b ↔ b ∈ bs
  total : rs.foldr (fun r n => n + width r) 0 = bs.length

theorem le_and_le_iff (b c : UInt8) : b ≤ c ∧ c ≤ b ↔ c = b := by
  rw [UInt8.le_iff_toNat_le, UInt8.le_iff_toNat_le, ← UInt8.toNat_inj]
  omega

namespace RunsOf

variable {rs : List (UInt8 × UInt8)} {bs : List UInt8} {b : UInt8}

/-- A code that does not follow the latest run starts a new one. -/
theorem start (h : RunsOf rs bs) (hb : ∀ r ∈ rs, r.2.toNat + 1 < b.toNat) :
    RunsOf ((b, b) :: rs) (bs ++ [b]) where
  nonempty := List.forall_mem_cons.mpr ⟨UInt8.le_refl b, h.nonempty⟩
  apart := List.pairwise_cons.mpr ⟨hb, h.apart⟩
  covers c := by
    rw [covers_cons, le_and_le_iff, h.covers, List.mem_append, List.mem_singleton, or_comm]
  total := by
    rw [List.foldr_cons, h.total, width, Nat.sub_self, List.length_append]
    rfl

/-- The code that follows the latest run belongs to it. -/
theorem grow {lo hi : UInt8} (h : RunsOf ((lo, hi) :: rs) bs) (hb : hi.toNat + 1 = b.toNat) :
    RunsOf ((lo, b) :: rs) (bs ++ [b]) := by
  obtain ⟨hfirst, hnonempty⟩ := List.forall_mem_cons.mp h.nonempty
  have hle : lo.toNat ≤ hi.toNat := UInt8.le_iff_toNat_le.mp hfirst
  have hgrown : lo.toNat ≤ b.toNat := by omega
  refine ⟨List.forall_mem_cons.mpr ⟨UInt8.le_iff_toNat_le.mpr hgrown, hnonempty⟩,
    List.pairwise_cons.mpr (List.pairwise_cons.mp h.apart), ?_, ?_⟩
  · intro c
    have hsplit : lo ≤ c ∧ c ≤ b ↔ (lo ≤ c ∧ c ≤ hi) ∨ c = b := by
      simp only [UInt8.le_iff_toNat_le, ← UInt8.toNat_inj]
      omega
    rw [List.mem_append, List.mem_singleton, ← h.covers, covers_cons, covers_cons, hsplit,
      or_right_comm]
  · have htotal := h.total
    simp only [List.foldr_cons, width, List.length_append, List.length_singleton] at htotal ⊢
    omega

/-- Behind each code the runs are those of the codes so far. -/
theorem step (h : RunsOf rs bs) (hb : ∀ c ∈ bs, c < b) :
    RunsOf (extendRuns rs b) (bs ++ [b]) := by
  have hbelow : ∀ r ∈ rs, r.2.toNat < b.toNat := by
    intro r hr
    apply UInt8.lt_iff_toNat_lt.mp
    apply hb
    exact (h.covers r.2).mp ⟨r, hr, h.nonempty r hr, UInt8.le_refl _⟩
  cases rs with
  | nil => exact h.start (List.forall_mem_nil _)
  | cons r rest =>
      rw [extendRuns]
      split
      · rename_i hnext
        exact h.grow hnext
      · rename_i hnext
        have hlast : r.2.toNat + 1 < b.toNat := by
          have hlt := hbelow r List.mem_cons_self
          omega
        refine h.start (List.forall_mem_cons.mpr ⟨hlast, fun r' hr' => ?_⟩)
        -- an earlier run ends even further below the code
        have hgap := (List.pairwise_cons.mp h.apart).1 r' hr'
        have hle := UInt8.le_iff_toNat_le.mp (h.nonempty r List.mem_cons_self)
        omega

theorem foldl_extendRuns (hbs : bs.Pairwise (· < ·)) : RunsOf (bs.foldl extendRuns []) bs := by
  induction bs using List.reverseRecOn with
  | nil => exact ⟨List.forall_mem_nil _, .nil, by simp [ByteSet.covers], rfl⟩
  | append_singleton bs b ih =>
      obtain ⟨hfront, _, hlast⟩ := List.pairwise_append.mp hbs
      rw [List.foldl_append]
      exact (ih hfront).step fun c hc => hlast c hc b (List.mem_singleton_self b)

end RunsOf

theorem runsOf_reverse_runs (s : ByteSet) : RunsOf s.runs.reverse s.toList := by
  rw [runs, List.reverse_reverse]
  exact RunsOf.foldl_extendRuns s.toList_pairwise

/-- The runs of a set cover its members. -/
theorem covers_runs (s : ByteSet) (b : UInt8) : covers s.runs b ↔ s.contains b = true := by
  rw [← mem_toList, ← s.runsOf_reverse_runs.covers]
  simp [covers]

theorem le_of_mem_runs {s : ByteSet} {r : UInt8 × UInt8} (hr : r ∈ s.runs) : r.1 ≤ r.2 :=
  s.runsOf_reverse_runs.nonempty r (List.mem_reverse.mpr hr)

theorem runs_pairwise (s : ByteSet) :
    s.runs.Pairwise fun r r' => r.2.toNat + 1 < r'.1.toNat :=
  List.pairwise_reverse.mp s.runsOf_reverse_runs.apart

theorem foldl_width_runs (s : ByteSet) : s.runs.foldl (fun n r => n + width r) 0 = s.size := by
  rw [size_eq_length, ← s.runsOf_reverse_runs.total, List.foldr_reverse]

/-! ### Maximal runs -/

/-- All codes from `lo` to `hi` are members, and the codes next to them are not. -/
structure MaximalRun (s : ByteSet) (lo hi : UInt8) : Prop where
  le : lo ≤ hi
  inside : ∀ b, lo ≤ b → b ≤ hi → b ∈ s
  before : ∀ b, b.toNat + 1 = lo.toNat → b ∉ s
  after : ∀ b, b.toNat = hi.toNat + 1 → b ∉ s

theorem exists_code {k : Nat} (hk : k < 256) : ∃ b : UInt8, b.toNat = k :=
  ⟨UInt8.ofNat k, UInt8.toNat_ofNat_of_lt' hk⟩

/-- A run inside the set that meets a maximal run does not reach beyond it. -/
theorem MaximalRun.within {s : ByteSet} {lo hi lo' hi' b : UInt8} (h : s.MaximalRun lo hi)
    (h' : ∀ c, lo' ≤ c → c ≤ hi' → c ∈ s) (hb : lo ≤ b ∧ b ≤ hi) (hb' : lo' ≤ b ∧ b ≤ hi') :
    lo ≤ lo' ∧ hi' ≤ hi := by
  simp only [UInt8.le_iff_toNat_le] at h' hb hb' ⊢
  have hlt := hi'.toNat_lt
  constructor
  · by_contra hbeyond
    obtain ⟨c, hc⟩ := exists_code (show lo.toNat - 1 < 256 by omega)
    exact h.before c (by omega) (h' c (by omega) (by omega))
  · by_contra hbeyond
    obtain ⟨c, hc⟩ := exists_code (show hi.toNat + 1 < 256 by omega)
    exact h.after c hc (h' c (by omega) (by omega))

theorem apart_of_mem_runs {s : ByteSet} {r r' : UInt8 × UInt8} (hr : r ∈ s.runs)
    (hr' : r' ∈ s.runs) :
    r' = r ∨ r.2.toNat + 1 < r'.1.toNat ∨ r'.2.toNat + 1 < r.1.toNat := by
  obtain ⟨front, back, hsplit⟩ := List.append_of_mem hr
  have hapart := s.runs_pairwise
  rw [hsplit, List.pairwise_append, List.pairwise_cons] at hapart
  rw [hsplit, List.mem_append, List.mem_cons] at hr'
  rcases hr' with hfront | heq | hback
  · exact .inr (.inr (hapart.2.2 r' hfront r List.mem_cons_self))
  · exact .inl heq
  · exact .inr (.inl (hapart.2.1.1 r' hback))

theorem mem_runs_iff {s : ByteSet} {lo hi : UInt8} : (lo, hi) ∈ s.runs ↔ s.MaximalRun lo hi := by
  have hmaximal : ∀ {r : UInt8 × UInt8}, r ∈ s.runs → s.MaximalRun r.1 r.2 := by
    intro r hr
    have hle := UInt8.le_iff_toNat_le.mp (le_of_mem_runs hr)
    refine ⟨le_of_mem_runs hr, fun b hlo hhi => (s.covers_runs b).mp ⟨r, hr, hlo, hhi⟩, ?_, ?_⟩
    · intro b hb hmem
      obtain ⟨r', hr', hlo, hhi⟩ := (s.covers_runs b).mpr hmem
      rw [UInt8.le_iff_toNat_le] at hlo hhi
      rcases apart_of_mem_runs hr hr' with rfl | hgap | hgap <;> omega
    · intro b hb hmem
      obtain ⟨r', hr', hlo, hhi⟩ := (s.covers_runs b).mpr hmem
      rw [UInt8.le_iff_toNat_le] at hlo hhi
      rcases apart_of_mem_runs hr hr' with rfl | hgap | hgap <;> omega
  refine ⟨hmaximal, fun h => ?_⟩
  obtain ⟨r, hr, hlo, hhi⟩ := (s.covers_runs lo).mpr (h.inside lo (UInt8.le_refl lo) h.le)
  obtain ⟨hle, hge⟩ := h.within (hmaximal hr).inside ⟨UInt8.le_refl lo, h.le⟩ ⟨hlo, hhi⟩
  obtain ⟨_, hge'⟩ := (hmaximal hr).within h.inside ⟨hlo, hhi⟩ ⟨UInt8.le_refl lo, h.le⟩
  rwa [UInt8.le_antisymm hle hlo, UInt8.le_antisymm hge' hge]

/-- Between two runs some code is missing. -/
theorem exists_gap_runs (s : ByteSet) :
    s.runs.Pairwise fun r r' => ∃ b, r.2 < b ∧ b < r'.1 ∧ b ∉ s := by
  refine s.runs_pairwise.imp_of_mem fun {r r'} hr _ hgap => ?_
  have hlt := r'.1.toNat_lt
  obtain ⟨b, hb⟩ := exists_code (show r.2.toNat + 1 < 256 by omega)
  refine ⟨b, UInt8.lt_iff_toNat_lt.mpr (by omega), UInt8.lt_iff_toNat_lt.mpr (by omega), ?_⟩
  exact (mem_runs_iff.mp hr).after b hb

/-- The runs make the set again. -/
theorem foldl_union_runs (s : ByteSet) :
    s.runs.foldl (fun t r => t.union (ofRange r.1 r.2)) empty = s := by
  apply ext_contains
  intro b
  rw [contains_foldl_union, contains_empty, Bool.false_or, Bool.eq_iff_iff, ← covers_runs]
  simp [covers]

/-! ### Constructions -/

/-- A way to build a set by the operations on sets. -/
inductive Construction where
  | empty
  | full
  | insert (c : Construction) (b : UInt8)
  | remove (c : Construction) (b : UInt8)
  | extend (c : Construction) (bs : List UInt8)
  | union (c d : Construction)
  | inter (c d : Construction)
  | diff (c d : Construction)
  | compl (c : Construction)

namespace Construction

/-- The set that is built. -/
def set : Construction → ByteSet
  | empty => .empty
  | full => .full
  | insert c b => (c.set.add b).2
  | remove c b => (c.set.remove b).2
  | extend c bs => c.set.insertAll bs
  | union c d => c.set.union d.set
  | inter c d => c.set.inter d.set
  | diff c d => c.set.diff d.set
  | compl c => c.set.compl

/-- What the members should be. -/
def members : Construction → Set UInt8
  | empty => ∅
  | full => Set.univ
  | insert c b => Insert.insert b c.members
  | remove c b => c.members \ {b}
  | extend c bs => c.members ∪ {b | b ∈ bs}
  | union c d => c.members ∪ d.members
  | inter c d => c.members ∩ d.members
  | diff c d => c.members \ d.members
  | compl c => c.membersᶜ

theorem contains_set (c : Construction) (b : UInt8) :
    c.set.contains b = true ↔ b ∈ c.members := by
  induction c with
  | empty => simp [set, members]
  | full => simp [set, members]
  | insert c a ih => simp [set, members, add, ih, or_comm]
  | remove c a ih => simp [set, members, ByteSet.remove, ih]
  | extend c bs ih => simp [set, members, contains_insertAll, ih]
  | union c d ihc ihd => simp [set, members, ihc, ihd]
  | inter c d ihc ihd => simp [set, members, ihc, ihd]
  | diff c d ihc ihd => simp [set, members, ← Bool.not_eq_true, ihc, ihd]
  | compl c ih => simp [set, members, ← Bool.not_eq_true, ih]

/-- However a set is built, its members are those that set algebra gives. Its runs are not empty,
ascend with a missing code between any two, and hold just the members; their widths add up to the
size, and they make the set again. -/
theorem set_algebra_and_runs (c : Construction) :
    (∀ b, b ∈ c.set ↔ b ∈ c.members) ∧
      (∀ r ∈ c.set.runs, r.1 ≤ r.2) ∧
      c.set.runs.Pairwise (fun r r' => ∃ b, r.2 < b ∧ b < r'.1 ∧ b ∉ c.members) ∧
      (∀ b, b ∈ c.members ↔ ∃ r ∈ c.set.runs, r.1 ≤ b ∧ b ≤ r.2) ∧
      c.set.size = c.set.runs.foldl (fun n r => n + (r.2.toNat - r.1.toNat + 1)) 0 ∧
      c.set.runs.foldl (fun s r => s.union (ofRange r.1 r.2)) .empty = c.set := by
  refine ⟨c.contains_set, fun r => le_of_mem_runs, ?_, fun b => ?_, (foldl_width_runs c.set).symm,
    foldl_union_runs c.set⟩
  · refine c.set.exists_gap_runs.imp fun {r r'} ⟨b, hlo, hhi, hb⟩ => ⟨b, hlo, hhi, fun hmem => ?_⟩
    exact hb ((c.contains_set b).mpr hmem)
  · rw [← c.contains_set, ← covers_runs]
    rfl

end Construction

end PatternCircuit.ByteSet

import Mathlib.Data.List.Basic
import Mathlib.Data.List.Induction
import PatternCircuit.Automaton.Dfa
import PatternCircuit.Lexicographic

/-! # Names of states

State names are words over the letters `A` to `Z`, and each belongs to one number. Joined by commas
they can therefore be told apart again. In the order of their numbers, names go from short to long
and alphabetically among names of one length, and no word is left out. -/

namespace PatternCircuit.Dfa

/-- The letter for a digit below 26. -/
def letter (digit : Nat) : Char := Char.ofNat (65 + digit)

theorem letter_inj : ∀ a < 26, ∀ b < 26, letter a = letter b → a = b := by decide

theorem letter_ne_comma : ∀ a < 26, letter a ≠ ',' := by decide

theorem letters_zero : letters 0 = [] := by simp [letters]

theorem letters_succ (n : Nat) : letters (n + 1) = letters (n / 26) ++ [letter (n % 26)] := by
  rw [letters.eq_1, if_neg (Nat.succ_ne_zero n)]
  rfl

theorem letters_injective {m n : Nat} (h : letters m = letters n) : m = n := by
  induction m using Nat.strongRecOn generalizing n with
  | ind m ih =>
      cases m with
      | zero =>
          cases n with
          | zero => rfl
          | succ n => simp [letters_zero, letters_succ] at h
      | succ m =>
          cases n with
          | zero => simp [letters_zero, letters_succ] at h
          | succ n =>
              rw [letters_succ, letters_succ] at h
              obtain ⟨hfront, hlast⟩ := List.append_inj' h rfl
              have hdigit := letter_inj _ (Nat.mod_lt m (by decide)) _ (Nat.mod_lt n (by decide))
                (List.singleton_inj.mp hlast)
              have hrest := ih (m / 26) (by omega) hfront
              omega

theorem comma_notMem_letters (n : Nat) : ',' ∉ letters n := by
  induction n using Nat.strongRecOn with
  | ind n ih =>
      cases n with
      | zero => simp [letters_zero]
      | succ n =>
          rw [letters_succ, List.mem_append, List.mem_singleton, not_or]
          exact ⟨ih _ (by omega), (letter_ne_comma _ (Nat.mod_lt n (by decide))).symm⟩

theorem stateName_injective {i j : Nat} (h : stateName i = stateName j) : i = j :=
  Nat.succ.inj (letters_injective (String.ofList_injective h))

theorem comma_notMem_stateName (i : Nat) : ',' ∉ (stateName i).toList := by
  rw [stateName, String.toList_ofList]
  exact comma_notMem_letters (i + 1)

/-- Names without a comma can be read off the text in which they are joined. -/
theorem eq_of_intercalate_eq {names names' : List String} (hne : names ≠ []) (hne' : names' ≠ [])
    (hnames : ∀ s ∈ names, ',' ∉ s.toList) (hnames' : ∀ s ∈ names', ',' ∉ s.toList)
    (h : String.intercalate "," names = String.intercalate "," names') : names = names' := by
  have hsplit : ∀ names : List String, names ≠ [] → (∀ s ∈ names, ',' ∉ s.toList) →
      (String.intercalate "," names).toList.splitOn ',' = names.map String.toList := by
    intro names hne hnames
    rw [String.toList_intercalate]
    exact List.splitOn_intercalate ',' (List.forall_mem_map.mpr hnames) (by simpa using hne)
  have hlists : names.map String.toList = names'.map String.toList := by
    rw [← hsplit names hne hnames, h, hsplit names' hne' hnames']
  exact List.map_injective_iff.mpr (fun _ _ => String.toList_inj.mp) hlists

/-! ### Every word over the letters is a name -/

/-- The number whose letters are given. -/
def lettersValue (word : List Char) : Nat := word.foldl (fun n c => 26 * n + (c.toNat - 64)) 0

/-- The letters are from `A` to `Z`. -/
def Capitals (word : List Char) : Prop := ∀ c ∈ word, 'A'.toNat ≤ c.toNat ∧ c.toNat ≤ 'Z'.toNat

theorem capitals_letter : ∀ a < 26, 'A'.toNat ≤ (letter a).toNat ∧ (letter a).toNat ≤ 'Z'.toNat := by
  decide

theorem capitals_letters (n : Nat) : Capitals (letters n) := by
  induction n using Nat.strongRecOn with
  | ind n ih =>
      cases n with
      | zero => simp [letters_zero, Capitals]
      | succ n =>
          rw [letters_succ]
          intro c hc
          rcases List.mem_append.mp hc with hc | hc
          · exact ih (n / 26) (by omega) c hc
          · rw [List.mem_singleton.mp hc]
            exact capitals_letter _ (Nat.mod_lt n (by decide))

theorem lettersValue_concat (word : List Char) (c : Char) :
    lettersValue (word ++ [c]) = 26 * lettersValue word + (c.toNat - 64) := by
  simp [lettersValue]

/-- The digits of bijective numeration go from 1 to 26, so quotient and remainder are taken of the
number before. -/
theorem letters_lettersValue {word : List Char} (h : Capitals word) :
    letters (lettersValue word) = word := by
  induction word using List.reverseRecOn with
  | nil => exact letters_zero
  | append_singleton word c ih =>
      have hfront : Capitals word := fun d hd => h d (List.mem_append_left _ hd)
      obtain ⟨hlo, hhi⟩ : 65 ≤ c.toNat ∧ c.toNat ≤ 90 := h c (by simp)
      have hvalue : lettersValue (word ++ [c]) = 26 * lettersValue word + (c.toNat - 65) + 1 := by
        rw [lettersValue_concat]
        omega
      have hquotient : (26 * lettersValue word + (c.toNat - 65)) / 26 = lettersValue word := by omega
      have hdigit : (26 * lettersValue word + (c.toNat - 65)) % 26 = c.toNat - 65 := by omega
      have hletter : letter (c.toNat - 65) = c := by
        rw [letter, Nat.add_sub_cancel' hlo, Char.ofNat_toNat]
      rw [hvalue, letters_succ, hquotient, hdigit, ih hfront, hletter]

/-! ### Order -/

theorem letter_lt : ∀ b < 26, ∀ a < b, (letter a).toNat < (letter b).toNat := by decide

/-- A smaller number has fewer letters, or as many and alphabetically smaller ones. -/
theorem letters_order {m n : Nat} (h : m < n) :
    (letters m).length < (letters n).length ∨
      ((letters m).length = (letters n).length ∧
        Lexicographic.le ((letters m).map Char.toNat) ((letters n).map Char.toNat) = true) := by
  induction n using Nat.strongRecOn generalizing m with
  | ind n ih =>
      obtain ⟨n, rfl⟩ : ∃ k, n = k + 1 := ⟨n - 1, by omega⟩
      cases m with
      | zero =>
          left
          simp [letters_zero, letters_succ]
      | succ m =>
          simp only [letters_succ, List.length_append, List.length_singleton, List.map_append,
            List.map_singleton]
          rcases Nat.lt_or_ge (m / 26) (n / 26) with hquotient | hquotient
          · rcases ih (n / 26) (by omega) hquotient with hshorter | ⟨hlength, hle⟩
            · left
              omega
            · right
              refine ⟨by omega, Lexicographic.le_append_of_ne (by simpa using hlength) ?_ hle _ _⟩
              intro heq
              have hletters := List.map_injective_iff.mpr (fun _ _ => Char.toNat_inj.mp) heq
              exact Nat.ne_of_lt hquotient (letters_injective hletters)
          · -- equal quotients: the last letters differ
            have hsame : m / 26 = n / 26 := by omega
            have hlast := letter_lt (n % 26) (Nat.mod_lt n (by decide)) (m % 26) (by omega)
            right
            rw [hsame, Lexicographic.le_append_left]
            refine ⟨rfl, ?_⟩
            rw [Lexicographic.le_cons_of_ne (Nat.ne_of_lt hlast), decide_eq_true hlast]

theorem toList_stateName (i : Nat) : (stateName i).toList = letters (i + 1) := by
  rw [stateName, String.toList_ofList]

theorem exists_stateName {s : String} (hs : s ≠ "") (h : Capitals s.toList) :
    ∃ i, stateName i = s := by
  have hletters := letters_lettersValue h
  have hpos : lettersValue s.toList ≠ 0 := by
    intro hzero
    rw [hzero, letters_zero] at hletters
    exact hs (String.toList_inj.mp hletters.symm)
  refine ⟨lettersValue s.toList - 1, String.toList_inj.mp ?_⟩
  rw [toList_stateName, Nat.sub_add_cancel (Nat.one_le_iff_ne_zero.mpr hpos), hletters]

/-- The names are the words over the letters from `A` to `Z`, one for each number. A smaller number
has a shorter name, or one of the same length that is alphabetically smaller. -/
theorem stateName_bijective_base26 :
    (∀ i, stateName i ≠ "" ∧ Capitals (stateName i).toList) ∧
      (∀ i j, i ≠ j → stateName i ≠ stateName j) ∧
      (∀ i j, i < j → (stateName i).length < (stateName j).length ∨
        ((stateName i).length = (stateName j).length ∧
          Lexicographic.textLe (stateName i) (stateName j) = true ∧
          stateName i ≠ stateName j)) ∧
      ∀ s : String, s ≠ "" → Capitals s.toList → ∃! i, stateName i = s := by
  have hdistinct : ∀ i j, i ≠ j → stateName i ≠ stateName j :=
    fun i j hne heq => hne (stateName_injective heq)
  refine ⟨fun i => ⟨?_, ?_⟩, hdistinct, fun i j hlt => ?_, fun s hs hcapitals => ?_⟩
  · rw [stateName, Ne, String.ofList_eq_empty_iff, letters_succ]
    simp
  · rw [toList_stateName]
    exact capitals_letters (i + 1)
  · simp only [← String.length_toList, toList_stateName, Lexicographic.textLe, Lexicographic.points]
    rcases letters_order (Nat.succ_lt_succ hlt) with hshorter | ⟨hlength, hle⟩
    · exact .inl hshorter
    · exact .inr ⟨hlength, hle, hdistinct i j (Nat.ne_of_lt hlt)⟩
  · obtain ⟨i, hi⟩ := exists_stateName hs hcapitals
    exact ⟨i, hi, fun j hj => stateName_injective (hj.trans hi.symm)⟩

end PatternCircuit.Dfa

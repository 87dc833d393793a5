import PatternCircuit.Proofs.Automaton.Trail
import PatternCircuit.Proofs.Pattern.Language

/-! # The automaton of a tree reads the words of the tree

Soundness is shown by giving every state the set of words that may be read from it, so that no wire
leaves these sets; completeness by following a word through the wires. Every state that is built is
on a way from the start to the accept state. -/

namespace PatternCircuit.Tree

open scoped Computability

/-! ### Equations of the construction -/

theorem wires_cat (entry exit next : Nat) (s : Span) (parts : List Tree) :
    wires entry exit next (cat s parts) = chain entry exit next parts := by
  rw [wires]

theorem wires_alt (entry exit next : Nat) (s : Span) (parts : List Tree) :
    wires entry exit next (alt s parts) = fan entry exit next parts := by
  rw [wires]

theorem chain_singleton (entry exit next : Nat) (part : Tree) :
    chain entry exit next [part] = wires entry exit next part := by
  rw [chain]

theorem chain_cons_cons (entry exit next : Nat) (part other : Tree) (rest : List Tree) :
    chain entry exit next (part :: other :: rest) =
      ((wires entry next (next + 1) part).1 ++
          (chain next exit (wires entry next (next + 1) part).2 (other :: rest)).1,
        (chain next exit (wires entry next (next + 1) part).2 (other :: rest)).2) := by
  rw [chain]

theorem fan_cons (entry exit next : Nat) (part : Tree) (rest : List Tree) :
    fan entry exit next (part :: rest) =
      (⟨entry, none, next⟩ :: ((wires next (next + 1) (next + 2) part).1 ++
          ⟨next + 1, none, exit⟩ ::
            (fan entry exit (wires next (next + 1) (next + 2) part).2 rest).1),
        (fan entry exit (wires next (next + 1) (next + 2) part).2 rest).2) := by
  rw [fan]

theorem wires_star (entry exit next : Nat) (s : Span) (body : Tree) :
    wires entry exit next (star s body) =
      ([⟨entry, none, next⟩, ⟨entry, none, exit⟩] ++ (wires next (next + 1) (next + 2) body).1 ++
          [⟨next + 1, none, next⟩, ⟨next + 1, none, exit⟩],
        (wires next (next + 1) (next + 2) body).2) := by
  rw [wires]

/-! ### States used by the wires -/

/-- The wires leave the entry or a fresh state and lead to the exit or a fresh state; the fresh
states are those from `low` up to, but not including, `high`. -/
structure Framed (entry exit low high : Nat) (ws : List Wire) : Prop where
  le : low ≤ high
  source : ∀ w ∈ ws, w.source = entry ∨ low ≤ w.source ∧ w.source < high
  target : ∀ w ∈ ws, w.target = exit ∨ low ≤ w.target ∧ w.target < high

theorem chain_framed (parts : List Tree)
    (ih : ∀ t ∈ parts, ∀ e x n, Framed e x n (wires e x n t).2 (wires e x n t).1) (e x n : Nat) :
    Framed e x n (chain e x n parts).2 (chain e x n parts).1 := by
  induction parts generalizing e n with
  | nil => exact ⟨Nat.le_refl n, by simp [chain], by simp [chain]⟩
  | cons part rest ihr =>
      cases rest with
      | nil =>
          rw [chain_singleton]
          exact ih part (by simp) e x n
      | cons other rest =>
          have hfirst := ih part (by simp) e n (n + 1)
          have hlater := ihr (fun t ht => ih t (by simp [ht])) n (wires e n (n + 1) part).2
          rw [chain_cons_cons]
          have hle := hfirst.le
          have hle' := hlater.le
          refine ⟨by omega, ?_, ?_⟩
          · intro w hw
            rcases List.mem_append.mp hw with hw | hw
            · have h := hfirst.source w hw
              omega
            · have h := hlater.source w hw
              omega
          · intro w hw
            rcases List.mem_append.mp hw with hw | hw
            · have h := hfirst.target w hw
              omega
            · have h := hlater.target w hw
              omega

theorem fan_framed (parts : List Tree)
    (ih : ∀ t ∈ parts, ∀ e x n, Framed e x n (wires e x n t).2 (wires e x n t).1) (e x n : Nat) :
    Framed e x n (fan e x n parts).2 (fan e x n parts).1 := by
  induction parts generalizing n with
  | nil => exact ⟨Nat.le_refl n, by simp [fan], by simp [fan]⟩
  | cons part rest ihr =>
      have hfirst := ih part (by simp) n (n + 1) (n + 2)
      have hlater := ihr (fun t ht => ih t (by simp [ht])) (wires n (n + 1) (n + 2) part).2
      rw [fan_cons]
      have hle := hfirst.le
      have hle' := hlater.le
      refine ⟨by omega, ?_, ?_⟩
      · intro w hw
        simp only [List.mem_cons, List.mem_append] at hw
        rcases hw with rfl | hw | rfl | hw
        · simp
        · have h := hfirst.source w hw
          omega
        · simp only
          omega
        · have h := hlater.source w hw
          omega
      · intro w hw
        simp only [List.mem_cons, List.mem_append] at hw
        rcases hw with rfl | hw | rfl | hw
        · simp only
          omega
        · have h := hfirst.target w hw
          omega
        · simp
        · have h := hlater.target w hw
          omega

theorem wires_framed (t : Tree) :
    ∀ e x n, Framed e x n (wires e x n t).2 (wires e x n t).1 := by
  induction t using Tree.induction with
  | hempty s =>
      intro e x n
      exact ⟨Nat.le_refl n, by simp [wires], by simp [wires]⟩
  | htext s a =>
      intro e x n
      exact ⟨Nat.le_refl n, by simp [wires], by simp [wires]⟩
  | hcat s parts ih =>
      intro e x n
      rw [wires_cat]
      exact chain_framed parts ih e x n
  | halt s parts ih =>
      intro e x n
      rw [wires_alt]
      exact fan_framed parts ih e x n
  | hstar s body ih =>
      intro e x n
      have hbody := ih n (n + 1) (n + 2)
      have hle := hbody.le
      rw [wires_star]
      refine ⟨by omega, ?_, ?_⟩
      · intro w hw
        simp only [List.mem_append, List.mem_cons, List.not_mem_nil, or_false] at hw
        rcases hw with ((rfl | rfl) | hw) | rfl | rfl
        · simp
        · simp
        · have h := hbody.source w hw
          omega
        · simp only
          omega
        · simp only
          omega
      · intro w hw
        simp only [List.mem_append, List.mem_cons, List.not_mem_nil, or_false] at hw
        rcases hw with ((rfl | rfl) | hw) | rfl | rfl
        · simp only
          omega
        · simp
        · have h := hbody.target w hw
          omega
        · simp only
          omega
        · simp

/-! ### Soundness -/

/-- What may be read behind a wire may, with the wire's symbol in front, be read before it. -/
def Respects (R : Nat → Language Symbol) (ws : List Wire) : Prop :=
  ∀ w ∈ ws, ∀ u ∈ R w.target, w.symbol.toList ++ u ∈ R w.source

theorem Respects.append {R : Nat → Language Symbol} {ws vs : List Wire} (h : Respects R ws)
    (h' : Respects R vs) : Respects R (ws ++ vs) := by
  intro w hw
  rcases List.mem_append.mp hw with hw | hw
  · exact h w hw
  · exact h' w hw

theorem Respects.cons {R : Nat → Language Symbol} {w : Wire} {ws : List Wire}
    (h : ∀ u ∈ R w.target, w.symbol.toList ++ u ∈ R w.source) (h' : Respects R ws) :
    Respects R (w :: ws) := by
  intro v hv
  rcases List.mem_cons.mp hv with rfl | hv
  · exact h
  · exact h' v hv

/-- Only the states that the wires use matter. -/
theorem Respects.congr {R S : Nat → Language Symbol} {e x low high : Nat} {ws : List Wire}
    (h : Respects R ws) (hf : Framed e x low high ws) (he : S e = R e) (hx : S x = R x)
    (hin : ∀ q, low ≤ q → q < high → S q = R q) : Respects S ws := by
  intro w hw
  have hsource : S w.source = R w.source := by
    rcases hf.source w hw with hs | ⟨hl, hh⟩
    · rw [hs, he]
    · exact hin _ hl hh
  have htarget : S w.target = R w.target := by
    rcases hf.target w hw with ht | ⟨hl, hh⟩
    · rw [ht, hx]
    · exact hin _ hl hh
  rw [hsource, htarget]
  exact h w hw

theorem Respects.trail {R : Nat → Language Symbol} {ws : List Wire} (h : Respects R ws)
    {s t : Nat} {w u : List Symbol} (ht : Trail (Wire.Step ws) s w t) (hu : u ∈ R t) :
    w ++ u ∈ R s := by
  refine Trail.mem_of_respects (R := fun q u => u ∈ R q) ?_ ?_ ht hu
  · intro p q u hstep hu
    exact h _ hstep u hu
  · intro p a q u hstep hu
    exact h _ hstep u hu

/-- Word sets for the entry and the exit extend to the fresh states when the entry has all words of
the tree followed by those of the exit. -/
def Extends (e x n high : Nat) (ws : List Wire) (words : Language Symbol) : Prop :=
  ∀ R : Nat → Language Symbol, (∀ u ∈ words * R x, u ∈ R e) →
    ∃ S : Nat → Language Symbol, (∀ q, ¬(n ≤ q ∧ q < high) → S q = R q) ∧ Respects S ws

theorem chain_extends (parts : List Tree)
    (ih : ∀ t ∈ parts, ∀ e x n, e < n → x < n →
      Extends e x n (wires e x n t).2 (wires e x n t).1 t.language)
    (e x n : Nat) (he : e < n) (hx : x < n) :
    Extends e x n (chain e x n parts).2 (chain e x n parts).1 (sequence parts) := by
  induction parts generalizing e n with
  | nil =>
      intro R _
      exact ⟨R, fun _ _ => rfl, by simp [chain, Respects]⟩
  | cons part rest ihr =>
      cases rest with
      | nil =>
          rw [chain_singleton]
          intro R hR
          apply ih part (by simp) e x n he hx R
          simpa [sequence] using hR
      | cons other rest =>
          intro R hR
          rw [chain_cons_cons]
          have hfirst := wires_framed part e n (n + 1)
          have hlater := chain_framed (other :: rest) (fun t _ => wires_framed t) n x
            (wires e n (n + 1) part).2
          have hle := hfirst.le
          have hle' := hlater.le
          -- The state between the parts gets the words that are still to come.
          let R₁ := Function.update R n (sequence (other :: rest) * R x)
          have hR₁ : ∀ u ∈ part.language * R₁ n, u ∈ R₁ e := by
            simp only [R₁, Function.update_self, Function.update_of_ne (Nat.ne_of_lt he)]
            rw [← mul_assoc]
            simpa [sequence] using hR
          obtain ⟨R₂, hout₂, hresp₂⟩ :=
            ih part (by simp) e n (n + 1) (by omega) (by omega) R₁ hR₁
          have hR₂ : ∀ u ∈ sequence (other :: rest) * R₂ x, u ∈ R₂ n := by
            rw [hout₂ n (by omega), hout₂ x (by omega)]
            simp only [R₁, Function.update_self, Function.update_of_ne (Nat.ne_of_lt hx)]
            exact fun u hu => hu
          obtain ⟨R₃, hout₃, hresp₃⟩ :=
            ihr (fun t ht => ih t (by simp [ht])) n (wires e n (n + 1) part).2 (by omega)
              (by omega) R₂ hR₂
          refine ⟨R₃, ?_, Respects.append (hresp₂.congr hfirst ?_ ?_ ?_) hresp₃⟩
          · intro q hq
            rw [hout₃ q (by omega), hout₂ q (by omega)]
            exact Function.update_of_ne (by omega) _ _
          · exact hout₃ e (by omega)
          · exact hout₃ n (by omega)
          · intro q hl hh
            exact hout₃ q (by omega)

theorem fan_extends (parts : List Tree)
    (ih : ∀ t ∈ parts, ∀ e x n, e < n → x < n →
      Extends e x n (wires e x n t).2 (wires e x n t).1 t.language)
    (e x n : Nat) (he : e < n) (hx : x < n) :
    Extends e x n (fan e x n parts).2 (fan e x n parts).1 (choice parts) := by
  induction parts generalizing n with
  | nil =>
      intro R _
      exact ⟨R, fun _ _ => rfl, by simp [fan, Respects]⟩
  | cons part rest ihr =>
      intro R hR
      rw [fan_cons]
      have hfirst := wires_framed part n (n + 1) (n + 2)
      have hlater := fan_framed rest (fun t _ => wires_framed t) e x
        (wires n (n + 1) (n + 2) part).2
      have hle := hfirst.le
      have hle' := hlater.le
      rw [choice, add_mul] at hR
      have hpart : ∀ u ∈ part.language * R x, u ∈ R e := fun u hu => hR u (Or.inl hu)
      have hrest : ∀ u ∈ choice rest * R x, u ∈ R e := fun u hu => hR u (Or.inr hu)
      let R₁ := Function.update (Function.update R n (part.language * R x)) (n + 1) (R x)
      have hat : R₁ (n + 1) = R x := by simp [R₁]
      have hat' : R₁ n = part.language * R x := by simp [R₁]
      have hout₁ : ∀ q, q ≠ n → q ≠ n + 1 → R₁ q = R q := by
        intro q hq hq'
        simp [R₁, hq, hq']
      obtain ⟨R₂, hout₂, hresp₂⟩ :=
        ih part (by simp) n (n + 1) (n + 2) (by omega) (by omega) R₁ (by simp [hat, hat'])
      have hR₂ : ∀ u ∈ choice rest * R₂ x, u ∈ R₂ e := by
        rw [hout₂ e (by omega), hout₂ x (by omega), hout₁ e (by omega) (by omega),
          hout₁ x (by omega) (by omega)]
        exact hrest
      obtain ⟨R₃, hout₃, hresp₃⟩ :=
        ihr (fun t ht => ih t (by simp [ht])) (wires n (n + 1) (n + 2) part).2 (by omega)
          (by omega) R₂ hR₂
      have hsame : ∀ q, q < n ∨ q = n ∨ q = n + 1 → R₃ q = R₁ q := by
        intro q hq
        rw [hout₃ q (by omega), hout₂ q (by omega)]
      refine ⟨R₃, ?_, .cons ?_ (.append (hresp₂.congr hfirst ?_ ?_ ?_) (.cons ?_ hresp₃))⟩
      · intro q hq
        rw [hout₃ q (by omega), hout₂ q (by omega), hout₁ q (by omega) (by omega)]
      · intro u hu
        rw [hsame n (by omega), hat'] at hu
        rw [hsame e (by omega), hout₁ e (by omega) (by omega)]
        exact hpart u hu
      · exact hout₃ n (by omega)
      · exact hout₃ (n + 1) (by omega)
      · intro q hl hh
        exact hout₃ q (by omega)
      · intro u hu
        rw [hsame x (by omega), hout₁ x (by omega) (by omega)] at hu
        rw [hsame (n + 1) (by omega), hat]
        exact hu

theorem wires_extends (t : Tree) :
    ∀ e x n, e < n → x < n → Extends e x n (wires e x n t).2 (wires e x n t).1 t.language := by
  induction t using Tree.induction with
  | hempty s =>
      intro e x n _ _ R hR
      refine ⟨R, fun _ _ => rfl, ?_⟩
      rw [language, one_mul] at hR
      simp only [wires, Respects, List.mem_singleton, forall_eq, Option.toList_none,
        List.nil_append]
      intro u hu
      exact hR u hu
  | htext s a =>
      intro e x n _ _ R hR
      refine ⟨R, fun _ _ => rfl, ?_⟩
      simp only [wires, Respects, List.mem_singleton, forall_eq, Option.toList_some]
      intro u hu
      have ha : [a] ∈ (text s a).language := by
        rw [language]
        exact Set.mem_singleton _
      exact hR _ (Language.append_mem_mul ha hu)
  | hcat s parts ih =>
      intro e x n he hx
      rw [wires_cat, language]
      exact chain_extends parts ih e x n he hx
  | halt s parts ih =>
      intro e x n he hx
      rw [wires_alt, language]
      exact fan_extends parts ih e x n he hx
  | hstar s body ih =>
      intro e x n he hx R hR
      rw [wires_star]
      have hbody := wires_framed body n (n + 1) (n + 2)
      have hle := hbody.le
      rw [language] at hR
      -- The end of the body may start over or leave, as the entry may.
      let K := body.language∗ * R x
      have hexit : ∀ u ∈ R x, u ∈ K := fun u hu =>
        Language.append_mem_mul (Language.nil_mem_kstar _) hu
      have hagain : body.language * K ≤ K := by
        rw [← mul_assoc]
        exact mul_le_mul_left (mul_kstar_le_kstar (a := body.language)) (R x)
      let R₁ := Function.update (Function.update R n (body.language * K)) (n + 1) K
      have hat : R₁ (n + 1) = K := by simp [R₁]
      have hat' : R₁ n = body.language * K := by simp [R₁]
      have hout₁ : ∀ q, q ≠ n → q ≠ n + 1 → R₁ q = R q := by
        intro q hq hq'
        simp [R₁, hq, hq']
      obtain ⟨R₂, hout₂, hresp₂⟩ :=
        ih n (n + 1) (n + 2) (by omega) (by omega) R₁ (by simp [hat, hat'])
      have hsame : ∀ q, q < n ∨ q = n ∨ q = n + 1 → R₂ q = R₁ q := fun q hq =>
        hout₂ q (by omega)
      have he₂ : R₂ e = R e := by rw [hsame e (by omega), hout₁ e (by omega) (by omega)]
      have hx₂ : R₂ x = R x := by rw [hsame x (by omega), hout₁ x (by omega) (by omega)]
      have hn₂ : R₂ n = body.language * K := by rw [hsame n (by omega), hat']
      have hend₂ : R₂ (n + 1) = K := by rw [hsame (n + 1) (by omega), hat]
      refine ⟨R₂, ?_, .append (.append (.cons ?_ (.cons ?_ ?_)) hresp₂) (.cons ?_ (.cons ?_ ?_))⟩
      · intro q hq
        rw [hout₂ q (by omega), hout₁ q (by omega) (by omega)]
      · intro u hu
        simp only [hn₂] at hu
        simp only [he₂]
        exact hR u (hagain hu)
      · intro u hu
        simp only [hx₂] at hu
        simp only [he₂]
        exact hR u (hexit u hu)
      · simp [Respects]
      · intro u hu
        simp only [hn₂] at hu
        simp only [hend₂]
        exact hagain hu
      · intro u hu
        simp only [hx₂] at hu
        simp only [hend₂]
        exact hexit u hu
      · simp [Respects]

/-! ### Completeness -/

theorem Wire.trail_of_subset {ws vs : List Wire} {s t : Nat} {w : List Symbol}
    (h : Trail (Wire.Step ws) s w t) (hsub : ws ⊆ vs) : Trail (Wire.Step vs) s w t :=
  h.mono fun _ _ _ hstep => hsub hstep

theorem chain_reads (parts : List Tree) (hne : parts ≠ [])
    (ih : ∀ t ∈ parts, ∀ e x n w, w ∈ t.language → Trail (Wire.Step (wires e x n t).1) e w x) :
    ∀ e x n w, w ∈ sequence parts → Trail (Wire.Step (chain e x n parts).1) e w x := by
  induction parts with
  | nil => exact absurd rfl hne
  | cons part rest ihr =>
      intro e x n w hw
      cases rest with
      | nil =>
          rw [chain_singleton]
          apply ih part (by simp) e x n w
          simpa [sequence] using hw
      | cons other rest =>
          rw [chain_cons_cons]
          rw [sequence] at hw
          obtain ⟨u, hu, v, hv, rfl⟩ := Language.mem_mul.mp hw
          have hfirst := ih part (by simp) e n (n + 1) u hu
          have hlater := ihr (by simp) (fun t ht => ih t (by simp [ht])) n x
            (wires e n (n + 1) part).2 v hv
          exact (Wire.trail_of_subset hfirst (List.subset_append_left _ _)).append
            (Wire.trail_of_subset hlater (List.subset_append_right _ _))

theorem fan_reads (parts : List Tree)
    (ih : ∀ t ∈ parts, ∀ e x n w, w ∈ t.language → Trail (Wire.Step (wires e x n t).1) e w x) :
    ∀ e x n w, w ∈ choice parts → Trail (Wire.Step (fan e x n parts).1) e w x := by
  induction parts with
  | nil =>
      intro e x n w hw
      rw [choice] at hw
      exact absurd hw (Language.notMem_zero w)
  | cons part rest ihr =>
      intro e x n w hw
      rw [choice] at hw
      rcases (Language.mem_add _ _ w).mp hw with hw | hw
      · have hpart := ih part (by simp) n (n + 1) (n + 2) w hw
        have hleave : Trail (Wire.Step (fan e x n (part :: rest)).1) (n + 1) [] x :=
          .silent (m := x) (by simp [Wire.Step, fan_cons]) (.refl x)
        refine .silent (m := n) (by simp [Wire.Step, fan_cons]) ?_
        simpa using (Wire.trail_of_subset hpart fun v hv => by simp [fan_cons, hv]).append hleave
      · have hrest := ihr (fun t ht => ih t (by simp [ht])) e x
          (wires n (n + 1) (n + 2) part).2 w hw
        exact Wire.trail_of_subset hrest fun v hv => by simp [fan_cons, hv]

/-- Words of the body, one after the other, are read from its end to the exit. -/
theorem star_reads {s : Span} {body : Tree} {e x n : Nat}
    (ih : ∀ w ∈ body.language, Trail (Wire.Step (wires e x n (star s body)).1) n w (n + 1))
    (words : List (List Symbol)) (hwords : ∀ w ∈ words, w ∈ body.language) :
    Trail (Wire.Step (wires e x n (star s body)).1) (n + 1) words.flatten x := by
  induction words with
  | nil => exact .silent (m := x) (by simp [Wire.Step, wires_star]) (.refl x)
  | cons w rest ihr =>
      rw [List.flatten_cons]
      refine .silent (m := n) (by simp [Wire.Step, wires_star]) ?_
      exact (ih w (hwords w (by simp))).append (ihr fun v hv => hwords v (by simp [hv]))

theorem wires_reads {t : Tree} (h : t.Proper) :
    ∀ e x n w, w ∈ t.language → Trail (Wire.Step (wires e x n t).1) e w x := by
  induction h with
  | empty s =>
      intro e x n w hw
      rw [language, Language.mem_one] at hw
      subst hw
      exact .silent (m := x) (by simp [Wire.Step, wires]) (.refl x)
  | text s a =>
      intro e x n w hw
      rw [language] at hw
      obtain rfl : w = [a] := hw
      exact .read (m := x) (by simp [Wire.Step, wires]) (.refl x)
  | cat s hne _ ih =>
      intro e x n w hw
      rw [wires_cat]
      rw [language] at hw
      exact chain_reads _ hne ih e x n w hw
  | alt s hne _ ih =>
      intro e x n w hw
      rw [wires_alt]
      rw [language] at hw
      exact fan_reads _ ih e x n w hw
  | star s body _ ih =>
      intro e x n w hw
      rw [language] at hw
      obtain ⟨words, rfl, hwords⟩ := Language.mem_kstar.mp hw
      have hbody : ∀ w ∈ body.language,
          Trail (Wire.Step (wires e x n (.star s body)).1) n w (n + 1) := fun w hw =>
        Wire.trail_of_subset (ih n (n + 1) (n + 2) w hw) fun v hv => by simp [wires_star, hv]
      cases words with
      | nil => exact .silent (m := x) (by simp [Wire.Step, wires_star]) (.refl x)
      | cons first rest =>
          rw [List.flatten_cons]
          refine .silent (m := n) (by simp [Wire.Step, wires_star]) ?_
          exact (hbody first (hwords first (by simp))).append
            (star_reads hbody rest fun v hv => hwords v (by simp [hv]))

/-! ### No state in vain -/

/-- Some word leads from the entry to the state, and some word from the state to the exit. -/
def Between (e x : Nat) (ws : List Wire) (q : Nat) : Prop :=
  (∃ u, Trail (Wire.Step ws) e u q) ∧ ∃ v, Trail (Wire.Step ws) q v x

/-- Wires before the entry and behind the exit make the way longer. -/
theorem Between.widen {e x e' x' q : Nat} {ws vs : List Wire} {u v : List Symbol}
    (h : Between e x ws q) (hsub : ws ⊆ vs) (henter : Trail (Wire.Step vs) e' u e)
    (hleave : Trail (Wire.Step vs) x v x') : Between e' x' vs q := by
  obtain ⟨⟨u', hu'⟩, v', hv'⟩ := h
  exact ⟨⟨u ++ u', henter.append (Wire.trail_of_subset hu' hsub)⟩,
    v' ++ v, (Wire.trail_of_subset hv' hsub).append hleave⟩

/-- The entry and every fresh state are on a way from the entry to the exit. -/
def Threaded (e x low high : Nat) (ws : List Wire) : Prop :=
  ∀ q, q = e ∨ low ≤ q ∧ q < high → Between e x ws q

theorem chain_threaded (parts : List Tree) (hne : parts ≠ [])
    (ih : ∀ t ∈ parts, ∀ e x n, Threaded e x n (wires e x n t).2 (wires e x n t).1) :
    ∀ e x n, Threaded e x n (chain e x n parts).2 (chain e x n parts).1 := by
  induction parts with
  | nil => exact absurd rfl hne
  | cons part rest ihr =>
      intro e x n
      cases rest with
      | nil =>
          rw [chain_singleton]
          exact ih part (by simp) e x n
      | cons other rest =>
          rw [chain_cons_cons]
          have hfirst := ih part (by simp) e n (n + 1)
          have hlater := ihr (by simp) (fun t ht => ih t (by simp [ht])) n x
            (wires e n (n + 1) part).2
          obtain ⟨u, hu⟩ := (hfirst e (Or.inl rfl)).2
          obtain ⟨v, hv⟩ := (hlater n (Or.inl rfl)).2
          intro q hq
          by_cases hlow : q = e ∨ n + 1 ≤ q ∧ q < (wires e n (n + 1) part).2
          · exact (hfirst q hlow).widen (List.subset_append_left _ _) (.refl e)
              (Wire.trail_of_subset hv (List.subset_append_right _ _))
          · have hhigh : q = n ∨ (wires e n (n + 1) part).2 ≤ q ∧
                q < (chain n x (wires e n (n + 1) part).2 (other :: rest)).2 := by
              dsimp only at hq
              omega
            exact (hlater q hhigh).widen (List.subset_append_right _ _)
              (Wire.trail_of_subset hu (List.subset_append_left _ _)) (.refl x)

theorem fan_threaded (parts : List Tree) (hne : parts ≠ [])
    (ih : ∀ t ∈ parts, ∀ e x n, Threaded e x n (wires e x n t).2 (wires e x n t).1) :
    ∀ e x n, Threaded e x n (fan e x n parts).2 (fan e x n parts).1 := by
  induction parts with
  | nil => exact absurd rfl hne
  | cons part rest ihr =>
      intro e x n q hq
      have hsub : (wires n (n + 1) (n + 2) part).1 ⊆ (fan e x n (part :: rest)).1 := by
        intro w hw
        simp [fan_cons, hw]
      have henter : Trail (Wire.Step (fan e x n (part :: rest)).1) e [] n :=
        .silent (m := n) (by simp [Wire.Step, fan_cons]) (.refl n)
      have hleave : Trail (Wire.Step (fan e x n (part :: rest)).1) (n + 1) [] x :=
        .silent (m := x) (by simp [Wire.Step, fan_cons]) (.refl x)
      have hpart := ih part (by simp) n (n + 1) (n + 2)
      obtain ⟨⟨u, hu⟩, v, hv⟩ := (hpart n (Or.inl rfl)).widen hsub henter (.refl (n + 1))
      by_cases he : q = e
      · subst he
        exact ⟨⟨[], .refl q⟩, u ++ (v ++ []), hu.append (hv.append hleave)⟩
      · by_cases hend : q = n + 1
        · subst hend
          exact ⟨⟨u ++ v, hu.append hv⟩, [], hleave⟩
        · by_cases hlow : q < (wires n (n + 1) (n + 2) part).2
          · exact (hpart q (by omega)).widen hsub henter hleave
          · simp only [fan_cons] at hq
            cases rest with
            | nil =>
                simp only [fan] at hq
                omega
            | cons other rest =>
                have hrest := ihr (by simp) (fun t ht => ih t (by simp [ht])) e x
                  (wires n (n + 1) (n + 2) part).2 q (by omega)
                refine hrest.widen (fun w hw => ?_) (.refl e) (.refl x)
                rw [fan_cons]
                simp [hw]

theorem wires_threaded {t : Tree} (h : t.Proper) :
    ∀ e x n, Threaded e x n (wires e x n t).2 (wires e x n t).1 := by
  induction h with
  | empty s =>
      intro e x n q hq
      have he : q = e := by
        simp only [wires] at hq
        omega
      subst he
      exact ⟨⟨[], .refl q⟩, [], .silent (m := x) (by simp [Wire.Step, wires]) (.refl x)⟩
  | text s a =>
      intro e x n q hq
      have he : q = e := by
        simp only [wires] at hq
        omega
      subst he
      exact ⟨⟨[], .refl q⟩, [a], .read (m := x) (by simp [Wire.Step, wires]) (.refl x)⟩
  | cat s hne _ ih =>
      intro e x n
      rw [wires_cat]
      exact chain_threaded _ hne ih e x n
  | alt s hne _ ih =>
      intro e x n
      rw [wires_alt]
      exact fan_threaded _ hne ih e x n
  | star s body _ ih =>
      intro e x n q hq
      have hsub : (wires n (n + 1) (n + 2) body).1 ⊆ (wires e x n (.star s body)).1 := by
        intro w hw
        simp [wires_star, hw]
      have henter : Trail (Wire.Step (wires e x n (.star s body)).1) e [] n :=
        .silent (m := n) (by simp [Wire.Step, wires_star]) (.refl n)
      have hleave : Trail (Wire.Step (wires e x n (.star s body)).1) (n + 1) [] x :=
        .silent (m := x) (by simp [Wire.Step, wires_star]) (.refl x)
      have hbody := ih n (n + 1) (n + 2)
      by_cases he : q = e
      · subst he
        exact ⟨⟨[], .refl q⟩, [],
          .silent (m := x) (by simp [Wire.Step, wires_star]) (.refl x)⟩
      · by_cases hend : q = n + 1
        · subst hend
          obtain ⟨⟨u, hu⟩, v, hv⟩ := (hbody n (Or.inl rfl)).widen hsub henter (.refl (n + 1))
          exact ⟨⟨u ++ v, hu.append hv⟩, [], hleave⟩
        · simp only [wires_star] at hq
          exact (hbody q (by omega)).widen hsub henter hleave

end PatternCircuit.Tree

/-! ### The automaton -/

namespace PatternCircuit.Nfa

/-- All edges lead to states of the automaton. -/
def InRange (n : Nfa) : Prop := ∀ s a t, n.Step s a t → t < n.states.size

theorem start_ofTree (t : Tree) : (ofTree t).start = 0 := rfl

theorem accept_ofTree (t : Tree) : (ofTree t).accept = 1 := rfl

theorem size_ofTree (t : Tree) : (ofTree t).states.size = (t.wires 0 1 2).2 :=
  size_ofWires _ _ _ _

theorem two_le_size_ofTree (t : Tree) : 2 ≤ (ofTree t).states.size := by
  rw [size_ofTree]
  exact (t.wires_framed 0 1 2).le

theorem step_ofTree (t : Tree) (s : Nat) (a : Option Symbol) (q : Nat) :
    (ofTree t).Step s a q ↔ Wire.Step (t.wires 0 1 2).1 s a q := by
  have hframed := t.wires_framed 0 1 2
  have hle := hframed.le
  refine step_ofWires (fun w hw => ?_) s a q
  have h := hframed.source w hw
  omega

theorem inRange_ofTree (t : Tree) : (ofTree t).InRange := by
  intro s a q hstep
  have hframed := t.wires_framed 0 1 2
  have hle := hframed.le
  have h := hframed.target _ ((step_ofTree t s a q).mp hstep)
  rw [size_ofTree]
  dsimp only at h
  omega

theorem reads_ofTree (t : Tree) (s : Nat) (w : List Symbol) (q : Nat) :
    (ofTree t).Reads s w q ↔ Trail (Wire.Step (t.wires 0 1 2).1) s w q :=
  ⟨fun h => h.mono fun p a r hstep => (step_ofTree t p a r).mp hstep,
    fun h => h.mono fun p a r hstep => (step_ofTree t p a r).mpr hstep⟩

/-- From start to accept the automaton of a tree reads exactly the words of the tree. -/
theorem reads_ofTree_iff_mem_language {t : Tree} (h : t.Proper) (w : List Symbol) :
    (ofTree t).Reads (ofTree t).start w (ofTree t).accept ↔ w ∈ t.language := by
  rw [reads_ofTree]
  constructor
  · intro htrail
    let R : Nat → Language Symbol := fun q => if q = 1 then 1 else t.language
    obtain ⟨S, hout, hresp⟩ := t.wires_extends 0 1 2 (by omega) (by omega) R (by simp [R])
    have hnil : [] ∈ S 1 := by
      rw [hout 1 (by omega)]
      exact Language.nil_mem_one
    have hmem := hresp.trail htrail hnil
    rw [List.append_nil, start_ofTree, hout 0 (by omega)] at hmem
    exact hmem
  · intro hw
    exact Tree.wires_reads h 0 1 2 w hw

/-- Every state of the automaton of a tree is on a way from its start to its accept state. -/
theorem exists_reads_through {t : Tree} (h : t.Proper) {q : Nat}
    (hq : q < (ofTree t).states.size) :
    (∃ u, (ofTree t).Reads (ofTree t).start u q) ∧
      ∃ v, (ofTree t).Reads q v (ofTree t).accept := by
  have hthreaded := Tree.wires_threaded h 0 1 2
  rw [size_ofTree] at hq
  simp only [reads_ofTree]
  by_cases haccept : q = 1
  · subst haccept
    exact ⟨(hthreaded 0 (Or.inl rfl)).2, [], .refl 1⟩
  · exact hthreaded q (by omega)

/-- From its start to its accept state the automaton of a tree reads exactly the words of the tree,
and each of its states is on a way from the one to the other. -/
theorem ofTree_reads_words_through_all_states {t : Tree} (h : t.Proper) :
    (∀ w, (ofTree t).Reads (ofTree t).start w (ofTree t).accept ↔ w ∈ t.language) ∧
      ∀ q < (ofTree t).states.size, ∃ u v, (ofTree t).Reads (ofTree t).start u q ∧
        (ofTree t).Reads q v (ofTree t).accept := by
  refine ⟨reads_ofTree_iff_mem_language h, fun q hq => ?_⟩
  obtain ⟨⟨u, hu⟩, v, hv⟩ := exists_reads_through h hq
  exact ⟨u, v, hu, hv⟩

/-- An optional repetition, repeated: the ends of three subtrees are joined by silent steps. -/
def nestedStarTree : Tree :=
  .star ⟨0, 7⟩ (.alt ⟨0, 6⟩ [.star ⟨1, 3⟩ (.text ⟨1, 2⟩ (.byte 97)), .empty ⟨0, 6⟩])

/-- The tree reads a repeated letter through the innermost of its ten states. -/
theorem nestedStarTree_reads_through_inner_state :
    nestedStarTree.Proper ∧ (ofTree nestedStarTree).states.size = 10 ∧
      (ofTree nestedStarTree).Reads 0 [.byte 97, .byte 97] 1 ∧
      ∃ u v, (ofTree nestedStarTree).Reads 0 u 6 ∧ (ofTree nestedStarTree).Reads 6 v 1 := by
  have hproper : nestedStarTree.Proper := by
    refine .star _ _ (.alt _ (by simp) ?_)
    intro t ht
    rcases List.mem_cons.mp ht with rfl | ht
    · exact .star _ _ (.text _ _)
    · rw [List.mem_singleton.mp ht]
      exact .empty _
  have hsize : (ofTree nestedStarTree).states.size = 10 := by decide
  obtain ⟨hwords, hthrough⟩ := ofTree_reads_words_through_all_states hproper
  refine ⟨hproper, hsize, (hwords _).mpr ?_, hthrough 6 (by omega)⟩
  rw [nestedStarTree, Tree.language, Language.mem_kstar]
  refine ⟨[[.byte 97], [.byte 97]], rfl, ?_⟩
  intro w hw
  have hw : w = [.byte 97] := by simpa using hw
  rw [hw, Tree.language, Tree.choice, Tree.language, Tree.language]
  exact Or.inl (Language.mem_kstar.mpr
    ⟨[[.byte 97]], rfl, List.forall_mem_singleton.mpr (Set.mem_singleton _)⟩)

end PatternCircuit.Nfa

import PatternCircuit.Pattern.Parser

/-! # Parsing with a stack

The descent can be followed in one pass from left to right. A frame holds what has been read of the
innermost open group, and the frames of the groups around it wait on a stack. Faults arise at the
same places for the same causes. A byte is never unexpected: a sequence ends only at a bar, at a
closing parenthesis or at the end, and there no atom is asked for. -/

namespace PatternCircuit

theorem Tree.withSpan_altOf (s s' s'' : Span) (trees : List Tree) :
    (altOf s trees).withSpan s'' = (altOf s' trees).withSpan s'' := by
  unfold altOf
  split <;> rfl

namespace Parser

/-- What has been read of a group. The lists hold the latest item first. -/
structure Frame where
  /-- Offset of the opening parenthesis; zero for the whole pattern. -/
  opened : Nat
  alternatives : List Tree
  /-- Where the current alternative starts. -/
  start : Nat
  terms : List Tree

namespace Frame

/-- The frame of a group whose content starts at `start`. -/
def fresh (opened start : Nat) : Frame := ⟨opened, [], start, []⟩

def push (f : Frame) (t : Tree) : Frame := { f with terms := t :: f.terms }

/-- The current alternative, which ends at `pos` and must not be empty. -/
def alternative (f : Frame) (pos : Nat) : Except PatternFault Tree :=
  match f.terms with
  | [] => .error ⟨.emptyAlternative, pos⟩
  | terms => .ok (.catOf ⟨f.start, pos⟩ terms.reverse)

/-- Ends the current alternative at the bar at `pos`. -/
def bar (f : Frame) (pos : Nat) : Except PatternFault Frame := do
  let t ← f.alternative pos
  pure ⟨f.opened, t :: f.alternatives, pos + 1, []⟩

/-- The whole group over `span`, its last alternative ending at `pos`. -/
def close (f : Frame) (span : Span) (pos : Nat) : Except PatternFault Tree := do
  let t ← f.alternative pos
  pure (.altOf span (t :: f.alternatives).reverse)

end Frame

/-- Applies a postfix operator to the latest term of a frame. -/
def applyPostfix (operator : UInt8) (pos : Nat) (f : Frame) : Except PatternFault Frame :=
  match f.terms with
  | [] => .error ⟨.danglingPostfix operator, pos⟩
  | t :: rest => .ok { f with terms := postfixed operator pos t :: rest }

/-- Reads the bytes from `pos` on, in the innermost frame and with the frames around it. -/
def read (pos : Nat) (frame : Frame) (outer : List Frame) : List UInt8 → Except PatternFault Tree
  | [] =>
      match outer with
      | [] => frame.close ⟨0, pos⟩ pos
      | _ :: _ => do
          let _ ← frame.alternative pos
          .error ⟨.missingClose frame.opened, pos⟩
  | [Ascii.backslash] => .error ⟨.trailingEscape, pos⟩
  | Ascii.backslash :: byte :: rest =>
      read (pos + 2) (frame.push (.text ⟨pos, pos + 2⟩ (.byte byte))) outer rest
  | byte :: rest =>
      if byte = Ascii.openParen then
        read (pos + 1) (.fresh pos (pos + 1)) (frame :: outer) rest
      else if byte = Ascii.closeParen then do
        let group ← frame.close ⟨frame.opened, pos + 1⟩ pos
        match outer with
        | [] => .error ⟨.unmatchedClose, pos⟩
        | parent :: outer =>
            read (pos + 1) (parent.push (group.withSpan ⟨frame.opened, pos + 1⟩)) outer rest
      else if byte = Ascii.bar then do
        let frame ← frame.bar pos
        read (pos + 1) frame outer rest
      else if isPostfix byte then do
        let frame ← applyPostfix byte pos frame
        read (pos + 1) frame outer rest
      else if byte = Ascii.caret then
        read (pos + 1) (frame.push (.text ⟨pos, pos + 1⟩ .negate)) outer rest
      else
        read (pos + 1) (frame.push (.text ⟨pos, pos + 1⟩ (.byte byte))) outer rest

/-! ### Steps -/

theorem read_escaped (pos : Nat) (frame : Frame) (outer : List Frame) (b : UInt8)
    (rest : List UInt8) : read pos frame outer (Ascii.backslash :: b :: rest) =
      read (pos + 2) (frame.push (.text ⟨pos, pos + 2⟩ (.byte b))) outer rest := rfl

theorem read_cons (pos : Nat) (frame : Frame) (outer : List Frame) {b : UInt8}
    (hb : b ≠ Ascii.backslash) (rest : List UInt8) : read pos frame outer (b :: rest) =
      if b = Ascii.openParen then
        read (pos + 1) (.fresh pos (pos + 1)) (frame :: outer) rest
      else if b = Ascii.closeParen then do
        let group ← frame.close ⟨frame.opened, pos + 1⟩ pos
        match outer with
        | [] => .error ⟨.unmatchedClose, pos⟩
        | parent :: outer =>
            read (pos + 1) (parent.push (group.withSpan ⟨frame.opened, pos + 1⟩)) outer rest
      else if b = Ascii.bar then do
        let frame ← frame.bar pos
        read (pos + 1) frame outer rest
      else if isPostfix b then do
        let frame ← applyPostfix b pos frame
        read (pos + 1) frame outer rest
      else if b = Ascii.caret then
        read (pos + 1) (frame.push (.text ⟨pos, pos + 1⟩ .negate)) outer rest
      else
        read (pos + 1) (frame.push (.text ⟨pos, pos + 1⟩ (.byte b))) outer rest := by
  refine (read.eq_5 pos frame outer b rest ?_ ?_).trans rfl
  · exact fun heq => absurd heq hb
  · exact fun _ _ heq => absurd heq hb

theorem read_caret (pos : Nat) (frame : Frame) (outer : List Frame) (rest : List UInt8) :
    read pos frame outer (Ascii.caret :: rest) =
      read (pos + 1) (frame.push (.text ⟨pos, pos + 1⟩ .negate)) outer rest := rfl

theorem read_open (pos : Nat) (frame : Frame) (outer : List Frame) (rest : List UInt8) :
    read pos frame outer (Ascii.openParen :: rest) =
      read (pos + 1) (.fresh pos (pos + 1)) (frame :: outer) rest := rfl

theorem read_close {pos : Nat} {frame : Frame} {group : Tree}
    (h : frame.close ⟨frame.opened, pos + 1⟩ pos = .ok group) (parent : Frame)
    (outer : List Frame) (rest : List UInt8) :
    read pos frame (parent :: outer) (Ascii.closeParen :: rest) =
      read (pos + 1) (parent.push (group.withSpan ⟨frame.opened, pos + 1⟩)) outer rest := by
  rw [read_cons pos frame _ (by decide), if_neg (by decide), if_pos rfl, h]
  rfl

theorem read_bar {pos : Nat} {frame next : Frame} (h : frame.bar pos = .ok next)
    (outer : List Frame) (rest : List UInt8) :
    read pos frame outer (Ascii.bar :: rest) = read (pos + 1) next outer rest := by
  rw [read_cons pos frame _ (by decide), if_neg (by decide), if_neg (by decide), if_pos rfl, h]
  rfl

theorem Frame.opened_bar {f g : Frame} {pos : Nat} (h : f.bar pos = .ok g) :
    g.opened = f.opened := by
  obtain ⟨_, _, hg⟩ := Outcome.bind_eq_ok.mp h
  cases hg
  rfl

theorem opened_applyPostfix {f g : Frame} {operator : UInt8} {pos : Nat}
    (h : applyPostfix operator pos f = .ok g) : g.opened = f.opened := by
  unfold applyPostfix at h
  split at h
  · cases h
  · cases h
    rfl

/-! ### Where the descent stops -/

/-- No operator is left behind a term. -/
theorem isPostfix_of_head?_applyOperators (pos : Nat) (t : Tree) (bytes : List UInt8) :
    ∀ b ∈ (applyOperators pos t bytes).2.2.head?, isPostfix b = false := by
  induction bytes generalizing pos t with
  | nil => simp [applyOperators]
  | cons byte rest ih =>
      rw [applyOperators]
      split
      · exact ih _ _
      · simp_all

theorem isPostfix_of_head?_term {pos : Nat} {bytes : List UInt8} {item : Item bytes}
    (h : term pos bytes = .ok item) : ∀ b ∈ item.rest.head?, isPostfix b = false := by
  rw [term.eq_1] at h
  obtain ⟨atom, _, hitem⟩ := Outcome.bind_eq_ok.mp h
  cases hitem
  exact isPostfix_of_head?_applyOperators _ _ _

/-- Terms end at a bar, at a closing parenthesis or at the end. -/
theorem head?_terms {pos : Nat} {bytes : List UInt8} {items : Items bytes}
    (h : terms pos bytes = .ok items) :
    ∀ b ∈ items.rest.head?, b = Ascii.bar ∨ b = Ascii.closeParen := by
  cases bytes with
  | nil =>
      rw [terms.eq_1] at h
      cases h
      simp [Items.none]
  | cons byte rest =>
      rw [terms.eq_2] at h
      split at h
      · rename_i hstop
        cases h
        simpa [Items.none] using hstop
      · obtain ⟨first, _, hothers⟩ := Outcome.bind_eq_ok.mp h
        obtain ⟨others, hterms, hitems⟩ := Outcome.bind_eq_ok.mp hothers
        have hshorter := first.shorter
        have hrest := head?_terms hterms
        cases hitems
        exact hrest
termination_by bytes.length

/-! ### One pass -/

/-- The frame behind a sequence of terms. -/
def Frame.pushAll (f : Frame) (trees : List Tree) : Frame :=
  { f with terms := trees.reverse ++ f.terms }

theorem Frame.pushAll_cons (f : Frame) (t : Tree) (trees : List Tree) :
    f.pushAll (t :: trees) = (f.push t).pushAll trees := by
  simp [pushAll, push]

theorem Frame.alternative_pushAll {f : Frame} (hterms : f.terms = []) {trees : List Tree}
    (htrees : trees ≠ []) (pos : Nat) :
    (f.pushAll trees).alternative pos = .ok (.catOf ⟨f.start, pos⟩ trees) := by
  simp only [alternative, pushAll, hterms, List.append_nil]
  split
  · rename_i hnil
    exact absurd (List.reverse_eq_nil_iff.mp hnil) htrees
  · rw [List.reverse_reverse]

/-- How reading goes on behind the choice of a group that was opened at `opened`. -/
def resume (opened : Nat) (t : Tree) (pos : Nat) :
    List Frame → List UInt8 → Except PatternFault Tree
  | [], [] => .ok t
  | [], byte :: _ =>
      if byte = Ascii.closeParen then .error ⟨.unmatchedClose, pos⟩
      else .error ⟨.unexpected byte, pos⟩
  | _ :: _, [] => .error ⟨.missingClose opened, pos⟩
  | parent :: outer, byte :: rest =>
      if byte = Ascii.closeParen then
        read (pos + 1) (parent.push (t.withSpan ⟨opened, pos + 1⟩)) outer rest
      else .error ⟨.missingClose opened, pos⟩

theorem read_of_isPostfix {byte : UInt8} (h : isPostfix byte = true) (pos : Nat) (f : Frame)
    (outer : List Frame) (rest : List UInt8) : read pos f outer (byte :: rest) =
      applyPostfix byte pos f >>= fun f => read (pos + 1) f outer rest := by
  simp only [isPostfix, Bool.or_eq_true, decide_eq_true_eq] at h
  obtain (rfl | rfl) | rfl := h <;> rfl

theorem read_applyOperators (pos : Nat) (f : Frame) (t : Tree) (outer : List Frame)
    (bytes : List UInt8) : read pos (f.push t) outer bytes =
      read (applyOperators pos t bytes).2.1 (f.push (applyOperators pos t bytes).1) outer
        (applyOperators pos t bytes).2.2 := by
  induction bytes generalizing pos t with
  | nil => rfl
  | cons byte rest ih =>
      rw [applyOperators]
      split
      · rename_i hlead
        rw [← ih, read_of_isPostfix hlead]
        rfl
      · rfl

/-- A sequence without a term. -/
theorem read_empty {pos : Nat} {f : Frame} {bytes : List UInt8} (hterms : f.terms = [])
    (hbytes : ∀ b ∈ bytes.head?, b = Ascii.bar ∨ b = Ascii.closeParen) (outer : List Frame) :
    read pos f outer bytes = .error ⟨.emptyAlternative, pos⟩ := by
  have halternative : f.alternative pos = .error ⟨.emptyAlternative, pos⟩ := by
    rw [Frame.alternative, hterms]
  cases bytes with
  | nil =>
      cases outer with
      | nil =>
          rw [read.eq_1, Frame.close, halternative]
          rfl
      | cons parent outer =>
          rw [read.eq_2, halternative]
          rfl
  | cons byte rest =>
      obtain rfl | rfl := hbytes byte rfl
      · rw [read_cons _ _ _ (by decide), if_neg (by decide), if_neg (by decide), if_pos rfl,
          Frame.bar, halternative]
        rfl
      · rw [read_cons _ _ _ (by decide), if_neg (by decide), if_pos rfl, Frame.close,
          halternative]
        rfl

/-- Behind the last alternative. The span of the choice is only kept for the whole pattern, which
starts at zero. -/
theorem read_last {pos start : Nat} {f : Frame} {t : Tree} {outer : List Frame}
    {bytes : List UInt8} (ht : f.alternative pos = .ok t) (hstart : outer = [] → start = 0)
    (hbytes : ∀ b ∈ bytes.head?, b = Ascii.closeParen) :
    read pos f outer bytes =
      resume f.opened (.altOf ⟨start, pos⟩ (f.alternatives.reverse ++ [t])) pos outer bytes := by
  have hclose (span : Span) :
      f.close span pos = .ok (.altOf span (f.alternatives.reverse ++ [t])) := by
    rw [Frame.close, ht, ← List.reverse_cons]
    rfl
  cases bytes with
  | nil =>
      cases outer with
      | nil => rw [read.eq_1, hclose, hstart rfl, resume]
      | cons parent outer =>
          rw [read.eq_2, ht]
          rfl
  | cons byte rest =>
      obtain rfl := hbytes byte rfl
      cases outer with
      | nil =>
          rw [read_cons _ _ _ (by decide), if_neg (by decide), if_pos rfl, hclose]
          rfl
      | cons parent outer =>
          rw [read_close (hclose _), Tree.withSpan_altOf _ ⟨start, pos⟩, resume, if_pos rfl]

/-- A group goes on where its choice ends. -/
theorem group_bind {bytes : List UInt8} (inner : Item bytes) (opened : Nat) (byte : UInt8)
    (f : Frame) (outer : List Frame) :
    (inner.group opened byte >>= fun item => read item.stop (f.push item.tree) outer item.rest) =
      resume opened inner.tree inner.stop (f :: outer) inner.rest := by
  obtain ⟨t, stop, rest, _⟩ := inner
  cases rest with
  | nil => rfl
  | cons next rest =>
      rw [Item.group, resume]
      split <;> rfl

-- By the recursion of the descent. Where a reader of the descent starts, the pass reads the same
-- bytes into its frame and goes on with what that reader leaves.
mutual

theorem read_eq_choice (pos opened : Nat) (outer : List Frame) (bytes : List UInt8)
    (hstart : outer = [] → pos = 0) : read pos (.fresh opened pos) outer bytes =
      choice pos bytes >>= fun item => resume opened item.tree item.stop outer item.rest := by
  rw [read_eq_sequence pos pos (.fresh opened pos) outer bytes rfl rfl hstart, choice.eq_1]
  simp only [bind_assoc, pure_bind]
  rfl
termination_by 5 * bytes.length + 4

theorem read_eq_sequence (pos start : Nat) (f : Frame) (outer : List Frame) (bytes : List UInt8)
    (hterms : f.terms = []) (hpos : f.start = pos) (hstart : outer = [] → start = 0) :
    read pos f outer bytes = sequence pos bytes >>= fun first =>
      barred first.stop first.rest >>= fun others =>
        resume f.opened
          (.altOf ⟨start, others.stop⟩ (f.alternatives.reverse ++ first.tree :: others.trees))
          others.stop outer others.rest := by
  rw [read_eq_terms pos f outer bytes (.inl hterms), sequence.eq_1]
  cases hitems : terms pos bytes with
  | error fault => rfl
  | ok items =>
      have hends := head?_terms hitems
      obtain ⟨trees, stop, rest, hshorter⟩ := items
      cases trees with
      | nil => exact read_empty hterms hends outer
      | cons t ts =>
          have halternative : (f.pushAll (t :: ts)).alternative stop =
              .ok (.catOf ⟨pos, stop⟩ (t :: ts)) := by
            rw [Frame.alternative_pushAll hterms (List.cons_ne_nil t ts), hpos]
          exact read_eq_barred stop start _ outer rest halternative hstart hends
termination_by 5 * bytes.length + 3

theorem read_eq_barred (pos start : Nat) (f : Frame) {t : Tree} (outer : List Frame)
    (bytes : List UInt8) (ht : f.alternative pos = .ok t) (hstart : outer = [] → start = 0)
    (hbytes : ∀ b ∈ bytes.head?, b = Ascii.bar ∨ b = Ascii.closeParen) :
    read pos f outer bytes = barred pos bytes >>= fun others =>
      resume f.opened (.altOf ⟨start, others.stop⟩ (f.alternatives.reverse ++ t :: others.trees))
        others.stop outer others.rest := by
  cases bytes with
  | nil =>
      rw [barred.eq_1, pure_bind]
      exact read_last ht hstart (by simp)
  | cons byte rest =>
      rw [barred.eq_2]
      obtain rfl | rfl := hbytes byte rfl
      · have hbar : f.bar pos = .ok ⟨f.opened, t :: f.alternatives, pos + 1, []⟩ := by
          rw [Frame.bar, ht]
          rfl
        rw [if_pos rfl, read_bar hbar, read_eq_sequence (pos + 1) start _ outer rest rfl rfl hstart]
        simp only [bind_assoc, pure_bind, List.reverse_cons, List.append_assoc]
        rfl
      · rw [if_neg (by decide), pure_bind]
        exact read_last ht hstart (by simp)
termination_by 5 * bytes.length

/-- An operator in front belongs to the term before, if there is one. -/
theorem read_eq_terms (pos : Nat) (f : Frame) (outer : List Frame) (bytes : List UInt8)
    (hbytes : f.terms = [] ∨ ∀ b ∈ bytes.head?, isPostfix b = false) :
    read pos f outer bytes = terms pos bytes >>= fun items =>
      read items.stop (f.pushAll items.trees) outer items.rest := by
  cases bytes with
  | nil => rw [terms.eq_1]; rfl
  | cons byte rest =>
      rw [terms.eq_2]
      split
      · rfl
      · rename_i hstop
        simp only [Bool.or_eq_true, decide_eq_true_eq, not_or] at hstop
        rw [read_eq_term pos f outer byte rest hstop.1 hstop.2
          (hbytes.imp_right fun h => h byte rfl)]
        cases hterm : term pos (byte :: rest) with
        | error fault => rfl
        | ok first =>
            have hshorter := first.shorter
            refine (read_eq_terms first.stop (f.push first.tree) outer first.rest
              (.inr (isPostfix_of_head?_term hterm))).trans ?_
            simp only [← Frame.pushAll_cons]
            -- With the first term read, what is left of the descent is one bind.
            change _ = (terms first.stop first.rest >>= fun others =>
              pure (Items.cons first others)) >>= _
            rw [bind_assoc]
            rfl
termination_by 5 * bytes.length + 2

theorem read_eq_term (pos : Nat) (f : Frame) (outer : List Frame) (byte : UInt8)
    (rest : List UInt8) (hbar : byte ≠ Ascii.bar) (hclose : byte ≠ Ascii.closeParen)
    (hlead : f.terms = [] ∨ isPostfix byte = false) :
    read pos f outer (byte :: rest) = term pos (byte :: rest) >>= fun item =>
      read item.stop (f.push item.tree) outer item.rest := by
  rw [read_eq_atom pos f outer byte rest hbar hclose hlead, term.eq_1, bind_assoc]
  simp only [pure_bind]
  exact bind_congr fun item => read_applyOperators item.stop f item.tree outer item.rest
termination_by 5 * (byte :: rest).length + 1

theorem read_eq_atom (pos : Nat) (f : Frame) (outer : List Frame) (byte : UInt8)
    (rest : List UInt8) (hbar : byte ≠ Ascii.bar) (hclose : byte ≠ Ascii.closeParen)
    (hlead : f.terms = [] ∨ isPostfix byte = false) :
    read pos f outer (byte :: rest) = atom pos (byte :: rest) >>= fun item =>
      read item.stop (f.push item.tree) outer item.rest := by
  rw [atom.eq_def]
  by_cases hopen : byte = Ascii.openParen
  · subst hopen
    rw [read_open, read_eq_choice (pos + 1) pos (f :: outer) rest (by simp)]
    simp only [if_pos, bind_assoc, group_bind]
  by_cases hoperator : isPostfix byte = true
  · have hterms : f.terms = [] := hlead.resolve_right (by simp [hoperator])
    simp only [if_neg hopen, if_pos hoperator]
    rw [read_of_isPostfix hoperator, applyPostfix, hterms]
    rfl
  by_cases hescape : byte = Ascii.backslash
  · subst hescape
    cases rest with
    | nil => rfl
    | cons escaped rest => rfl
  simp only [if_neg hopen, if_neg hoperator, if_neg hescape]
  rw [read_cons pos f outer hescape, if_neg hopen, if_neg hclose, if_neg hbar, if_neg hoperator]
  split <;> rfl
termination_by 5 * (byte :: rest).length

end

/-- The descent and the pass read the same trees and find the same faults. -/
theorem parse_eq_read (bytes : List UInt8) : parse bytes = read 0 (.fresh 0 0) [] bytes := by
  rw [read_eq_choice 0 0 [] bytes fun _ => rfl, parse]
  refine bind_congr fun root => ?_
  cases root.rest with
  | nil => rfl
  | cons byte rest => rfl

end Parser

theorem Dialect.parse_of_read {d : Dialect} {t : Tree}
    (h : Parser.read 0 (.fresh 0 0) [] d.bytes = .ok t) : d.parse = .ok t := by
  rw [Dialect.parse, Parser.parse_eq_read, h]

end PatternCircuit

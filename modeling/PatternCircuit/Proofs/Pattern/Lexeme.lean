import PatternCircuit.Proofs.Pattern.Parser

/-! # The pieces of a pattern

How a pattern is cut into escapes, classes and single bytes, and which symbols each piece stands
for. There is one way to cut a pattern, and the reader of tokens cuts it in just this way. -/

namespace PatternCircuit

/-- A piece of a class. -/
inductive ClassItem where
  | escape (letter : UInt8)
  | range (lo hi : UInt8)
  | single (byte : UInt8)
deriving DecidableEq

/-- A piece of a pattern. -/
inductive Lexeme where
  /-- A backslash and the byte behind it. -/
  | escape (letter : UInt8)
  /-- A class in brackets. -/
  | bracket (negated : Bool) (items : List ClassItem)
  | single (byte : UInt8)
deriving DecidableEq

/-- The bytes that an item adds to its class. -/
def ClassItem.members : ClassItem → List UInt8
  | escape letter => Token.escapedMembers letter
  | range lo hi => ByteSet.interval lo hi
  | single byte => [byte]

/-- How an item is written. -/
def ClassItem.text : ClassItem → List UInt8
  | escape letter => [Ascii.backslash, letter]
  | range lo hi => [lo, Ascii.dash, hi]
  | single byte => [byte]

/-- Bytes behind an opening bracket, cut into the items of the class and what follows the closing
bracket. A dash between letters or digits makes a range wherever there is one. -/
inductive ClassSplit : List UInt8 → List ClassItem → List UInt8 → Prop where
  | close (rest : List UInt8) : ClassSplit (Ascii.closeBracket :: rest) [] rest
  | escape (letter : UInt8) {bytes rest : List UInt8} {items : List ClassItem} :
      ClassSplit bytes items rest →
      ClassSplit (Ascii.backslash :: letter :: bytes) (.escape letter :: items) rest
  | range {lo hi : UInt8} {bytes rest : List UInt8} {items : List ClassItem} :
      Token.isRange lo Ascii.dash hi = true → Ascii.family? lo = Ascii.family? hi → lo < hi →
      ClassSplit bytes items rest →
      ClassSplit (lo :: Ascii.dash :: hi :: bytes) (.range lo hi :: items) rest
  | single {byte : UInt8} {bytes rest : List UInt8} {items : List ClassItem} :
      byte ≠ Ascii.closeBracket → byte ≠ Ascii.backslash →
      (∀ dash hi tail, bytes = dash :: hi :: tail → Token.isRange byte dash hi = false) →
      ClassSplit bytes items rest →
      ClassSplit (byte :: bytes) (.single byte :: items) rest

namespace Lexeme

/-- The bytes of a pattern, cut into its pieces. -/
inductive Split : List UInt8 → List Lexeme → Prop where
  | nil : Split [] []
  | escape (letter : UInt8) {bytes : List UInt8} {lexemes : List Lexeme} :
      Split bytes lexemes →
      Split (Ascii.backslash :: letter :: bytes) (.escape letter :: lexemes)
  | bracket {negated : Bool} {bytes content rest : List UInt8} {items : List ClassItem}
      {lexemes : List Lexeme} :
      Token.negation bytes = (negated, content) → ClassSplit content items rest → items ≠ [] →
      Split rest lexemes →
      Split (Ascii.openBracket :: bytes) (.bracket negated items :: lexemes)
  | single {byte : UInt8} {bytes : List UInt8} {lexemes : List Lexeme} :
      byte ∉ [Ascii.backslash, Ascii.openBracket, Ascii.caret] → Split bytes lexemes →
      Split (byte :: bytes) (.single byte :: lexemes)

/-- How a piece is written in the pattern. -/
def text : Lexeme → List UInt8
  | escape letter => [Ascii.backslash, letter]
  | bracket negated items =>
      Ascii.openBracket :: ((if negated then [Ascii.caret] else []) ++
        (items.flatMap ClassItem.text ++ [Ascii.closeBracket]))
  | single byte => [byte]

/-- The symbols that a piece stands for, each at its first occurrence. There are none for a single
byte that the dialect takes as it stands. -/
def symbols? : Lexeme → Option (List Symbol)
  | escape letter => some (Token.symbols false (Token.escapedMembers letter).eraseDups)
  | bracket negated items =>
      some (Token.symbols negated (items.flatMap ClassItem.members).eraseDups)
  | single byte => if byte = Ascii.closeBracket then some [.byte byte] else none

/-- The token that the reader makes of a piece. -/
def token : Lexeme → Token
  | escape letter => .ofEscape letter
  | bracket negated items => .oneOf negated (items.flatMap ClassItem.members).eraseDups
  | single byte => if byte = Ascii.closeBracket then .escaped byte else .plain byte

/-- The tokens of pieces that stand one behind the other from `pos` on. -/
def tokensAt (pos : Nat) : List Lexeme → List (Nat × Token)
  | [] => []
  | x :: lexemes => (pos, x.token) :: tokensAt (pos + x.text.length) lexemes

theorem map_snd_tokensAt (pos : Nat) (lexemes : List Lexeme) :
    (tokensAt pos lexemes).map Prod.snd = lexemes.map token := by
  induction lexemes generalizing pos with
  | nil => rfl
  | cons x lexemes ih => rw [tokensAt, List.map_cons, List.map_cons, ih]

end Lexeme

/-! ### Members at their first occurrence -/

namespace Token

theorem distinct_eq_eraseDups (seen : ByteSet) (bytes : List UInt8) :
    distinct seen bytes = (bytes.filter fun b => !seen.contains b).eraseDups := by
  induction bytes generalizing seen with
  | nil => rfl
  | cons b rest ih =>
      rw [distinct, List.filter_cons]
      cases hb : seen.contains b with
      | true => simpa using ih seen
      | false =>
          have hfilter : (rest.filter fun c => !(seen.insert b).contains c) =
              (rest.filter fun c => !seen.contains c).filter fun c => !c == b := by
            rw [List.filter_filter]
            refine List.filter_congr fun c _ => ?_
            rw [ByteSet.contains_insert, Bool.not_or, Bool.and_comm, beq_eq_decide]
          simp only [Bool.not_false, if_true, Bool.false_eq_true, if_false]
          rw [List.eraseDups_cons, ih, hfilter]

theorem distinct_empty (bytes : List UInt8) : distinct .empty bytes = bytes.eraseDups := by
  rw [distinct_eq_eraseDups]
  simp

/-- No shorthand lists a byte twice. -/
theorem eraseDups_escapedMembers (letter : UInt8) :
    (escapedMembers letter).eraseDups = escapedMembers letter := by
  unfold escapedMembers
  split
  · rename_i members hmembers
    unfold shorthand? at hmembers
    repeat' split at hmembers
    all_goals cases hmembers
    all_goals decide +kernel
  · rfl

end Token

/-! ### Classes -/

namespace ClassSplit

open Token

/-- A byte that stands for itself in a class. -/
theorem classMembers_single (opened pos : Nat) {b : UInt8} {bytes : List UInt8}
    (hclose : b ≠ Ascii.closeBracket) (hescape : b ≠ Ascii.backslash)
    (hrange : ∀ dash hi tail, bytes = dash :: hi :: tail → isRange b dash hi = false) :
    classMembers opened pos (b :: bytes) = (do
      let (members, stop, rest) ← classMembers opened (pos + 1) bytes
      pure (b :: members, stop, rest)) := by
  match bytes with
  | dash :: hi :: tail =>
      rw [classMembers.eq_5 opened pos b dash hi tail hclose hescape, hrange dash hi tail rfl]
      rfl
  | [] =>
      exact classMembers.eq_6 opened pos b [] hclose (fun h _ => hescape h)
        (fun _ _ h => absurd h hescape) nofun
  | [c] =>
      exact classMembers.eq_6 opened pos b [c] hclose (fun h _ => hescape h)
        (fun _ _ h => absurd h hescape) nofun

/-- Letters and digits neither close a class nor start an escape. -/
theorem ne_of_isRange {lo dash hi : UInt8} (h : isRange lo dash hi = true) :
    lo ≠ Ascii.closeBracket ∧ lo ≠ Ascii.backslash := by
  obtain ⟨_, hlo, _⟩ := isRange_iff.mp h
  constructor
  all_goals
    rintro rfl
    exact absurd hlo (by decide)

theorem of_classMembers {opened pos stop : Nat} {bytes members rest : List UInt8}
    (h : classMembers opened pos bytes = .ok (members, stop, rest)) :
    ∃ items, ClassSplit bytes items rest ∧ items.flatMap ClassItem.members = members := by
  fun_induction classMembers opened pos bytes generalizing members stop rest with
  | case1 => cases h
  | case2 pos rest =>
      cases h
      exact ⟨[], .close rest, rfl⟩
  | case3 => cases h
  | case4 pos letter bytes ih =>
      obtain ⟨⟨ms, st, rs⟩, hr, he⟩ := Outcome.bind_eq_ok.mp h
      obtain ⟨items, hsplit, rfl⟩ := ih hr
      cases he
      exact ⟨.escape letter :: items, .escape letter hsplit, rfl⟩
  | case5 => cases h
  | case6 pos lo dash hi bytes hclose hescape hrange hfault ih =>
      obtain ⟨⟨ms, st, rs⟩, hr, he⟩ := Outcome.bind_eq_ok.mp h
      obtain ⟨items, hsplit, rfl⟩ := ih hr
      cases he
      obtain ⟨rfl, _⟩ := isRange_iff.mp hrange
      obtain ⟨hsame, hlt⟩ := rangeFault?_eq_none.mp hfault
      exact ⟨.range lo hi :: items, .range hrange hsame hlt hsplit, rfl⟩
  | case7 pos lo dash hi bytes hclose hescape hrange ih =>
      obtain ⟨⟨ms, st, rs⟩, hr, he⟩ := Outcome.bind_eq_ok.mp h
      obtain ⟨items, hsplit, rfl⟩ := ih hr
      cases he
      refine ⟨.single lo :: items, .single hclose hescape ?_ hsplit, rfl⟩
      intro dash' hi' tail heq
      cases heq
      exact Bool.eq_false_iff.mpr hrange
  | case8 pos byte bytes hclose hlast hescape hshort ih =>
      obtain ⟨⟨ms, st, rs⟩, hr, he⟩ := Outcome.bind_eq_ok.mp h
      obtain ⟨items, hsplit, rfl⟩ := ih hr
      cases he
      exact ⟨.single byte :: items, .single hclose (ne_backslash hlast hescape)
        (fun _ _ _ heq => (hshort _ _ _ heq).elim) hsplit, rfl⟩

/-- The bytes are those of the items, the closing bracket and the rest. -/
theorem bytes_eq {bytes rest : List UInt8} {items : List ClassItem}
    (h : ClassSplit bytes items rest) :
    bytes = items.flatMap ClassItem.text ++ Ascii.closeBracket :: rest := by
  induction h with
  | close rest => rfl
  | escape letter _ ih => rw [ih]; rfl
  | range _ _ _ _ ih => rw [ih]; rfl
  | single _ _ _ _ ih => rw [ih]; rfl

/-- Bytes are cut in one way. -/
theorem unique {bytes rest rest' : List UInt8} {items items' : List ClassItem}
    (h : ClassSplit bytes items rest) (h' : ClassSplit bytes items' rest') :
    items = items' ∧ rest = rest' := by
  induction h generalizing items' with
  | close rest =>
      cases h' with
      | close => exact ⟨rfl, rfl⟩
      | range hrange => exact absurd rfl (ne_of_isRange hrange).1
      | single hclose => exact absurd rfl hclose
  | escape letter _ ih =>
      cases h' with
      | escape _ h' =>
          obtain ⟨rfl, rfl⟩ := ih h'
          exact ⟨rfl, rfl⟩
      | range hrange => exact absurd rfl (ne_of_isRange hrange).2
      | single _ hescape => exact absurd rfl hescape
  | range hrange _ _ _ ih =>
      cases h' with
      | close => exact absurd rfl (ne_of_isRange hrange).1
      | escape => exact absurd rfl (ne_of_isRange hrange).2
      | range _ _ _ h' =>
          obtain ⟨rfl, rfl⟩ := ih h'
          exact ⟨rfl, rfl⟩
      | single _ _ hnone =>
          rw [hnone _ _ _ rfl] at hrange
          cases hrange
  | single hclose hescape hnone _ ih =>
      cases h' with
      | close => exact absurd rfl hclose
      | escape => exact absurd rfl hescape
      | range hrange =>
          rw [hnone _ _ _ rfl] at hrange
          cases hrange
      | single _ _ _ h' =>
          obtain ⟨rfl, rfl⟩ := ih h'
          exact ⟨rfl, rfl⟩

theorem stop_cons (pos : Nat) (item : ClassItem) (items : List ClassItem) :
    pos + ((item :: items).flatMap ClassItem.text).length + 1 =
      pos + item.text.length + (items.flatMap ClassItem.text).length + 1 := by
  rw [List.flatMap_cons, List.length_append, ← Nat.add_assoc pos]

/-- The members are those of the items, and reading stops behind the closing bracket. -/
theorem classMembers_eq {bytes rest : List UInt8} {items : List ClassItem}
    (h : ClassSplit bytes items rest) (opened pos : Nat) :
    classMembers opened pos bytes = .ok (items.flatMap ClassItem.members,
      pos + (items.flatMap ClassItem.text).length + 1, rest) := by
  induction h generalizing pos with
  | close rest => rfl
  | escape letter _ ih =>
      rw [stop_cons]
      refine (classMembers.eq_4 opened pos letter _).trans ?_
      rw [ih]
      rfl
  | @range lo hi bytes rest items hrange hsame hlt _ ih =>
      obtain ⟨hclose, hescape⟩ := ne_of_isRange hrange
      rw [stop_cons, classMembers.eq_5 opened pos lo Ascii.dash hi bytes hclose hescape,
        if_pos hrange, rangeFault?_eq_none.mpr ⟨hsame, hlt⟩, ih]
      rfl
  | single hclose hescape hrange _ ih =>
      rw [stop_cons, classMembers_single opened pos hclose hescape hrange, ih]
      rfl

end ClassSplit

/-! ### Patterns -/

namespace Lexeme

open Token

theorem escapedMembers_ne_nil (letter : UInt8) : escapedMembers letter ≠ [] := by
  unfold escapedMembers
  split
  · rename_i hmembers
    exact shorthand?_ne_nil hmembers
  · simp

theorem members_ne_nil {bytes rest : List UInt8} {items : List ClassItem}
    (h : ClassSplit bytes items rest) (hne : items ≠ []) :
    items.flatMap ClassItem.members ≠ [] := by
  cases h with
  | close => exact absurd rfl hne
  | escape letter => simp [ClassItem.members, escapedMembers_ne_nil]
  | @range lo hi _ _ _ _ _ hlt =>
      have hlo : lo ∈ ByteSet.interval lo hi :=
        (ByteSet.mem_interval lo hi lo).mpr ⟨UInt8.le_refl lo, UInt8.le_of_lt hlt⟩
      simp [ClassItem.members, List.ne_nil_of_mem hlo]
  | single => simp [ClassItem.members]

/-- The reader of classes finds the items and stops behind them. -/
theorem readClass_eq {negated : Bool} {bytes content rest : List UInt8} {items : List ClassItem}
    (hmark : negation bytes = (negated, content)) (hclass : ClassSplit content items rest)
    (hne : items ≠ []) (opened : Nat) :
    readClass opened bytes = .ok ((bracket negated items).token,
      opened + (bracket negated items).text.length, rest) := by
  have hstop : opened + 1 + negated.toNat + (items.flatMap ClassItem.text).length + 1 =
      opened + (bracket negated items).text.length := by
    cases negated <;> simp [text] <;> omega
  have hmembers := hclass.classMembers_eq opened (opened + 1 + negated.toNat)
  unfold readClass
  rw [hmark]
  dsimp only
  rw [hmembers]
  have hnonempty := members_ne_nil hclass hne
  simp only [bind, Except.bind]
  rw [if_neg (by simpa using hnonempty), distinct_empty, hstop]
  rfl

theorem exists_items_of_readClass {opened stop : Nat} {bytes rest : List UInt8} {token : Token}
    (h : readClass opened bytes = .ok (token, stop, rest)) :
    ∃ items, ClassSplit (negation bytes).2 items rest ∧ items ≠ [] := by
  obtain ⟨⟨members, st, rs⟩, hmembers, he⟩ := Outcome.bind_eq_ok.mp h
  dsimp only at he
  split at he
  · cases he
  · rename_i hnonempty
    cases he
    obtain ⟨items, hsplit, rfl⟩ := ClassSplit.of_classMembers hmembers
    refine ⟨items, hsplit, ?_⟩
    rintro rfl
    exact hnonempty rfl

theorem readAll_bracket {pos stop : Nat} {bytes rest : List UInt8} {token : Token}
    (h : readClass pos bytes = .ok (token, stop, rest)) :
    readAll pos (Ascii.openBracket :: bytes) = (do
      let tokens ← readAll stop rest
      pure ((pos, token) :: tokens)) := by
  refine (readAll.eq_4 pos bytes).trans ?_
  split
  · rename_i herror
    rw [h] at herror
    cases herror
  · rename_i hok
    rw [h] at hok
    cases hok
    rfl

/-- What the reader accepts is cut into pieces. -/
theorem exists_split {pos : Nat} {bytes : List UInt8} {tokens : List (Nat × Token)}
    (h : readAll pos bytes = .ok tokens) : ∃ lexemes, Split bytes lexemes := by
  fun_induction readAll pos bytes generalizing tokens with
  | case1 => exact ⟨[], .nil⟩
  | case2 => cases h
  | case3 pos letter bytes ih =>
      obtain ⟨rest, hrest, _⟩ := Outcome.bind_eq_ok.mp h
      obtain ⟨lexemes, hsplit⟩ := ih hrest
      exact ⟨_, .escape letter hsplit⟩
  | case4 => cases h
  | case5 pos bytes token stop tail hclass _ ih =>
      obtain ⟨rest, hrest, _⟩ := Outcome.bind_eq_ok.mp h
      obtain ⟨lexemes, hsplit⟩ := ih hrest
      obtain ⟨items, hitems, hne⟩ := exists_items_of_readClass hclass
      exact ⟨_, .bracket rfl hitems hne hsplit⟩
  | case6 => cases h
  | case7 pos bytes ih =>
      obtain ⟨rest, hrest, _⟩ := Outcome.bind_eq_ok.mp h
      obtain ⟨lexemes, hsplit⟩ := ih hrest
      exact ⟨_, .single (by decide) hsplit⟩
  | case8 pos byte bytes hlast hescape hbracket hcaret _ ih =>
      obtain ⟨rest, hrest, _⟩ := Outcome.bind_eq_ok.mp h
      obtain ⟨lexemes, hsplit⟩ := ih hrest
      refine ⟨_, .single ?_ hsplit⟩
      simp only [List.mem_cons, List.not_mem_nil, or_false, not_or]
      exact ⟨ne_backslash hlast hescape, hbracket, hcaret⟩

/-- The mark of a negated class is part of its text. -/
theorem eq_of_negation {negated : Bool} {bytes content : List UInt8}
    (h : negation bytes = (negated, content)) :
    bytes = (if negated then [Ascii.caret] else []) ++ content := by
  unfold negation at h
  split at h
  · cases h
    rfl
  · cases h
    rfl

/-- A pattern is the texts of its pieces, one behind the other. -/
theorem Split.bytes_eq {bytes : List UInt8} {lexemes : List Lexeme} (h : Split bytes lexemes) :
    bytes = lexemes.flatMap text := by
  induction h with
  | nil => rfl
  | escape letter _ ih => rw [ih]; rfl
  | bracket hmark hclass _ _ ih =>
      rw [eq_of_negation hmark, hclass.bytes_eq, ih]
      simp [text]
  | single _ _ ih => rw [ih]; rfl

/-- A pattern is cut in one way. -/
theorem Split.unique {bytes : List UInt8} {lexemes lexemes' : List Lexeme}
    (h : Split bytes lexemes) (h' : Split bytes lexemes') : lexemes = lexemes' := by
  induction h generalizing lexemes' with
  | nil =>
      cases h'
      rfl
  | escape letter _ ih =>
      cases h' with
      | escape _ h' => rw [ih h']
      | single hbyte => simp at hbyte
  | bracket hmark hclass _ _ ih =>
      cases h' with
      | bracket hmark' hclass' _ h' =>
          cases hmark.symm.trans hmark'
          obtain ⟨rfl, rfl⟩ := hclass.unique hclass'
          rw [ih h']
      | single hbyte => simp at hbyte
  | single hbyte _ ih =>
      cases h' with
      | escape => simp at hbyte
      | bracket => simp at hbyte
      | single _ h' => rw [ih h']

/-- The tokens that the reader makes are those of the pieces, each at the place of its piece. -/
theorem Split.readAll_eq {bytes : List UInt8} {lexemes : List Lexeme} (h : Split bytes lexemes)
    (pos : Nat) : readAll pos bytes = .ok (tokensAt pos lexemes) := by
  induction h generalizing pos with
  | nil => rw [readAll, tokensAt]
  | escape letter _ ih =>
      refine (readAll.eq_3 pos letter _).trans ?_
      rw [ih]
      rfl
  | bracket hmark hclass hne _ ih =>
      rw [readAll_bracket (readClass_eq hmark hclass hne pos), ih]
      rfl
  | @single byte bytes lexemes hbyte _ ih =>
      simp only [List.mem_cons, List.not_mem_nil, or_false, not_or] at hbyte
      obtain ⟨hbackslash, hbracket, hcaret⟩ := hbyte
      by_cases hclose : byte = Ascii.closeBracket
      · subst hclose
        refine (readAll.eq_6 pos bytes).trans ?_
        rw [ih]
        rfl
      · rw [readAll.eq_7 pos byte bytes (fun h _ => hbackslash h)
          (fun _ _ h => absurd h hbackslash) hbracket hcaret hclose, ih, tokensAt, token,
          if_neg hclose]
        rfl

end Lexeme

/-- The expanded form has the expansions of the pieces one behind the other. -/
theorem Dialect.bytes_of_tokensAt {d : Dialect} {lexemes : List Lexeme} {pos : Nat}
    (h : d.tokens = Lexeme.tokensAt pos lexemes) :
    d.bytes = lexemes.flatMap fun x => x.token.expansion := by
  calc d.tokens.flatMap (fun t => t.2.expansion)
      = (d.tokens.map Prod.snd).flatMap Token.expansion := by rw [List.flatMap_map]
    _ = lexemes.flatMap (fun x => x.token.expansion) := by
      rw [h, Lexeme.map_snd_tokensAt, List.flatMap_map]

end PatternCircuit

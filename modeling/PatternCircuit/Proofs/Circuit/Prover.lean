import PatternCircuit.Circuit.Basic

/-! # The prover that circuits are handed to

The check of a circuit stands for a run of halo2's mock prover, which is taken as given. What is
assumed of a run is named here: the rows that it needs and reserves, the order in which it reports
what is missing, and that it tests the constraints of the layout and nothing else. The assumptions
determine the outcome, and what is proved of the check follows from them alone. -/

namespace PatternCircuit.Circuit

/-- The rows that values can be put in. -/
def usableRows (logRows : Nat) : Nat := Nat.pow 2 logRows - reservedRows

/-- The rows admit the public values. -/
structure Admits (logRows : Nat) (publicValues : List Scalar) : Prop where
  least : minRows ≤ Nat.pow 2 logRows
  room : publicValues.length ≤ usableRows logRows

/-- The circuit is laid out, and the rows admit its public values and the table of bytes. -/
structure LaidOut (c : Circuit) (l : Layout) (logRows : Nat) (publicValues : List Scalar) : Prop
    extends Admits logRows publicValues where
  layout : c.layout? = some l
  table : byteTableSize ≤ usableRows logRows

/-- What is assumed of the outcome when the mock prover is run on a circuit of `2 ^ logRows` rows
with public values. -/
structure MockRun (c : Circuit) (logRows : Nat) (publicValues : List Scalar)
    (outcome : Except CheckFault Bool) : Prop where
  /-- There are eight rows at least. -/
  leastRows : Nat.pow 2 logRows < minRows → outcome = .error (.tooFewRows logRows)
  /-- Six rows are reserved; the public values have to fit into the others. -/
  publicRoom : minRows ≤ Nat.pow 2 logRows → usableRows logRows < publicValues.length →
    outcome = .error .publicTooLong
  /-- The circuit has to have a layout. -/
  synthesis : Admits logRows publicValues → c.layout? = none → outcome = .error .synthesis
  /-- The table of bytes has to fit. -/
  tableRoom : ∀ l, Admits logRows publicValues → c.layout? = some l →
    usableRows logRows < byteTableSize → outcome = .error (.tooFewRows logRows)
  /-- All values have to be known. -/
  witness : ∀ l, LaidOut c l logRows publicValues → (l.witness c.byteAt).isKnown = false →
    outcome = .error .synthesis
  /-- The rows of the layout have to fit. -/
  layoutRoom : ∀ l, LaidOut c l logRows publicValues → (l.witness c.byteAt).isKnown = true →
    usableRows logRows < l.rows.size → outcome = .error (.tooFewRows logRows)
  /-- The constraints of the layout are tested and no others. Public values that are not given are
  zero. -/
  constraints : ∀ l, LaidOut c l logRows publicValues → (l.witness c.byteAt).isKnown = true →
    l.rows.size ≤ usableRows logRows →
    outcome = .ok (l.satisfied (l.witness c.byteAt).assignment fun i => publicValues.getD i 0)

variable {c : Circuit} {logRows : Nat} {publicValues : List Scalar}
  {outcome : Except CheckFault Bool}

/-- The check makes a run as assumed. -/
theorem mockRun_check (c : Circuit) (logRows : Nat) (publicValues : List Scalar) :
    MockRun c logRows publicValues (c.check logRows publicValues) where
  leastRows hleast := if_pos hleast
  publicRoom hleast hpublic := by
    rw [check, if_neg (Nat.not_lt.mpr hleast)]
    exact if_pos hpublic
  synthesis h hl := by
    rw [check, if_neg (Nat.not_lt.mpr h.least), hl]
    exact if_neg (Nat.not_lt.mpr h.room)
  tableRoom l h hl htable := by
    rw [check, if_neg (Nat.not_lt.mpr h.least), hl]
    exact (if_neg (Nat.not_lt.mpr h.room)).trans (if_pos htable)
  witness l h hknown := by
    rw [check, if_neg (Nat.not_lt.mpr h.least), h.layout]
    refine (if_neg (Nat.not_lt.mpr h.room)).trans ((if_neg (Nat.not_lt.mpr h.table)).trans ?_)
    exact if_pos (by rw [hknown]; rfl)
  layoutRoom l h hknown hrows := by
    rw [check, if_neg (Nat.not_lt.mpr h.least), h.layout]
    refine (if_neg (Nat.not_lt.mpr h.room)).trans ((if_neg (Nat.not_lt.mpr h.table)).trans ?_)
    exact (if_neg (by simp [hknown])).trans (if_pos hrows)
  constraints l h hknown hrows := by
    rw [check, if_neg (Nat.not_lt.mpr h.least), h.layout]
    refine (if_neg (Nat.not_lt.mpr h.room)).trans ((if_neg (Nat.not_lt.mpr h.table)).trans ?_)
    exact (if_neg (by simp [hknown])).trans (if_neg (Nat.not_lt.mpr hrows))

namespace MockRun

/-- What is assumed of a run leaves one outcome. -/
theorem unique (h : MockRun c logRows publicValues outcome) {outcome' : Except CheckFault Bool}
    (h' : MockRun c logRows publicValues outcome') : outcome = outcome' := by
  rcases Nat.lt_or_ge (Nat.pow 2 logRows) minRows with hleast | hleast
  · rw [h.leastRows hleast, h'.leastRows hleast]
  rcases Nat.lt_or_ge (usableRows logRows) publicValues.length with hpublic | hpublic
  · rw [h.publicRoom hleast hpublic, h'.publicRoom hleast hpublic]
  have hadmits : Admits logRows publicValues := ⟨hleast, hpublic⟩
  cases hl : c.layout? with
  | none => rw [h.synthesis hadmits hl, h'.synthesis hadmits hl]
  | some l =>
      rcases Nat.lt_or_ge (usableRows logRows) byteTableSize with htable | htable
      · rw [h.tableRoom l hadmits hl htable, h'.tableRoom l hadmits hl htable]
      have hlaid : LaidOut c l logRows publicValues := ⟨hadmits, hl, htable⟩
      cases hknown : (l.witness c.byteAt).isKnown with
      | false => rw [h.witness l hlaid hknown, h'.witness l hlaid hknown]
      | true =>
          rcases Nat.lt_or_ge (usableRows logRows) l.rows.size with hrows | hrows
          · rw [h.layoutRoom l hlaid hknown hrows, h'.layoutRoom l hlaid hknown hrows]
          · rw [h.constraints l hlaid hknown hrows, h'.constraints l hlaid hknown hrows]

/-- With enough rows, a run needs nothing but a witness without unknown values. -/
theorem eq_of_rows (h : MockRun c logRows publicValues outcome) {l : Layout}
    (hl : c.layout? = some l) (htable : byteTableSize + reservedRows ≤ Nat.pow 2 logRows)
    (hrows : l.rows.size + reservedRows ≤ Nat.pow 2 logRows)
    (hpublic : publicValues.length + reservedRows ≤ Nat.pow 2 logRows) :
    outcome =
      if (l.witness c.byteAt).isKnown then
        .ok (l.satisfied (l.witness c.byteAt).assignment fun i => publicValues.getD i 0)
      else .error .synthesis := by
  have hleast : minRows ≤ Nat.pow 2 logRows :=
    Nat.le_trans (show minRows ≤ byteTableSize + reservedRows by decide) htable
  have hlaid : LaidOut c l logRows publicValues :=
    ⟨⟨hleast, Nat.le_sub_of_add_le hpublic⟩, hl, Nat.le_sub_of_add_le htable⟩
  cases hknown : (l.witness c.byteAt).isKnown with
  | true => exact h.constraints l hlaid hknown (Nat.le_sub_of_add_le hrows)
  | false => exact h.witness l hlaid hknown

/-- With a layout and a witness, a run fails for want of rows only. -/
theorem ne_synthesis (h : MockRun c logRows publicValues outcome) {l : Layout}
    (hl : c.layout? = some l) (hknown : (l.witness c.byteAt).isKnown = true) :
    outcome ≠ .error .synthesis := by
  rcases Nat.lt_or_ge (Nat.pow 2 logRows) minRows with hleast | hleast
  · simp [h.leastRows hleast]
  rcases Nat.lt_or_ge (usableRows logRows) publicValues.length with hpublic | hpublic
  · simp [h.publicRoom hleast hpublic]
  rcases Nat.lt_or_ge (usableRows logRows) byteTableSize with htable | htable
  · simp [h.tableRoom l ⟨hleast, hpublic⟩ hl htable]
  have hlaid : LaidOut c l logRows publicValues := ⟨⟨hleast, hpublic⟩, hl, htable⟩
  rcases Nat.lt_or_ge (usableRows logRows) l.rows.size with hrows | hrows
  · simp [h.layoutRoom l hlaid hknown hrows]
  · simp [h.constraints l hlaid hknown hrows]

end MockRun

/-- A prover whose runs are as assumed is the check. -/
theorem eq_check_of_mockRun {run : Circuit → Nat → List Scalar → Except CheckFault Bool}
    (h : ∀ c logRows publicValues, MockRun c logRows publicValues (run c logRows publicValues)) :
    run = check := by
  funext c logRows publicValues
  exact (h c logRows publicValues).unique (mockRun_check c logRows publicValues)

end PatternCircuit.Circuit

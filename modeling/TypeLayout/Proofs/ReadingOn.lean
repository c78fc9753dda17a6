import TypeLayout.Proofs.SplicedReading
import TypeLayout.Proofs.SplicedScanning

/-!
# Reading a text that goes on

Declarations that can be read to the end of a text are read in the same way when the text goes
on with other lines: the longer text says what the shorter one says, and then what the rest of it
says (`readDeclarations_goesOn`).

The tokens of the shorter text match those that the longer one begins with (`Pairing.spliced`). The
line break ends whatever the text ends in: it is part of no word and no number, it closes a comment
of one line and a line marker, and what it would not close, such as a block comment, has closed
already or the shorter text could not be divided. So both are read alike up to the end of the
shorter text, where no declaration has begun, and reading starts over.
-/

namespace TypeLayout

variable {R : Pairing} {ts ts' : List Token} {t t' : Token} {m : ℕ}

theorem textUntil_spliced {q k : ℕ} {back back' : List Char} {u u' : Token}
    (h : Token.Spliced q k 0 back back' t t') (h' : Token.Spliced q k 0 back back' u u') :
    t'.after.textUntil u'.after 1 = t.after.textUntil u.after 1 := by
  obtain ⟨front, hrest, hrest', hq⟩ := h.after.rest
  obtain ⟨front₁, -, -, hq₁⟩ := h'.after.rest
  have hlength : u.after.position - 1 - t.after.position ≤ front.length := by omega
  rw [Cursor.textUntil, Cursor.textUntil, hrest, hrest', h.after.position, h'.after.position,
    show u.after.position + k - 1 - (t.after.position + k) =
      u.after.position - 1 - t.after.position by omega,
    List.take_append_of_le_length hlength, List.take_append_of_le_length hlength]

/-- **The tokens of two sources that have the same text** up to the place `q` of the first one. The
text between two of them is in front of that place. -/
def Pairing.spliced (q k : ℕ) (back back' : List Char) : Pairing where
  rel := Token.Spliced q k 0 back back'
  lexeme h := h.lexeme
  line h := h.line
  text h h' := textUntil_spliced h h'

theorem echo_of_forall₂ (h : List.Forall₂ R.rel ts ts') (tail tail' : List Token) :
    Echo R tail tail' (ts ++ tail) (ts' ++ tail') := by
  induction h with
  | nil => exact .done
  | cons ht _ ih => exact .cons ht ih

/-- Declarations that can be read to their end stand in a text that ends. -/
theorem exists_ending_of_readDeclarations {s : Scan} (h : (readDeclarations s).outcome = .ok m) :
    ∃ t, s.ending = .ok t := by
  obtain ⟨t, ht⟩ := exists_ending_of_readFrom _ _ _ _ m h
  unfold Ending.ofScan at ht
  split at ht
  · exact ⟨_, ‹_›⟩
  · cases ht

/-- **A text that goes on says what it says, and then what the rest says**, from the line break in
front of that on. -/
theorem readDeclarations_goesOn {text : List Char} {depth : ℕ}
    (h : (readDeclarations (scan (.start text depth))).outcome = .ok m) (next : List Char) :
    ∃ heard c, readDeclarations (scan (.start (text ++ '\n' :: next) depth)) =
        ⟨heard ++ (readDeclarations (scan c)).heard,
          (readDeclarations (scan c)).outcome.map (· + m)⟩ ∧
      heard.map Heard.clause =
        (readDeclarations (scan (.start text depth))).heard.map Heard.clause ∧
      c.rest = '\n' :: next ∧ c.line = 1 + text.count '\n' ∧ c.depth = max depth 1 := by
  obtain ⟨t, hend⟩ := exists_ending_of_readDeclarations h
  have hsplice : (Cursor.start text depth).Spliced text.length 0 0 [] ('\n' :: next)
      (.start (text ++ '\n' :: next) depth) :=
    ⟨⟨text, (List.append_nil text).symm, rfl, Nat.zero_add _⟩, rfl, rfl, rfl⟩
  obtain ⟨tokens', c, htokens, hc, hrest, hdepth, hscan⟩ :=
    scan_splice_end hsplice (by simp [AtLineEnd]) hend
  have hs : Echo (.spliced text.length 0 [] ('\n' :: next)) [] (scan c).tokens
      (scan (.start text depth)).tokens (tokens' ++ (scan c).tokens) := by
    simpa using echo_of_forall₂ (R := .spliced text.length 0 [] ('\n' :: next)) htokens []
      (scan c).tokens
  have hread : readDeclarations (scan (.start text depth)) =
      ⟨(readDeclarations (scan (.start text depth))).heard, .ok m⟩ := by rw [← h]
  obtain ⟨heard, hheard, hlong⟩ := readFrom_echo (.ofScan (scan c)) hread hs
  obtain ⟨hstands, hnone, -⟩ := (standFrom_scan (Cursor.standsIn_start text depth)).2 t hend
  have hposition : t.after.position = text.length :=
    le_antisymm hstands.inside (List.drop_eq_nil_iff.mp (hstands.rest.symm.trans hnone))
  refine ⟨heard, c, ?_, map_clause_of_hears hheard, hrest, ?_, hdepth⟩
  · rw [hscan]
    exact hlong
  · rw [hc.line, hstands.line, hposition, List.take_length]
    rfl

end TypeLayout

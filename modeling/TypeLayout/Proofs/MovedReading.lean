import TypeLayout.Proofs.MovedScanning
import TypeLayout.Proofs.ReadingOn

/-!
# Reading declarations that stand further down

Declarations say the same wherever they stand in a source: the same clauses with larger line
numbers, and the same fault if they cannot be read (`readDeclarations_move`). The tokens match those
that have been moved (`Sides.moved`), and the text between two of them is the same.
-/

namespace TypeLayout

/-! ### What moves -/

def Fault.move (m : Move) (f : Fault) : Fault :=
  { f with line := f.line + m.lines, seen := f.seen.move m }

def Ending.move (m : Move) (e : Ending) : Ending := mapResult (Fault.move m) (Token.move m) e

def Heard.move (m : Move) (h : Heard) : Heard := ⟨h.clause.move m.lines, h.seen.move m⟩

/-- The same clauses, and the same fault or count, some lines further down. -/
def Reading.move (m : Move) (r : Reading) : Reading :=
  ⟨r.heard.map (Heard.move m), mapResult (Fault.move m) id r.outcome⟩

theorem Ending.ofScan_move (m : Move) (s : Scan) :
    Ending.ofScan (s.move m) = (ofScan s).move m := by
  unfold Ending.ofScan Scan.move
  cases s.ending <;> rfl

/-- **Tokens side by side with the same ones further down.** -/
def Sides.moved (m : Move) (e : Ending) : Sides where
  e := e
  e' := e.move m
  shift := m.lines
  rel t t' := t' = t.move m
  stand ts us := us = ts.map (Token.move m)
  blame f f' := f' = f.move m
  word _ := True
  spare := none
  lexeme h := by rw [h]; rfl
  line h := by rw [h]; rfl
  text {t _ u _} h h' := by
    rw [h, h']
    exact Cursor.textUntil_move u.after 1
  identifier _ _ := trivial
  fault line error h := by
    rw [h]
    rfl
  front {ts us} h := by
    cases ts with
    | cons t ts => exact .inl ⟨t, t.move m, ts, ts.map (Token.move m), rfl, h, rfl, rfl⟩
    | nil =>
      refine .inr (.inl ⟨rfl, h, ?_⟩)
      cases e with
      | ok t => exact .inl ⟨t, t.move m, rfl, rfl, rfl⟩
      | error f => exact .inr ⟨f, f.move m, rfl, rfl, rfl⟩

variable {m : Move} {e : Ending} {ts : List Token}

theorem Heard.eq_move (h h' : Heard) (hh : (Sides.moved m e).Hears h h') : id h' = h.move m := by
  obtain ⟨hclause, -, t, t', rfl, hseen, hseen'⟩ := hh
  rw [Heard.move, hseen]
  exact congrArg₂ Heard.mk hclause hseen'

theorem readFrom_move (m : Move) (place : Place) (stack : List Specifiers) :
    readFrom (e.move m) (place.move m.lines) (stack.map (Specifiers.move m.lines))
        (ts.map (Token.move m)) =
      (readFrom e place stack ts).move m := by
  have hagree := readFrom_alike (S := .moved m e) rfl place stack
    (show ts.map (Token.move m) = ts.map (Token.move m) from rfl)
  refine congrArg₂ Reading.mk ?_ ?_
  · exact (List.map_id _).symm.trans (map_eq_of_forall₂ hagree.heard Heard.eq_move)
  · cases h : (readFrom e place stack ts).outcome with
    | ok k => exact hagree.ok k h
    | error f =>
      obtain ⟨_, hf, rfl⟩ := hagree.error f h
      exact hf

/-- **Declarations that stand further down say the same** some lines later. -/
theorem readDeclarations_move (m : Move) (s : Scan) :
    readDeclarations (s.move m) = (readDeclarations s).move m := by
  rw [readDeclarations, Ending.ofScan_move]
  exact readFrom_move m .declaration []

end TypeLayout

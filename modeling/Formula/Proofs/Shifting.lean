import Formula.Proofs.Reading
import Formula.Proofs.Relating

/-!
# Shifting

A text that starts later is read in the same way, but for the positions in errors.
-/

namespace Formula

variable {m : Type → Type} {C : Type}

theorem Tree.Related.eq {t u : Tree m C} (related : t.Related Eq u) : t = u := by
  induction related with
  | leaf => rfl
  | constant op => rw [op]
  | unary op _ ih => rw [op, ih]
  | group _ ih => rw [ih]
  | binary op _ _ _ leftIh rightIh => rw [op, leftIh, rightIh]

theorem Grammar.related_eq (g : Grammar m C) : g.Related Eq g := by
  have entries : ∀ table : List (Entry m C), List.Forall₂ (Entry.Related Eq) table table :=
    fun table => List.forall₂_same.mpr fun _ _ => ⟨rfl, rfl, rfl, rfl, rfl, rfl⟩
  exact ⟨entries _, entries _, entries _, rfl⟩

theorem CompileError.AlikeBy.eq {shift : Nat} {x y : Except CompileError (Tree m C)}
    (alike : AlikeBy shift (Tree.Related Eq) x y) : y = x.mapError (·.shift shift) := by
  cases alike with
  | error e => rfl
  | ok tree =>
    rw [tree.eq]
    rfl

theorem Grammar.read_startingAt (g : Grammar m C) (inside : Bool) (start : Nat) (text : List Char) :
    g.read inside .empty (.startingAt false start) text =
      (g.read inside .empty (.startingAt false 0) text).mapError (·.shift start) := by
  have scan : (Scan.startingAt false 0 : Scan m C).Related Eq start (.startingAt false start) :=
    ⟨rfl, .nil, (Nat.zero_add start).symm, rfl⟩
  have phrases := Scan.Related.phrases g.related_eq text scan
  exact (Assembly.Related.run phrases ⟨.nil, .awaiting .hole⟩ inside).eq

/-- A tree does not depend on where the text starts. -/
theorem Grammar.read_startingAt_eq_ok {g : Grammar m C} {inside : Bool} {start : Nat}
    {text : List Char} {t : Tree m C} :
    g.read inside .empty (.startingAt false start) text = .ok t ↔
      g.read inside .empty (.startingAt false 0) text = .ok t := by
  rw [read_startingAt]
  cases g.read inside .empty (.startingAt false 0) text with
  | error e => exact ⟨nofun, nofun⟩
  | ok u => exact Iff.rfl

end Formula

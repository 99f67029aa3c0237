import Formula.Proofs.Combining
import Formula.Proofs.Rendering
import Formula.Proofs.Restoring

/-!
# Folded trees as text

Folding leaves computed values and the operators that cannot be applied ahead. The text of such a tree can be
compiled again. It has the same value unless a number with a point stands before the operator that joins
digits, or a list or a map does not survive its JSON text.
-/

namespace Formula

variable {C : Type}

/-! ## What folding leaves -/

/-- Whether an operator that may be applied ahead gives data if it is given data. -/
def Operator.KeepsData (op : Operator Id C) : Prop :=
  op.foldable → ∀ operands context, (∀ v ∈ operands, v.isData) → (Id.run (op.run operands context)).isData

/-- Whether the tree can be what folding leaves where all constants and unary operators may be applied ahead:
data, unary operators around what could not be folded, and binary operators. -/
def Tree.Residual (v : Vocabulary Id C) : Tree Id C → Prop
  | .leaf value => value.isData
  | .constant _ => False
  | .unary op operand =>
    (∃ entry ∈ Entry.table v.unary, entry.token ≠ [] ∧ entry.op = op) ∧ (∀ value, operand ≠ .leaf value) ∧
      operand.Residual v
  | .group inner => inner.Residual v
  | .binary op priority left right =>
    (∃ entry ∈ Entry.table v.binary, entry.token ≠ [] ∧ entry.op = op ∧ entry.priority = priority) ∧
      left.Residual v ∧ right.Residual v

theorem Value.isData_ofOperand (text : List Char) : (Value.ofOperand text).isData := by
  rcases Value.ofOperand_eq text with ⟨s, string⟩ | ⟨n, number⟩
  · rw [string]
    rfl
  · rw [number]
    rfl

namespace Tree

variable {v : Vocabulary Id C} {spacing : Spacing} {t : Tree Id C}

theorem isData_eval (made : t.MadeOf (Grammar.ofVocabulary v spacing).parts) (keeps : t.All Operator.KeepsData)
    (foldable : t.isFoldable) (context : Option C) : (Id.run (t.eval context)).isData := by
  induction t with
  | leaf value =>
    obtain ⟨text, _, _, rfl⟩ := made
    exact Value.isData_ofOperand _
  | constant op => exact keeps foldable [] context nofun
  | unary op operand ih =>
    simp only [isFoldable, Bool.and_eq_true] at foldable
    exact keeps.1 foldable.1 _ context (List.forall_mem_singleton.mpr (ih made.2 keeps.2 foldable.2))
  | group inner ih => exact ih made keeps foldable
  | binary op priority left right leftIh rightIh =>
    simp only [isFoldable, Bool.and_eq_true] at foldable
    refine keeps.1 foldable.1 _ context (List.forall_mem_cons.mpr ⟨?_, List.forall_mem_singleton.mpr ?_⟩)
    · exact leftIh made.2.1 keeps.2.1 foldable.2.1
    · exact rightIh made.2.2 keeps.2.2 foldable.2.2

/-- Folding leaves no value in the place of what cannot be folded. -/
theorem fold_ne_leaf (fixed : t.isFoldable = false) (value : Value) : Id.run t.fold ≠ .leaf value := by
  induction t with
  | leaf => cases fixed
  | constant op =>
    have op' : op.foldable = false := fixed
    rw [fold, op']
    rintro ⟨⟩
  | unary op operand =>
    rw [fold, fixed]
    rintro ⟨⟩
  | group inner =>
    have inner' : inner.isFoldable = false := fixed
    rw [fold, inner']
    rintro ⟨⟩
  | binary op priority left right =>
    rw [fold, fixed]
    rintro ⟨⟩

theorem MadeOf.residual_fold (constants : ∀ op ∈ v.constants, op.foldable)
    (unary : ∀ op ∈ v.unary, op.foldable) (made : t.MadeOf (Grammar.ofVocabulary v spacing).parts)
    (keeps : t.All Operator.KeepsData) : (Id.run t.fold).Residual v := by
  have ahead : ∀ u : Tree Id C, u.MadeOf (Grammar.ofVocabulary v spacing).parts → u.All Operator.KeepsData →
      u.isFoldable → (Tree.leaf (Id.run (u.eval none)) : Tree Id C).Residual v :=
    fun u made keeps foldable => isData_eval made keeps foldable none
  induction t with
  | leaf => exact ahead _ made keeps rfl
  | constant op =>
    obtain ⟨entry, member, _, rfl, _⟩ := made
    have foldable := constants _ (Entry.op_mem_of_mem_table member)
    rw [Tree.fold, if_pos foldable]
    refine keeps foldable [] none ?_
    rintro value ⟨⟩
  | unary op operand ih =>
    rw [Tree.fold]
    split
    · next foldable => exact ahead _ made keeps foldable
    · next fixed =>
      -- All unary operators may be applied ahead, so it is the operand that is fixed.
      obtain ⟨⟨entry, member, named, rfl⟩, inner⟩ := made
      rw [isFoldable, unary _ (Entry.op_mem_of_mem_table member), Bool.true_and, Bool.not_eq_true] at fixed
      exact ⟨⟨entry, member, named, rfl⟩, fold_ne_leaf fixed, ih inner keeps.2⟩
  | group inner ih =>
    rw [Tree.fold]
    split
    · next foldable => exact ahead _ made keeps foldable
    · exact ih made keeps
  | binary op priority left right leftIh rightIh =>
    rw [Tree.fold]
    split
    · next foldable => exact ahead _ made keeps foldable
    · exact ⟨made.1, leftIh made.2.1 keeps.2.1, rightIh made.2.2 keeps.2.2⟩

end Tree

/-! ## The text of what folding leaves -/

/-- Whether the literal of the tree is a number with a point. -/
def Tree.isPointed : Tree Id C → Bool
  | .leaf value => value.isPointed
  | _ => false

/-- Whether the value of the tree survives its text: no number with a point is the left operand of the operator
that joins digits, and all values survive theirs. -/
def Tree.Restorable : Tree Id C → Prop
  | .leaf value => value.Restorable
  | .constant _ => True
  | .unary _ operand => operand.Restorable
  | .group inner => inner.Restorable
  | .binary op _ left right =>
    (op.token = "." → left.isPointed = false) ∧ left.Restorable ∧ right.Restorable

namespace Grammar

variable {v : Vocabulary Id C} {spacing : Spacing} {entry : Entry Id C} {piece more : List Char}
  {t u : Tree Id C}

/-- A row between brackets is read in one piece. -/
theorem RereadsRow.group (clear : v.Clear) (row : (Grammar.ofVocabulary v spacing).RereadsRow piece t) :
    (Grammar.ofVocabulary v spacing).Rereads ('(' :: (piece ++ [')'])) (.group t) := by
  obtain ⟨u, _, reads, value⟩ := row
  have opening := ofVocabulary_avoids clear.opening spacing
  have closing := ofVocabulary_avoids clear.closing spacing
  exact .enclosed opening closing (fun behind => (reads _ (.closing behind)).within) value

/-- An operator between two rows joins what it takes from them. -/
theorem rereads_rows (clear : v.Clear) (stands : (Grammar.ofVocabulary v spacing).Stands entry)
    (left : ∀ behind, (Grammar.ofVocabulary v spacing).Delimits behind →
      (Grammar.ofVocabulary v spacing).ReadsRow 1 piece t behind)
    (loose : (t.append entry.op entry.priority).Loose 1)
    (right : ∀ behind, (Grammar.ofVocabulary v spacing).Delimits behind →
      (Grammar.ofVocabulary v spacing).ReadsRow 1 more u behind) :
    (Grammar.ofVocabulary v spacing).Rereads ('(' :: (piece ++ ' ' :: (entry.token ++ ' ' :: more) ++ [')']))
      ((t.append entry.op entry.priority).fill u) := by
  have opening := ofVocabulary_avoids clear.opening spacing
  have closing := ofVocabulary_avoids clear.closing spacing
  refine .enclosed opening closing (fun behind => ?_) fun _ => rfl
  exact (left _ (.binary stands (more ++ ')' :: behind))).beside clear stands loose (right _ (.closing behind))

theorem one_le_priority (member : entry ∈ Entry.table v.binary) : 1 ≤ entry.priority := by
  obtain ⟨op, place, _, rfl⟩ := Entry.mem_table.mp member
  exact Nat.le_add_left 1 place

/-- Whatever stands on its sides, an operator between rows is read. -/
theorem RereadsRow.exists_binary (clear : v.Clear) (stands : (Grammar.ofVocabulary v spacing).Stands entry)
    (left : (Grammar.ofVocabulary v spacing).RereadsRow piece t)
    (right : (Grammar.ofVocabulary v spacing).RereadsRow more u) :
    ∃ w, (Grammar.ofVocabulary v spacing).Rereads
      ('(' :: (piece ++ ' ' :: (entry.token ++ ' ' :: more) ++ [')'])) w := by
  obtain ⟨a, tight, readsLeft, _⟩ := left
  obtain ⟨b, _, readsRight, _⟩ := right
  exact ⟨_, rereads_rows clear stands readsLeft (tight.loose_append (one_le_priority stands.member)) readsRight⟩

/-- An operator that is not the tightest takes whole rows for its operands. -/
theorem RereadsRow.binary (clear : v.Clear) (stands : (Grammar.ofVocabulary v spacing).Stands entry)
    (loose : 1 < entry.priority)
    (left : (Grammar.ofVocabulary v spacing).RereadsRow piece t)
    (right : (Grammar.ofVocabulary v spacing).RereadsRow more u) :
    (Grammar.ofVocabulary v spacing).Rereads ('(' :: (piece ++ ' ' :: (entry.token ++ ' ' :: more) ++ [')']))
      (.binary entry.op entry.priority t u) := by
  obtain ⟨a, tight, readsLeft, valueLeft⟩ := left
  obtain ⟨b, _, readsRight, valueRight⟩ := right
  have rereads := rereads_rows clear stands readsLeft (tight.loose_append (one_le_priority stands.member)) readsRight
  rw [tight.append loose] at rereads
  refine rereads.congr fun context => ?_
  rw [Spine.fill, Spine.fill, Tree.eval_binary, Tree.eval_binary, valueLeft, valueRight]

/-- The tightest operator takes whole what is read in one piece before it, and the row behind it. -/
theorem Rereads.beside_row (clear : v.Clear) (stands : (Grammar.ofVocabulary v spacing).Stands entry)
    (left : (Grammar.ofVocabulary v spacing).Rereads piece t)
    (right : (Grammar.ofVocabulary v spacing).RereadsRow more u) :
    (Grammar.ofVocabulary v spacing).Rereads ('(' :: (piece ++ ' ' :: (entry.token ++ ' ' :: more) ++ [')']))
      (.binary entry.op entry.priority t u) := by
  obtain ⟨a, atom, readsLeft, valueLeft⟩ := left
  obtain ⟨b, _, readsRight, valueRight⟩ := right
  have rereads := rereads_rows clear stands (fun behind delimits => (readsLeft behind delimits).row)
    (atom.tight.loose_append (one_le_priority stands.member)) readsRight
  rw [Tree.append_of_atom atom] at rereads
  refine rereads.congr fun context => ?_
  rw [Spine.fill, Spine.fill, Tree.eval_binary, Tree.eval_binary, valueLeft, valueRight]

theorem RereadsRow.parse {g : Grammar Id C} (row : g.RereadsRow t.render u) :
    ∃ w, g.parse t.expr 0 = .ok w ∧ ∀ context, w.eval context = u.eval context := by
  obtain ⟨w, _, reads, value⟩ := row
  exact ⟨w, (reads [] .ending).within.parse, value⟩

end Grammar

/-- The tightest operator is the point. -/
theorem Vocabulary.Legible.token_of_priority {v : Vocabulary Id C} {spacing : Spacing}
    (legible : v.Legible spacing) {entry : Entry Id C} (member : entry ∈ Entry.table v.binary)
    (tightest : entry.priority = 1) : entry.op.token = "." := by
  obtain ⟨op, place, found, rfl⟩ := Entry.mem_table.mp member
  obtain rfl : place = 0 := Nat.succ.inj tightest
  have token := legible.point
  rw [List.head?_eq_getElem?, found] at token
  exact Option.some.inj token

theorem Vocabulary.Legible.ne_groupToken {v : Vocabulary Id C} {spacing : Spacing}
    (legible : v.Legible spacing) {entry : Entry Id C} (member : entry ∈ Entry.table v.unary) :
    entry.op.token ≠ Tree.groupToken := by
  intro same
  have outside := legible.clear.opening.unary _ (Entry.op_mem_of_mem_table member)
  rw [same] at outside
  exact outside (by decide)

namespace Tree

/-- Whether no number with a point is the operand of a unary operator. -/
def Unprefixed : Tree Id C → Prop
  | .leaf _ | .constant _ => True
  | .unary _ operand => operand.isPointed = false ∧ operand.Unprefixed
  | .group inner => inner.Unprefixed
  | .binary _ _ left right => left.Unprefixed ∧ right.Unprefixed

/-- A unary operator is read in brackets before anything that can be its operand. -/
theorem exists_rereads_below {v : Vocabulary Id C} {host : Host} (legible : v.Legible .wordsOnly)
    (restores : v.Restores host) {entry : Entry Id C} (member : entry ∈ Entry.table v.unary)
    (named : entry.token ≠ []) {t u : Tree Id C}
    (reread : (Grammar.ofVocabulary v .wordsOnly).RereadsApart t.isPointed t.render u) :
    ∃ w, (Grammar.ofVocabulary v .wordsOnly).Rereads ('(' :: (entry.token ++ ' ' :: t.render ++ [')'])) w ∧
      (t.isPointed = false → w = .unary entry.op u) := by
  cases pointed : t.isPointed with
  | false => exact ⟨_, .unary legible member named (reread.whole pointed), fun _ => rfl⟩
  | true =>
    cases t with
    | leaf value =>
      cases value with
      | number n =>
        obtain ⟨literal, negative, whole, fraction, some, are, text⟩ := Value.exists_point pointed
        obtain ⟨w, rereads⟩ := Grammar.exists_rereads_below legible restores nofun member named
          Nat.toDigits_ne_nil (isDigit_toDigits whole) some are negative
        rw [← text, ← literal] at rereads
        exact ⟨w, rereads, nofun⟩
      | _ => cases pointed
    | _ => cases pointed

/-- A binary operator is read in brackets between whatever can be its operands. Only the point takes a number with
a point on its left apart. -/
theorem exists_rereads_beside {v : Vocabulary Id C} (legible : v.Legible .wordsOnly) {entry : Entry Id C}
    (member : entry ∈ Entry.table v.binary) (named : entry.token ≠ []) {left right a b : Tree Id C}
    (onLeft : (Grammar.ofVocabulary v .wordsOnly).RereadsApart left.isPointed left.render a)
    (onRight : (Grammar.ofVocabulary v .wordsOnly).RereadsApart right.isPointed right.render b) :
    ∃ w, (Grammar.ofVocabulary v .wordsOnly).Rereads
        ('(' :: (left.render ++ ' ' :: (entry.token ++ ' ' :: right.render) ++ [')'])) w ∧
      ((entry.op.token = "." → left.isPointed = false) → w = .binary entry.op entry.priority a b) := by
  have clear := legible.clear
  have stands := legible.stands entry member named
  cases pointed : left.isPointed with
  | false =>
    rw [pointed] at onLeft
    exact ⟨_, (onLeft.whole rfl).beside_row clear stands onRight.row, fun _ => rfl⟩
  | true =>
    by_cases loose : 1 < entry.priority
    · exact ⟨_, onLeft.row.binary clear stands loose onRight.row, fun _ => rfl⟩
    · have positive := Grammar.one_le_priority member
      have point := legible.token_of_priority member (by omega)
      obtain ⟨w, rereads⟩ := onLeft.row.exists_binary clear stands onRight.row
      exact ⟨w, rereads, fun apart => nomatch apart point⟩

end Tree

/-- Data, and the operators of a vocabulary that have a token. -/
def Vocabulary.written (v : Vocabulary Id C) : Parts Id C where
  leaf value := value.isData
  constant op := ∃ entry ∈ Entry.table v.constants, entry.token ≠ [] ∧ entry.op = op
  unary op := ∃ entry ∈ Entry.table v.unary, entry.token ≠ [] ∧ entry.op = op
  binary op priority :=
    ∃ entry ∈ Entry.table v.binary, entry.token ≠ [] ∧ entry.op = op ∧ entry.priority = priority

/-- A tree of data and operators is read again from its text, in one piece unless it is a number with a point. -/
theorem Tree.MadeOf.rereadsApart {v : Vocabulary Id C} {host : Host} (legible : v.Legible .wordsOnly)
    (restores : v.Restores host) {t : Tree Id C} (made : t.MadeOf v.written) :
    ∃ u : Tree Id C, (Grammar.ofVocabulary v .wordsOnly).RereadsApart t.isPointed t.render u ∧
      (t.Restorable → t.Unprefixed → ∀ context, u.eval context = t.eval context) := by
  induction t with
  | leaf value =>
    obtain ⟨found, rereads, same⟩ := Grammar.rereads_value legible restores made
    refine ⟨.leaf found, rereads, fun restorable _ context => ?_⟩
    rw [same restorable]
  | constant op =>
    obtain ⟨entry, member, named, rfl⟩ := made
    have rereads : (Grammar.ofVocabulary v .wordsOnly).Rereads entry.token (.constant entry.op) :=
      ⟨.constant entry.op, trivial,
        fun behind delimits => legible.reads_constant member named nofun delimits.boundary, fun _ => rfl⟩
    rw [Entry.token_of_mem_table member] at rereads
    exact ⟨_, rereads.apart _, fun _ _ _ => rfl⟩
  | unary op operand ih =>
    obtain ⟨⟨entry, member, named, rfl⟩, inner⟩ := made
    obtain ⟨u, reread, same⟩ := ih inner
    obtain ⟨w, rereads, whole⟩ := exists_rereads_below legible restores member named reread
    rw [Entry.token_of_mem_table member] at rereads
    rw [render, if_neg (legible.ne_groupToken member)]
    refine ⟨w, rereads.apart _, fun restorable unprefixed context => ?_⟩
    rw [whole unprefixed.1, eval_unary, eval_unary, same restorable unprefixed.2]
  | group inner ih =>
    obtain ⟨u, reread, same⟩ := ih made
    exact ⟨.group u, (reread.row.group legible.clear).apart _, same⟩
  | binary op priority left right leftIh rightIh =>
    obtain ⟨⟨entry, member, named, rfl, rfl⟩, onLeft, onRight⟩ := made
    obtain ⟨a, rereadLeft, sameLeft⟩ := leftIh onLeft
    obtain ⟨b, rereadRight, sameRight⟩ := rightIh onRight
    obtain ⟨w, rereads, whole⟩ := exists_rereads_beside legible member named rereadLeft rereadRight
    have text : (binary entry.op entry.priority left right).render =
        '(' :: (left.render ++ ' ' :: (entry.op.token.toList ++ ' ' :: right.render) ++ [')']) := by
      simp only [render, List.cons_append, List.append_assoc]
    rw [text, ← Entry.token_of_mem_table member]
    refine ⟨w, rereads.apart _, fun restorable unprefixed context => ?_⟩
    rw [whole restorable.1, eval_binary, eval_binary, sameLeft restorable.2.1 unprefixed.1,
      sameRight restorable.2.2 unprefixed.2]

namespace Tree.Residual

variable {v : Vocabulary Id C} {t : Tree Id C}

theorem written (residual : t.Residual v) : t.MadeOf v.written := by
  induction t with
  | leaf value => exact residual
  | constant => exact False.elim residual
  | unary op operand ih => exact ⟨residual.1, ih residual.2.2⟩
  | group inner ih => exact ih residual
  | binary op priority left right leftIh rightIh =>
    exact ⟨residual.1, leftIh residual.2.1, rightIh residual.2.2⟩

theorem unprefixed (residual : t.Residual v) : t.Unprefixed := by
  induction t with
  | leaf | constant => trivial
  | unary op operand ih =>
    refine ⟨?_, ih residual.2.2⟩
    cases operand with
    | leaf value => exact absurd rfl (residual.2.1 value)
    | _ => rfl
  | group inner ih => exact ih residual
  | binary op priority left right leftIh rightIh => exact ⟨leftIh residual.2.1, rightIh residual.2.2⟩

end Tree.Residual

/-- The text of a tree of data and operators is compiled, whatever text has been compiled before, to a tree of its
values if these survive. -/
theorem Tree.MadeOf.exists_answer {v : Vocabulary Id C} {host : Host} (legible : v.Legible .wordsOnly)
    (restores : v.Restores host) (ignore : v.All Operator.IgnoresContext) {t : Tree Id C}
    (made : t.MadeOf v.written) (earlier : String) :
    ∃ u : Tree Id C, (Compiler.ofVocabulary v .wordsOnly).answer t.expr = .ok u ∧
      (Id.run ((Compiler.ofVocabulary v .wordsOnly).compile earlier)).2.answer t.expr = .ok u ∧
        (t.Restorable → t.Unprefixed → ∀ context, u.eval context = t.eval context) := by
  obtain ⟨again, reread, same⟩ := made.rereadsApart legible restores
  obtain ⟨whole, parses, value⟩ := reread.row.parse
  obtain ⟨u, answer, remembered, value'⟩ := Compiler.exists_answer_of_parse ignore parses earlier
  refine ⟨u, answer, remembered, fun restorable unprefixed context => ?_⟩
  rw [value', value, same restorable unprefixed]

/-! ## The built-in operators -/

namespace Value

variable {a b : Value}

theorem isData_minus : (a.minus b).isData := by
  cases a <;> rfl

theorem isData_extend : (a.extend b).isData := by
  cases a <;> rfl

theorem isData_both (left : a.isData) (right : b.isData) : (a.both b).isData := by
  unfold both
  split
  · exact right
  · exact left

theorem isData_either (left : a.isData) (right : b.isData) : (a.either b).isData := by
  unfold either
  split
  · exact left
  · exact right

theorem isData_negation (v : Value) : v.negation.isData := by
  unfold negation
  split <;> rfl

theorem isData_readJson (v : Value) : v.readJson.isData := by
  unfold readJson
  split
  · next json _ => cases json <;> rfl
  · rfl

end Value

namespace Vocabulary

theorem keepsData_pureBinary (token : String) {f : Value → Value → Value}
    (keeps : ∀ a b, a.isData → b.isData → (f a b).isData) (foldable : Bool) :
    ((pureBinary token f : Operator Id C).withFoldable foldable).KeepsData := by
  intro _ operands _ data
  have given : ∀ place, (operands.getD place .absent).isData := by
    intro place
    rw [List.getD_eq_getElem?_getD]
    cases found : operands[place]? with
    | none => rfl
    | some v => exact data v (List.mem_of_getElem? found)
  exact keeps _ _ (given 0) (given 1)

theorem keepsData_pureUnary (token : String) {f : Value → Value} (keeps : ∀ v, (f v).isData) (foldable : Bool) :
    ((pureUnary token f : Operator Id C).withFoldable foldable).KeepsData :=
  fun _ _ _ _ => keeps _

theorem keepsData_pureConstant (token : String) {v : Value} (data : v.isData) (foldable : Bool) :
    ((pureConstant token v : Operator Id C).withFoldable foldable).KeepsData :=
  fun _ _ _ _ => data

/-- The lookup can give a callable, but it is not applied ahead. -/
theorem builtin_keepsData (host : Host) : (builtin host : Vocabulary Id C).All Operator.KeepsData := by
  constructor
  · refine List.forall_mem_cons.mpr ⟨nofun, List.forall_mem_map.mpr ?_⟩
    simp only [List.forall_mem_cons, List.not_mem_nil, false_imp_iff, implies_true, and_true]
    and_intros <;> refine keepsData_pureBinary _ (fun a b left right => ?_) true
    all_goals first
      | rfl
      | exact Value.isData_minus
      | exact Value.isData_extend
      | exact Value.isData_both left right
      | exact Value.isData_either left right
  · refine List.forall_mem_map.mpr ?_
    simp only [List.forall_mem_cons, List.not_mem_nil, false_imp_iff, implies_true, and_true]
    exact ⟨keepsData_pureUnary _ Value.isData_negation true, keepsData_pureUnary _ (fun _ => rfl) true,
      keepsData_pureUnary _ (fun _ => rfl) true, keepsData_pureUnary _ (fun _ => rfl) true,
      keepsData_pureUnary _ Value.isData_readJson true⟩
  · refine List.forall_mem_map.mpr ?_
    simp only [List.forall_mem_cons, List.not_mem_nil, false_imp_iff, implies_true, and_true]
    and_intros <;> exact keepsData_pureConstant _ rfl true

theorem builtin_restores (host : Host) : (builtin host : Vocabulary Id C).Restores host where
  joined := ⟨_, List.mem_of_getElem? (i := 5) rfl, rfl, fun _ _ _ => rfl⟩
  number := ⟨_, List.mem_of_getElem? (i := 1) rfl, rfl, fun _ _ => rfl⟩
  point := by
    intro op member point
    rcases List.mem_cons.mp member with rfl | other
    · exact fun _ _ _ => rfl
    · have tokens : ∀ token ∈ ["*", "/", "+", "-", "^", "@", "in", "=", "!=", ">", "<", ">=", "<=", "&", "|", ","],
          token ≠ "." := by decide
      exact absurd point (tokens _ (List.mem_map_of_mem other))
  minus := ⟨_, List.mem_of_getElem? (i := 2) rfl, rfl, fun _ _ => rfl⟩
  json := ⟨_, List.mem_of_getElem? (i := 4) rfl, rfl, fun _ _ => rfl⟩
  constants := by
    simp only [List.forall_mem_cons, List.not_mem_nil, false_imp_iff, implies_true, and_true]
    exact ⟨⟨_, List.mem_of_getElem? (i := 0) rfl, by rfl, fun _ => rfl⟩,
      ⟨_, List.mem_of_getElem? (i := 1) rfl, by rfl, fun _ => rfl⟩,
      ⟨_, List.mem_of_getElem? (i := 2) rfl, by rfl, fun _ => rfl⟩,
      ⟨_, List.mem_of_getElem? (i := 3) rfl, by rfl, fun _ => rfl⟩⟩

end Vocabulary

namespace Compiler

/-- The text of a folded tree can be compiled again, also by the compiler that remembers the tree. It has the
value of the tree if that is restorable. -/
theorem recompiles_folded (host : Host) (text : String) (t : Tree Id C)
    (compiled : (Compiler.standard host ⟨[], [], []⟩ .wordsOnly).answer text = .ok t) :
    ∃ u : Tree Id C, (Compiler.standard host ⟨[], [], []⟩ .wordsOnly).answer t.expr = .ok u ∧
      (Id.run ((Compiler.standard host ⟨[], [], []⟩ .wordsOnly).compile text)).2.answer t.expr = .ok u ∧
        (t.Restorable → ∀ context, u.eval context = t.eval context) := by
  rw [standard_eq] at *
  have ignore := Vocabulary.builtin_ignoresContext (C := C) host
  have spelled := Vocabulary.builtin_spelled (m := Id) (C := C) host
  obtain ⟨parsed, parses, rfl, _⟩ := (answer_ofVocabulary_eq_ok ignore).mp compiled
  have constants : ∀ op ∈ (Vocabulary.builtin host : Vocabulary Id C).constants, op.foldable :=
    List.forall_mem_map.mpr fun _ _ => rfl
  have unary : ∀ op ∈ (Vocabulary.builtin host : Vocabulary Id C).unary, op.foldable :=
    List.forall_mem_map.mpr fun _ _ => rfl
  have residual := (Grammar.parse_madeOf parses).residual_fold constants unary
    (Grammar.parse_all (Vocabulary.builtin_keepsData host) parses)
  obtain ⟨u, answer, remembered, same⟩ := residual.written.exists_answer (spelled.legible .wordsOnly)
    (Vocabulary.builtin_restores host) ignore text
  exact ⟨u, answer, remembered, fun restorable => same restorable residual.unprefixed⟩

/-- The list survives its JSON text. -/
theorem recompiles_folded_list :
    ∃ t u : Tree Id Unit, (hostless .wordsOnly).answer "(null , true) . length" = .ok t ∧
      (hostless .wordsOnly).answer t.expr = .ok u ∧ ∀ context, u.eval context = t.eval context := by
  let point : Operator Id Unit := Vocabulary.pureBinary "." (Value.dot ⟨fun _ _ => .absent⟩)
  let t : Tree Id Unit := .binary point 1 (.leaf (.list [.null, .bool true])) (.leaf (.string "length"))
  have compiled : (hostless .wordsOnly).answer "(null , true) . length" = .ok t := rfl
  have restorable : t.Restorable := by
    refine ⟨fun _ => rfl, ?_, trivial⟩
    rintro _ ⟨rfl⟩
    rfl
  obtain ⟨u, again, _, same⟩ := recompiles_folded ⟨fun _ _ => .absent⟩ _ t compiled
  exact ⟨t, u, compiled, again, same restorable⟩

/-- A number with a point is taken apart before the operator that joins digits: what was absent becomes the
number. -/
theorem half_not_restored :
    ∃ t u : Tree Id Unit, (hostless .wordsOnly).answer "(1/2).0" = .ok t ∧ t.expr = "(0.5 . 0)" ∧
      (hostless .wordsOnly).answer t.expr = .ok u ∧ Value.same (u.eval none) (t.eval none) = false := by
  have run : (((hostless .wordsOnly).answer "(1/2).0").toOption.any fun t =>
      ((hostless .wordsOnly).answer "(0.5 . 0)").toOption.any fun u =>
        t.expr == "(0.5 . 0)" && !Value.same (u.eval none) (t.eval none)) = true := by decide +kernel
  generalize (hostless .wordsOnly).answer "(1/2).0" = compiled at run
  generalize again : (hostless .wordsOnly).answer "(0.5 . 0)" = recompiled at run
  rcases compiled with _ | t
  · cases run
  rcases recompiled with _ | u
  · cases run
  change (t.expr == "(0.5 . 0)" && !Value.same (u.eval none) (t.eval none)) = true at run
  rw [Bool.and_eq_true, beq_iff_eq, Bool.not_eq_true'] at run
  exact ⟨t, u, rfl, run.1, by rw [run.1, again], run.2⟩

end Compiler

end Formula

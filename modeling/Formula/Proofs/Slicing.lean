import Formula.Proofs.Spelling

/-!
# Slicing

Phrases read by byte positions alone. Each piece of the text is cut out between two positions, which is a
fault where they are out of order, past the end or inside a character. There is never a fault: from any
position on, the pieces are those that a scan has read.
-/

namespace Formula

variable {m : Type → Type} {C : Type}

/-! ## Pieces -/

/-- Positions between which a text has no piece. -/
structure Fault where
  start : Nat
  stop : Nat

/-- The first `bytes` bytes; nothing if they end inside a character or past the end. -/
def takeBytes? : Nat → List Char → Option (List Char)
  | 0, _ => some []
  | _ + 1, [] => none
  | bytes + 1, c :: rest =>
    if c.utf8Size ≤ bytes + 1 then (c :: ·) <$> takeBytes? (bytes + 1 - c.utf8Size) rest else none

/-- The position some bytes before another. -/
def back (position bytes : Nat) : Except Fault Nat :=
  if bytes ≤ position then .ok (position - bytes) else .error ⟨bytes, position⟩

def sliceFrom (text : List Char) (start : Nat) : Except Fault (List Char) :=
  match dropBytes? start text with
  | some rest => .ok rest
  | none => .error ⟨start, byteLength text⟩

def slice (text : List Char) (start stop : Nat) : Except Fault (List Char) := do
  let rest ← sliceFrom text start
  let bytes ← back stop start
  match takeBytes? bytes rest with
  | some piece => .ok piece
  | none => .error ⟨start, stop⟩

/-- How many bytes of blanks a piece starts with. -/
def blanksBefore (piece : List Char) : Except Fault Nat :=
  back (byteLength piece) (byteLength (trimLeft piece))

theorem ok_bind {α β : Type} (a : α) (f : α → Except Fault β) : (Except.ok a >>= f) = f a :=
  rfl

theorem takeBytes?_append (a b : List Char) : takeBytes? (byteLength a) (a ++ b) = some a := by
  induction a with
  | nil => simp [byteLength, takeBytes?]
  | cons c rest ih =>
    have positive := c.utf8Size_pos
    obtain ⟨bytes, total⟩ : ∃ bytes, c.utf8Size + byteLength rest = bytes + 1 :=
      ⟨c.utf8Size + byteLength rest - 1, by omega⟩
    rw [byteLength, total, List.cons_append, takeBytes?, if_pos (by omega), ← total,
      Nat.add_sub_cancel_left, ih]
    rfl

theorem back_add (position bytes : Nat) : back (position + bytes) bytes = .ok position := by
  rw [back, if_pos (Nat.le_add_left ..), Nat.add_sub_cancel]

theorem sliceFrom_append (before rest : List Char) :
    sliceFrom (before ++ rest) (byteLength before) = .ok rest := by
  rw [sliceFrom, dropBytes?_append]

theorem slice_append (before piece rest : List Char) :
    slice (before ++ (piece ++ rest)) (byteLength before) (byteLength before + byteLength piece) =
      .ok piece := by
  rw [slice, sliceFrom_append, ok_bind, Nat.add_comm, back_add, ok_bind, takeBytes?_append]

theorem blanksBefore_eq (piece : List Char) :
    blanksBefore piece = .ok (byteLength (piece.takeWhile isBlank)) := by
  have length : byteLength piece = byteLength (piece.takeWhile isBlank) + byteLength (trimLeft piece) := by
    rw [← byteLength_append, trimLeft, List.takeWhile_append_dropWhile]
  rw [blanksBefore, length, back_add]

/-! ## Binary operators -/

/-- Where the token of a binary operator starts, if this is the operator that ends the buffer between two
positions. -/
def Entry.startAt? (spacing : Spacing) (closed : Bool) (text : List Char) (start stop : Nat)
    (entry : Entry m C) : Except Fault (Option Nat) := do
  let buffer ← slice text start stop
  let rest ← sliceFrom text stop
  if entry.token.isEmpty || !entry.token.isSuffixOf buffer then return none
  let tokenStart ← back stop (byteLength entry.token)
  let left ← slice text start tokenStart
  let operand := trim left
  if (operand.isEmpty && !closed) || isOpenQuote operand then return none
  let ahead ← sliceFrom text tokenStart
  if entry.longerEnding.any (·.isSuffixOf buffer) || entry.longerStarting.any (·.isPrefixOf ahead) then
    return none
  if spacing.separates entry.word && !(rest.head?.any isBlank && left.getLast?.any isBlank) then
    return none
  return some tokenStart

theorem isSuffixOf_reverse (token reversed : List Char) :
    token.isSuffixOf reversed.reverse = token.reverse.isPrefixOf reversed := by
  rw [List.isSuffixOf, List.reverse_reverse]

theorem guarded_eq {α : Type} (a b c : Bool) (answer : α) :
    (if a then pure none else if b then pure none else if c then pure none else pure (some answer) :
        Except Fault (Option α)) =
      .ok (if !a && !b && !c then some answer else none) := by
  cases a <;> cases b <;> cases c <;> rfl

theorem Entry.startAt?_eq (spacing : Spacing) (closed : Bool) (before buffer rest : List Char)
    (entry : Entry m C) :
    entry.startAt? spacing closed (before ++ (buffer.reverse ++ rest)) (byteLength before)
        (byteLength before + byteLength buffer) =
      .ok (if Scan.endsWith spacing closed buffer rest entry then
        some (byteLength before + byteLength (buffer.drop entry.token.length)) else none) := by
  have piece := slice_append before buffer.reverse rest
  rw [byteLength_reverse] at piece
  have behind := sliceFrom_append (before ++ buffer.reverse) rest
  rw [byteLength_append, byteLength_reverse, List.append_assoc] at behind
  rw [startAt?, piece, ok_bind, behind, ok_bind, isSuffixOf_reverse]
  unfold Scan.endsWith
  cases some : entry.token.isEmpty with
  | true => rfl
  | false =>
  cases ending : entry.token.reverse.isPrefixOf buffer with
  | false => rfl
  | true =>
  obtain ⟨left, rfl⟩ := List.isPrefixOf_iff_prefix.mp ending
  have stop : byteLength before + byteLength (entry.token.reverse ++ left) =
      byteLength before + byteLength left + byteLength entry.token := by
    rw [byteLength_append, byteLength_reverse]
    omega
  have whole : before ++ ((entry.token.reverse ++ left).reverse ++ rest) =
      before ++ (left.reverse ++ (entry.token ++ rest)) := by simp
  have operand := slice_append before left.reverse (entry.token ++ rest)
  rw [byteLength_reverse] at operand
  have ahead := sliceFrom_append (before ++ left.reverse) (entry.token ++ rest)
  rw [byteLength_append, byteLength_reverse, List.append_assoc] at ahead
  have tests : ∀ c e q a b w n l : Bool,
      ((c || !e) && !q && !a && !b && (!w || n && l)) =
        (!(e && !c || q) && !(a || b) && !(w && !(n && l))) := by decide
  rw [List.drop_left' List.length_reverse, stop, back_add, ok_bind, whole, operand, ok_bind, ahead,
    ok_bind]
  simp only [isSuffixOf_reverse, List.getLast?_reverse, Bool.not_false, Bool.true_and, tests]
  exact guarded_eq ..

/-- The first operator of a list that ends the buffer, with where its token starts. -/
def Entry.firstAt? (spacing : Spacing) (closed : Bool) (text : List Char) (start stop : Nat)
    (entries : List (Entry m C)) : Except Fault (Option (Entry m C × Nat)) :=
  entries.findSomeM? fun entry => (·.map (entry, ·)) <$> entry.startAt? spacing closed text start stop

theorem Entry.firstAt?_eq (spacing : Spacing) (closed : Bool) (before buffer rest : List Char)
    (entries : List (Entry m C)) :
    firstAt? spacing closed (before ++ (buffer.reverse ++ rest)) (byteLength before)
        (byteLength before + byteLength buffer) entries =
      .ok ((entries.find? (Scan.endsWith spacing closed buffer rest)).map fun entry =>
        (entry, byteLength before + byteLength (buffer.drop entry.token.length))) := by
  unfold firstAt?
  induction entries with
  | nil => rfl
  | cons entry others ih =>
    rw [List.findSomeM?, startAt?_eq, List.find?_cons]
    cases Scan.endsWith spacing closed buffer rest entry with
    | true => rfl
    | false => exact ih

/-! ## Phrases -/

/-- The phrase whose operand is between two positions. -/
def phraseBetween (text : List Char) (unary : List (Operator m C)) (start stopStart : Nat)
    (stop : Stop m C) (next : Nat) : Except Fault (Phrase m C) := do
  let raw ← slice text start stopStart
  let blanks ← blanksBefore raw
  return ⟨unary, trim raw, start + blanks, stop, stopStart, next⟩

namespace Grammar

/-- Reads a phrase on from a place where its buffer starts at `start`. -/
def readOn (g : Grammar m C) (text : List Char) (closed : Bool) :
    (unary : List (Operator m C)) → (start place : Nat) → List Char → Except Fault (Phrase m C)
  | unary, start, _, [] => do
    let raw := (dropBytes? start text).getD []
    let blanks ← blanksBefore raw
    return ⟨unary, trim raw, start + blanks, .ending, byteLength text, byteLength text⟩
  | unary, start, place, c :: rest => do
    let stop := place + c.utf8Size
    let buffer ← slice text start stop
    let behind ← sliceFrom text stop
    let token := if closed then [] else trim buffer
    match Scan.whole? g.spacing g.constants token behind with
    | some entry =>
      let blanks ← blanksBefore buffer
      return ⟨unary, [], start + blanks, .constant entry, start + blanks, stop⟩
    | none =>
    match Scan.whole? g.spacing g.unary token behind with
    | some entry => readOn g text closed (unary ++ [entry.op]) stop stop rest
    | none =>
    let operand ← slice text start place
    match (Scan.bracket? c).filter fun _ => !isOpenQuote (trim operand) with
    | some bracket => phraseBetween text unary start place bracket stop
    | none =>
    match ← Entry.firstAt? g.spacing closed text start stop g.binary with
    | some (entry, tokenStart) => phraseBetween text unary start tokenStart (.binary entry) stop
    | none => readOn g text closed unary start stop rest

/-- Reads the phrase at a position of a text. -/
def readAt (g : Grammar m C) (text : List Char) (closed : Bool) (position : Nat) :
    Except Fault (Phrase m C) :=
  g.readOn text closed [] position position ((dropBytes? position text).getD [])

end Grammar

theorem phraseBetween_append (before left rest : List Char) (s : Scan m C)
    (start : s.start = byteLength before) (stop : Stop m C) (length : Nat) :
    phraseBetween (before ++ (left ++ rest)) s.unary.reverse s.start (s.start + byteLength left) stop
      (s.start + byteLength left + length) = .ok (s.phrase left stop length) := by
  rw [phraseBetween, start, slice_append, ok_bind, blanksBefore_eq, ok_bind, ← start]
  rfl

section

variable {before rest : List Char} {s : Scan m C} {c : Char}

theorem Scan.act_constant (s : Scan m C) (c : Char) (entry : Entry m C) :
    s.act c (.constant entry) =
      .found ⟨s.unary.reverse, [], s.start + byteLength ((c :: s.buffer).reverse.takeWhile isBlank),
        .constant entry, s.start + byteLength ((c :: s.buffer).reverse.takeWhile isBlank),
        s.start + byteLength (c :: s.buffer)⟩ := by
  have blanks : ∀ d ∈ (c :: s.buffer).reverse.takeWhile isBlank, isBlank d :=
    fun d member => List.mem_takeWhile_imp member
  rw [act, phrase, trim_eq_nil_iff.mpr blanks, List.takeWhile_eq_self_iff.mpr blanks]

/-- The text before the token of an operator that ends the buffer. -/
theorem phraseBetween_binary {spacing : Spacing} {closed : Bool} {entry : Entry m C}
    (start : s.start = byteLength before)
    (ends : Scan.endsWith spacing closed (c :: s.buffer) rest entry) :
    phraseBetween (before ++ ((c :: s.buffer).reverse ++ rest)) s.unary.reverse s.start
        (s.start + byteLength ((c :: s.buffer).drop entry.token.length)) (.binary entry)
        (s.start + byteLength (c :: s.buffer)) =
      .ok (s.phrase ((c :: s.buffer).drop entry.token.length).reverse (.binary entry)
        (byteLength entry.token)) := by
  obtain ⟨left, split, kept, _⟩ := Scan.exists_left_of_endsWith ends
  have next : s.start + byteLength (c :: s.buffer) =
      s.start + byteLength left.reverse + byteLength entry.token := by
    rw [← byteLength_reverse (c :: s.buffer), split, byteLength_append, Nat.add_assoc]
  rw [kept, next, split, List.append_assoc, ← byteLength_reverse left]
  exact phraseBetween_append before left.reverse (entry.token ++ rest) s start _ _

end

namespace Grammar

section

variable (g : Grammar m C) {before rest : List Char} {s : Scan m C} {c : Char}

/-- At the end of the text there is nothing left but the buffer. -/
theorem readOn_nil (start : s.start = byteLength before) :
    g.readOn (before ++ s.buffer.reverse) s.closed s.unary.reverse s.start
      (s.start + byteLength s.buffer) [] = .ok s.finish := by
  have length : byteLength (before ++ s.buffer.reverse) = s.start + byteLength s.buffer.reverse := by
    rw [byteLength_append, start]
  rw [readOn, start, dropBytes?_append, blanksBefore_eq, length, ok_bind, ← start]
  rfl

/-- A character is read as a scan reads it. -/
theorem readOn_cons (start : s.start = byteLength before) :
    g.readOn (before ++ (s.buffer.reverse ++ c :: rest)) s.closed s.unary.reverse s.start
        (s.start + byteLength s.buffer) (c :: rest) =
      match s.step g c rest with
      | .found p => .ok p
      | .more next =>
        g.readOn (before ++ (s.buffer.reverse ++ c :: rest)) next.closed next.unary.reverse next.start
          (next.start + byteLength next.buffer) rest := by
  have whole : before ++ (s.buffer.reverse ++ c :: rest) =
      before ++ ((c :: s.buffer).reverse ++ rest) := by simp
  have stop : s.start + byteLength s.buffer + c.utf8Size = s.start + byteLength (c :: s.buffer) := by
    rw [byteLength]
    omega
  have piece := slice_append before (c :: s.buffer).reverse rest
  have behind := sliceFrom_append (before ++ (c :: s.buffer).reverse) rest
  have operand := slice_append before s.buffer.reverse (c :: rest)
  have entries := Entry.firstAt?_eq g.spacing s.closed before (c :: s.buffer) rest g.binary
  rw [byteLength_reverse] at piece operand
  rw [byteLength_append, byteLength_reverse, List.append_assoc] at behind
  rw [← start] at piece behind operand entries
  have token : (if s.closed then [] else trim (c :: s.buffer).reverse) =
      Scan.candidate s.closed (c :: s.buffer) := rfl
  rw [readOn, Scan.step_eq_act]
  dsimp only
  rw [stop, whole, piece, ok_bind, behind, ok_bind, token]
  unfold Scan.mark
  -- Both try constants, unary operators, brackets and binary operators in this order.
  cases Scan.whole? g.spacing g.constants (Scan.candidate s.closed (c :: s.buffer)) rest with
  | some entry =>
    dsimp only
    rw [blanksBefore_eq, ok_bind, Scan.act_constant]
    rfl
  | none =>
  cases Scan.whole? g.spacing g.unary (Scan.candidate s.closed (c :: s.buffer)) rest with
  | some entry =>
    dsimp only
    rw [← List.reverse_cons]
    rfl
  | none =>
  dsimp only
  rw [← whole, operand, ok_bind]
  cases (Scan.bracket? c : Option (Stop m C)).filter fun _ => !isOpenQuote (trim s.buffer.reverse) with
  | some bracket =>
    have phrase := phraseBetween_append before s.buffer.reverse (c :: rest) s start bracket c.utf8Size
    rw [byteLength_reverse, stop] at phrase
    exact phrase
  | none =>
  dsimp only
  rw [whole, entries, ok_bind]
  cases found : g.binary.find? (Scan.endsWith g.spacing s.closed (c :: s.buffer) rest) with
  | some entry => exact phraseBetween_binary start (List.find?_some found)
  | none => rfl

/-- The induction is on the text. -/
theorem readOn_eq (rest : List Char) {before : List Char} {s : Scan m C}
    (start : s.start = byteLength before) :
    g.readOn (before ++ (s.buffer.reverse ++ rest)) s.closed s.unary.reverse s.start
      (s.start + byteLength s.buffer) rest = .ok (s.first g rest).1 := by
  induction rest generalizing before s with
  | nil =>
    rw [List.append_nil]
    exact g.readOn_nil start
  | cons c rest ih =>
    rw [g.readOn_cons start, Scan.first]
    cases step : s.step g c rest with
    | found p => rfl
    | more next =>
      obtain ⟨passed, same, place⟩ := Scan.start_of_more ((Scan.step_eq_act ..).symm.trans step)
      have start : next.start = byteLength (before ++ passed) := by
        rw [place, start, byteLength_append]
      rw [same, ← List.append_assoc]
      exact ih start

end

/-- What is read at a place between two characters is the phrase of a scan. -/
theorem readAt_append (g : Grammar m C) (before rest : List Char) (closed : Bool) :
    g.readAt (before ++ rest) closed (byteLength before) =
      .ok ((Scan.startingAt closed (byteLength before)).first g rest).1 := by
  rw [readAt, dropBytes?_append]
  exact g.readOn_eq rest (s := .startingAt closed (byteLength before)) rfl

/-- Elsewhere there is nothing to read. -/
theorem readAt_of_none (g : Grammar m C) {text : List Char} {position : Nat}
    (none : dropBytes? position text = none) (closed : Bool) :
    g.readAt text closed position =
      .ok ⟨[], [], position, .ending, byteLength text, byteLength text⟩ := by
  rw [readAt, none, Option.getD_none, readOn, none]
  rfl

end Grammar

end Formula

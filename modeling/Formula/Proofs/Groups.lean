import Formula.Proofs.Offsets
import Formula.Proofs.Precedence

/-!
# Groups

The brackets that a scan opens are, one after the other, the groups of the tree; the phrases behind
such a bracket alone give the tree of its group.
-/

namespace Formula

open List (Forall₂)

variable {m : Type → Type} {σ C : Type}

/-! ## The groups of a tree -/

/-- The trees in the groups, in the order of their opening brackets. -/
def Tree.groups : Tree m C → List (Tree m C)
  | .leaf _ | .constant _ => []
  | .unary _ operand => operand.groups
  | .group inner => inner :: inner.groups
  | .binary _ _ left right => left.groups ++ right.groups

def Spine.groups : Spine m C → List (Tree m C)
  | .hole => []
  | .binary _ _ left right => left.groups ++ right.groups

def Building.groups : Building m C → List (Tree m C)
  | .awaiting spine => spine.groups
  | .complete tree => tree.groups

@[simp] theorem Spine.groups_fill (spine : Spine m C) (t : Tree m C) :
    (spine.fill t).groups = spine.groups ++ t.groups := by
  induction spine with
  | hole => rfl
  | binary op priority left right ih =>
    rw [fill, Tree.groups, ih, groups, List.append_assoc]

@[simp] theorem Tree.groups_append (t : Tree m C) (op : Operator m C) (priority : Nat) :
    (t.append op priority).groups = t.groups := by
  have behind : ∀ u : Tree m C, (Spine.binary op priority u .hole).groups = u.groups :=
    fun u => List.append_nil u.groups
  induction t with
  | binary above bound left right _ ih =>
    rw [append]
    split
    · rw [Spine.groups, ih, groups]
    · exact behind _
  | leaf | constant | unary | group => exact behind _

@[simp] theorem Tree.groups_wrap (ops : List (Operator m C)) (t : Tree m C) : (wrap ops t).groups = t.groups := by
  induction ops with
  | nil => rfl
  | cons op rest ih => exact ih

theorem OpenGroup.groups_close (group : OpenGroup m C) (u : Tree m C) :
    (group.close u).groups = group.spine.groups ++ u :: u.groups := by
  rw [OpenGroup.close, Spine.groups_fill, Tree.groups_wrap, Tree.groups]

namespace Assembly

theorem groups_treeWith (building : Building m C) (p : Phrase m C) :
    (treeWith building p).groups = building.groups := by
  cases building with
  | awaiting spine =>
    rw [treeWith, operandTree, Spine.groups_fill, Tree.groups_wrap]
    exact List.append_nil _
  | complete tree => rfl

/-! ## Runs of phrases -/

variable {inside : Bool} {a b : Assembly m C} {p : Phrase m C} {ps rest behind : List (Phrase m C)}
  {t : Tree m C}

/-- The phrases in front of `behind` complete a tree. -/
inductive Run (inside : Bool) :
    Assembly m C → List (Phrase m C) → Tree m C → (behind : List (Phrase m C)) → Prop where
  | stop {a : Assembly m C} {t : Tree m C} (stopped : a.stop = .ok t) : Run inside a [] t []
  | done {a : Assembly m C} {p : Phrase m C} {t : Tree m C} (takes : Takes inside a p (.done t))
      (behind : List (Phrase m C)) : Run inside a (p :: behind) t behind
  | next {a b : Assembly m C} {p : Phrase m C} {rest behind : List (Phrase m C)} {t : Tree m C}
      (takes : Takes inside a p (.next b)) (later : Run inside b rest t behind) :
      Run inside a (p :: rest) t behind

theorem exists_run (complete : a.run inside ps = .ok t) : ∃ behind, Run inside a ps t behind := by
  induction ps generalizing a with
  | nil => exact ⟨[], .stop complete⟩
  | cons p rest ih =>
    rw [run] at complete
    split at complete
    · next b taken =>
      obtain ⟨behind, later⟩ := ih complete
      exact ⟨behind, .next (takes_of_step taken) later⟩
    · next taken =>
      cases complete
      exact ⟨rest, .done (takes_of_step taken) rest⟩
    · cases complete

theorem Run.run_eq (run : Run inside a ps t behind) : a.run inside ps = .ok t := by
  induction run with
  | stop stopped => exact stopped
  | done takes => simp only [Assembly.run, step_of_takes takes]
  | next takes _ ih => simp only [Assembly.run, step_of_takes takes, ih]

theorem Run.length_le (run : Run inside a ps t behind) : behind.length ≤ ps.length := by
  induction run with
  | stop => exact Nat.le_refl _
  | done => exact Nat.le_succ _
  | next _ _ ih => exact Nat.le_succ_of_le ih

/-- With a group open, a phrase does to what is inside of it what it does to that alone. If it is the
end there, it closes the group. -/
theorem Takes.of_open {inner outer : List (OpenGroup m C)} {group : OpenGroup m C}
    {building : Building m C} {outcome : Outcome m C}
    (takes : Takes inside ⟨inner ++ group :: outer, building⟩ p outcome) :
    (∃ kept later, outcome = .next ⟨kept ++ group :: outer, later⟩ ∧
        Takes true ⟨inner, building⟩ p (.next ⟨kept, later⟩)) ∨
      ∃ u, outcome = .next ⟨outer, .complete (group.close u)⟩ ∧
        Takes true ⟨inner, building⟩ p (.done u) := by
  cases takes with
  | opening spine building' stop bare =>
    exact Or.inl ⟨⟨p.stopStart, p.unary, spine⟩ :: inner, _, rfl, .opening spine building' stop bare⟩
  | constant spine building' entry stop =>
    have same : (⟨inner, building⟩ : Assembly m C).building = .awaiting spine := building'
    exact Or.inl ⟨inner, _, rfl, .constant spine same entry stop⟩
  | binary entry stop bare => exact Or.inl ⟨inner, _, rfl, .binary entry stop bare⟩
  | closing closed others groups stop bare =>
    cases inner with
    | nil =>
      cases groups
      exact Or.inr ⟨_, rfl, .unmatched rfl rfl stop bare⟩
    | cons first kept =>
      cases groups
      exact Or.inl ⟨kept, _, rfl, .closing closed kept rfl stop bare⟩
  | unmatched groups | ending groups => exact absurd groups (List.append_ne_nil_of_right_ne_nil _ nofun)

/-- A text that is not read from the inside of a group is read to its end. -/
theorem Run.whole {closed : Bool} (run : Run false a ps t behind) (row : Phrase.Row closed ps) :
    behind = [] := by
  induction run generalizing closed with
  | stop => rfl
  | done takes =>
    cases takes with
    | unmatched _ within => cases within
    | ending _ stop =>
      cases row with
      | last => rfl
      | next _ other => exact absurd stop other
  | next takes later ih =>
    cases row with
    | last =>
      cases later with
      | stop => rfl
    | next _ _ row => exact ih row

/-- A group that is open is closed by the phrase that ends its text, when this is read alone. -/
theorem Run.of_open {inner outer : List (OpenGroup m C)} {group : OpenGroup m C}
    {building : Building m C} (run : Run inside ⟨inner ++ group :: outer, building⟩ ps t behind) :
    ∃ u middle, Run true ⟨inner, building⟩ ps u middle ∧
      Run inside ⟨outer, .complete (group.close u)⟩ middle t behind := by
  generalize whole : (⟨inner ++ group :: outer, building⟩ : Assembly m C) = a at run
  induction run generalizing inner building with
  | stop stopped =>
    subst whole
    cases building <;> cases inner <;> cases stopped
  | done takes =>
    subst whole
    rcases takes.of_open with ⟨_, _, ended, _⟩ | ⟨_, ended, _⟩ <;> cases ended
  | next takes later ih =>
    subst whole
    rcases takes.of_open with ⟨kept, later', next, alone⟩ | ⟨u, next, alone⟩
    · obtain ⟨u, middle, run, rest⟩ := ih (Outcome.next.inj next).symm
      exact ⟨u, middle, .next alone run, rest⟩
    · obtain rfl := Outcome.next.inj next
      exact ⟨u, _, .done alone _, later⟩

/-! ## Opening brackets -/

/-- The phrases that open a group, each with the phrases behind it. -/
def openings : List (Phrase m C) → List (Phrase m C × List (Phrase m C))
  | [] => []
  | p :: rest =>
    match p.stop with
    | .opening => (p, rest) :: openings rest
    | _ => openings rest

theorem openings_of_opening (stop : p.stop = .opening) :
    openings (p :: rest) = (p, rest) :: openings rest := by
  rw [openings, stop]

theorem openings_of_ne (other : p.stop ≠ .opening) : openings (p :: rest) = openings rest := by
  rw [openings]
  split
  · next stop => exact absurd stop other
  · rfl

section

variable {building : Building m C}

theorem groups_of_stop (stopped : (⟨[], building⟩ : Assembly m C).stop = .ok t) :
    t.groups = building.groups := by
  cases building with
  | awaiting spine =>
    cases stopped
    rw [Spine.groups_fill]
    exact List.append_nil _
  | complete tree =>
    cases stopped
    rfl

theorem Takes.groups_done (takes : Takes inside ⟨[], building⟩ p (.done t)) :
    p.stop ≠ .opening ∧ t.groups = building.groups := by
  cases takes with
  | unmatched _ _ stop | ending _ stop => exact ⟨stop ▸ nofun, groups_treeWith ..⟩

/-- Where no group is open, a phrase opens one or brings none. -/
theorem Takes.groups_next (takes : Takes inside ⟨[], building⟩ p (.next b)) :
    (∃ group : OpenGroup m C, p.stop = .opening ∧ b = ⟨[group], .awaiting .hole⟩ ∧
        group.spine.groups = building.groups) ∨
      ∃ later, p.stop ≠ .opening ∧ b = ⟨[], later⟩ ∧ later.groups = building.groups := by
  cases takes with
  | opening spine awaiting stop =>
    obtain rfl : building = .awaiting spine := awaiting
    exact Or.inl ⟨_, stop, rfl, rfl⟩
  | constant spine awaiting entry stop =>
    obtain rfl : building = .awaiting spine := awaiting
    refine Or.inr ⟨_, stop ▸ nofun, rfl, ?_⟩
    simp [Building.groups, Tree.groups]
  | binary entry stop =>
    refine Or.inr ⟨_, stop ▸ nofun, rfl, ?_⟩
    rw [Building.groups, Tree.groups_append, groups_treeWith]
  | closing _ _ groups => cases groups

/-- The groups that phrases add to a tree are those that they open, and each is what the phrases behind
its bracket give alone. The induction is on the number of phrases: a group takes some of them, and what
follows its bracket goes on without it. -/
theorem Run.groups (run : Run inside ⟨[], building⟩ ps t behind) :
    ∃ opened inners, openings ps = opened ++ openings behind ∧ t.groups = building.groups ++ inners ∧
      Forall₂ (fun opening inner => empty.run true opening.2 = .ok inner) opened inners := by
  induction size : ps.length using Nat.strong_induction_on generalizing inside building ps t behind with
  | _ n ih =>
  cases run with
  | stop stopped =>
    exact ⟨[], [], rfl, (groups_of_stop stopped).trans (List.append_nil _).symm, .nil⟩
  | done takes =>
    obtain ⟨other, same⟩ := takes.groups_done
    exact ⟨[], [], openings_of_ne other, same.trans (List.append_nil _).symm, .nil⟩
  | @next _ b p rest _ _ takes later =>
    have shorter : rest.length < n := by
      rw [← size, List.length_cons]
      exact Nat.lt_succ_self _
    rcases takes.groups_next with ⟨group, stop, rfl, before⟩ | ⟨building', other, rfl, same⟩
    · have within : Run inside ⟨[] ++ group :: [], .awaiting .hole⟩ rest t behind := later
      obtain ⟨u, middle, alone, others⟩ := within.of_open
      obtain ⟨opened, inners, phrases, inner, groups⟩ := ih _ shorter alone rfl
      obtain ⟨opened', inners', phrases', trees, groups'⟩ :=
        ih _ (Nat.lt_of_le_of_lt alone.length_le shorter) others rfl
      refine ⟨(p, rest) :: (opened ++ opened'), u :: (inners ++ inners'), ?_, ?_, ?_⟩
      · rw [openings_of_opening stop, phrases, phrases', List.cons_append, List.append_assoc]
      · have inside' : u.groups = inners := inner
        calc t.groups
          _ = (group.close u).groups ++ inners' := trees
          _ = (building.groups ++ u :: inners) ++ inners' := by
            rw [OpenGroup.groups_close, before, inside']
          _ = building.groups ++ u :: (inners ++ inners') := by
            rw [List.append_assoc, List.cons_append]
      · exact .cons alone.run_eq (List.rel_append groups groups')
    · obtain ⟨opened, inners, phrases, trees, groups⟩ := ih _ shorter later rfl
      exact ⟨opened, inners, by rw [openings_of_ne other, phrases], by rw [trees, same], groups⟩

end

end Assembly

namespace Scan

variable {g : Grammar m C}

/-- Behind a bracket that opens a group, a text is scanned as it is from there on. -/
theorem openings_phrases {text : List Char} {s : Scan m C} {opening : Phrase m C × List (Phrase m C)}
    (member : opening ∈ Assembly.openings (s.phrases g text)) :
    ∃ before behind, text = before ++ '(' :: behind ∧ opening.1.stopStart = s.placeBehind before ∧
      opening.2 = (startingAt false (opening.1.stopStart + 1)).phrases g behind := by
  induction text generalizing s with
  | nil => cases member
  | cons c rest ih =>
    rw [phrases, step_eq_act] at member
    split at member
    · next next more =>
      obtain ⟨before, behind, split, place, phrases⟩ := ih member
      exact ⟨c :: before, behind, congrArg _ split, place.trans (placeBehind_of_more more), phrases⟩
    · next p found =>
      have later : opening ∈ Assembly.openings ((after p).phrases g rest) →
          ∃ before behind, c :: rest = before ++ '(' :: behind ∧
            opening.1.stopStart = s.placeBehind before ∧
              opening.2 = (startingAt false (opening.1.stopStart + 1)).phrases g behind := by
        intro member
        obtain ⟨before, behind, split, place, phrases⟩ := ih member
        exact ⟨c :: before, behind, congrArg _ split, place.trans (placeBehind_after found), phrases⟩
      by_cases stop : p.stop = .opening
      · rw [Assembly.openings_of_opening stop, List.mem_cons] at member
        rcases member with rfl | member
        · obtain ⟨rfl, rfl⟩ := phrase_of_opening found stop
          refine ⟨[], rest, rfl, ?_, rfl⟩
          rw [placeBehind, List.append_nil]
          rfl
        · exact later member
      · rw [Assembly.openings_of_ne stop] at member
        exact later member

end Scan

/-- Where the scan of a whole text opens groups. -/
def Grammar.openings (g : Grammar m C) (text : String) : List Nat :=
  (Assembly.openings ((Scan.startingAt false 0).phrases g text.toList)).map (·.1.stopStart)

/-- The groups that the scan of a text opens are those of its tree, one after the other, and compiling
from behind the bracket gives the tree of the group. -/
theorem Grammar.parse_groups {g : Grammar m C} {text : String} {t : Tree m C}
    (parsed : g.parse text 0 = .ok t) :
    Forall₂ (fun position inner =>
        (∃ before behind, text.toList = before ++ '(' :: behind ∧ byteLength before = position) ∧
          g.parse text (position + 1) = .ok inner)
      (g.openings text) t.groups := by
  rw [parse_zero] at parsed
  obtain ⟨behind, run⟩ := Assembly.exists_run parsed
  obtain ⟨opened, inners, phrases, trees, groups⟩ := run.groups
  obtain rfl := run.whole (Scan.phrases_row g _ text.toList fun _ => rfl)
  have whole : Assembly.openings ((Scan.startingAt false 0).phrases g text.toList) = opened :=
    phrases.trans (List.append_nil opened)
  have same : t.groups = inners := trees
  have places : ∀ opening ∈ opened, ∃ before behind, text.toList = before ++ '(' :: behind ∧
      opening.1.stopStart = (Scan.startingAt false 0 : Scan m C).placeBehind before ∧
        opening.2 = (Scan.startingAt false (opening.1.stopStart + 1)).phrases g behind :=
    fun opening member => Scan.openings_phrases (whole ▸ member)
  rw [openings, whole, same, List.forall₂_map_left_iff]
  refine (List.forall₂_and_left _ _ |>.mpr ⟨places, groups⟩).imp ?_
  rintro opening inner ⟨⟨before, behind, split, place, phrases⟩, alone⟩
  have position : byteLength before = opening.1.stopStart := (place.trans (Nat.zero_add _)).symm
  refine ⟨⟨before, behind, split, position⟩, ?_⟩
  have bracket : byteLength (before ++ ['(']) = opening.1.stopStart + 1 := by
    rw [byteLength_append, position]
    rfl
  have behind' : text.toList = (before ++ ['(']) ++ behind := by
    rw [split, List.append_assoc]
    rfl
  rw [← bracket, parse_append behind' (List.append_ne_nil_of_right_ne_nil _ nofun), bracket]
  exact (congrArg _ phrases.symm).trans alone

namespace Compiler

variable {v : Vocabulary (StateM σ) C} {spacing : Spacing} {c : Compiler (StateM σ) C}

/-- Compiling from an offset is compiling the rest of the text from the same state, whatever the compiler
has compiled before: it gives the same tree and leaves the same state, or it gives the same error further
back. A bracket without a group ends the text instead. So compiling from behind a bracket that opens a group
gives the tree of this group, and these are all groups that the tree of the text has before it is folded. -/
theorem answerFrom_suffix (grammar : c.grammar = .ofVocabulary v spacing) (fresh : Bool) (text : String)
    (s : σ) :
    (∀ before rest, text.toList = before ++ rest → before ≠ [] →
      (∀ t s', (ofVocabulary v spacing).answerFrom (String.ofList rest) 0 false s = (.ok t, s') →
        c.answerFrom text (byteLength before) fresh s = (.ok t, s')) ∧
      (∀ operand position s',
        (ofVocabulary v spacing).answerFrom (String.ofList rest) 0 false s =
            (.error (.danglingOperand operand position), s') →
          c.answerFrom text (byteLength before) fresh s =
            (.error (.danglingOperand operand (position + byteLength before)), s')) ∧
      (∀ position s',
        (ofVocabulary v spacing).answerFrom (String.ofList rest) 0 false s =
            (.error (.unclosedBracket position), s') →
          c.answerFrom text (byteLength before) fresh s =
            (.error (.unclosedBracket (position + byteLength before)), s')) ∧
      (v.Avoids ')' → ∀ position s',
        (ofVocabulary v spacing).answerFrom (String.ofList rest) 0 false s =
            (.error (.unexpectedCloseBracket position), s') →
          ∃ inner behind t left, rest = inner ++ ')' :: behind ∧ byteLength inner = position ∧
            (ofVocabulary v spacing).answerFrom (String.ofList inner) 0 false s = (.ok t, left) ∧
              c.answerFrom text (byteLength before) fresh s = (.ok t, left))) ∧
    ∀ t s', (ofVocabulary v spacing).answerFrom text 0 false s = (.ok t, s') →
      ∃ parsed, (Grammar.ofVocabulary v spacing).parse text 0 = .ok parsed ∧
        Id.run (parsed.fold.run s) = (t, s') ∧
        Forall₂ (fun position inner =>
            (∃ before behind, text.toList = before ++ '(' :: behind ∧ byteLength before = position) ∧
              ∀ start u left, Id.run (inner.fold.run start) = (u, left) →
                c.answerFrom text (position + 1) fresh start = (.ok u, left))
          ((Grammar.ofVocabulary v spacing).openings text) parsed.groups := by
  constructor
  · intro before rest split some
    refine ⟨?_, ?_, ?_, ?_⟩
    · exact fun t s' alone => answerFrom_of_ok grammar split some fresh alone
    · exact fun operand position s' alone => answerFrom_of_error grammar split some fresh alone nofun
    · exact fun position s' alone => answerFrom_of_error grammar split some fresh alone nofun
    · exact fun closing position s' alone => answerFrom_of_unmatched grammar split some fresh closing alone
  · intro t s' whole
    rw [ofVocabulary, answerFrom_ofGrammar] at whole
    obtain ⟨parsed, parses, folds⟩ := foldFrom_eq_ok.mp whole
    refine ⟨parsed, parses, folds, (Grammar.parse_groups parses).imp ?_⟩
    rintro position inner ⟨place, alone⟩
    refine ⟨place, fun start u left folds => ?_⟩
    rw [answerFrom_of_positive c text (Nat.succ_pos position), grammar, alone]
    exact foldFrom_eq_ok.mpr ⟨inner, rfl, folds⟩

/-- The first text has a bracket without a group behind the offset, the second a group in a group. -/
theorem answerFrom_suffix_groups :
    (∃ inner behind t left, "2 + next) é".toList = inner ++ ')' :: behind ∧ byteLength inner = 8 ∧
        (ofVocabulary .eager .always).answerFrom (String.ofList inner) 0 false 5 = (.ok t, left) ∧
          (ofVocabulary .eager .always).answerFrom "é + (2 + next) é" 6 true 5 = (.ok t, left)) ∧
      ∃ parsed, (Grammar.ofVocabulary .eager .always).parse "1 + (next + (2 + next))" 0 = .ok parsed ∧
        Forall₂ (fun position inner => ∀ start u left, Id.run (inner.fold.run start) = (u, left) →
            (ofVocabulary .eager .always).answerFrom "1 + (next + (2 + next))" (position + 1) false start =
              (.ok u, left))
          [4, 12] parsed.groups := by
  have grammar : (ofVocabulary .eager .always).grammar = .ofVocabulary .eager .always := rfl
  constructor
  · obtain ⟨_, _, _, unmatched⟩ := (answerFrom_suffix grammar true "é + (2 + next) é" 5).1
      ['é', ' ', '+', ' ', '('] "2 + next) é".toList rfl nofun
    exact unmatched (Vocabulary.eager_avoids (by decide) (by decide)) 8 _ rfl
  · obtain ⟨parsed, parses, _, groups⟩ :=
      (answerFrom_suffix grammar false "1 + (next + (2 + next))" 5).2 _ _ rfl
    exact ⟨parsed, parses, groups.imp fun _ _ group => group.2⟩

end Compiler

end Formula

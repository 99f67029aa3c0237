import Mathlib.Data.List.Nodup
import Formula.Proofs.Enclosing
import Formula.Proofs.Folding
import Formula.Proofs.Precedence
import Formula.Proofs.Spaced

/-!
# Combining

Values with binary operators between them are combined by precedence: the leftmost of the loosest
operators last. So is what stands in brackets when the brackets have operators between them.
-/

namespace Formula

variable {C : Type}

/-- The value of `first` with operators and further values behind it, each operator known by its place
in the list. -/
inductive Combines (ops : List (Operator Id C)) (context : Option C) :
    Value → List (Fin ops.length × Value) → Value → Prop where
  | single (v : Value) : Combines ops context v [] v
  | apply {first next a b : Value} {place : Fin ops.length} {before behind : List (Fin ops.length × Value)}
      (tighter : ∀ link ∈ before, link.1 < place) (noLooser : ∀ link ∈ behind, link.1 ≤ place)
      (left : Combines ops context first before a) (right : Combines ops context next behind b) :
      Combines ops context first (before ++ (place, next) :: behind) (ops[place].run [a, b] context)

/-- Whether a tree consists of these values, those of its operands that are not binary, with these
operators between them. -/
inductive Tree.Chain (ops : List (Operator Id C)) (context : Option C) :
    Tree Id C → Value → List (Fin ops.length × Value) → Prop where
  | atom {t : Tree Id C} {v : Value} (atom : t.IsAtom) (value : t.eval context = v) :
      Chain ops context t v []
  | binary {t u : Tree Id C} {first next : Value} {before behind : List (Fin ops.length × Value)}
      (place : Fin ops.length) (left : Chain ops context t first before)
      (right : Chain ops context u next behind) :
      Chain ops context (.binary ops[place] (place + 1) t u) first (before ++ (place, next) :: behind)

variable {ops : List (Operator Id C)} {context : Option C} {first v w : Value}
  {links : List (Fin ops.length × Value)} {t u : Tree Id C}

/-- Only one operator is the leftmost of the loosest. -/
theorem split_unique {before behind before' behind' : List (Fin ops.length × Value)}
    {link link' : Fin ops.length × Value} (same : before ++ link :: behind = before' ++ link' :: behind')
    (tighter : ∀ other ∈ before, other.1 < link.1) (noLooser : ∀ other ∈ behind, other.1 ≤ link.1)
    (tighter' : ∀ other ∈ before', other.1 < link'.1)
    (noLooser' : ∀ other ∈ behind', other.1 ≤ link'.1) :
    before = before' ∧ link = link' ∧ behind = behind' := by
  rcases List.append_eq_append_iff.mp same with ⟨between, split, rest⟩ | ⟨between, split, rest⟩
  · cases between with
    | nil => simp_all
    | cons other between =>
      rw [List.cons_append, List.cons.injEq] at rest
      have loose : link.1 < link'.1 := tighter' link (by simp [split, rest.1])
      have tight : link'.1 ≤ link.1 := noLooser link' (by simp [rest.2])
      exact absurd loose (Nat.not_lt.mpr tight)
  · cases between with
    | nil => simp_all
    | cons other between =>
      rw [List.cons_append, List.cons.injEq] at rest
      have loose : link'.1 < link.1 := tighter link' (by simp [split, rest.1])
      have tight : link.1 ≤ link'.1 := noLooser' link (by simp [rest.2])
      exact absurd loose (Nat.not_lt.mpr tight)

theorem Combines.unique (combines : Combines ops context first links v)
    (combines' : Combines ops context first links w) : v = w := by
  induction combines generalizing w with
  | single v =>
    generalize empty : ([] : List (Fin ops.length × Value)) = links at combines'
    cases combines' with
    | single => rfl
    | apply => simp at empty
  | @apply first next a b place before behind tighter noLooser left right leftIh rightIh =>
    generalize whole : before ++ (place, next) :: behind = links at combines'
    cases combines' with
    | single => simp at whole
    | apply tighter' noLooser' left' right' =>
      obtain ⟨rfl, link, rfl⟩ := split_unique whole tighter noLooser tighter' noLooser'
      cases link
      rw [leftIh left', rightIh right']

theorem Tree.Chain.priorities (chain : t.Chain ops context first links) :
    t.priorities = links.map fun link => link.1.val + 1 := by
  induction chain with
  | @atom t _ atom =>
    cases t with
    | binary => exact False.elim atom
    | _ => rfl
  | binary place left right leftIh rightIh =>
    rw [Tree.priorities, leftIh, rightIh, List.map_append, List.map_cons]

theorem Tree.Chain.combines (chain : t.Chain ops context first links) (grouped : t.Grouped) :
    Combines ops context first links (t.eval context) := by
  induction chain with
  | atom atom value =>
    rw [value]
    exact .single _
  | binary place left right leftIh rightIh =>
    obtain ⟨tighter, noLooser⟩ := grouped.root_loosest
    rw [left.priorities] at tighter
    rw [right.priorities] at noLooser
    refine .apply (fun link member => ?_) (fun link member => ?_) (leftIh grouped.2.2.1)
      (rightIh grouped.2.2.2)
    · exact Nat.lt_of_succ_lt_succ (tighter _ (List.mem_map_of_mem member))
    · exact Nat.le_of_succ_le_succ (noLooser _ (List.mem_map_of_mem member))

theorem Tree.Chain.append (chain : t.Chain ops context first links) (place : Fin ops.length)
    (atom : u.IsAtom) (value : u.eval context = v) :
    ((t.append ops[place] (place + 1)).fill u).Chain ops context first (links ++ [(place, v)]) := by
  induction chain with
  | @atom t _ alone first =>
    have single : (t.append ops[place] (place + 1)).fill u = .binary ops[place] (place + 1) t u := by
      cases t with
      | binary => exact False.elim alone
      | _ => rfl
    rw [single]
    exact .binary place (.atom alone first) (.atom atom value)
  | binary above left right leftIh rightIh =>
    rw [Tree.append]
    split
    · have below := Chain.binary above left rightIh
      rw [← List.cons_append, ← List.append_assoc] at below
      exact below
    · exact .binary place (.binary above left right) (.atom atom value)

/-- The first operator is applied last if none is looser. -/
theorem Combines.cons {place : Fin ops.length} {next : Value} {behind : List (Fin ops.length × Value)}
    (noLooser : ∀ link ∈ behind, link.1 ≤ place) (right : Combines ops context next behind v)
    (first : Value) :
    Combines ops context first ((place, next) :: behind) (ops[place].run [first, v] context) := by
  rw [← List.nil_append (_ :: behind)]
  exact .apply (by simp) noLooser (.single first) right

/-- Behind commas only, a list of the values, to which that of the last adds its items. -/
theorem Combines.commas {place : Fin ops.length}
    (comma : ∀ a b, ops[place].run [a, b] context = a.prepend b) (first : Value)
    (middle : List Value) (last : Value) :
    Combines ops context first ((middle ++ [last]).map fun v => (place, v))
      (.list (first :: middle ++ last.spliced)) := by
  induction middle generalizing first with
  | nil =>
    have combined : Combines ops context first [(place, last)] _ := .cons (by simp) (.single last) first
    rw [comma] at combined
    exact combined
  | cons next middle ih =>
    have noLooser : ∀ link ∈ (middle ++ [last]).map fun v => (place, v), link.1 ≤ place := by
      rw [List.forall_mem_map]
      exact fun _ _ => Fin.le_refl place
    have combined := Combines.cons noLooser (ih next) first
    rw [comma] at combined
    exact combined

/-! ## Texts in brackets -/

/-- Texts in brackets, with operators between them. -/
def chainText (ops : List (Operator Id C)) (first : String) :
    List (Fin ops.length × String) → String
  | [] => "(" ++ first ++ ")"
  | (place, next) :: rest =>
    "(" ++ first ++ ") " ++ ops[place].token ++ " " ++ chainText ops next rest

/-- What stands behind the first of them. -/
def linkChars (ops : List (Operator Id C)) : List (Fin ops.length × String) → List Char
  | [] => []
  | (place, next) :: rest =>
    ' ' :: (ops[place].token.toList ++
      ' ' :: ('(' :: (next.toList ++ [')']) ++ linkChars ops rest))

theorem toList_chainText (ops : List (Operator Id C)) (first : String)
    (links : List (Fin ops.length × String)) :
    (chainText ops first links).toList = '(' :: (first.toList ++ [')']) ++ linkChars ops links := by
  induction links generalizing first with
  | nil => simp [chainText, linkChars]
  | cons link rest ih => simp [chainText, linkChars, ih]

/-- The tree of a chain: each operator and each group is added at the end. -/
def Tree.join (ops : List (Operator Id C)) (trees : String → Tree Id C) (t : Tree Id C) :
    List (Fin ops.length × String) → Tree Id C
  | [] => t
  | (place, next) :: rest =>
    ((t.append ops[place] (place + 1)).fill (.group (trees next))).join ops trees rest

theorem Tree.Grouped.join {trees : String → Tree Id C} {links : List (Fin ops.length × String)}
    (grouped : t.Grouped) (inner : ∀ link ∈ links, (trees link.2).Grouped) :
    (t.join ops trees links).Grouped := by
  induction links generalizing t with
  | nil => exact grouped
  | cons link rest ih =>
    obtain ⟨here, later⟩ := List.forall_mem_cons.mp inner
    exact ih ((grouped.append _ _).fill here trivial) later

theorem Tree.Chain.join (chain : t.Chain ops context first links) (trees : String → Tree Id C)
    (more : List (Fin ops.length × String)) :
    (t.join ops trees more).Chain ops context first
      (links ++ more.map fun link => (link.1, Id.run ((trees link.2).eval context))) := by
  induction more generalizing t links with
  | nil =>
    rw [List.map_nil, List.append_nil]
    exact chain
  | cons link rest ih =>
    have joined := ih (chain.append link.1 (u := .group (trees link.2)) trivial rfl)
    rw [List.append_assoc] at joined
    exact joined

theorem Combines.join {trees : String → Tree Id C} {first : String}
    {links : List (Fin ops.length × String)}
    (grouped : ∀ text ∈ first :: links.map Prod.snd, (trees text).Grouped) (context : Option C) :
    Combines ops context ((trees first).eval context)
      (links.map fun link => (link.1, Id.run ((trees link.2).eval context)))
      (((Tree.group (trees first)).join ops trees links).eval context) := by
  obtain ⟨here, later⟩ := List.forall_mem_cons.mp grouped
  rw [List.forall_mem_map] at later
  have start : (Tree.group (trees first)).Grouped := here
  have chain : (Tree.group (trees first)).Chain ops context ((trees first).eval context) [] :=
    .atom trivial rfl
  exact (chain.join trees links).combines (start.join later)

theorem read_links {v : Vocabulary Id C} (tidy : v.Tidy) (spacing : Spacing)
    {trees : String → Tree Id C} {links : List (Fin v.binary.length × String)}
    (reads : ∀ link ∈ links, ∀ behind, (Grammar.ofVocabulary v spacing).ReadsAs
      ('(' :: (link.2.toList ++ [')'])) (.group (trees link.2)) behind) (t : Tree Id C) (start : Nat) :
    (Grammar.ofVocabulary v spacing).read false ⟨[], .complete t⟩ (.startingAt true start)
      (linkChars v.binary links) = .ok (t.join v.binary trees links) := by
  induction links generalizing t start with
  | nil => rfl
  | cons link rest ih =>
    obtain ⟨place, next⟩ := link
    obtain ⟨here, later⟩ := List.forall_mem_cons.mp reads
    obtain ⟨entry, member, rfl⟩ : ∃ entry ∈ Entry.table v.binary, entry = Entry.ofOperator
        (v.binary.map fun op => op.token.toList) v.binary[place] place :=
      ⟨_, Entry.mem_table.mpr ⟨_, _, List.getElem?_eq_getElem place.isLt, rfl⟩, rfl⟩
    have blankFree := Grammar.ofVocabulary_avoids (tidy.blank ' ' rfl) spacing
    obtain ⟨position, operator⟩ := Scan.read_operator tidy.clear (tidy.stands member) t [] start
      ('(' :: (next.toList ++ [')']) ++ linkChars v.binary rest)
    obtain ⟨start, group⟩ := (here (linkChars v.binary rest)).behind_blank blankFree false []
      (t.append v.binary[place] (place + 1)) (s := .startingAt false position) rfl rfl
    exact operator.trans (group.trans (ih later _ start))

/-- The tree of texts in brackets, each of which has a tree with brackets and without. -/
theorem parse_chainText {v : Vocabulary Id C} (tidy : v.Tidy) (spacing : Spacing)
    {trees : String → Tree Id C} {first : String} {links : List (Fin v.binary.length × String)}
    (alone : ∀ text ∈ first :: links.map Prod.snd,
      (Grammar.ofVocabulary v spacing).parse text 0 = .ok (trees text))
    (enclosed : ∀ text ∈ first :: links.map Prod.snd,
      ∃ t, (Grammar.ofVocabulary v spacing).parse ("(" ++ text ++ ")") 0 = .ok t) :
    (Grammar.ofVocabulary v spacing).parse (chainText v.binary first links) 0 =
      .ok ((Tree.group (trees first)).join v.binary trees links) := by
  have opening := Grammar.ofVocabulary_avoids tidy.opening spacing
  have closing := Grammar.ofVocabulary_avoids tidy.closing spacing
  have reads : ∀ text ∈ first :: links.map Prod.snd, ∀ behind, (Grammar.ofVocabulary v spacing).ReadsAs
      ('(' :: (text.toList ++ [')'])) (.group (trees text)) behind := by
    intro text member
    have bare := alone text member
    obtain ⟨t, brackets⟩ := enclosed text member
    rw [Grammar.parse_zero] at bare brackets
    simp only [String.toList_append] at brackets
    exact Grammar.reads_enclosed opening closing bare brackets
  obtain ⟨here, later⟩ := List.forall_mem_cons.mp reads
  rw [List.forall_mem_map] at later
  obtain ⟨start, group⟩ := here (linkChars v.binary links) false [] .hole _ (Scan.fresh_startingAt 0)
  rw [Grammar.parse_zero, toList_chainText]
  exact group.trans (read_links tidy spacing later _ start)

/-! ## The built-in operators -/

theorem Vocabulary.run_comma (host : Host) {op : Operator Id C} (member : op ∈ (builtin host).binary)
    (comma : op.token = ",") (context : Option C) (a b : Value) :
    op.run [a, b] context = a.prepend b := by
  have listed : (pureBinary "," Value.prepend : Operator Id C).withFoldable true ∈
      (builtin host).binary := by simp [builtin]
  have same : op.token.toList = ((pureBinary "," Value.prepend : Operator Id C).withFoldable true).token.toList :=
    congrArg String.toList comma
  rw [List.inj_on_of_nodup_map (builtin_spelled host).tidy.distinct member listed same]
  rfl

/-- Texts in brackets with built-in operators between them have a tree. Its value is that of the
operators, by precedence, applied to the values of the texts. With commas it is the list of the
values, to which that of the last adds its items. -/
theorem Compiler.combines_enclosed (host : Host) (spacing : Spacing) (first : String)
    (links : List (Fin (Vocabulary.builtin host : Vocabulary Id C).binary.length × String))
    (trees : String → Tree Id C)
    (alone : ∀ text ∈ first :: links.map Prod.snd,
      (Compiler.standard host ⟨[], [], []⟩ spacing).answer text = .ok (trees text))
    (enclosed : ∀ text ∈ first :: links.map Prod.snd, ∃ t : Tree Id C,
      (Compiler.standard host ⟨[], [], []⟩ spacing).answer ("(" ++ text ++ ")") = .ok t) :
    ∃ t : Tree Id C,
      (Compiler.standard host ⟨[], [], []⟩ spacing).answer
          (chainText (Vocabulary.builtin host).binary first links) = .ok t ∧
        ∀ context,
          (∀ v, Combines (Vocabulary.builtin host).binary context ((trees first).eval context)
            (links.map fun link => (link.1, Id.run ((trees link.2).eval context))) v ↔
              v = t.eval context) ∧
          ∀ comma middle last, (Vocabulary.builtin host : Vocabulary Id C).binary[comma].token = "," →
            links = (middle ++ [last]).map (fun text => (comma, text)) →
              t.eval context = .list
                ((first :: middle).map (fun text => Id.run ((trees text).eval context)) ++
                  Value.spliced ((trees last).eval context)) := by
  have ignore := Vocabulary.builtin_ignoresContext (C := C) host
  have tidy := (Vocabulary.builtin_spelled (m := Id) (C := C) host).tidy
  simp only [standard_eq] at *
  have parsed : ∀ text ∈ first :: links.map Prod.snd, ∃ parsed,
      (Grammar.ofVocabulary (.builtin host) spacing).parse text 0 = .ok parsed ∧
        ∀ context, (trees text).eval context = parsed.eval context := by
    intro text member
    obtain ⟨parsed, parses, _, value⟩ := (answer_ofVocabulary_eq_ok ignore).mp (alone text member)
    exact ⟨parsed, parses, value⟩
  have brackets : ∀ text ∈ first :: links.map Prod.snd, ∃ t : Tree Id C,
      (Grammar.ofVocabulary (.builtin host) spacing).parse ("(" ++ text ++ ")") 0 = .ok t := by
    intro text member
    obtain ⟨t, answer⟩ := enclosed text member
    obtain ⟨parsed, parses, _⟩ := (answer_ofVocabulary_eq_ok ignore).mp answer
    exact ⟨parsed, parses⟩
  choose! bare parses value using parsed
  have whole := parse_chainText tidy spacing parses brackets
  obtain ⟨t, answer⟩ : ∃ t, (Compiler.ofVocabulary (.builtin host) spacing).answer
      (chainText (Vocabulary.builtin host).binary first links) = .ok t :=
    ⟨_, answer_ofGrammar_eq_ok.mpr ⟨_, whole, rfl⟩⟩
  obtain ⟨joined, joins, _, same⟩ := (answer_ofVocabulary_eq_ok ignore).mp answer
  obtain rfl : _ = joined := Except.ok.inj (whole.symm.trans joins)
  refine ⟨t, answer, fun context => ?_⟩
  have combines : Combines (Vocabulary.builtin host).binary context ((trees first).eval context)
      (links.map fun link => (link.1, Id.run ((trees link.2).eval context)))
      (t.eval context) := by
    have values : links.map (fun link => (link.1, Id.run ((trees link.2).eval context))) =
        links.map fun link => (link.1, Id.run ((bare link.2).eval context)) := by
      refine List.map_congr_left fun link member => ?_
      rw [value link.2 (List.mem_cons_of_mem _ (List.mem_map_of_mem member)) context]
    rw [same context, value first (List.mem_cons_self ..) context, values]
    exact .join (fun text member => (Grammar.parse_items (parses text member)).1) context
  refine ⟨fun v => ⟨fun other => other.unique combines, fun equal => equal ▸ combines⟩, ?_⟩
  rintro comma middle last token rfl
  have links : ((middle ++ [last]).map fun text => (comma, text)).map
        (fun link => (link.1, Id.run ((trees link.2).eval context))) =
      (middle.map (fun text => Id.run ((trees text).eval context)) ++
        [Id.run ((trees last).eval context)]).map fun v => (comma, v) := by simp
  rw [links] at combines
  have prepends := Vocabulary.run_comma host (List.getElem_mem comma.isLt) token context
  exact combines.unique (.commas prepends _ _ _)

/-- A compiler of the built-in operators, for a host that has nothing to look up. -/
def Compiler.hostless (spacing : Spacing) : Compiler Id Unit :=
  .standard ⟨fun _ _ => .absent⟩ ⟨[], [], []⟩ spacing

/-- The first text is a quoted bracket. -/
theorem Compiler.combines_enclosed_bracket :
    ∃ t u v : Tree Id Unit,
      (hostless .always).answer "')'" = .ok t ∧ (hostless .always).answer "a + b" = .ok u ∧
        (hostless .always).answer "(')') , (a + b)" = .ok v ∧
        v.eval none = .list (t.eval none :: Value.spliced (u.eval none)) := by
  have answers : ∀ text ∈ ["')'", "a + b"], ∃ t, (hostless .always).answer text = .ok t ∧
      ∃ u, (hostless .always).answer ("(" ++ text ++ ")") = .ok u := by
    simp only [List.forall_mem_cons, List.not_mem_nil, false_imp_iff, implies_true, and_true,
      String.reduceAppend]
    exact ⟨⟨_, rfl, _, rfl⟩, ⟨_, rfl, _, rfl⟩⟩
  choose! trees alone others enclosed using answers
  let comma : Fin (Vocabulary.builtin ⟨fun _ _ => .absent⟩ : Vocabulary Id Unit).binary.length :=
    ⟨16, Nat.lt_succ_self 16⟩
  obtain ⟨v, answer, values⟩ := combines_enclosed ⟨fun _ _ => .absent⟩ .always "')'"
    [(comma, "a + b")] trees alone fun text member => ⟨_, enclosed text member⟩
  have list := (values none).2 comma [] "a + b" rfl rfl
  exact ⟨trees "')'", trees "a + b", v, alone _ (by simp), alone _ (by simp), answer, list⟩

end Formula

import Formula.Proofs.Folded
import Formula.Proofs.Spelling

/-!
# Words beside the built-in operators

Operators that are spelled with letters can stand beside the built-in ones. Where words have to be separated, a
word is recognized in no other token, so the text of a folded tree is compiled again. It has the value of the tree
unless a number with a point stands where the point is taken for an operator: before another point, and now
also behind a word that is not applied ahead.
-/

namespace Formula

variable {m : Type → Type} {C : Type}

/-! ## Letters -/

theorem isAlpha_of_isDigit {c : Char} (digit : c.isDigit) : c.isAlpha = false := by
  cases letter : c.isAlpha with
  | false => rfl
  | true =>
    have number : 48 ≤ c.toNat ∧ c.toNat ≤ 57 := by
      simpa [Char.isDigit, UInt32.le_iff_toNat_le] using digit
    have place : (65 ≤ c.toNat ∧ c.toNat ≤ 90) ∨ (97 ≤ c.toNat ∧ c.toNat ≤ 122) := by
      simpa [Char.isAlpha, Char.isUpper, Char.isLower, UInt32.le_iff_toNat_le] using letter
    omega

def OfLetters (text : List Char) : Prop :=
  ∀ c ∈ text, c.isAlpha

namespace OfLetters

variable {text part before later : List Char}

theorem subset (letters : OfLetters text) (within : part ⊆ text) : OfLetters part :=
  fun c inside => letters c (within inside)

theorem isAlphanum (letters : OfLetters text) {c : Char} (inside : c ∈ text) : c.isAlphanum := by
  rw [Char.isAlphanum, letters c inside, Bool.true_or]

theorem not_mem (letters : OfLetters text) {c : Char} (other : c.isAlpha = false) : c ∉ text := by
  intro inside
  rw [letters c inside] at other
  cases other

theorem isWord (letters : OfLetters text) (some : text ≠ []) : Formula.isWord text := by
  rw [Formula.isWord, Bool.and_eq_true, Bool.not_eq_true', List.isEmpty_eq_false_iff, List.all_eq_true]
  exact ⟨some, fun _ => letters.isAlphanum⟩

theorem head (letters : OfLetters text) (some : text ≠ []) : text.head?.any Char.isAlphanum := by
  obtain ⟨c, rest, rfl⟩ := List.exists_cons_of_ne_nil some
  exact letters.isAlphanum (List.mem_cons_self ..)

end OfLetters

/-! ## Vocabularies of words -/

namespace Vocabulary

/-- The tokens of all operators. -/
def tokens (v : Vocabulary m C) : List String :=
  (v.binary ++ v.unary ++ v.constants).map Operator.token

/-- Whether the tokens of a vocabulary consist of ASCII letters and can be told from each other, from those of
`others` and from the name of a number. -/
structure WordsBeside (v others : Vocabulary m C) : Prop where
  letters : ∀ token ∈ v.tokens, ∀ c ∈ token.toList, c.isAlpha
  distinct : v.tokens.Nodup
  apart : ∀ token ∈ v.tokens, token ∉ others.tokens
  number : "Infinity" ∉ v.tokens

section

variable {v : Vocabulary m C} {op : Operator m C}

theorem token_mem_of_binary (listed : op ∈ v.binary) : op.token ∈ v.tokens :=
  List.mem_map_of_mem (List.mem_append_left _ (List.mem_append_left _ listed))

theorem token_mem_of_prefixed (listed : op ∈ v.constants ++ v.unary) : op.token ∈ v.tokens := by
  rcases List.mem_append.mp listed with constant | unary
  · exact List.mem_map_of_mem (List.mem_append_right _ constant)
  · exact List.mem_map_of_mem (List.mem_append_left _ (List.mem_append_right _ unary))

theorem mem_prefixes_append {w : Vocabulary m C}
    (listed : op ∈ (v.append w).constants ++ (v.append w).unary) :
    op ∈ v.constants ++ v.unary ∨ op ∈ w.constants ++ w.unary := by
  simp only [append, List.mem_append] at listed ⊢
  tauto

end

namespace SpelledAsBuiltin

variable {v : Vocabulary m C} {op : Operator m C}

/-- A built-in token before an operand that starts with a letter is a word. -/
theorem ofLetters (spelled : v.SpelledAsBuiltin) (listed : op ∈ v.constants ++ v.unary)
    (first : op.token.toList.head?.any Char.isAlpha) : OfLetters op.token.toList := by
  have tokens : ∀ token ∈ v.constants.map Operator.token ++ v.unary.map Operator.token,
      token.toList.head?.any Char.isAlpha → token.toList.all Char.isAlpha := by
    rw [spelled.constants, spelled.unary]
    decide
  rw [← List.map_append] at tokens
  exact List.all_eq_true.mp (tokens _ (List.mem_map_of_mem listed) first)

end SpelledAsBuiltin

namespace WordsBeside

variable {v others : Vocabulary m C} {op other : Operator m C}

theorem ofLetters_binary (words : v.WordsBeside others) (listed : op ∈ v.binary) : OfLetters op.token.toList :=
  words.letters _ (token_mem_of_binary listed)

theorem ofLetters (words : v.WordsBeside others) (listed : op ∈ v.constants ++ v.unary) :
    OfLetters op.token.toList :=
  words.letters _ (token_mem_of_prefixed listed)

theorem avoids (words : v.WordsBeside others) {c : Char} (other : c.isAlpha = false) : v.Avoids c :=
  ⟨fun _ binary => (words.ofLetters_binary binary).not_mem other,
    fun _ unary => (words.ofLetters (List.mem_append_right _ unary)).not_mem other,
    fun _ constant => (words.ofLetters (List.mem_append_left _ constant)).not_mem other⟩

theorem clear (words : v.WordsBeside others) : v.Clear where
  blank c blank := by
    have other := isAlphanum_of_isBlank blank
    rw [Char.isAlphanum, Bool.or_eq_false_iff] at other
    exact words.avoids other.1
  opening := words.avoids (by decide)
  closing := words.avoids (by decide)
  quote c marks := by
    simp only [isQuote, Bool.or_eq_true, beq_iff_eq] at marks
    rcases marks with rfl | rfl
    · exact words.avoids (by decide)
    · exact words.avoids (by decide)

/-- A table of words behind another one has no token twice if that has none. -/
theorem nodup_append (words : v.WordsBeside others) {ops table : List (Operator m C)}
    (first : (ops.map fun op => op.token.toList).Nodup) (among : ∀ op ∈ ops, op.token ∈ others.tokens)
    (sub : (table.map Operator.token).Sublist v.tokens) :
    ((ops ++ table).map fun op => op.token.toList).Nodup := by
  have second : (table.map fun op => op.token.toList).Nodup := by
    rw [map_toList_token]
    exact (sub.nodup words.distinct).map fun _ _ => String.toList_inj.mp
  rw [List.map_append]
  refine List.nodup_append.mpr ⟨first, second, ?_⟩
  rintro _ there _ here rfl
  obtain ⟨op, listed, token⟩ := List.mem_map.mp there
  obtain ⟨word, listed', token'⟩ := List.mem_map.mp here
  have same : op.token = word.token := String.toList_inj.mp (token.trans token'.symm)
  refine words.apart word.token (sub.subset (List.mem_map_of_mem listed')) ?_
  rw [← same]
  exact among op listed

/-! ### Beside the built-in operators -/

section

variable {base custom : Vocabulary m C} (spelled : base.SpelledAsBuiltin) (words : custom.WordsBeside base)

include spelled words

theorem avoids_digit {c : Char} (digit : c.isDigit) : (base.append custom).Avoids c :=
  (spelled.avoids_digit digit).append (words.avoids (isAlpha_of_isDigit digit))

theorem stands {entry : Entry m C} (member : entry ∈ Entry.table (base.append custom).binary)
    (some : entry.token ≠ []) :
    (Grammar.ofVocabulary (base.append custom) .wordsOnly).Stands entry := by
  have distinct : ((base.binary ++ custom.binary).map fun op => op.token.toList).Nodup := by
    refine words.nodup_append spelled.tidy.distinct (fun _ => token_mem_of_binary) ?_
    exact ((List.sublist_append_left ..).trans (List.sublist_append_left ..)).map _
  refine ⟨some, ?_, fun other listed before behind split start last some' => ?_⟩
  · refine find?_eq_some_of_only member (beq_self_eq_true _) fun other listed same => ?_
    exact Entry.eq_of_token_eq distinct listed member (beq_iff_eq.mp same)
  · have token := Entry.token_of_mem_table listed
    have token' := Entry.token_of_mem_table member
    have letters : OfLetters other.token := by
      rcases List.mem_append.mp (Entry.op_mem_of_mem_table listed) with here | word
      · rcases List.mem_append.mp (Entry.op_mem_of_mem_table member) with here' | word
        · -- No built-in token stands inside another.
          have inside := spelled.tidy.apart _ (List.mem_map_of_mem here') _ (List.mem_map_of_mem here) before behind
            (by rw [← token, ← token', split])
          exact absurd inside (not_or.mpr ⟨start, last⟩)
        · have letters := words.ofLetters_binary word
          rw [← token', split] at letters
          exact letters.subset (by simp)
      · rw [token]
        exact words.ofLetters_binary word
    rw [Entry.word_of_mem_table listed]
    exact letters.isWord some'

theorem starting (listed : op ∈ (base.append custom).constants ++ (base.append custom).unary)
    (listed' : other ∈ (base.append custom).constants ++ (base.append custom).unary) {later : List Char}
    (split : op.token.toList = other.token.toList ++ later) (some : other.token.toList ≠ []) (more : later ≠ []) :
    isWord other.token.toList ∧ later.head?.any Char.isAlphanum := by
  have whole : OfLetters op.token.toList → isWord other.token.toList ∧ later.head?.any Char.isAlphanum := by
    intro letters
    rw [split] at letters
    exact ⟨(letters.subset (List.subset_append_left ..)).isWord some,
      (letters.subset (List.subset_append_right ..)).head more⟩
  rcases mem_prefixes_append listed with here | word
  · rcases mem_prefixes_append listed' with here' | word
    · exact (spelled.legible .wordsOnly).starting op here other here' later split some more
    · -- A word starts with a letter, and so does the built-in token that it starts.
      refine whole (spelled.ofLetters here ?_)
      obtain ⟨c, rest, token⟩ := List.exists_cons_of_ne_nil some
      rw [split, token]
      exact words.ofLetters word c (by simp [token])
  · exact whole (words.ofLetters word)

theorem intact (listed : op ∈ (base.append custom).constants ++ (base.append custom).unary) :
    (base.append custom).Intact .wordsOnly op.token := by
  intro other member before later split start some last
  rcases List.mem_append.mp member with here | word
  · rcases mem_prefixes_append listed with here' | word
    · have whole : base.Intact .wordsOnly op.token := spelled.intact here' nofun
      exact whole other here before later split start some last
    · have letters := words.ofLetters word
      rw [split] at letters
      exact (letters.subset (by simp)).isWord some
  · exact (words.ofLetters_binary word).isWord some

theorem numbers {n : Binary64} (number : n ≠ .nan) (admits : Spacing.wordsOnly.Admits n)
    (listed : op ∈ (base.append custom).constants ++ (base.append custom).unary) {later : List Char}
    (split : Numeral.write n = op.token.toList ++ later) (some : op.token.toList ≠ []) :
    isWord op.token.toList ∧ later.head?.any Char.isAlphanum := by
  rcases mem_prefixes_append listed with here | word
  · exact (spelled.legible .wordsOnly).number n number admits op here later split some
  have letters := words.ofLetters word
  refine ⟨letters.isWord some, ?_⟩
  rcases admits with always | are | ⟨infinity, _⟩
  · cases always
  · obtain ⟨c, rest, token⟩ := List.exists_cons_of_ne_nil some
    have digit := are c (by simp [split, token])
    exact absurd (by simp [token]) (letters.not_mem (isAlpha_of_isDigit digit))
  · have name : OfLetters "Infinity".toList := List.all_eq_true.mp (by decide)
    rw [← infinity, split] at name
    refine (name.subset (List.subset_append_right ..)).head ?_
    rintro rfl
    rw [List.append_nil, infinity] at split
    refine words.number ?_
    rw [String.toList_inj.mp split]
    exact token_mem_of_prefixed word

theorem legible : (base.append custom).Legible .wordsOnly where
  clear := spelled.tidy.clear.append words.clear
  digits _ := words.avoids_digit spelled
  stands _ := words.stands spelled
  constants := by
    refine words.nodup_append (spelled.legible .wordsOnly).constants (fun _ constant => ?_) ?_
    · exact token_mem_of_prefixed (List.mem_append_left _ constant)
    · exact (List.sublist_append_right ..).map _
  unary := by
    refine words.nodup_append (spelled.legible .wordsOnly).unary (fun _ unary => ?_) ?_
    · exact token_mem_of_prefixed (List.mem_append_right _ unary)
    · exact ((List.sublist_append_right ..).trans (List.sublist_append_left ..)).map _
  apart op constant other unary same := by
    have token : op.token = other.token := String.toList_inj.mp same
    rcases List.mem_append.mp constant with here | word
    · rcases List.mem_append.mp unary with here' | word
      · exact (spelled.legible .wordsOnly).apart op here other here' same
      · refine words.apart other.token (token_mem_of_prefixed (List.mem_append_right _ word)) ?_
        rw [← token]
        exact token_mem_of_prefixed (List.mem_append_left _ here)
    · rcases List.mem_append.mp unary with here | word'
      · refine words.apart op.token (token_mem_of_prefixed (List.mem_append_left _ word)) ?_
        rw [token]
        exact token_mem_of_prefixed (List.mem_append_right _ here)
      · have distinct := words.distinct
        rw [tokens, List.map_append, List.nodup_append] at distinct
        refine distinct.2.2 _ ?_ _ (List.mem_map_of_mem word) token.symm
        exact List.mem_map_of_mem (List.mem_append_right _ word')
  starting _ listed _ listed' _ split := words.starting spelled listed listed' split
  intact _ constant _ := words.intact spelled (List.mem_append_left _ constant)
  intactUnary _ unary := words.intact spelled (List.mem_append_right _ unary)
  number _ number admits _ listed _ split := words.numbers spelled number admits listed split
  point := by
    have point := (spelled.legible .wordsOnly).point
    rw [Option.map_eq_some_iff] at point ⊢
    obtain ⟨op, first, token⟩ := point
    exact ⟨op, by rw [append, List.head?_append, first, Option.some_or], token⟩
  pointed := by
    intro op member inside
    rcases List.mem_append.mp member with here | word
    · exact (spelled.legible .wordsOnly).pointed op here inside
    · exact absurd inside ((words.ofLetters_binary word).not_mem (by decide))

end

end WordsBeside

theorem exists_mem_append_left {ops others : List (Operator m C)} {P : Operator m C → Prop}
    (found : ∃ op ∈ ops, P op) : ∃ op ∈ ops ++ others, P op := by
  obtain ⟨op, listed, holds⟩ := found
  exact ⟨op, List.mem_append_left _ listed, holds⟩

theorem Restores.append {v w : Vocabulary Id C} {host : Host} (restores : v.Restores host)
    (others : ∀ op ∈ w.binary, op.token ≠ ".") : (v.append w).Restores host where
  joined := exists_mem_append_left restores.joined
  number := exists_mem_append_left restores.number
  point op member point := by
    rcases List.mem_append.mp member with here | other
    · exact restores.point op here point
    · exact absurd point (others op other)
  minus := exists_mem_append_left restores.minus
  json := exists_mem_append_left restores.json
  constants value listed := exists_mem_append_left (restores.constants value listed)

end Vocabulary

/-! ## Folded trees -/

/-- Whether no leaf of the tree is a callable. -/
def Tree.holdsData : Tree Id C → Bool
  | .leaf value => value.isData
  | .constant _ => true
  | .unary _ operand => operand.holdsData
  | .group inner => inner.holdsData
  | .binary _ _ left right => left.holdsData && right.holdsData

/-- Folding leaves operators of the vocabulary, and what it puts into leaves. -/
theorem Tree.MadeOf.written_fold {v : Vocabulary Id C} {spacing : Spacing} {t : Tree Id C}
    (made : t.MadeOf (Grammar.ofVocabulary v spacing).parts) (data : (Id.run t.fold).holdsData) :
    (Id.run t.fold).MadeOf v.written := by
  have ahead : ∀ u : Tree Id C, u.isFoldable → (Id.run u.fold).holdsData → (Id.run u.fold).MadeOf v.written := by
    intro u foldable data
    rw [Tree.fold_of_isFoldable foldable] at data ⊢
    exact data
  induction t with
  | leaf value => exact data
  | constant op =>
    by_cases foldable : op.foldable
    · exact ahead (.constant op) foldable data
    · obtain ⟨entry, member, named, same, _⟩ := made
      rw [Tree.fold, if_neg foldable]
      exact ⟨entry, member, named, same⟩
  | unary op operand ih =>
    by_cases foldable : (Tree.unary op operand).isFoldable
    · exact ahead _ foldable data
    · rw [Tree.fold, if_neg foldable] at data ⊢
      exact ⟨made.1, ih made.2 data⟩
  | group inner ih =>
    by_cases foldable : inner.isFoldable
    · exact ahead (.group inner) foldable data
    · rw [Tree.fold, if_neg foldable] at data ⊢
      exact ih made data
  | binary op priority left right leftIh rightIh =>
    by_cases foldable : (Tree.binary op priority left right).isFoldable
    · exact ahead _ foldable data
    · rw [Tree.fold, if_neg foldable] at data ⊢
      obtain ⟨onLeft, onRight⟩ := Bool.and_eq_true_iff.mp data
      exact ⟨made.1, leftIh made.2.1 onLeft, rightIh made.2.2 onRight⟩

namespace Compiler

/-- Beside words that do not look at the context, the text of a folded tree can be compiled again, also by the
compiler that remembers the tree. It has the value of the tree if no number with a point is the left operand of the
operator that joins digits or the operand of a unary one, and lists and maps survive their JSON text. -/
theorem recompiles_worded (host : Host) {custom : Vocabulary Id C}
    (words : custom.WordsBeside (.builtin host)) (ignore : custom.All Operator.IgnoresContext)
    (text : String) (t : Tree Id C) (compiled : (Compiler.standard host custom .wordsOnly).answer text = .ok t)
    (data : t.holdsData) :
    ∃ u : Tree Id C, (Compiler.standard host custom .wordsOnly).answer t.expr = .ok u ∧
      (Id.run ((Compiler.standard host custom .wordsOnly).compile text)).2.answer t.expr = .ok u ∧
        (t.Restorable → t.Unprefixed → ∀ context, u.eval context = t.eval context) := by
  have spelled := Vocabulary.builtin_spelled (m := Id) (C := C) host
  have all := (Vocabulary.builtin_ignoresContext host).append ignore
  have restores := (Vocabulary.builtin_restores host).append fun op word point => by
    have letters := words.ofLetters_binary word
    rw [point] at letters
    exact letters.not_mem (c := '.') rfl (by decide)
  obtain ⟨parsed, parses, rfl, _⟩ := (answer_ofVocabulary_eq_ok all).mp compiled
  exact ((Grammar.parse_madeOf parses).written_fold data).exists_answer (words.legible spelled) restores all text

end Compiler

/-- A word that writes its operand down, and one that puts two together. Neither is applied ahead. -/
def Vocabulary.jotting : Vocabulary Id Unit where
  binary := [pureBinary "with" fun a b => .list [a, b]]
  unary := [pureUnary "f" fun v => .string ("f<" ++ v.text ++ ">")]

theorem Vocabulary.jotting_wordsBeside (host : Host) : jotting.WordsBeside (.builtin host) := by
  have tokens : jotting.tokens = ["with", "f"] := rfl
  have letters : ∀ token ∈ ["with", "f"], token.toList.all Char.isAlpha := by decide
  have others : (builtin host : Vocabulary Id Unit).tokens =
      [".", "*", "/", "+", "-", "^", "@", "in", "=", "!=", ">", "<", ">=", "<=", "&", "|", ",", "!", "+", "-", "sl",
        "JSON", "false", "true", "null", "undefined"] := rfl
  constructor
  · rw [tokens]
    exact fun token listed => List.all_eq_true.mp (letters token listed)
  · rw [tokens]
    decide
  · rw [tokens, others]
    decide
  · rw [tokens]
    decide

theorem Vocabulary.jotting_ignoresContext : jotting.All Operator.IgnoresContext :=
  ⟨List.forall_mem_singleton.mpr fun _ _ => rfl, List.forall_mem_singleton.mpr fun _ _ => rfl, nofun⟩

namespace Compiler

/-- The operand of the first word is folded, the words stay. -/
theorem recompiles_worded_jotting :
    ∃ t u : Tree Id Unit,
      (standard ⟨fun _ _ => .absent⟩ .jotting .wordsOnly).answer "f (! true) with null" = .ok t ∧
        t.expr = "((f false) with null)" ∧
          (standard ⟨fun _ _ => .absent⟩ .jotting .wordsOnly).answer t.expr = .ok u ∧
            ∀ context, u.eval context = t.eval context := by
  let f : Operator Id Unit := Vocabulary.pureUnary "f" fun v => .string ("f<" ++ v.text ++ ">")
  let both : Operator Id Unit := Vocabulary.pureBinary "with" fun a b => .list [a, b]
  let t : Tree Id Unit := .binary both 18 (.unary f (.leaf (.bool false))) (.leaf .null)
  have compiled : (standard ⟨fun _ _ => .absent⟩ .jotting .wordsOnly).answer "f (! true) with null" = .ok t := rfl
  have text : t.expr = "((f false) with null)" := by decide
  have restorable : t.Restorable := ⟨fun _ => rfl, trivial, trivial⟩
  have unprefixed : t.Unprefixed := ⟨⟨rfl, trivial⟩, trivial⟩
  obtain ⟨u, again, _, same⟩ := recompiles_worded ⟨fun _ _ => .absent⟩ (Vocabulary.jotting_wordsBeside _)
    Vocabulary.jotting_ignoresContext _ t compiled rfl
  exact ⟨t, u, compiled, text, again, same restorable unprefixed⟩

/-- A word before a number with a point gets the digits before the point alone: what was a text becomes absent. -/
theorem prefixed_not_restored :
    (Vocabulary.jotting.WordsBeside (.builtin ⟨fun _ _ => .absent⟩) ∧
      Vocabulary.jotting.All Operator.IgnoresContext) ∧
      ∃ t u : Tree Id Unit, (standard ⟨fun _ _ => .absent⟩ .jotting .wordsOnly).answer "f (1/2)" = .ok t ∧
        t.holdsData ∧ t.expr = "(f 0.5)" ∧
          (standard ⟨fun _ _ => .absent⟩ .jotting .wordsOnly).answer t.expr = .ok u ∧
            Value.same (u.eval none) (t.eval none) = false := by
  refine ⟨⟨Vocabulary.jotting_wordsBeside _, Vocabulary.jotting_ignoresContext⟩, ?_⟩
  have run : (((standard ⟨fun _ _ => .absent⟩ .jotting .wordsOnly).answer "f (1/2)").toOption.any fun t =>
      ((standard ⟨fun _ _ => .absent⟩ .jotting .wordsOnly).answer "(f 0.5)").toOption.any fun u =>
        t.holdsData && t.expr == "(f 0.5)" && !Value.same (u.eval none) (t.eval none)) = true := by
    decide +kernel
  generalize (standard ⟨fun _ _ => .absent⟩ .jotting .wordsOnly).answer "f (1/2)" = compiled at run
  generalize again : (standard ⟨fun _ _ => .absent⟩ .jotting .wordsOnly).answer "(f 0.5)" = recompiled at run
  rcases compiled with _ | t
  · cases run
  rcases recompiled with _ | u
  · cases run
  change (t.holdsData && t.expr == "(f 0.5)" && !Value.same (u.eval none) (t.eval none)) = true at run
  rw [Bool.and_eq_true, Bool.and_eq_true, beq_iff_eq, Bool.not_eq_true'] at run
  obtain ⟨⟨data, text⟩, differ⟩ := run
  exact ⟨t, u, rfl, data, text, by rw [text, again], differ⟩

end Compiler

end Formula

import Mathlib.Data.Finset.Card
import Mathlib.Data.List.Nodup
import Formula.Proofs.Offsets
import Formula.Proofs.Remembering

/-!
# Sessions

What a compiler answers over any run of requests. It remembers trees and closures of whole texts, and
no answer depends on what it remembers.
-/

namespace Formula

/-! ## Stores -/

namespace Store

variable {α : Type} {store : Store α} {given : List (String × α)} {key : String} {value : α}

/-- Whether a store keeps exactly what has been given for its keys, once each. -/
structure Keeps (store : Store α) (given : List (String × α)) : Prop where
  distinct : (store.entries.map Prod.fst).Nodup
  get?_eq_some : ∀ key value, store.get? key = some value ↔ (key, value) ∈ given

theorem keeps_empty : (empty : Store α).Keeps [] :=
  ⟨.nil, fun _ _ => ⟨nofun, nofun⟩⟩

/-- What is kept may be given again. -/
theorem Keeps.again (keeps : store.Keeps given) (kept : store.get? key = some value) :
    store.Keeps ((key, value) :: given) := by
  refine ⟨keeps.distinct, fun other value' => ?_⟩
  rw [keeps.get?_eq_some, List.mem_cons]
  refine ⟨Or.inr, ?_⟩
  rintro (same | member)
  · cases same
    exact (keeps.get?_eq_some _ _).mp kept
  · exact member

theorem mem_keys_iff : key ∈ store.entries.map Prod.fst ↔ ∃ value, store.get? key = some value := by
  rw [← Option.isSome_iff_exists, get?, List.lookup_isSome_iff, List.mem_map]
  exact exists_congr fun entry => and_congr_right fun _ => by rw [beq_iff_eq, eq_comm]

theorem Keeps.new (keeps : store.Keeps given) (missing : store.get? key = none) (value : α) :
    (⟨(key, value) :: store.entries⟩ : Store α).Keeps ((key, value) :: given) := by
  constructor
  · rw [List.map_cons, List.nodup_cons]
    refine ⟨fun member => ?_, keeps.distinct⟩
    obtain ⟨value', kept⟩ := mem_keys_iff.mp member
    rw [missing] at kept
    cases kept
  · intro other value'
    rw [List.mem_cons, Prod.mk.injEq]
    by_cases same : other = key
    · have absent : (other, value') ∉ given := by
        intro member
        rw [same, ← keeps.get?_eq_some, missing] at member
        cases member
      rw [same, get?_cons_self, Option.some.injEq, ← same]
      simp only [absent, or_false, true_and, eq_comm]
    · rw [get?_cons_of_ne same, keeps.get?_eq_some]
      simp only [same, false_and, false_or]

theorem Keeps.size_eq (keeps : store.Keeps given) :
    store.size = (given.map Prod.fst).toFinset.card := by
  have same : (store.entries.map Prod.fst).toFinset = (given.map Prod.fst).toFinset := by
    ext key
    rw [List.mem_toFinset, List.mem_toFinset, mem_keys_iff, List.mem_map]
    constructor
    · rintro ⟨value, kept⟩
      exact ⟨(key, value), (keeps.get?_eq_some _ _).mp kept, rfl⟩
    · rintro ⟨⟨_, value⟩, member, rfl⟩
      exact ⟨value, (keeps.get?_eq_some _ _).mpr member⟩
  rw [← same, List.toFinset_card_of_nodup keeps.distinct, List.length_map, size]

/-- Whether, in addition, all that is kept is right. -/
structure Remembers (store : Store (Shared α)) (given : List (String × Shared α))
    (right : String → Except CompileError α) : Prop extends store.Keeps given where
  right_of_get? : ∀ key shared, store.get? key = some shared → right key = .ok shared.content

section

variable {store : Store (Shared α)} {given : List (String × Shared α)} {shared : Shared α}
  {right : String → Except CompileError α}

theorem remembers_empty (right : String → Except CompileError α) :
    (empty : Store (Shared α)).Remembers [] right :=
  ⟨keeps_empty, nofun⟩

theorem Remembers.again (remembers : store.Remembers given right) (kept : store.get? key = some shared) :
    store.Remembers ((key, shared) :: given) right :=
  ⟨remembers.toKeeps.again kept, remembers.right_of_get?⟩

theorem Remembers.new (remembers : store.Remembers given right) (missing : store.get? key = none)
    (correct : right key = .ok shared.content) :
    (⟨(key, shared) :: store.entries⟩ : Store (Shared α)).Remembers ((key, shared) :: given) right := by
  refine ⟨remembers.toKeeps.new missing shared, fun other shared' kept => ?_⟩
  by_cases same : other = key
  · rw [same, get?_cons_self, Option.some.injEq] at kept
    rw [same, ← kept, correct]
  · rw [get?_cons_of_ne same] at kept
    exact remembers.right_of_get? other shared' kept

end

end Store

variable {C : Type}

/-! ## Requests -/

inductive Request where
  | compile (text : String)
  | compileFrom (text : String) (offset : Nat) (fresh : Bool)
  | compileClosure (text : String)
  | clear

namespace Request

/-- For which text, from which offset, and how a tree is asked for. -/
def tree? : Request → Option (String × Nat × Bool)
  | .compile text => some (text, 0, false)
  | .compileFrom text offset fresh => some (text, offset, fresh)
  | .compileClosure _ | .clear => none

end Request

inductive Reply (C : Type) where
  | tree (result : Except CompileError (Shared (Tree Id C)))
  | closure (result : Except CompileError (Shared (Closure Id)))
  | cleared

namespace Reply

/-- Whether two replies are the same error, or trees or closures of the same content. -/
def SameContent : Reply C → Reply C → Prop
  | .tree x, .tree y => Shared.content <$> x = Shared.content <$> y
  | .closure x, .closure y => Shared.content <$> x = Shared.content <$> y
  | .cleared, .cleared => True
  | _, _ => False

/-- The object that is handed out. -/
def serial? : Reply C → Option Nat
  | .tree (.ok shared) => some shared.serial
  | .closure (.ok shared) => some shared.serial
  | _ => none

def error? : Reply C → Option CompileError
  | .tree (.error e) | .closure (.error e) => some e
  | _ => none

end Reply

/-- What is answered where nothing is remembered. -/
def Grammar.Answers (g : Grammar Id C) : Request → Reply C → Prop
  | .compile text, .tree result =>
    Shared.content <$> result = (fun t => Id.run t.fold) <$> g.parse text 0
  | .compileFrom text offset _, .tree result =>
    Shared.content <$> result = (fun t => Id.run t.fold) <$> g.parse text offset
  | .compileClosure text, .closure result =>
    Shared.content <$> result = (fun t => (Id.run t.fold).toClosure) <$> g.parse text 0
  | .clear, .cleared => True
  | _, _ => False

theorem Grammar.answers_tree {g : Grammar Id C} {request : Request} {text : String} {offset : Nat}
    {fresh : Bool} (asks : request.tree? = some (text, offset, fresh))
    {result : Except CompileError (Shared (Tree Id C))}
    (right : Shared.content <$> result = (fun t => Id.run t.fold) <$> g.parse text offset) :
    g.Answers request (.tree result) := by
  cases request with
  | compile | compileFrom =>
    cases asks
    exact right
  | compileClosure | clear => cases asks

theorem Grammar.Answers.sameContent {g : Grammar Id C} {request : Request} {x y : Reply C}
    (answers : g.Answers request x) (answers' : g.Answers request y) : x.SameContent y := by
  cases request with
  | compile | compileFrom =>
    cases x with
    | tree =>
      cases y with
      | tree => exact answers.trans answers'.symm
      | closure | cleared => exact answers'.elim
    | closure | cleared => exact answers.elim
  | compileClosure =>
    cases x with
    | closure =>
      cases y with
      | closure => exact answers.trans answers'.symm
      | tree | cleared => exact answers'.elim
    | tree | cleared => exact answers.elim
  | clear =>
    cases x with
    | cleared =>
      cases y with
      | cleared => trivial
      | tree | closure => exact answers'.elim
    | tree | closure => exact answers.elim

/-- What a compiler answers to a request, and what becomes of it. -/
def Compiler.serve (c : Compiler Id C) : Request → Reply C × Compiler Id C
  | .compile text => (Id.run (c.compile text)).map .tree id
  | .compileFrom text offset fresh => (Id.run (c.compileFrom text offset fresh)).map .tree id
  | .compileClosure text => (Id.run (c.compileClosure text)).map .closure id
  | .clear => (.cleared, c.clear)

/-- A request and what was answered. -/
structure Exchange (C : Type) where
  request : Request
  reply : Reply C

namespace Exchange

/-- A tree of a whole text that was not asked to be fresh. -/
def tree? (e : Exchange C) : Option (String × Shared (Tree Id C)) :=
  match e.request.tree?, e.reply with
  | some (text, 0, false), .tree (.ok tree) => some (text, tree)
  | _, _ => none

def closure? (e : Exchange C) : Option (String × Shared (Closure Id)) :=
  match e.request, e.reply with
  | .compileClosure text, .closure (.ok closure) => some (text, closure)
  | _, _ => none

end Exchange

/-- What exchanges have given since the compiler was last cleared. The last exchange is the first. -/
def given {α : Type} (f : Exchange C → Option α) : List (Exchange C) → List α
  | [] => []
  | e :: earlier =>
    match e.request with
    | .clear => []
    | _ => (f e).toList ++ given f earlier

section

variable {α : Type} {f : Exchange C → Option α} {e : Exchange C} {log : List (Exchange C)} {x : α}

theorem given_of_some (some : f e = some x) (other : e.request ≠ .clear) :
    given f (e :: log) = x :: given f log := by
  rw [given]
  split
  · next clear => exact absurd clear other
  · rw [some]
    rfl

theorem given_of_none (none : f e = none) (other : e.request ≠ .clear) :
    given f (e :: log) = given f log := by
  rw [given]
  split
  · next clear => exact absurd clear other
  · rw [none]
    rfl

theorem exists_of_mem_given (member : x ∈ given f log) : ∃ e ∈ log, f e = some x := by
  induction log with
  | nil => cases member
  | cons e earlier ih =>
    rw [given] at member
    split at member
    · cases member
    · rcases List.mem_append.mp member with here | before
      · exact ⟨e, List.mem_cons_self .., Option.mem_toList.mp here⟩
      · obtain ⟨e', member', gives⟩ := ih before
        exact ⟨e', List.mem_cons_of_mem _ member', gives⟩

end

namespace Exchange

theorem tree?_of_whole {request : Request} {text : String} (whole : request.tree? = some (text, 0, false))
    (shared : Shared (Tree Id C)) :
    (⟨request, .tree (.ok shared)⟩ : Exchange C).tree? = some (text, shared) := by
  unfold tree?
  rw [whole]
  rfl

theorem tree?_of_apart {request : Request} {text : String} {offset : Nat} {fresh : Bool}
    (asks : request.tree? = some (text, offset, fresh)) (apart : 0 < offset ∨ fresh) (reply : Reply C) :
    (⟨request, reply⟩ : Exchange C).tree? = none := by
  unfold tree?
  rw [asks]
  split
  · next same _ =>
    cases same
    rcases apart with behind | fresh
    · exact absurd behind (Nat.lt_irrefl 0)
    · cases fresh
  · rfl

theorem tree?_of_error (request : Request) (e : CompileError) :
    (⟨request, .tree (.error e)⟩ : Exchange C).tree? = none := by
  unfold tree?
  split
  · next same => cases same
  · rfl

theorem closure?_of_tree (request : Request) (result : Except CompileError (Shared (Tree Id C))) :
    (⟨request, .tree result⟩ : Exchange C).closure? = none := by
  cases request <;> rfl

theorem serial?_of_tree? {e : Exchange C} {text : String} {shared : Shared (Tree Id C)}
    (gives : e.tree? = some (text, shared)) : e.reply.serial? = some shared.serial := by
  unfold tree? at gives
  split at gives
  · next reply =>
    cases gives
    rw [reply]
    rfl
  · cases gives

theorem serial?_of_closure? {e : Exchange C} {text : String} {shared : Shared (Closure Id)}
    (gives : e.closure? = some (text, shared)) : e.reply.serial? = some shared.serial := by
  unfold closure? at gives
  split at gives
  · next reply =>
    cases gives
    rw [reply]
    rfl
  · cases gives

end Exchange

namespace Compiler

/-- The exchanges that have brought a compiler to where it is. The last one is the first. -/
inductive Session (first : Compiler Id C) : List (Exchange C) → Compiler Id C → Prop where
  | start : Session first [] first
  | serve {log : List (Exchange C)} {c : Compiler Id C} (earlier : Session first log c)
      (request : Request) : Session first (⟨request, (c.serve request).1⟩ :: log) (c.serve request).2

/-- The ways in which a request can go. -/
inductive Serves (c : Compiler Id C) : Request → Reply C → Compiler Id C → Prop where
  | keptTree {request : Request} {text : String} {tree : Shared (Tree Id C)}
      (whole : request.tree? = some (text, 0, false)) (kept : c.trees.get? text = some tree) :
      Serves c request (.tree (.ok tree)) c
  | newTree {request : Request} {text : String} {t : Tree Id C}
      (whole : request.tree? = some (text, 0, false)) (missing : c.trees.get? text = none)
      (parsed : c.grammar.parse text 0 = .ok t) :
      Serves c request (.tree (.ok ⟨c.made, Id.run t.fold⟩))
        { c with
          trees := ⟨(text, ⟨c.made, Id.run t.fold⟩) :: c.trees.entries⟩
          made := c.made + 1 }
  | apartTree {request : Request} {text : String} {offset : Nat} {fresh : Bool} {t : Tree Id C}
      (asks : request.tree? = some (text, offset, fresh)) (apart : 0 < offset ∨ fresh)
      (parsed : c.grammar.parse text offset = .ok t) :
      Serves c request (.tree (.ok ⟨c.made, Id.run t.fold⟩)) { c with made := c.made + 1 }
  | noTree {request : Request} {text : String} {offset : Nat} {fresh : Bool} {e : CompileError}
      (asks : request.tree? = some (text, offset, fresh))
      (parsed : c.grammar.parse text offset = .error e) : Serves c request (.tree (.error e)) c
  | keptClosure {text : String} {closure : Shared (Closure Id)}
      (kept : c.closures.get? text = some closure) :
      Serves c (.compileClosure text) (.closure (.ok closure)) c
  | newClosure {text : String} {t : Tree Id C} (missing : c.closures.get? text = none)
      (parsed : c.grammar.parse text 0 = .ok t) :
      Serves c (.compileClosure text) (.closure (.ok ⟨c.made + 1, (Id.run t.fold).toClosure⟩))
        { c with
          closures := ⟨(text, ⟨c.made + 1, (Id.run t.fold).toClosure⟩) :: c.closures.entries⟩
          made := c.made + 2 }
  | noClosure {text : String} {e : CompileError} (parsed : c.grammar.parse text 0 = .error e) :
      Serves c (.compileClosure text) (.closure (.error e)) c
  | clear : Serves c .clear .cleared c.clear

theorem compileFrom_apart (c : Compiler Id C) {text : String} {offset : Nat} {fresh : Bool}
    (apart : 0 < offset ∨ fresh) :
    Id.run (c.compileFrom text offset fresh) =
      match c.grammar.parse text offset with
      | .error e => (.error e, c)
      | .ok t => (.ok ⟨c.made, Id.run t.fold⟩, { c with made := c.made + 1 }) := by
  have remembers : (offset == 0 && !fresh) = false := by
    rcases apart with behind | rfl
    · rw [beq_eq_false_iff_ne.mpr behind.ne', Bool.false_and]
    · rw [Bool.not_true, Bool.and_false]
  simp only [compileFrom, remembers, Bool.false_eq_true, if_false]
  cases c.grammar.parse text offset <;> rfl

/-- The tree of a closure is asked for apart. -/
theorem compileClosure_of_missing {c : Compiler Id C} {text : String}
    (missing : c.closures.get? text = none) :
    Id.run (c.compileClosure text) =
      match c.grammar.parse text 0 with
      | .error e => (.error e, c)
      | .ok t =>
        (.ok ⟨c.made + 1, (Id.run t.fold).toClosure⟩,
          { c with
            closures := ⟨(text, ⟨c.made + 1, (Id.run t.fold).toClosure⟩) :: c.closures.entries⟩
            made := c.made + 2 }) := by
  have kept : Id.run (c.compileClosure text) =
      match c.grammar.parse text 0 with
      | .error e => (.error e, c)
      | .ok t =>
        let closure := ⟨c.made + 1, (Id.run t.fold).toClosure⟩
        (.ok (c.closures.keep text closure).2,
          { c with
            closures := (c.closures.keep text closure).1
            made := c.made + 2 }) := by
    simp only [compileClosure, compileFrom, missing, Bool.not_true, Bool.and_false, Bool.false_eq_true,
      if_false]
    cases c.grammar.parse text 0 <;> rfl
  rw [kept]
  simp only [Store.keep_of_get?_eq_none missing]

theorem serves_whole (c : Compiler Id C) {request : Request} {text : String}
    (whole : request.tree? = some (text, 0, false)) :
    c.Serves request (.tree (Id.run (c.compile text)).1) (Id.run (c.compile text)).2 := by
  cases kept : c.trees.get? text with
  | some tree =>
    rw [compile_of_kept kept]
    exact .keptTree whole kept
  | none =>
    cases parsed : c.grammar.parse text 0 with
    | error e =>
      rw [compile_of_error kept parsed]
      exact .noTree whole parsed
    | ok t =>
      rw [compile_of_ok kept parsed]
      exact .newTree whole kept parsed

theorem serves_apart (c : Compiler Id C) {request : Request} {text : String} {offset : Nat}
    {fresh : Bool} (asks : request.tree? = some (text, offset, fresh)) (apart : 0 < offset ∨ fresh) :
    c.Serves request (.tree (Id.run (c.compileFrom text offset fresh)).1)
      (Id.run (c.compileFrom text offset fresh)).2 := by
  rw [compileFrom_apart c apart]
  cases parsed : c.grammar.parse text offset with
  | error e => exact .noTree asks parsed
  | ok t => exact .apartTree asks apart parsed

theorem serves (c : Compiler Id C) (request : Request) :
    c.Serves request (c.serve request).1 (c.serve request).2 := by
  cases request with
  | compile text => exact c.serves_whole rfl
  | compileFrom text offset fresh =>
    by_cases apart : 0 < offset ∨ fresh
    · exact c.serves_apart rfl apart
    · obtain ⟨rfl, rfl⟩ : offset = 0 ∧ fresh = false := by simpa using apart
      exact c.serves_whole rfl
  | compileClosure text =>
    cases kept : c.closures.get? text with
    | some closure =>
      have served : c.serve (.compileClosure text) = (.closure (.ok closure), c) := by
        simp only [serve, compileClosure, kept]
        rfl
      rw [served]
      exact .keptClosure kept
    | none =>
      rw [serve, compileClosure_of_missing kept]
      cases parsed : c.grammar.parse text 0 with
      | error e => exact .noClosure parsed
      | ok t => exact .newClosure kept parsed
  | clear => exact .clear

/-- What holds of a compiler after any exchanges. -/
structure Consistent (g : Grammar Id C) (log : List (Exchange C)) (c : Compiler Id C) : Prop where
  grammar : c.grammar = g
  trees : c.trees.Remembers (given Exchange.tree? log)
    fun text => (fun t => Id.run t.fold) <$> g.parse text 0
  closures : c.closures.Remembers (given Exchange.closure? log)
    fun text => (fun t => (Id.run t.fold).toClosure) <$> g.parse text 0
  serials : ∀ e ∈ log, ∀ serial, e.reply.serial? = some serial → serial < c.made

section

variable {g : Grammar Id C} {log : List (Exchange C)} {c d : Compiler Id C} {request : Request}
  {reply : Reply C}

theorem consistent_ofGrammar (g : Grammar Id C) : Consistent g [] (ofGrammar g) :=
  ⟨rfl, Store.remembers_empty _, Store.remembers_empty _, nofun⟩

theorem Serves.made_le (serves : c.Serves request reply d) : c.made ≤ d.made := by
  cases serves with
  | keptTree | noTree | keptClosure | noClosure | clear => exact Nat.le_refl _
  | newTree | apartTree => exact Nat.le_succ _
  | newClosure => exact Nat.le_add_right _ _

theorem Consistent.serial_lt (consistent : Consistent g log c) (serves : c.Serves request reply d)
    {serial : Nat} (handed : reply.serial? = some serial) : serial < d.made := by
  have earlier : ∀ e ∈ log, e.reply.serial? = some serial → serial < d.made :=
    fun e member same => Nat.lt_of_lt_of_le (consistent.serials e member serial same) serves.made_le
  cases serves with
  | @keptTree request text tree whole kept =>
    obtain ⟨e, member, gives⟩ := exists_of_mem_given ((consistent.trees.get?_eq_some _ _).mp kept)
    exact earlier e member ((Exchange.serial?_of_tree? gives).trans handed)
  | keptClosure kept =>
    obtain ⟨e, member, gives⟩ := exists_of_mem_given ((consistent.closures.get?_eq_some _ _).mp kept)
    exact earlier e member ((Exchange.serial?_of_closure? gives).trans handed)
  | newTree | apartTree =>
    cases handed
    exact Nat.lt_succ_self _
  | newClosure =>
    cases handed
    exact Nat.lt_succ_self _
  | noTree | noClosure | clear => cases handed

theorem Consistent.step (consistent : Consistent g log c) (serves : c.Serves request reply d) :
    Consistent g (⟨request, reply⟩ :: log) d := by
  have serials : ∀ e ∈ (⟨request, reply⟩ :: log : List (Exchange C)), ∀ serial,
      e.reply.serial? = some serial → serial < d.made := by
    intro e member serial handed
    rcases List.mem_cons.mp member with rfl | before
    · exact consistent.serial_lt serves handed
    · exact Nat.lt_of_lt_of_le (consistent.serials e before serial handed) serves.made_le
  -- What is given grows just where a store does, except that a fresh tree or one from an offset is in
  -- neither.
  obtain ⟨rfl, trees, closures, _⟩ := consistent
  have asks : ∀ {request : Request} {ask}, request.tree? = some ask → request ≠ .clear := by
    rintro _ _ some rfl
    cases some
  cases serves with
  | @keptTree request _ _ whole kept =>
    refine ⟨rfl, ?_, ?_, serials⟩
    · rw [given_of_some (Exchange.tree?_of_whole whole _) (asks whole)]
      exact trees.again kept
    · rw [given_of_none (Exchange.closure?_of_tree ..) (asks whole)]
      exact closures
  | @newTree request _ t whole missing parsed =>
    refine ⟨rfl, ?_, ?_, serials⟩
    · rw [given_of_some (Exchange.tree?_of_whole whole _) (asks whole)]
      exact trees.new missing (congrArg ((fun t => Id.run t.fold) <$> ·) parsed)
    · rw [given_of_none (Exchange.closure?_of_tree ..) (asks whole)]
      exact closures
  | apartTree asked apart =>
    refine ⟨rfl, ?_, ?_, serials⟩
    · rw [given_of_none (Exchange.tree?_of_apart asked apart _) (asks asked)]
      exact trees
    · rw [given_of_none (Exchange.closure?_of_tree ..) (asks asked)]
      exact closures
  | noTree asked =>
    refine ⟨rfl, ?_, ?_, serials⟩
    · rw [given_of_none (Exchange.tree?_of_error ..) (asks asked)]
      exact trees
    · rw [given_of_none (Exchange.closure?_of_tree ..) (asks asked)]
      exact closures
  | keptClosure kept => exact ⟨rfl, trees, closures.again kept, serials⟩
  | @newClosure _ t missing parsed =>
    refine ⟨rfl, trees, closures.new missing ?_, serials⟩
    exact congrArg ((fun t => (Id.run t.fold).toClosure) <$> ·) parsed
  | noClosure => exact ⟨rfl, trees, closures, serials⟩
  | clear => exact ⟨rfl, Store.remembers_empty _, Store.remembers_empty _, serials⟩

theorem Session.consistent (session : Session (ofGrammar g) log c) : Consistent g log c := by
  induction session with
  | start => exact consistent_ofGrammar g
  | serve _ request ih => exact ih.step (serves _ request)

theorem Consistent.answers (consistent : Consistent g log c) (serves : c.Serves request reply d) :
    g.Answers request reply := by
  obtain ⟨rfl, trees, closures, _⟩ := consistent
  cases serves with
  | keptTree whole kept => exact Grammar.answers_tree whole (trees.right_of_get? _ _ kept).symm
  | newTree whole _ parsed => exact Grammar.answers_tree whole (by rw [parsed]; rfl)
  | apartTree asks _ parsed => exact Grammar.answers_tree asks (by rw [parsed]; rfl)
  | noTree asks parsed => exact Grammar.answers_tree asks (by rw [parsed]; rfl)
  | keptClosure kept => exact (closures.right_of_get? _ _ kept).symm
  | newClosure _ parsed =>
    rw [Grammar.Answers, parsed]
    rfl
  | noClosure parsed =>
    rw [Grammar.Answers, parsed]
    rfl
  | clear => trivial

theorem Session.answers (session : Session (ofGrammar g) log c) : ∀ e ∈ log, g.Answers e.request e.reply := by
  induction session with
  | start => exact nofun
  | @serve log c earlier request ih =>
    rw [List.forall_mem_cons]
    exact ⟨earlier.consistent.answers (c.serves request), ih⟩

theorem Consistent.tree_again (consistent : Consistent g log c) (serves : c.Serves request reply d)
    {text : String} {shared : Shared (Tree Id C)} (member : (text, shared) ∈ given Exchange.tree? log)
    (whole : request.tree? = some (text, 0, false)) : reply = .tree (.ok shared) := by
  obtain ⟨rfl, trees, _, _⟩ := consistent
  have kept := (trees.get?_eq_some _ _).mpr member
  have right := trees.right_of_get? _ _ kept
  cases serves with
  | keptTree whole' kept' =>
    cases whole.symm.trans whole'
    cases kept.symm.trans kept'
    rfl
  | newTree whole' missing =>
    cases whole.symm.trans whole'
    cases kept.symm.trans missing
  | apartTree asks apart =>
    cases whole.symm.trans asks
    rcases apart with behind | fresh
    · exact absurd behind (Nat.lt_irrefl 0)
    · cases fresh
  | noTree asks parsed =>
    cases whole.symm.trans asks
    rw [parsed] at right
    cases right
  | keptClosure | newClosure | noClosure | clear => cases whole

theorem Consistent.closure_again (consistent : Consistent g log c) {text : String}
    {shared : Shared (Closure Id)} (member : (text, shared) ∈ given Exchange.closure? log)
    (serves : c.Serves (.compileClosure text) reply d) : reply = .closure (.ok shared) := by
  obtain ⟨rfl, _, closures, _⟩ := consistent
  have kept := (closures.get?_eq_some _ _).mpr member
  have right := closures.right_of_get? _ _ kept
  cases serves with
  | keptTree whole | newTree whole | apartTree whole | noTree whole => cases whole
  | keptClosure kept' =>
    cases kept.symm.trans kept'
    rfl
  | newClosure missing => cases kept.symm.trans missing
  | noClosure parsed =>
    rw [parsed] at right
    cases right

theorem Consistent.new_of_apart (consistent : Consistent g log c) (serves : c.Serves request reply d)
    {text : String} {offset : Nat} {fresh : Bool} (asks : request.tree? = some (text, offset, fresh))
    (apart : 0 < offset ∨ fresh) :
    (d.trees = c.trees ∧ d.closures = c.closures) ∧
      ∀ serial, reply.serial? = some serial → ∀ e ∈ log, e.reply.serial? ≠ some serial := by
  have whole : ∀ text', request.tree? ≠ some (text', 0, false) := by
    intro text' whole
    cases asks.symm.trans whole
    rcases apart with behind | fresh
    · exact absurd behind (Nat.lt_irrefl 0)
    · cases fresh
  cases serves with
  | keptTree whole' | newTree whole' => exact absurd whole' (whole _)
  | apartTree =>
    refine ⟨⟨rfl, rfl⟩, ?_⟩
    rintro serial handed e member same
    cases handed
    exact absurd (consistent.serials e member _ same) (Nat.lt_irrefl _)
  | noTree => exact ⟨⟨rfl, rfl⟩, nofun⟩
  | keptClosure | newClosure | noClosure | clear => cases asks

theorem Serves.unchanged_of_error (serves : c.Serves request reply d) {e : CompileError}
    (failed : reply.error? = some e) : d = c := by
  cases serves with
  | noTree | noClosure => rfl
  | keptTree | newTree | apartTree | keptClosure | newClosure | clear => cases failed

end

variable {v : Vocabulary Id C} {spacing : Spacing} {log : List (Exchange C)} {c : Compiler Id C}

/-- What a compiler remembers cannot be told from its answers, but for the identity of trees and
closures. -/
theorem Session.transparent (session : Session (ofVocabulary v spacing) log c) :
    (∀ e ∈ log, e.reply.SameContent ((ofVocabulary v spacing).serve e.request).1) ∧
      c.trees.size = ((given Exchange.tree? log).map Prod.fst).toFinset.card ∧
      c.closures.size = ((given Exchange.closure? log).map Prod.fst).toFinset.card ∧
      (∀ text shared, (text, shared) ∈ given Exchange.tree? log →
        ∀ request, request.tree? = some (text, 0, false) →
          (c.serve request).1 = .tree (.ok shared)) ∧
      (∀ text shared, (text, shared) ∈ given Exchange.closure? log →
        (c.serve (.compileClosure text)).1 = .closure (.ok shared)) ∧
      (∀ request text offset (fresh : Bool), request.tree? = some (text, offset, fresh) →
        0 < offset ∨ fresh →
        ((c.serve request).2.trees = c.trees ∧ (c.serve request).2.closures = c.closures) ∧
          ∀ serial, (c.serve request).1.serial? = some serial →
            ∀ e ∈ log, e.reply.serial? ≠ some serial) ∧
      ∀ request e, (c.serve request).1.error? = some e → (c.serve request).2 = c := by
  have consistent := session.consistent
  refine ⟨?_, consistent.trees.size_eq, consistent.closures.size_eq, ?_, ?_, ?_, ?_⟩
  · intro e member
    exact (session.answers e member).sameContent
      ((consistent_ofGrammar _).answers ((ofVocabulary v spacing).serves e.request))
  · exact fun text shared member request whole =>
      consistent.tree_again (c.serves request) member whole
  · exact fun text shared member => consistent.closure_again member (c.serves _)
  · exact fun request text offset fresh asks apart =>
      consistent.new_of_apart (c.serves request) asks apart
  · exact fun request e failed => (c.serves request).unchanged_of_error failed

/-- A text before and after the compiler is cleared, then asked for apart, and a text with an error. -/
theorem Session.transparent_cleared :
    ∃ log c, Session (ofVocabulary (.level true) .always) log c ∧
      log.map Exchange.request =
        [.compile "(", .compileFrom "1 + 2" 0 true, .compile "1 + 2", .clear, .compile "1 + 2"] ∧
      c.trees.size = ((given Exchange.tree? log).map Prod.fst).toFinset.card ∧ c.trees.size = 1 := by
  have fresh : Session (ofVocabulary (.level true) .always) [] (ofVocabulary (.level true) .always) :=
    .start
  have session := ((((fresh.serve (.compile "1 + 2")).serve .clear).serve (.compile "1 + 2")).serve
    (.compileFrom "1 + 2" 0 true)).serve (.compile "(")
  exact ⟨_, _, session, rfl, session.transparent.2.1, rfl⟩

end Compiler

end Formula

/-!
# Stores

What is kept first under a key stays until the store is emptied.
-/

namespace Formula

structure Store (α : Type) where
  entries : List (String × α)

namespace Store

variable {α : Type}

def empty : Store α :=
  ⟨[]⟩

def get? (store : Store α) (key : String) : Option α :=
  store.entries.lookup key

/-- Adds a value under a new key. The second part is what the key stands for afterwards. -/
def keep (store : Store α) (key : String) (value : α) : Store α × α :=
  match store.get? key with
  | some kept => (store, kept)
  | none => (⟨(key, value) :: store.entries⟩, value)

def size (store : Store α) : Nat :=
  store.entries.length

theorem get?_keep (store : Store α) (key : String) (value : α) :
    (store.keep key value).1.get? key = some (store.keep key value).2 := by
  unfold keep
  split
  · assumption
  · simp [get?]

end Store

end Formula

import Formula.Binary64.Basic

/-!
# JSON values
-/

namespace Formula

inductive Json where
  | null
  | bool (b : Bool)
  | number (n : Binary64)
  | string (s : String)
  | array (items : List Json)
  | object (entries : List (String × Json))

namespace Json

instance : Inhabited Json :=
  ⟨.null⟩

end Json

end Formula

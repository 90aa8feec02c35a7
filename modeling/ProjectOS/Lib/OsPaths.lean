import Mathlib.Data.List.Sort
import Mathlib.Data.List.Lex

/-! Paths, by the names they go through. A name is whatever bytes the system has. -/

namespace ProjectOS.Lib

abbrev OsName := List UInt8

abbrev OsPath := List OsName

def pathKey (path : OsPath) : List (List Nat) := path.map fun name => name.map UInt8.toNat

def pathBefore (p q : OsPath) : Prop := pathKey p ≤ pathKey q

instance : DecidableRel pathBefore := fun _ _ => inferInstanceAs (Decidable (_ ≤ _))

instance : IsTrans OsPath pathBefore := ⟨fun _ _ _ h h' => le_trans h h'⟩

instance : Std.Total pathBefore := ⟨fun p q => le_total (pathKey p) (pathKey q)⟩

end ProjectOS.Lib

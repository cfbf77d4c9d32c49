/-!
# Text of structured values

A value is written as its name, followed by its arguments in parentheses or by its named fields in
braces: `Imm(4)`, `Branch { target: 8 }`.
-/

namespace Dynarec.Text

def tuple (name : String) (args : List String) : String :=
  name ++ "(" ++ String.intercalate ", " args ++ ")"

def record (name : String) (fields : List (String × String)) : String :=
  name ++ " \x7b " ++ String.intercalate ", " (fields.map fun f => f.1 ++ ": " ++ f.2) ++ " \x7d"

def bool (b : Bool) : String :=
  if b then "true" else "false"

def nat (n : Nat) : String :=
  String.ofList (Nat.toDigits 10 n)

def int : Int → String
  | .ofNat n => nat n
  | .negSucc n => "-" ++ nat (n + 1)

/-- `Some(x)` or `None`. -/
def option {α : Type} (text : α → String) : Option α → String
  | some a => tuple "Some" [text a]
  | none => "None"

def list (items : List String) : String :=
  "[" ++ String.intercalate ", " items ++ "]"

end Dynarec.Text

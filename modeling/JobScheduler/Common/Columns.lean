import JobScheduler.Common.Models

/-!
# What the columns take

A text that PostgreSQL stores has no character NUL, and a `varchar(n)` at most n characters.
-/

namespace JobScheduler.Columns

def nul : Char := Char.ofNat 0

def text (s : String) : Bool := !s.toList.contains nul

def varchar (n : ℕ) (s : String) : Bool := decide (s.length ≤ n) && text s

mutual

def hasNul : Json → Bool
  | .string s => s.toList.contains nul
  | .array xs => hasNulArray xs
  | .object fields => hasNulFields fields
  | _ => false

def hasNulArray : List Json → Bool
  | [] => false
  | x :: xs => hasNul x || hasNulArray xs

def hasNulFields : List (String × Json) → Bool
  | [] => false
  | f :: fs => f.1.toList.contains nul || hasNul f.2 || hasNulFields fs

end

end JobScheduler.Columns

import Mathlib.Data.List.DropRight
import Mathlib.Data.Nat.Notation

/-!
# Python's path names and shell words

`pathlib.PurePosixPath` as Python 3.12 has it, and `shlex.split` (POSIX mode, words split at
whitespace only, no comments).
-/

namespace JobScheduler.Paths

/- The parts of a path below its root. -/
def parts (path : String) : List (List Char) :=
  (path.toList.splitOn '/').filter fun p => !p.isEmpty && decide (p ≠ ['.'])

-- PurePath.name
def name (path : String) : String := String.ofList ((parts path).getLast?.getD [])

-- str.rfind('.')
def rfindDot (cs : List Char) : Option ℕ :=
  (cs.reverse.findIdx? (· == '.')).map fun i => cs.length - 1 - i

/- The position of the dot a suffix starts with. -/
def suffixAt (cs : List Char) : Option ℕ :=
  (rfindDot cs).filter fun i => decide (0 < i) && decide (i < cs.length - 1)

-- PurePath.suffix, given the name
def suffixOf (cs : List Char) : List Char :=
  match suffixAt cs with
  | some i => cs.drop i
  | none => []

-- PurePath.stem, given the name
def stemOf (cs : List Char) : List Char :=
  match suffixAt cs with
  | some i => cs.take i
  | none => cs

def suffix (path : String) : String := String.ofList (suffixOf (name path).toList)
def stem (path : String) : String := String.ofList (stemOf (name path).toList)

-- str(Path(directory) / name)
def join (directory name : String) : String := directory ++ "/" ++ name

theorem slash_notMem_of_mem_splitOn {p cs : List Char} (h : p ∈ cs.splitOn '/') : '/' ∉ p := by
  induction cs generalizing p with
  | nil =>
    rw [List.splitOn_nil, List.mem_singleton] at h
    simp [h]
  | cons c cs ih =>
    rw [List.splitOn_cons_eq_if_modifyHead] at h
    split at h
    · rw [List.mem_cons] at h
      cases h with
      | inl h => simp [h]
      | inr h => exact ih h
    · rename_i hc
      cases hsplit : cs.splitOn '/' with
      | nil => exact absurd hsplit (List.splitOn_ne_nil _ _)
      | cons q qs =>
        rw [hsplit, List.modifyHead_cons, List.mem_cons] at h
        cases h with
        | inl h =>
          have hq := ih (p := q) (by rw [hsplit]; exact List.mem_cons_self ..)
          rw [h, List.mem_cons, not_or]
          refine ⟨?_, hq⟩
          intro heq
          simp [← heq] at hc
        | inr h => exact ih (by rw [hsplit]; exact List.mem_cons_of_mem _ h)

/- A name is empty or one component of a path. -/
theorem name_cases (path : String) :
    name path = "" ∨ ('/' ∉ (name path).toList ∧ name path ≠ "" ∧ name path ≠ ".") := by
  unfold name
  cases hlast : (parts path).getLast? with
  | none => left; rfl
  | some p =>
    right
    have hp := List.mem_of_getLast? hlast
    rw [parts, List.mem_filter, Bool.and_eq_true, decide_eq_true_eq] at hp
    rw [Option.getD_some, String.toList_ofList]
    refine ⟨slash_notMem_of_mem_splitOn hp.1, ?_, ?_⟩
    · intro h
      rw [String.ofList_eq_empty_iff] at h
      simp [h] at hp
    · intro h
      rw [← String.toList_inj, String.toList_ofList] at h
      exact hp.2.2 h

/-- The name of a name is itself. -/
theorem name_of_component {s : String} (hslash : '/' ∉ s.toList) (hempty : s ≠ "")
    (hdot : s ≠ ".") : name s = s := by
  have hparts : parts s = [s.toList] := by
    unfold parts
    rw [List.splitOn_eq_singleton hslash]
    have hne : s.toList ≠ [] := by
      rw [Ne, String.toList_eq_nil_iff]
      exact hempty
    have hne' : s.toList ≠ ['.'] := by
      intro h
      apply hdot
      rw [← String.toList_inj, h]
      rfl
    simp [hne, hne']
  rw [name, hparts]
  exact String.ofList_toList

theorem name_name (path : String) : name (name path) = name path := by
  cases name_cases path with
  | inl h =>
    rw [h]
    decide
  | inr h => exact name_of_component h.1 h.2.1 h.2.2

/-! ### shlex.split -/

/- The states of the lexer: between words, in a word, in quotes, after a backslash (in a word,
or in double quotes). -/
inductive Lex where
  | between
  | word
  | quoted (q : Char)
  | escaped (inQuotes : Bool)
  deriving DecidableEq, Repr

def isShellSpace (c : Char) : Bool := c == ' ' || c == '\t' || c == '\r' || c == '\n'
def isQuote (c : Char) : Bool := c == '"' || c == '\''

-- a token is a word once it has a character or a quoted part
def emit (token : List Char) (quoted : Bool) (words : List String) : List String :=
  if token.isEmpty && !quoted then words else String.ofList token :: words

/- The remaining words, the token so far being reversed, or the text of the ValueError. -/
def lex : Lex → List Char → Bool → List Char → Except String (List String)
  | .between, token, quoted, [] => .ok (emit token.reverse quoted [])
  | .word, token, quoted, [] => .ok (emit token.reverse quoted [])
  | .quoted _, _, _, [] => .error "No closing quotation"
  | .escaped _, _, _, [] => .error "No escaped character"
  | .between, token, quoted, c :: cs =>
    if isShellSpace c then (lex .between [] false cs).map (emit token.reverse quoted)
    else if c = '\\' then lex (.escaped false) token quoted cs
    else if isQuote c then lex (.quoted c) token quoted cs
    else lex .word [c] quoted cs
  | .word, token, quoted, c :: cs =>
    if isShellSpace c then (lex .between [] false cs).map (emit token.reverse quoted)
    else if isQuote c then lex (.quoted c) token quoted cs
    else if c = '\\' then lex (.escaped false) token quoted cs
    else lex .word (c :: token) quoted cs
  | .quoted q, token, _, c :: cs =>
    if c = q then lex .word token true cs
    else if c = '\\' && q = '"' then lex (.escaped true) token true cs
    else lex (.quoted q) (c :: token) true cs
  | .escaped inQuotes, token, quoted, c :: cs =>
    if inQuotes then
      if c = '\\' || c = '"' then lex (.quoted '"') (c :: token) quoted cs
      else lex (.quoted '"') (c :: '\\' :: token) quoted cs
    else lex .word (c :: token) quoted cs

-- shlex.split
def shlexSplit (s : String) : Except String (List String) := lex .between [] false s.toList

/- A character that stands for itself everywhere in a command. -/
def isPlain (c : Char) : Bool := !isShellSpace c && !isQuote c && !(c == '\\')

theorem lex_plain {cs token : List Char} {quoted : Bool} (h : ∀ c ∈ cs, isPlain c = true)
    (htoken : token ≠ []) :
    lex .word token quoted cs = .ok [String.ofList (token.reverse ++ cs)] := by
  induction cs generalizing token with
  | nil => simp [lex, emit, htoken]
  | cons c cs ih =>
    have hc := h c (List.mem_cons_self ..)
    simp only [isPlain, Bool.and_eq_true, Bool.not_eq_true', beq_eq_false_iff_ne] at hc
    rw [lex, if_neg (by simp [hc.1.1]), if_neg (by simp [hc.1.2]), if_neg hc.2,
      ih (fun d hd => h d (List.mem_cons_of_mem _ hd)) (List.cons_ne_nil _ _)]
    simp

/-- A word of plain characters is one word. -/
theorem shlexSplit_plain {s : String} (hne : s ≠ "") (h : ∀ c ∈ s.toList, isPlain c = true) :
    shlexSplit s = .ok [s] := by
  unfold shlexSplit
  cases hs : s.toList with
  | nil => exact absurd (String.toList_eq_nil_iff.mp hs) hne
  | cons c cs =>
    rw [hs] at h
    have hc := h c (List.mem_cons_self ..)
    simp only [isPlain, Bool.and_eq_true, Bool.not_eq_true', beq_eq_false_iff_ne] at hc
    rw [lex, if_neg (by simp [hc.1.1]), if_neg hc.2, if_neg (by simp [hc.1.2]),
      lex_plain (fun d hd => h d (List.mem_cons_of_mem _ hd)) (List.cons_ne_nil _ _)]
    simp only [List.reverse_cons, List.reverse_nil, List.nil_append, List.singleton_append]
    rw [← hs, String.ofList_toList]

end JobScheduler.Paths

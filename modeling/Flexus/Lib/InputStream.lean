import Mathlib.Tactic

/-!
# Formatted input from a text

An input stream is the text that is left with the two flags of the C++ library: `eofbit` for
the end of the text and `failbit` for an extraction that failed. An extraction from a stream
with a flag set fails and leaves its variable alone.
-/

namespace InputStream

structure Stream where
  rest : List Char
  eofbit : Bool
  failbit : Bool
  deriving DecidableEq, Repr

namespace Stream

variable (s : Stream)

/-- A stream at the start of a text. -/
def ofText (text : List Char) : Stream := ⟨text, false, false⟩

def good : Bool := !s.eofbit && !s.failbit

def isspace (c : Char) : Bool := c == ' ' || (9 ≤ c.toNat && c.toNat ≤ 13)

def isdigit (c : Char) : Bool := 48 ≤ c.toNat && c.toNat ≤ 57

/-- Skip whitespace. -/
def ws : Stream :=
  if s.good then
    { s with rest := s.rest.dropWhile isspace, eofbit := (s.rest.dropWhile isspace).isEmpty }
  else { s with failbit := true }

/-- The next character, which stays in the stream. -/
def peek : Option Char := if s.good then s.rest.head? else none

/-- The next character, unless the extraction fails. -/
def get : Option (Char × Stream) :=
  match s.good, s.rest with
  | true, c :: rest => some (c, { s with rest := rest })
  | _, _ => none

/-- What is left when a number of characters at most is skipped, up to a delimiter, and whether
    the end of the text was reached. -/
def skip (delim : Char) : Nat → List Char → List Char × Bool
  | 0, l => (l, false)
  | _ + 1, [] => ([], true)
  | n + 1, c :: l => if c = delim then (l, false) else skip delim n l

def ignore (n : Nat) (delim : Char) : Stream :=
  if s.good then { s with rest := (skip delim n s.rest).1, eofbit := (skip delim n s.rest).2 }
  else { s with failbit := true }

/-- Extract a word from a stream without flags whose whitespace is skipped. -/
def getWord : List Char × Stream :=
  (s.rest.takeWhile fun c => !isspace c,
    { s with
      rest := s.rest.dropWhile fun c => !isspace c
      eofbit := (s.rest.dropWhile fun c => !isspace c).isEmpty })

abbrev INT_MIN : Int := -2147483648

abbrev INT_MAX : Int := 2147483647

/-- The number that digits are written for. -/
def digits (l : List Char) : Nat := l.foldl (fun n c => 10 * n + (c.toNat - 48)) 0

/-- A sign before a number. -/
def sign : List Char → Bool × List Char
  | '-' :: l => (true, l)
  | '+' :: l => (false, l)
  | l => (false, l)

/-- Extract an integer of 32 bits from a stream without flags whose whitespace is skipped.
    Without a digit the value is 0, and outside the range it is the nearest bound; the
    extraction fails then. -/
def getInt : Int × Stream :=
  let (negative, text) := sign s.rest
  let number := text.takeWhile isdigit
  let rest := text.dropWhile isdigit
  let value : Int := if negative then -(digits number) else digits number
  (max INT_MIN (min INT_MAX value),
    { rest := rest
      eofbit := rest.isEmpty
      failbit := number.isEmpty || decide (value < INT_MIN) || decide (INT_MAX < value) })

variable {s}

/-! ## What is left of a text -/

theorem length_dropWhile_le {p : Char → Bool} (l : List Char) : (l.dropWhile p).length ≤ l.length :=
  (List.dropWhile_sublist p).length_le

theorem ws_length_le : s.ws.rest.length ≤ s.rest.length := by
  unfold ws
  split
  · exact length_dropWhile_le _
  · exact le_refl _

theorem skip_length_le (delim : Char) (n : Nat) (l : List Char) : (skip delim n l).1.length ≤ l.length := by
  fun_induction skip delim n l with
  | case1 => exact le_refl _
  | case2 => exact le_refl _
  | case3 n l => exact Nat.le_succ _
  | case4 n c l hne ih => exact ih.trans (Nat.le_succ _)

theorem ignore_length_le {n : Nat} {delim : Char} : (s.ignore n delim).rest.length ≤ s.rest.length := by
  unfold ignore
  split
  · exact skip_length_le ..
  · exact le_refl _

theorem sign_length_le (l : List Char) : (sign l).2.length ≤ l.length := by
  unfold sign
  split
  · exact Nat.le_succ _
  · exact Nat.le_succ _
  · exact le_refl _

theorem getInt_length_le : s.getInt.2.rest.length ≤ s.rest.length :=
  (length_dropWhile_le _).trans (sign_length_le _)

theorem get_length_lt {c : Char} {s' : Stream} (h : s.get = some (c, s')) : s'.rest.length < s.rest.length := by
  unfold get at h
  split at h
  · next hrest =>
    cases h
    rw [hrest]
    exact Nat.lt_succ_self _
  · cases h

/-- Behind whitespace there is a word, unless the end of the text is reached. -/
theorem exists_word (heof : s.ws.eofbit = false) (hfail : s.ws.failbit = false) :
    ∃ c l, s.ws.rest = c :: l ∧ isspace c = false := by
  unfold ws at heof hfail ⊢
  split at heof
  · next hgood =>
    rw [if_pos hgood]
    dsimp only at heof ⊢
    cases hrest : s.rest.dropWhile isspace with
    | nil =>
      rw [hrest] at heof
      cases heof
    | cons c l =>
      have hhead := List.head?_dropWhile_not isspace s.rest
      rw [hrest] at hhead
      exact ⟨c, l, rfl, hhead⟩
  · next hgood =>
    rw [if_neg hgood] at hfail
    cases hfail

theorem getWord_length_lt (heof : s.ws.eofbit = false) (hfail : s.ws.failbit = false) :
    s.ws.getWord.2.rest.length < s.rest.length := by
  obtain ⟨c, l, hrest, hspace⟩ := exists_word heof hfail
  have hle := ws_length_le (s := s)
  have hword : s.ws.getWord.2.rest = l.dropWhile fun c => !isspace c := by
    unfold getWord
    dsimp only
    rw [hrest, List.dropWhile_cons, hspace]
    rfl
  have hdrop := length_dropWhile_le (p := fun c => !isspace c) l
  rw [hrest, List.length_cons] at hle
  rw [hword]
  omega

end Stream

end InputStream

/-
  QuboProbe.Json.Quoted

  Quoted text of the exchange format.  Writing escapes the quote, the
  backslash and the control characters below U+0020, and nothing else.
  Reading also accepts the other escapes of the format; an escape may name
  half of a surrogate pair, which is text only beside its other half.

  Main statement: `join_pieces_encode`, reading what was written gives it back.
-/

namespace QuboProbe.Json.Quoted

/-! ## Writing -/

/-- A hexadecimal digit, in lower case. -/
def hexDigit (n : Nat) : Char := if n < 10 then Char.ofNat (48 + n) else Char.ofNat (87 + n)

/-- One character as it stands between quotes. -/
def escape (c : Char) : List Char :=
  if c = '\"' then ['\\', '\"']
  else if c = '\\' then ['\\', '\\']
  else if c = '\x08' then ['\\', 'b']
  else if c = '\t' then ['\\', 't']
  else if c = '\n' then ['\\', 'n']
  else if c = '\x0c' then ['\\', 'f']
  else if c = '\r' then ['\\', 'r']
  else if c.toNat < 32 then ['\\', 'u', '0', '0', hexDigit (c.toNat / 16), hexDigit (c.toNat % 16)]
  else [c]

/-- The characters between the quotes. -/
def encode : List Char → List Char
  | [] => []
  | c :: rest => escape c ++ encode rest

/-! ## Reading -/

/-- What one step of reading gives: a character, or a code unit named by an escape. -/
inductive Piece where
  | char (c : Char)
  | unit (n : Nat)
deriving DecidableEq

def hexValue? (c : Char) : Option Nat :=
  if '0' ≤ c ∧ c ≤ '9' then some (c.toNat - 48)
  else if 'a' ≤ c ∧ c ≤ 'f' then some (c.toNat - 87)
  else if 'A' ≤ c ∧ c ≤ 'F' then some (c.toNat - 55)
  else none

/-- The code unit of four hexadecimal digits. -/
def unit? (a b c d : Char) : Option Nat := do
  let a ← hexValue? a
  let b ← hexValue? b
  let c ← hexValue? c
  let d ← hexValue? d
  return ((a * 16 + b) * 16 + c) * 16 + d

/-- The character of a one-letter escape. -/
def named? (c : Char) : Option Char :=
  if c = '\"' then some '\"'
  else if c = '\\' then some '\\'
  else if c = '/' then some '/'
  else if c = 'b' then some '\x08'
  else if c = 'f' then some '\x0c'
  else if c = 'n' then some '\n'
  else if c = 'r' then some '\r'
  else if c = 't' then some '\t'
  else none

/-- The pieces up to the closing quote, and what follows it. -/
def pieces : List Char → Option (List Piece × List Char)
  | [] => none
  | '\"' :: rest => some ([], rest)
  | '\\' :: 'u' :: a :: b :: c :: d :: rest =>
    match unit? a b c d, pieces rest with
    | some n, some (ps, after) => some (.unit n :: ps, after)
    | _, _ => none
  | '\\' :: e :: rest =>
    match named? e, pieces rest with
    | some c, some (ps, after) => some (.char c :: ps, after)
    | _, _ => none
  | c :: rest =>
    if c = '\\' ∨ c.toNat < 32 then none
    else match pieces rest with
      | some (ps, after) => some (.char c :: ps, after)
      | none => none

def isHigh (n : Nat) : Bool := decide (0xd800 ≤ n) && decide (n < 0xdc00)

def isLow (n : Nat) : Bool := decide (0xdc00 ≤ n) && decide (n < 0xe000)

/-- The text of the pieces: two halves of a pair that stand together make one character, a half
alone makes no text. -/
def join : List Piece → Option (List Char)
  | [] => some []
  | .char c :: rest => (join rest).map (c :: ·)
  | .unit n :: .unit m :: rest =>
    if isHigh n && isLow m then
      (join rest).map (Char.ofNat (0x10000 + (n - 0xd800) * 0x400 + (m - 0xdc00)) :: ·)
    else if isHigh n || isLow n then none
    else (join (.unit m :: rest)).map (Char.ofNat n :: ·)
  | .unit n :: rest => if isHigh n || isLow n then none else (join rest).map (Char.ofNat n :: ·)

/-! ## Reading what was written -/

/-- The piece that a written character is read back as. -/
def pieceOf (c : Char) : Piece :=
  if c = '\"' ∨ c = '\\' ∨ c = '\x08' ∨ c = '\t' ∨ c = '\n' ∨ c = '\x0c' ∨ c = '\r' ∨ 32 ≤ c.toNat
  then .char c else .unit c.toNat

theorem hexValue?_hexDigit : ∀ n, n < 16 → hexValue? (hexDigit n) = some n := by decide

theorem pieces_escape (c : Char) (rest : List Char) :
    pieces (escape c ++ rest) = (pieces rest).map fun p => (pieceOf c :: p.1, p.2) := by
  have plain : ∀ e d, named? e = some d → e ≠ 'u' →
      pieces ('\\' :: e :: rest) = (pieces rest).map fun p => (Piece.char d :: p.1, p.2) := by
    intro e d he hu
    rw [pieces.eq_4 _ _ (by intro a b c d r h; simp_all)]
    simp only [he]
    cases pieces rest <;> rfl
  unfold escape
  split
  · subst_vars; simpa [pieceOf] using plain _ _ rfl (by decide)
  split
  · subst_vars; simpa [pieceOf] using plain _ _ rfl (by decide)
  split
  · subst_vars; simpa [pieceOf] using plain 'b' '\x08' rfl (by decide)
  split
  · subst_vars; simpa [pieceOf] using plain 't' _ rfl (by decide)
  split
  · subst_vars; simpa [pieceOf] using plain 'n' _ rfl (by decide)
  split
  · subst_vars; simpa [pieceOf] using plain 'f' _ rfl (by decide)
  split
  · subst_vars; simpa [pieceOf] using plain 'r' _ rfl (by decide)
  split
  · rename_i h
    have h1 := hexValue?_hexDigit (c.toNat / 16) (by omega)
    have h2 := hexValue?_hexDigit (c.toNat % 16) (by omega)
    have hu : unit? '0' '0' (hexDigit (c.toNat / 16)) (hexDigit (c.toNat % 16)) = some c.toNat := by
      simp only [unit?, h1, h2, show hexValue? '0' = some 0 from rfl]
      simp only [Option.bind_eq_bind, Option.bind_some, Option.pure_def, Option.some.injEq]
      omega
    have hp : pieceOf c = .unit c.toNat := by
      simp only [pieceOf]
      split <;> simp_all
      omega
    simp only [List.cons_append, List.nil_append, hp]
    rw [pieces]
    simp only [hu]
    cases pieces rest <;> rfl
  · rename_i h1 h2 _ _ _ _ _ h
    have hp : pieceOf c = .char c := by
      simp only [pieceOf]
      split
      · rfl
      · omega
    simp only [List.cons_append, List.nil_append, hp]
    rw [pieces.eq_5 _ _ (by simpa using h1) (by simp_all) (by simp_all)]
    simp only [h2, false_or, h, if_false]
    cases pieces rest <;> rfl

theorem join_pieceOf (c : Char) (ps : List Piece) :
    join (pieceOf c :: ps) = (join ps).map (c :: ·) := by
  unfold pieceOf
  split
  · simp [join]
  · rename_i h
    have hn : c.toNat < 32 := by
      simp only [not_or] at h; omega
    have h1 : isHigh c.toNat = false := by simp [isHigh]; omega
    have h2 : isLow c.toNat = false := by simp [isLow]; omega
    have hc : Char.ofNat c.toNat = c := by simp
    cases ps with
    | nil => simp [join, h1, h2, hc]
    | cons p ps => cases p <;> simp [join, h1, h2, hc]

/-- Reading what was written up to the closing quote gives the text back. -/
theorem join_pieces_encode (s rest : List Char) :
    ∃ ps, pieces (encode s ++ '\"' :: rest) = some (ps, rest) ∧ join ps = some s := by
  induction s with
  | nil => exact ⟨[], by simp [encode, pieces], rfl⟩
  | cons c s ih =>
    obtain ⟨ps, hps, hj⟩ := ih
    refine ⟨pieceOf c :: ps, ?_, ?_⟩
    · rw [encode, List.append_assoc, pieces_escape, hps]; rfl
    · rw [join_pieceOf, hj]; rfl

end QuboProbe.Json.Quoted

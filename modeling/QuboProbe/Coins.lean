/-
  QuboProbe.Coins

  Random bit strings that a seed fixes.  The coins are the leading bits of the
  words of a ChaCha key stream of twelve rounds; `Coins.strings` draws bit
  strings from any source of coins, one after another, so a longer list of
  strings starts with the shorter ones.
-/
import QuboProbe.BitString
import QuboProbe.Supply

namespace QuboProbe.Coins

/-! ## Key stream -/

/-- Four words side by side. -/
structure Row where
  a : UInt32
  b : UInt32
  c : UInt32
  d : UInt32
deriving DecidableEq

namespace Row

@[inline] def zipWith (f : UInt32 → UInt32 → UInt32) (x y : Row) : Row :=
  ⟨f x.a y.a, f x.b y.b, f x.c y.c, f x.d y.d⟩

/-- The words moved one place to the left, the first behind the last. -/
@[inline] def turn (x : Row) : Row := ⟨x.b, x.c, x.d, x.a⟩

def toList (x : Row) : List UInt32 := [x.a, x.b, x.c, x.d]

end Row

/-- The words of a block, four by four. -/
structure Block where
  p : Row
  q : Row
  r : Row
  s : Row
deriving DecidableEq

@[inline] def rotateLeft (x k : UInt32) : UInt32 := (x <<< k) ||| (x >>> (32 - k))

/-- Adds one row to another and mixes the sum into a third. -/
@[inline] def mix (k : UInt32) (x y z : Row) : Row × Row :=
  let sum := x.zipWith (· + ·) y
  (sum, z.zipWith (fun v w => rotateLeft (v ^^^ w) k) sum)

namespace Block

/-- A quarter round in every column. -/
@[inline] def columns (t : Block) : Block :=
  let (p, s) := mix 16 t.p t.q t.s
  let (r, q) := mix 12 t.r s t.q
  let (p, s) := mix 8 p q s
  let (r, q) := mix 7 r s q
  ⟨p, q, r, s⟩

/-- A round on the columns and one on the diagonals. -/
def doubleRound (t : Block) : Block :=
  let t := t.columns
  let t := columns ⟨t.p, t.q.turn, t.r.turn.turn, t.s.turn.turn.turn⟩
  ⟨t.p, t.q.turn.turn.turn, t.r.turn.turn, t.s.turn⟩

def add (t u : Block) : Block :=
  ⟨t.p.zipWith (· + ·) u.p, t.q.zipWith (· + ·) u.q, t.r.zipWith (· + ·) u.r,
    t.s.zipWith (· + ·) u.s⟩

def words (t : Block) : List UInt32 :=
  t.p.toList ++ t.q.toList ++ t.r.toList ++ t.s.toList

end Block

/-- A key: the second and third row of every block. -/
abbrev Key := Row × Row

/-- The block of a counter before the rounds. -/
def initial (key : Key) (counter : UInt64) : Block :=
  ⟨⟨0x61707865, 0x3320646e, 0x79622d32, 0x6b206574⟩, key.1, key.2,
    ⟨counter.toUInt32, (counter >>> 32).toUInt32, 0, 0⟩⟩

/-- The words of a block of the key stream. -/
def keyStream (key : Key) (counter : UInt64) : List UInt32 :=
  let start := initial key counter
  (start.doubleRound.doubleRound.doubleRound.doubleRound.doubleRound.doubleRound.add start).words

/-! ## Keys from seeds -/

/-- A step of the generator that spreads a seed over a key. -/
def spread (s : UInt64) : UInt64 := s * 6364136223846793005 + 11634580027462260723

/-- The word of a generator state. -/
def spreadWord (s : UInt64) : UInt32 :=
  let x := (((s >>> 18) ^^^ s) >>> 27).toUInt32
  let k := (s >>> 59).toUInt32
  (x >>> k) ||| (x <<< ((32 - k) % 32))

/-- Four words of a key, and the generator state after them. -/
def spreadRow (s : UInt64) : Row × UInt64 :=
  let s₁ := spread s
  let s₂ := spread s₁
  let s₃ := spread s₂
  let s₄ := spread s₃
  (⟨spreadWord s₁, spreadWord s₂, spreadWord s₃, spreadWord s₄⟩, s₄)

def keyOfSeed (seed : UInt64) : Key :=
  let (p, s) := spreadRow seed
  (p, (spreadRow s).1)

/-! ## Coins -/

/-- A place in a key stream: the words not used yet, and the block after them. -/
structure Stream where
  key : Key
  counter : UInt64
  rest : List UInt32

def ofSeed (seed : UInt64) : Stream := ⟨keyOfSeed seed, 0, []⟩

def heads (w : UInt32) : Bool := w >>> 31 == 1

/-- The next coin. -/
def Stream.next (s : Stream) : Bool × Stream :=
  match s.rest with
  | w :: rest => (heads w, { s with rest })
  | [] =>
    match keyStream s.key s.counter with
    | [] => (false, s)
    | w :: rest => (heads w, ⟨s.key, s.counter + 1, rest⟩)

/-! ## Bit strings -/

variable {σ : Type}

/-- The next `n` coins as bits. -/
def bits (next : σ → Bool × σ) : Nat → σ → List UInt8 × σ
  | 0, s => ([], s)
  | n + 1, s =>
    let (coin, s) := next s
    let (rest, s) := bits next n s
    ((if coin then 1 else 0) :: rest, s)

/-- Bit strings of `n` coins each. -/
def strings (next : σ → Bool × σ) (n : Nat) : Nat → σ → List BitString
  | 0, _ => []
  | k + 1, s =>
    let (x, s) := bits next n s
    ⟨x⟩ :: strings next n k s

/-- The same bit strings, drawn one at a time. -/
def draws (next : σ → Bool × σ) (n : Nat) : Nat → σ → Supply BitString :=
  Supply.unfold fun s =>
    let drawn := bits next n s
    (⟨drawn.1⟩, drawn.2)

@[simp] theorem toList_draws (next : σ → Bool × σ) (n k : Nat) (s : σ) :
    (draws next n k s).toList = strings next n k s := by
  induction k generalizing s with
  | zero => rfl
  | succ k ih =>
    have := ih (bits next n s).2
    simpa [draws, Supply.unfold, strings] using this

/-- A longer list starts with the shorter one. -/
theorem strings_prefix_strings (next : σ → Bool × σ) (n : Nat) {k l : Nat} (h : k ≤ l) (s : σ) :
    strings next n k s <+: strings next n l s := by
  induction k generalizing l s with
  | zero => exact List.nil_prefix
  | succ k ih =>
    cases l with
    | zero => omega
    | succ l =>
      simp only [strings]
      exact (List.prefix_cons_inj _).2 (ih (by omega) _)

/-- The first words of the key stream of seed 24301. -/
example : (keyStream (keyOfSeed 24301) 0).take 4 =
    [0xa5ac8191, 0xd72bd28f, 0x7a6e942d, 0xcdb36794] := by decide +kernel

end QuboProbe.Coins

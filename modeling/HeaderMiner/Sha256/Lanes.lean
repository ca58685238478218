import HeaderMiner.Sha256.Basic

/-!
# SHA-256 on several lanes at once

A lane word holds one 32-bit word for each of `n` independent hashes, and every step works on all
lanes together. The rounds may be run in pieces: `runRounds` starts at any round, with the
schedule words from there on.
-/

namespace HeaderMiner.Sha256.Lanes

variable {n : Nat}

abbrev Word (n : Nat) := Vector UInt32 n

/-- Eight chaining words per lane. -/
abbrev State (n : Nat) := Vector (Word n) 8

/-- The same eight words in every lane. -/
def broadcast (n : Nat) (s : Sha256.State) : State n := s.map (Vector.replicate n)

/-- The eight words of lane `l`. -/
def State.lane (s : State n) (l : Fin n) : Sha256.State := s.map (·.get l)

/-- Selection by `e` with three operations: flip `g` to `f` where `e` is set. -/
def choose (e f g : UInt32) : UInt32 := g ^^^ (e &&& (f ^^^ g))

/-- Majority with four operations. -/
def majority (a b c : UInt32) : UInt32 := (a &&& b) ||| (c &&& (a ||| b))

/-- The first `t` schedule words of the blocks whose words are given lane by lane. -/
def schedulePrefix (block : Vector (Word n) 16) : (t : Nat) → Vector (Word n) t
  | 0 => #v[]
  | t + 1 =>
    let w := schedulePrefix block t
    w.push <|
      if h : t < 16 then block[t]
      else Vector.ofFn fun l =>
        smallSigma1 w[t - 2][l] + w[t - 7][l] + smallSigma0 w[t - 15][l] + w[t - 16][l]

def schedule (block : Vector (Word n) 16) : Vector (Word n) 64 := schedulePrefix block 64

def round (s : State n) (k : UInt32) (w : Word n) : State n :=
  let v (i : Fin 8) (l : Fin n) : UInt32 := (s.get i).get l
  let t₁ : Word n := Vector.ofFn fun l =>
    v 7 l + bigSigma1 (v 4 l) + choose (v 4 l) (v 5 l) (v 6 l) + k + w.get l
  let t₂ : Word n := Vector.ofFn fun l => bigSigma0 (v 0 l) + majority (v 0 l) (v 1 l) (v 2 l)
  #v[t₁.zipWith (· + ·) t₂, s.get 0, s.get 1, s.get 2, (s.get 3).zipWith (· + ·) t₁, s.get 4,
    s.get 5, s.get 6]

/-- Runs the rounds from number `first` on, one for each schedule word. -/
def runRounds (s : State n) (first : Nat) : List (Word n) → State n
  | [] => s
  | w :: ws => runRounds (round s (roundConstants[first]?.getD 0) w) (first + 1) ws

/-- Adds the chaining words into the compressed ones. -/
def feedForward (s init : State n) : State n := s.zipWith (·.zipWith (· + ·) ·) init

def compress (init : State n) (block : Vector (Word n) 16) : State n :=
  feedForward (runRounds init 0 (schedule block).toList) init

/-- The bit length of a message of `bytes` bytes as the last padding word carries it, modulo 2³². -/
def bitLength (bytes : Nat) : UInt32 := (bytes * 8).toUInt32

end HeaderMiner.Sha256.Lanes

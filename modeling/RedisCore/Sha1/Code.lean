/-
# `RedisCore.Sha1.Code` — SHA-1 of bytes that come in pieces (sha1.c)

`SHA1Transform` is unrolled: eighty lines, each a macro on the five working variables with their
names rotated by one, on a block of sixteen words that is overwritten while it is used.
`SHA1Update` fills a buffer of 64 bytes and transforms what is full, and `SHA1Final` pads by
calling it a byte at a time.

The machine is a little endian one.  A copy that would leave the buffer is `none`.

Behind the code is the hash function as its standard describes it: a schedule of eighty words, a
round that moves five variables along, and a padding that makes whole blocks.  The transformation
of a block is the one of the code: the words the code overwrites are older than any that is used
again, and the names it rotates stand for the variables that move.
-/
import RedisCore.Sds
import RedisCore.Lib.BlockStream

namespace RedisCore

namespace Sha1

/-- `uint32_t`. -/
abbrev Word := BitVec 32

/-! ## A block -/

def rol (value : Word) (bits : Nat) : Word := (value <<< bits) ||| (value >>> (32 - bits))

/-- `block->l[i]` of the bytes, as a little endian machine reads it. -/
def long (buffer : Bytes) (i : Nat) : Word :=
  let c (k : Nat) : BitVec 8 := (buffer.getD (4 * i + k) 0).toBitVec
  c 3 ++ c 2 ++ c 1 ++ c 0

/-- The working variables `a` to `e`, and the block. -/
structure Working where
  vars : Vector Word 5
  block : Vector Word 16

/-- `blk0(i)`: put the bytes of a word in order. -/
def blk0 (block : Vector Word 16) (i : Nat) : Vector Word 16 × Word :=
  let l := block[i % 16]
  let word := (rol l 24 &&& 0xFF00FF00#32) ||| (rol l 8 &&& 0x00FF00FF#32)
  (block.set (i % 16) word, word)

/-- `blk(i)`: the next word of the schedule takes the place of the oldest. -/
def blk (block : Vector Word 16) (i : Nat) : Vector Word 16 × Word :=
  let word := rol (block[(i + 13) % 16] ^^^ block[(i + 8) % 16] ^^^ block[(i + 2) % 16] ^^^
    block[i % 16]) 1
  (block.set (i % 16) word, word)

/-- A macro on the variables `v`, `w`, `x`, `y`, `z`, which are five in a row from `v` on. -/
def R (mix : Word → Word → Word → Word) (constant : Word)
    (expand : Vector Word 16 → Nat → Vector Word 16 × Word) (v i : Nat) (s : Working) : Working :=
  let (block, word) := expand s.block i
  let vv := s.vars[v % 5]
  let vw := s.vars[(v + 1) % 5]
  let vx := s.vars[(v + 2) % 5]
  let vy := s.vars[(v + 3) % 5]
  let vz := s.vars[(v + 4) % 5] + (mix vw vx vy + word + constant + rol vv 5)
  ⟨(s.vars.set ((v + 4) % 5) vz).set ((v + 1) % 5) (rol vw 30), block⟩

def R0 : Nat → Nat → Working → Working := R (fun w x y => (w &&& (x ^^^ y)) ^^^ y) 0x5A827999#32 blk0
def R1 : Nat → Nat → Working → Working := R (fun w x y => (w &&& (x ^^^ y)) ^^^ y) 0x5A827999#32 blk
def R2 : Nat → Nat → Working → Working := R (fun w x y => w ^^^ x ^^^ y) 0x6ED9EBA1#32 blk
def R3 : Nat → Nat → Working → Working :=
  R (fun w x y => ((w ||| x) &&& y) ||| (w &&& x)) 0x8F1BBCDC#32 blk
def R4 : Nat → Nat → Working → Working := R (fun w x y => w ^^^ x ^^^ y) 0xCA62C1D6#32 blk

/-- Which of `a` to `e` the line of round `i` has in the place of `v`: `a`, `e`, `d`, `c`, `b`,
and again. -/
def placeOf (i : Nat) : Nat := (80 - i) % 5

/-- The line of round `i`. -/
def line (s : Working) (i : Nat) : Working :=
  if i < 16 then R0 (placeOf i) i s
  else if i < 20 then R1 (placeOf i) i s
  else if i < 40 then R2 (placeOf i) i s
  else if i < 60 then R3 (placeOf i) i s
  else R4 (placeOf i) i s

/-- `SHA1Transform`: the new state. -/
def SHA1Transform (state : Vector Word 5) (buffer : Bytes) : Vector Word 5 :=
  let s := (List.range 80).foldl line ⟨state, .ofFn (fun i => long buffer i)⟩
  .ofFn (fun i => state[i] + s.vars[i])

/-! ## The context -/

/-- `SHA1_CTX`. -/
structure SHA1_CTX where
  state : Vector Word 5
  count0 : Word
  count1 : Word
  buffer : Bytes
  size : buffer.length = 64

/-- `SHA1Init`; the buffer keeps what it holds. -/
def SHA1Init (context : SHA1_CTX) : SHA1_CTX :=
  { context with
    state := #v[0x67452301#32, 0xEFCDAB89#32, 0x98BADCFE#32, 0x10325476#32, 0xC3D2E1F0#32]
    count0 := 0
    count1 := 0 }

/-- `memcpy(&context->buffer[j], data, data.length)`. -/
def memcpy (context : SHA1_CTX) (j : Nat) (data : Bytes) : Option SHA1_CTX :=
  if h : j + data.length ≤ 64 then
    some { context with
      buffer := context.buffer.take j ++ (data ++ context.buffer.drop (j + data.length))
      size := by
        have hsize := context.size
        rw [List.length_append, List.length_append, List.length_take, List.length_drop]
        omega }
  else none

/-- `for ( ; i + 63 < len; i += 64)`: the state and `i`. -/
def transformLoop (data : Bytes) (len : Nat) : Nat → Vector Word 5 → Nat → Option (Vector Word 5 × Nat)
  | 0, _, _ => none
  | fuel + 1, state, i =>
      if (i + 63) % 2 ^ 32 < len then
        transformLoop data len fuel (SHA1Transform state ((data.drop i).take 64)) (i + 64)
      else some (state, i)

/-- `len - i` of two `uint32_t`. -/
def left (len i : Nat) : Nat := (len + 2 ^ 32 - i) % 2 ^ 32

/-- `SHA1Update` for all of `data`. -/
def SHA1Update (context : SHA1_CTX) (data : Bytes) : Option SHA1_CTX :=
  let len := data.length % 2 ^ 32
  let j := context.count0
  let count0 := j + BitVec.ofNat 32 len <<< 3
  let count1 := (if count0 < j then context.count1 + 1 else context.count1) + BitVec.ofNat 32 len >>> 29
  let context := { context with count0, count1 }
  let j := ((j >>> 3) &&& 63#32).toNat
  if (j + len) % 2 ^ 32 > 63 then do
    let context ← memcpy context j (data.take (64 - j))
    let state := SHA1Transform context.state context.buffer
    let r ← transformLoop data len (len + 1) state (64 - j)
    memcpy { context with state := r.1 } 0 ((data.drop r.2).take (left len r.2))
  else memcpy context j (data.take len)

/-- `while ((context->count[0] & 504) != 448)`. -/
def padLoop : Nat → SHA1_CTX → Option SHA1_CTX
  | 0, _ => none
  | fuel + 1, context =>
      if context.count0 &&& 504#32 ≠ 448#32 then (SHA1Update context [0]).bind (padLoop fuel)
      else some context

/-- `(word >> ((3-(i & 3)) * 8)) & 255`. -/
def byteOf (word : Word) (i : Nat) : UInt8 :=
  ⟨((word >>> ((3 - (i &&& 3)) * 8)) &&& 255#32).setWidth 8⟩

/-- `SHA1Final`: the digest. -/
def SHA1Final (context : SHA1_CTX) : Option Bytes := do
  let finalcount := (List.range 8).map (fun i =>
    byteOf (if i ≥ 4 then context.count0 else context.count1) i)
  let context ← SHA1Update context [0o200]
  let context ← padLoop 64 context
  let context ← SHA1Update context finalcount
  return (List.range 20).map (fun i => byteOf (context.state.toArray.getD (i >>> 2) 0) i)

/-- `SHA1Update` for one piece after the other. -/
def updateAll (context : SHA1_CTX) : List Bytes → Option SHA1_CTX
  | [] => some context
  | piece :: pieces => (SHA1Update context piece).bind (updateAll · pieces)

/-- The digest of bytes that come in pieces. -/
def digestOf (context : SHA1_CTX) (pieces : List Bytes) : Option Bytes :=
  (updateAll (SHA1Init context) pieces).bind SHA1Final

namespace Standard

/-! ## Blocks -/

/-- The functions of the rounds: choice, parity, majority, parity. -/
def f (t : Nat) (x y z : Word) : Word :=
  if t < 20 then (x &&& y) ^^^ (~~~x &&& z)
  else if t < 40 then x ^^^ y ^^^ z
  else if t < 60 then (x &&& y) ^^^ (x &&& z) ^^^ (y &&& z)
  else x ^^^ y ^^^ z

/-- The constants. -/
def K (t : Nat) : Word :=
  if t < 20 then 0x5A827999#32
  else if t < 40 then 0x6ED9EBA1#32
  else if t < 60 then 0x8F1BBCDC#32
  else 0xCA62C1D6#32

/-- The words of a block, the first byte of each in front. -/
def M (block : Bytes) (t : Nat) : Word :=
  let c (k : Nat) : BitVec 8 := (block.getD (4 * t + k) 0).toBitVec
  c 0 ++ c 1 ++ c 2 ++ c 3

/-- The schedule. -/
def W (block : Bytes) (t : Nat) : Word :=
  if t < 16 then M block t
  else (W block (t - 3) ^^^ W block (t - 8) ^^^ W block (t - 14) ^^^ W block (t - 16)).rotateLeft 1
termination_by t

structure Vars where
  a : Word
  b : Word
  c : Word
  d : Word
  e : Word

def round (block : Bytes) (s : Vars) (t : Nat) : Vars where
  a := s.a.rotateLeft 5 + f t s.b s.c s.d + s.e + K t + W block t
  b := s.a
  c := s.b.rotateLeft 30
  d := s.c
  e := s.d

/-- The hash value after a block. -/
def compress (H : Vector Word 5) (block : Bytes) : Vector Word 5 :=
  let s := (List.range 80).foldl (round block) ⟨H[0], H[1], H[2], H[3], H[4]⟩
  #v[H[0] + s.a, H[1] + s.b, H[2] + s.c, H[3] + s.d, H[4] + s.e]

/-! ## Messages -/

def H0 : Vector Word 5 :=
  #v[0x67452301#32, 0xEFCDAB89#32, 0x98BADCFE#32, 0x10325476#32, 0xC3D2E1F0#32]

/-- The number of bits, in eight bytes. -/
def lengthBytes (n : Nat) : Bytes :=
  (List.range 8).map (fun i => UInt8.ofNat (8 * n / 2 ^ (8 * (7 - i))))

/-- A one, zeros and the number of bits make whole blocks. -/
def pad (message : Bytes) : Bytes :=
  message ++ (128 :: List.replicate ((119 - message.length % 64) % 64) 0 ++ lengthBytes message.length)

/-- The bytes of a word. -/
def wordBytes (word : Word) : Bytes :=
  [3, 2, 1, 0].map (fun i => UInt8.ofNat (word.toNat / 2 ^ (8 * i)))

def sha1 (message : Bytes) : Bytes :=
  ((BlockStream.blocks 64 (pad message)).foldl compress H0).toList.flatMap wordBytes

end Standard

open Standard

variable {buffer : Bytes} {s : Working} {p : Vars} {t : Nat}

/-! ## The macros -/

theorem rol_eq (value : Word) {bits : Nat} (h : bits < 32) : rol value bits = value.rotateLeft bits := by
  rw [BitVec.rotateLeft_def, Nat.mod_eq_of_lt h]
  rfl

/-- The mix of `R0` and `R1` chooses. -/
theorem mix_choice (w x y : Word) : (w &&& (x ^^^ y)) ^^^ y = (w &&& x) ^^^ (~~~w &&& y) := by
  ext i hi
  simp only [BitVec.getElem_xor, BitVec.getElem_and, BitVec.getElem_not]
  cases w[i] <;> cases x[i] <;> cases y[i] <;> rfl

/-- The mix of `R3` is the majority. -/
theorem mix_majority (w x y : Word) :
    ((w ||| x) &&& y) ||| (w &&& x) = (w &&& x) ^^^ (w &&& y) ^^^ (x &&& y) := by
  ext i hi
  simp only [BitVec.getElem_xor, BitVec.getElem_and, BitVec.getElem_or]
  cases w[i] <;> cases x[i] <;> cases y[i] <;> rfl

/-- Rotating moves what is in front to the end. -/
theorem rotateLeft_append {m n : Nat} (x : BitVec m) (y : BitVec n) (hn : 0 < n) (i : Nat) :
    ((x ++ y).rotateLeft m).getLsbD i = (y ++ x).getLsbD i := by
  rw [BitVec.getLsbD_rotateLeft, Nat.mod_eq_of_lt (by omega), BitVec.getLsbD_append (x := y)]
  by_cases hi : i < m
  · rw [decide_eq_true hi, if_pos hi, cond_true, BitVec.getLsbD_append, if_neg (by omega)]
    congr 1
    omega
  · rw [decide_eq_false hi, if_neg hi, cond_false, BitVec.getLsbD_append]
    by_cases hall : i < m + n
    · rw [decide_eq_true hall, if_pos (by omega), Bool.true_and]
    · rw [decide_eq_false hall, Bool.false_and, BitVec.getLsbD_of_ge y _ (by omega)]

/-- `blk0` puts the bytes of a word in order. -/
theorem swap_eq (a b c d : BitVec 8) :
    (rol (d ++ c ++ b ++ a) 24 &&& 0xFF00FF00#32) ||| (rol (d ++ c ++ b ++ a) 8 &&& 0x00FF00FF#32) =
      a ++ b ++ c ++ d := by
  have h24 : ∀ i, (rol (d ++ c ++ b ++ a) 24).getLsbD i = (a ++ d ++ c ++ b).getLsbD i := by
    intro i
    rw [rol_eq _ (by decide)]
    refine (rotateLeft_append (d ++ c ++ b) a (by decide) i).trans ?_
    simp only [BitVec.getLsbD_append]
    grind
  have h8 : ∀ i, (rol (d ++ c ++ b ++ a) 8).getLsbD i = (c ++ b ++ a ++ d).getLsbD i := by
    intro i
    rw [rol_eq _ (by decide)]
    have hassoc : d ++ c ++ b ++ a = (d ++ (c ++ b ++ a) : BitVec 32) := by
      refine BitVec.eq_of_getLsbD_eq fun i _ => ?_
      simp only [BitVec.getLsbD_append]
      grind
    rw [hassoc]
    exact rotateLeft_append d (c ++ b ++ a) (by decide) i
  have hm1 : 0xFF00FF00#32 = BitVec.allOnes 8 ++ 0#8 ++ BitVec.allOnes 8 ++ 0#8 := rfl
  have hm2 : 0x00FF00FF#32 = 0#8 ++ BitVec.allOnes 8 ++ 0#8 ++ BitVec.allOnes 8 := rfl
  refine BitVec.eq_of_getLsbD_eq fun i hi => ?_
  rw [BitVec.getLsbD_or, BitVec.getLsbD_and, BitVec.getLsbD_and, h24, h8, hm1, hm2]
  simp only [BitVec.getLsbD_append, BitVec.getLsbD_allOnes, BitVec.getLsbD_zero]
  by_cases h₁ : i < 8
  · simp [h₁]
  by_cases h₂ : i < 16
  · simp [h₁, show i - 8 < 8 by omega]
  by_cases h₃ : i < 24
  · simp [h₁, show ¬ i - 8 < 8 by omega, show i - 8 - 8 < 8 by omega]
  · simp [h₁, show ¬ i - 8 < 8 by omega, show ¬ i - 8 - 8 < 8 by omega,
      show i - 8 - 8 - 8 < 8 by omega]

/-! ## The rounds -/

/-- The variables from `v` on, in order. -/
def Named (v : Nat) (vars : Vector Word 5) (p : Vars) : Prop :=
  vars[v % 5] = p.a ∧ vars[(v + 1) % 5] = p.b ∧ vars[(v + 2) % 5] = p.c ∧
    vars[(v + 3) % 5] = p.d ∧ vars[(v + 4) % 5] = p.e

/-- Two assignments and another order of the names move all variables along. -/
theorem named_move {v : Nat} {vars : Vector Word 5} {p : Vars} (hv : v < 5) (h : Named v vars p)
    (z w : Word) : Named ((v + 4) % 5) ((vars.set ((v + 4) % 5) z).set ((v + 1) % 5) w)
      ⟨z, p.a, w, p.c, p.d⟩ := by
  obtain ⟨ha, -, hc, hd, -⟩ := h
  have hcases : v = 0 ∨ v = 1 ∨ v = 2 ∨ v = 3 ∨ v = 4 := by omega
  rcases hcases with rfl | rfl | rfl | rfl | rfl <;>
    exact ⟨by simp, by simpa using ha, by simp, by simpa using hc, by simpa using hd⟩

/-- The code after `t` rounds: the variables have their names, and the block holds the last words
of the schedule, in front of them words of the message. -/
structure Agrees (buffer : Bytes) (t : Nat) (s : Working) (p : Vars) : Prop where
  vars : Named (placeOf t) s.vars p
  newer : ∀ j, j < t → t ≤ j + 16 → s.block[j % 16] = W buffer j
  older : ∀ j, t ≤ j → j < 16 → s.block[j % 16] = long buffer j

theorem W_early (h : t < 16) : W buffer t = M buffer t := by
  rw [W, if_pos h]

theorem W_late (h : 16 ≤ t) : W buffer t = (W buffer (t - 3) ^^^ W buffer (t - 8) ^^^
    W buffer (t - 14) ^^^ W buffer (t - 16)).rotateLeft 1 := by
  rw [W, if_neg (by omega)]

/-- The next word of the schedule is in its place, and nothing else has changed. -/
def Expands (buffer : Bytes) (t : Nat) (block : Vector Word 16) (r : Vector Word 16 × Word) : Prop :=
  r = (block.set (t % 16) (W buffer t), W buffer t)

theorem blk0_expands (h : Agrees buffer t s p) (ht : t < 16) :
    Expands buffer t s.block (blk0 s.block t) := by
  have hword : (rol s.block[t % 16] 24 &&& 0xFF00FF00#32) |||
      (rol s.block[t % 16] 8 &&& 0x00FF00FF#32) = W buffer t := by
    rw [h.older t (Nat.le_refl t) ht, W_early ht]
    exact swap_eq _ _ _ _
  unfold Expands blk0
  dsimp only
  rw [hword]

theorem blk_expands (h : Agrees buffer t s p) (ht : 16 ≤ t) :
    Expands buffer t s.block (blk s.block t) := by
  have hold : ∀ k, 0 < k → k ≤ 16 → ∀ i, i % 16 = (t - k) % 16 → s.block[i % 16] = W buffer (t - k) := by
    intro k hpos hk i hi
    rw [← h.newer (t - k) (by omega) (by omega)]
    simp only [hi]
  have hword : rol (s.block[(t + 13) % 16] ^^^ s.block[(t + 8) % 16] ^^^ s.block[(t + 2) % 16] ^^^
      s.block[t % 16]) 1 = W buffer t := by
    rw [hold 3 (by decide) (by decide) (t + 13) (by omega), hold 8 (by decide) (by decide) (t + 8) (by omega),
      hold 14 (by decide) (by decide) (t + 2) (by omega), hold 16 (by decide) (by decide) t (by omega),
      rol_eq _ (by decide), W_late ht]
  unfold Expands blk
  rw [hword]

/-- A macro that mixes as the standard does and has the word of the schedule is a round of it. -/
theorem R_agrees {mix : Word → Word → Word → Word} {constant : Word}
    {expand : Vector Word 16 → Nat → Vector Word 16 × Word} (h : Agrees buffer t s p) (ht : t < 80)
    (hmix : ∀ w x y, mix w x y = f t w x y) (hconstant : constant = K t)
    (hexpand : Expands buffer t s.block (expand s.block t)) :
    Agrees buffer (t + 1) (R mix constant expand (placeOf t) t s) (round buffer p t) := by
  have hplace : placeOf (t + 1) = (placeOf t + 4) % 5 := by
    unfold placeOf
    omega
  have hlt : placeOf t < 5 := Nat.mod_lt _ (by decide)
  obtain ⟨ha, hb, hc, hd, he⟩ := h.vars
  have hsum : p.e + (f t p.b p.c p.d + W buffer t + K t + p.a.rotateLeft 5) =
      (Standard.round buffer p t).a := by
    unfold Standard.round
    dsimp only
    ac_rfl
  unfold R
  rw [hexpand]
  dsimp only
  rw [ha, hb, hc, hd, he, hmix, hconstant, rol_eq _ (by decide), rol_eq _ (by decide), hsum]
  refine ⟨?_, ?_, ?_⟩
  · rw [hplace]
    exact named_move hlt h.vars _ _
  · intro j hj hkeep
    dsimp only
    rw [Vector.getElem_set]
    split
    · next heq =>
        have hsame : j = t := by omega
        rw [hsame]
    · exact h.newer j (by omega) (by omega)
  · intro j hj hlast
    dsimp only
    rw [Vector.getElem_set, if_neg (by omega)]
    exact h.older j (by omega) hlast

/-- A line of the code is a round of the standard. -/
theorem line_agrees (h : Agrees buffer t s p) (ht : t < 80) :
    Agrees buffer (t + 1) (line s t) (round buffer p t) := by
  have hchoice : t < 20 → ∀ w x y, (w &&& (x ^^^ y)) ^^^ y = f t w x y := by
    intro hlt w x y
    rw [f, if_pos hlt, mix_choice]
  unfold line
  split
  · exact R_agrees h ht (hchoice (by omega)) (if_pos (by omega)).symm (blk0_expands h (by omega))
  split
  · exact R_agrees h ht (hchoice (by omega)) (if_pos (by omega)).symm (blk_expands h (by omega))
  next h₁ h₂ =>
  split
  · next h₃ =>
      refine R_agrees h ht (fun w x y => ?_) ?_ (blk_expands h (by omega))
      · rw [f, if_neg h₂, if_pos h₃]
      · rw [K, if_neg h₂, if_pos h₃]
  next h₃ =>
  split
  · next h₄ =>
      refine R_agrees h ht (fun w x y => ?_) ?_ (blk_expands h (by omega))
      · rw [f, if_neg h₂, if_neg h₃, if_pos h₄, mix_majority]
      · rw [K, if_neg h₂, if_neg h₃, if_pos h₄]
  · next h₄ =>
      refine R_agrees h ht (fun w x y => ?_) ?_ (blk_expands h (by omega))
      · rw [f, if_neg h₂, if_neg h₃, if_neg h₄]
      · rw [K, if_neg h₂, if_neg h₃, if_neg h₄]

theorem lines_agree (h : Agrees buffer 0 s p) : ∀ n, n ≤ 80 →
    Agrees buffer n ((List.range n).foldl line s) ((List.range n).foldl (round buffer) p) := by
  intro n
  induction n with
  | zero => exact fun _ => h
  | succ n ih =>
      intro hn
      rw [List.range_succ, List.foldl_append, List.foldl_append]
      exact line_agrees (ih (by omega)) hn

/-- The variables have their own names again. -/
theorem sums_eq (state : Vector Word 5) (h : Named (placeOf 80) s.vars p) :
    Vector.ofFn (fun i => state[i] + s.vars[i]) =
      #v[state[0] + p.a, state[1] + p.b, state[2] + p.c, state[3] + p.d, state[4] + p.e] := by
  obtain ⟨ha, hb, hc, hd, he⟩ := h
  rw [← ha, ← hb, ← hc, ← hd, ← he]
  refine Vector.ext fun i hi => ?_
  have hcases : i = 0 ∨ i = 1 ∨ i = 2 ∨ i = 3 ∨ i = 4 := by omega
  rcases hcases with rfl | rfl | rfl | rfl | rfl <;> simp [placeOf]

/-- **The transformation** is the one of the standard. -/
theorem transform_eq (state : Vector Word 5) (buffer : Bytes) :
    SHA1Transform state buffer = compress state buffer := by
  have hstart : Agrees buffer 0 ⟨state, .ofFn (fun i => long buffer i)⟩
      ⟨state[0], state[1], state[2], state[3], state[4]⟩ := by
    refine ⟨⟨rfl, rfl, rfl, rfl, rfl⟩, ?_, ?_⟩
    · intro j hj
      exact absurd hj (Nat.not_lt_zero j)
    · intro j _ hj
      simp [Nat.mod_eq_of_lt hj]
  exact sums_eq state (lines_agree hstart 80 (Nat.le_refl _)).vars

end Sha1

end RedisCore

/-
# `RedisCore.Sha1.Runs` — bytes in any pieces (sha1.c)

A context holds a message: the state after its whole blocks, what is left of it in the buffer, and
the number of its bits.  `SHA1Update` holds more of it, and `SHA1Final` calls it until there are
whole blocks.
-/
import RedisCore.Sha1.Code

namespace RedisCore

namespace Sha1

open Standard
open BlockStream (absorb absorb_short absorb_block absorb_append absorb_whole length_rest)

variable {context : SHA1_CTX} {message data : Bytes}

/-- The context holds a message. -/
structure Holds (context : SHA1_CTX) (message : Bytes) : Prop where
  count : context.count1.toNat * 2 ^ 32 + context.count0.toNat =
    8 * message.length % (2 ^ 32 * 2 ^ 32)
  absorbed : (context.state, context.buffer.take (message.length % 64)) =
    absorb 64 compress H0 message

theorem init_holds (context : SHA1_CTX) : Holds (SHA1Init context) [] where
  count := by
    show (0 : Word).toNat * 2 ^ 32 + (0 : Word).toNat = 8 * 0 % (2 ^ 32 * 2 ^ 32)
    decide
  absorbed := (@absorb_short _ _ 64 [] compress H0 (by decide)).symm

/-! ## The counters -/

/-- The bytes in the buffer. -/
theorem Holds.offset (h : Holds context message) :
    ((context.count0 >>> 3) &&& 63#32).toNat = message.length % 64 := by
  have hcount := h.count
  rw [BitVec.toNat_and, BitVec.toNat_ushiftRight, Nat.shiftRight_eq_div_pow]
  rw [show (63#32).toNat = 2 ^ 6 - 1 from rfl, Nat.and_two_pow_sub_one_eq_mod]
  have hlt := context.count0.isLt
  omega

theorem digits_mod {B a r : Nat} (hr : r < B) : (a * B + r) % (B * B) = a % B * B + r := by
  rw [Nat.mod_mul, Nat.add_comm (a * B), Nat.add_mul_mod_self_right, Nat.mod_eq_of_lt hr,
    Nat.add_mul_div_right _ _ (Nat.zero_lt_of_lt hr), Nat.div_eq_of_lt hr, Nat.zero_add,
    Nat.mul_comm B, Nat.add_comm]

/-- A sum of two digits, with the carry. -/
theorem digits_add {B c₀ c₁ x y m : Nat} (hB : 0 < B) (h : c₁ * B + c₀ = m % (B * B)) :
    ((c₁ + (c₀ + x) / B) % B + y) % B * B + (c₀ + x) % B = (m + (y * B + x)) % (B * B) := by
  have hsplit : (c₀ + x) / B * B + (c₀ + x) % B = c₀ + x := Nat.div_add_mod' _ _
  rw [Nat.mod_add_mod, ← digits_mod (Nat.mod_lt _ hB), Nat.add_mul, Nat.add_mul,
    ← Nat.mod_add_mod m, ← h]
  congr 1
  omega

/-- The two counters are one of 64 bits. -/
theorem count_add {c₀ c₁ : Word} {n len : Nat}
    (h : c₁.toNat * 2 ^ 32 + c₀.toNat = 8 * n % (2 ^ 32 * 2 ^ 32)) (hlen : len < 2 ^ 32) :
    ((if c₀ + BitVec.ofNat 32 len <<< 3 < c₀ then c₁ + 1 else c₁) + BitVec.ofNat 32 len >>> 29).toNat
      * 2 ^ 32 + (c₀ + BitVec.ofNat 32 len <<< 3).toNat = 8 * (n + len) % (2 ^ 32 * 2 ^ 32) := by
  have h₀ := c₀.isLt
  have h₁ := c₁.isLt
  have hshift : (BitVec.ofNat 32 len <<< 3).toNat = len * 8 % 2 ^ 32 := by
    rw [BitVec.toNat_shiftLeft, BitVec.toNat_ofNat, Nat.mod_eq_of_lt hlen, Nat.shiftLeft_eq]
  have hhigh : (BitVec.ofNat 32 len >>> 29).toNat = len / 2 ^ 29 := by
    rw [BitVec.toNat_ushiftRight, BitVec.toNat_ofNat, Nat.mod_eq_of_lt hlen, Nat.shiftRight_eq_div_pow]
  have hsum : (c₀ + BitVec.ofNat 32 len <<< 3).toNat = (c₀.toNat + len * 8 % 2 ^ 32) % 2 ^ 32 := by
    rw [BitVec.toNat_add, hshift]
  have hcarry : (if c₀ + BitVec.ofNat 32 len <<< 3 < c₀ then c₁ + 1 else c₁).toNat =
      (c₁.toNat + (c₀.toNat + len * 8 % 2 ^ 32) / 2 ^ 32) % 2 ^ 32 := by
    by_cases hlt : c₀ + BitVec.ofNat 32 len <<< 3 < c₀
    · have hlt' := hlt
      rw [BitVec.lt_def, hsum] at hlt'
      rw [if_pos hlt, BitVec.toNat_add, show (1 : Word).toNat = 1 from rfl]
      omega
    · have hlt' := hlt
      rw [BitVec.lt_def, hsum] at hlt'
      rw [if_neg hlt]
      omega
  have hbits : 8 * (n + len) = 8 * n + (len / 2 ^ 29 * 2 ^ 32 + len * 8 % 2 ^ 32) := by omega
  rw [BitVec.toNat_add, hcarry, hhigh, hsum, hbits]
  exact digits_add (Nat.two_pow_pos 32) h

/-! ## A piece -/

/-- The loop transforms all whole blocks. -/
theorem transformLoop_spec (hlen : data.length + 63 < 2 ^ 32) : ∀ (fuel i : Nat) (state : Vector Word 5),
    i ≤ data.length → data.length < fuel + i → ∃ state' i',
      transformLoop data data.length fuel state i = some (state', i') ∧ i' ≤ data.length ∧
        absorb 64 compress state (data.drop i) = (state', data.drop i') := by
  intro fuel
  induction fuel with
  | zero =>
      intro i state hi hfuel
      omega
  | succ fuel ih =>
      intro i state hi hfuel
      unfold transformLoop
      rw [Nat.mod_eq_of_lt (show i + 63 < 2 ^ 32 by omega)]
      split
      · next hmore =>
          obtain ⟨state', i', hloop, hle, habsorb⟩ := ih (i + 64)
            (SHA1Transform state ((data.drop i).take 64)) (by omega) (by omega)
          refine ⟨state', i', hloop, hle, ?_⟩
          rw [transform_eq, ← List.drop_drop] at habsorb
          rw [← habsorb, ← absorb_block (by decide) (by rw [List.length_take, List.length_drop]; omega),
            List.take_append_drop]
      · next hend =>
          refine ⟨state, i, rfl, hi, absorb_short ?_⟩
          rw [List.length_drop]
          omega

/-- A copy that fits into the buffer. -/
theorem memcpy_eq {j : Nat} (hfit : j + data.length ≤ 64) : ∃ context',
    memcpy context j data = some context' ∧ context'.state = context.state ∧
      context'.count0 = context.count0 ∧ context'.count1 = context.count1 ∧
      context'.buffer = context.buffer.take j ++ (data ++ context.buffer.drop (j + data.length)) := by
  unfold memcpy
  rw [dif_pos hfit]
  exact ⟨_, rfl, rfl, rfl, rfl, rfl⟩

/-- The buffer holds what is behind the whole blocks of the longer message. -/
theorem holds_of_buffer {context : SHA1_CTX} {kept more tail : Bytes}
    (hcount : context.count1.toNat * 2 ^ 32 + context.count0.toNat =
      8 * (message.length + data.length) % (2 ^ 32 * 2 ^ 32))
    (hbuffer : context.buffer = kept ++ (more ++ tail))
    (habsorb : absorb 64 compress H0 (message ++ data) = (context.state, kept ++ more)) :
    Holds context (message ++ data) where
  count := by
    rw [List.length_append]
    exact hcount
  absorbed := by
    have hrest := @length_rest _ _ 64 (message ++ data) compress H0
    rw [habsorb] at hrest
    rw [habsorb, hbuffer, ← List.append_assoc, ← hrest, List.take_left]

/-- `len - i` bytes are all that is left. -/
theorem take_left_over {i : Nat} (hlen : data.length + 63 < 2 ^ 32) (hi : i ≤ data.length) :
    (data.drop i).take (left data.length i) = data.drop i := by
  have hsub : data.length + 2 ^ 32 - i = data.length - i + 2 ^ 32 := by omega
  rw [left, hsub, Nat.add_mod_right, Nat.mod_eq_of_lt (by omega), ← List.length_drop,
    List.take_length]

/-- `SHA1Update` holds the message with the data, and never leaves its buffer. -/
theorem update_holds (h : Holds context message) (hlen : data.length + 63 < 2 ^ 32) :
    ∃ context', SHA1Update context data = some context' ∧ Holds context' (message ++ data) := by
  have hlt : message.length % 64 < 64 := Nat.mod_lt _ (by decide)
  have hmod : data.length % 2 ^ 32 = data.length := Nat.mod_eq_of_lt (by omega)
  have hcount := @count_add _ _ _ data.length h.count (by omega)
  have happend := @absorb_append _ _ 64 message data compress H0 (by decide)
  rw [← h.absorbed] at happend
  unfold SHA1Update
  dsimp only
  rw [hmod, h.offset, Nat.mod_eq_of_lt (show message.length % 64 + data.length < 2 ^ 32 by omega)]
  have hkept : (context.buffer.take (message.length % 64)).length = message.length % 64 := by
    rw [List.length_take, context.size]
    omega
  split
  · next hfull =>
      -- the buffer is filled, whole blocks are transformed and the rest goes to its front
      obtain ⟨d₁, hd₁⟩ : ∃ d₁, d₁ = data.take (64 - message.length % 64) := ⟨_, rfl⟩
      have hlen₁ : d₁.length = 64 - message.length % 64 := by
        rw [hd₁, List.length_take]
        omega
      obtain ⟨context₁, hcopy, hstate₁, h₀₁, h₁₁, hbuffer₁⟩ := @memcpy_eq { context with
        count0 := context.count0 + BitVec.ofNat 32 data.length <<< 3
        count1 := (if context.count0 + BitVec.ofNat 32 data.length <<< 3 < context.count0 then
          context.count1 + 1 else context.count1) + BitVec.ofNat 32 data.length >>> 29 } d₁
        (message.length % 64) (by omega)
      dsimp only at hstate₁ h₀₁ h₁₁ hbuffer₁
      have hblock : context₁.buffer = context.buffer.take (message.length % 64) ++ d₁ := by
        rw [hbuffer₁, List.drop_of_length_le (by rw [context.size]; omega), List.append_nil]
      obtain ⟨state, i, hloop, hi, habsorb⟩ := transformLoop_spec hlen (data.length + 1)
        (64 - message.length % 64) (SHA1Transform context₁.state context₁.buffer) (by omega) (by omega)
      obtain ⟨context₂, hcopy₂, hstate₂, h₀₂, h₁₂, hbuffer₂⟩ := @memcpy_eq { context₁ with state }
        (data.drop i) 0 (by
          have hshort := @length_rest _ _ 64 (data.drop (64 - message.length % 64)) compress
            (SHA1Transform context₁.state context₁.buffer)
          rw [habsorb] at hshort
          dsimp only at hshort
          omega)
      have hall := take_left_over hlen hi
      rw [← hd₁, hcopy, Option.bind_eq_bind, Option.bind_some, hloop, Option.bind_eq_bind,
        Option.bind_some, hall]
      refine ⟨context₂, hcopy₂, @holds_of_buffer _ _ _ [] (data.drop i)
        (context₁.buffer.drop (0 + (data.drop i).length)) ?_ ?_ ?_⟩
      · rw [h₀₂, h₁₂, h₀₁, h₁₁]
        exact hcount
      · exact hbuffer₂
      · rw [happend, hstate₂, List.nil_append]
        dsimp only
        rw [← habsorb, transform_eq, hblock, hstate₁, ← absorb_block (by decide)
          (by rw [List.length_append, hkept, hlen₁]; omega), List.append_assoc, hd₁,
          List.take_append_drop]
  · next hroom =>
      obtain ⟨context₁, hcopy, hstate₁, h₀₁, h₁₁, hbuffer₁⟩ := @memcpy_eq { context with
        count0 := context.count0 + BitVec.ofNat 32 data.length <<< 3
        count1 := (if context.count0 + BitVec.ofNat 32 data.length <<< 3 < context.count0 then
          context.count1 + 1 else context.count1) + BitVec.ofNat 32 data.length >>> 29 } data
        (message.length % 64) (by omega)
      dsimp only at hstate₁ h₀₁ h₁₁ hbuffer₁
      rw [List.take_length]
      refine ⟨context₁, hcopy, holds_of_buffer ?_ hbuffer₁ ?_⟩
      · rw [h₀₁, h₁₁]
        exact hcount
      · rw [happend, hstate₁]
        refine absorb_short ?_
        dsimp only
        rw [List.length_append, hkept]
        omega

theorem updateAll_holds (pieces : List Bytes) (hlen : ∀ piece ∈ pieces, piece.length + 63 < 2 ^ 32)
    (h : Holds context message) :
    ∃ context', updateAll context pieces = some context' ∧ Holds context' (message ++ pieces.flatten) := by
  induction pieces generalizing context message with
  | nil =>
      rw [List.flatten_nil, List.append_nil]
      exact ⟨context, rfl, h⟩
  | cons piece pieces ih =>
      obtain ⟨context₁, hfirst, h₁⟩ := update_holds h (hlen piece List.mem_cons_self)
      obtain ⟨context₂, hmore, h₂⟩ := ih (fun p hp => hlen p (List.mem_cons_of_mem piece hp)) h₁
      refine ⟨context₂, ?_, ?_⟩
      · rw [updateAll, hfirst, Option.bind_some, hmore]
      · rw [List.flatten_cons, ← List.append_assoc]
        exact h₂

/-! ## The padding -/

/-- The bits that `& 504` keeps. -/
theorem and_504 (x : Nat) : x &&& 504 = x / 8 % 64 * 8 := by
  have hmask : 504 = 63 <<< 3 := by decide
  rw [hmask, ← Nat.shiftRight_eq_div_pow x 3, ← Nat.and_two_pow_sub_one_eq_mod _ 6]
  show _ = ((x >>> 3) &&& 63) * 2 ^ 3
  rw [← Nat.shiftLeft_eq]
  refine Nat.eq_of_testBit_eq fun i => ?_
  rw [Nat.testBit_and, Nat.testBit_shiftLeft, Nat.testBit_shiftLeft, Nat.testBit_and, Nat.testBit_shiftRight]
  by_cases hi : 3 ≤ i
  · rw [decide_eq_true hi, Bool.true_and, Bool.true_and, Nat.add_sub_cancel' hi]
  · rw [decide_eq_false hi, Bool.false_and, Bool.false_and, Bool.and_false]

/-- The loop ends in front of the last eight bytes of a block. -/
theorem Holds.padded (h : Holds context message) :
    context.count0 &&& 504#32 = 448#32 ↔ message.length % 64 = 56 := by
  have hcount := h.count
  have hlt := context.count0.isLt
  rw [← BitVec.toNat_inj, BitVec.toNat_and]
  show context.count0.toNat &&& 504 = 448 ↔ _
  rw [and_504]
  omega

/-- `SHA1Final` appends zeros. -/
theorem padLoop_holds : ∀ (fuel : Nat) {context : SHA1_CTX} {message : Bytes}, Holds context message →
    (120 - message.length % 64) % 64 < fuel → ∃ context', padLoop fuel context = some context' ∧
      Holds context' (message ++ List.replicate ((120 - message.length % 64) % 64) 0) := by
  intro fuel
  induction fuel with
  | zero => exact fun _ hfuel => absurd hfuel (Nat.not_lt_zero _)
  | succ fuel ih =>
      intro context message h hfuel
      unfold padLoop
      split
      · next hmore =>
          have hne : message.length % 64 ≠ 56 := fun heq => hmore (h.padded.mpr heq)
          obtain ⟨context₁, hone, h₁⟩ := @update_holds _ _ [0] h (by decide)
          obtain ⟨k, hk⟩ : ∃ k, (120 - message.length % 64) % 64 = k + 1 :=
            Nat.exists_eq_succ_of_ne_zero (by omega)
          have hless : (120 - (message ++ [0]).length % 64) % 64 = k := by
            rw [List.length_append, List.length_singleton]
            omega
          obtain ⟨context₂, hloop, h₂⟩ := ih h₁ (by omega)
          refine ⟨context₂, ?_, ?_⟩
          · rw [hone, Option.bind_some, hloop]
          · rw [hless, List.append_assoc] at h₂
            rw [hk, List.replicate_succ]
            exact h₂
      · next hend =>
          have heq := h.padded.mp (not_not.mp hend)
          refine ⟨context, rfl, ?_⟩
          rw [heq]
          show Holds context (message ++ [])
          rwa [List.append_nil]

/-! ## The digest -/

theorem byteOf_eq (word : Word) (i : Nat) :
    byteOf word i = UInt8.ofNat (word.toNat / 2 ^ (8 * (3 - i % 4))) := by
  refine UInt8.toNat_inj.mp ?_
  show (((word >>> ((3 - (i &&& 3)) * 8)) &&& 255#32).setWidth 8).toNat = _
  rw [BitVec.toNat_setWidth, BitVec.toNat_and, BitVec.toNat_ushiftRight, Nat.shiftRight_eq_div_pow,
    UInt8.toNat_ofNat', show (255#32).toNat = 2 ^ 8 - 1 from rfl, Nat.and_two_pow_sub_one_eq_mod,
    Nat.mod_mod, show i &&& 3 = i % 4 from Nat.and_two_pow_sub_one_eq_mod i 2, Nat.mul_comm]

/-- The counters are the length in the last eight bytes. -/
theorem Holds.finalcount (h : Holds context message) :
    (List.range 8).map (fun i => byteOf (if i ≥ 4 then context.count0 else context.count1) i) =
      lengthBytes message.length := by
  have hcount := h.count
  have h₀ := context.count0.isLt
  have h₁ := context.count1.isLt
  refine List.map_congr_left fun i hi => ?_
  rw [byteOf_eq]
  refine UInt8.toNat_inj.mp ?_
  rw [UInt8.toNat_ofNat', UInt8.toNat_ofNat']
  have hi := List.mem_range.mp hi
  have hcases : i = 0 ∨ i = 1 ∨ i = 2 ∨ i = 3 ∨ i = 4 ∨ i = 5 ∨ i = 6 ∨ i = 7 := by omega
  rcases hcases with rfl | rfl | rfl | rfl | rfl | rfl | rfl | rfl
  · show context.count1.toNat / 2 ^ 24 % 2 ^ 8 = 8 * message.length / 2 ^ 56 % 2 ^ 8
    omega
  · show context.count1.toNat / 2 ^ 16 % 2 ^ 8 = 8 * message.length / 2 ^ 48 % 2 ^ 8
    omega
  · show context.count1.toNat / 2 ^ 8 % 2 ^ 8 = 8 * message.length / 2 ^ 40 % 2 ^ 8
    omega
  · show context.count1.toNat / 2 ^ 0 % 2 ^ 8 = 8 * message.length / 2 ^ 32 % 2 ^ 8
    omega
  · show context.count0.toNat / 2 ^ 24 % 2 ^ 8 = 8 * message.length / 2 ^ 24 % 2 ^ 8
    omega
  · show context.count0.toNat / 2 ^ 16 % 2 ^ 8 = 8 * message.length / 2 ^ 16 % 2 ^ 8
    omega
  · show context.count0.toNat / 2 ^ 8 % 2 ^ 8 = 8 * message.length / 2 ^ 8 % 2 ^ 8
    omega
  · show context.count0.toNat / 2 ^ 0 % 2 ^ 8 = 8 * message.length / 2 ^ 0 % 2 ^ 8
    omega

/-- The digest is the bytes of the five words. -/
theorem digest_eq (state : Vector Word 5) :
    (List.range 20).map (fun i => byteOf (state.toArray.getD (i >>> 2) 0) i) =
      state.toList.flatMap wordBytes := by
  have hwords : state = #v[state[0], state[1], state[2], state[3], state[4]] := by
    refine Vector.ext fun i hi => ?_
    have hcases : i = 0 ∨ i = 1 ∨ i = 2 ∨ i = 3 ∨ i = 4 := by omega
    rcases hcases with rfl | rfl | rfl | rfl | rfl <;> rfl
  generalize state[0] = a, state[1] = b, state[2] = c, state[3] = d, state[4] = e at hwords
  subst hwords
  simp only [byteOf_eq]
  rfl

theorem pad_length (message : Bytes) : (pad message).length % 64 = 0 := by
  unfold pad lengthBytes
  rw [List.length_append, List.length_append, List.length_cons, List.length_replicate, List.length_map,
    List.length_range]
  omega

/-- `SHA1Final` gives the hash of the message. -/
theorem final_holds (h : Holds context message) : SHA1Final context = some (sha1 message) := by
  obtain ⟨context₁, hone, h₁⟩ := @update_holds _ _ [0o200] h (by decide)
  obtain ⟨context₂, hloop, h₂⟩ := padLoop_holds 64 h₁ (Nat.mod_lt _ (by decide))
  obtain ⟨context₃, hlast, h₃⟩ := @update_holds _ _ (lengthBytes message.length) h₂
    (by rw [lengthBytes, List.length_map, List.length_range]; decide)
  have hzeros : (120 - (message ++ [0o200]).length % 64) % 64 = (119 - message.length % 64) % 64 := by
    rw [List.length_append, List.length_singleton]
    omega
  have hpad : ((message ++ [0o200]) ++ List.replicate ((120 - (message ++ [0o200]).length % 64) % 64) 0)
      ++ lengthBytes message.length = pad message := by
    rw [hzeros]
    unfold pad
    simp only [List.append_assoc, List.cons_append, List.nil_append]
  have habsorbed := h₃.absorbed
  rw [hpad, absorb_whole (pad_length message)] at habsorbed
  unfold SHA1Final
  rw [h.finalcount, hone, Option.bind_eq_bind, Option.bind_some, hloop, Option.bind_some, hlast,
    Option.bind_some, digest_eq, (Prod.mk.inj habsorbed).1]
  rfl

/-- **SHA-1 of bytes in any pieces** is the hash of all of them, whatever the context held before
`SHA1Init`; no copy leaves the buffer and the padding ends. -/
theorem sha1_pieces (context : SHA1_CTX) (pieces : List Bytes)
    (hlen : ∀ piece ∈ pieces, piece.length + 63 < 2 ^ 32) :
    digestOf context pieces = some (sha1 pieces.flatten) := by
  obtain ⟨context₁, hall, h₁⟩ := updateAll_holds pieces hlen (init_holds context)
  unfold digestOf
  rw [hall, Option.bind_some, final_holds h₁, List.nil_append]

/-- The first test vector of the standard, in two pieces. -/
theorem sha1_pieces_abc : sha1 (cstr "abc") = [0xA9, 0x99, 0x3E, 0x36, 0x47, 0x06, 0x81, 0x6A, 0xBA, 0x3E,
    0x25, 0x71, 0x78, 0x50, 0xC2, 0x6C, 0x9C, 0xD0, 0xD8, 0x9D] := by
  have hpieces := sha1_pieces ⟨H0, 1, 1, List.replicate 64 7, rfl⟩ [cstr "a", cstr "bc"] (by decide)
  refine Option.some.inj (Eq.trans ?_ (show digestOf ⟨H0, 1, 1, List.replicate 64 7, rfl⟩
    [cstr "a", cstr "bc"] = some [0xA9, 0x99, 0x3E, 0x36, 0x47, 0x06, 0x81, 0x6A, 0xBA, 0x3E,
      0x25, 0x71, 0x78, 0x50, 0xC2, 0x6C, 0x9C, 0xD0, 0xD8, 0x9D] by decide +kernel))
  exact hpieces.symm

end Sha1

end RedisCore

/-
# `RedisCore.DictTypes` — the hash and compare functions of the dicts (server.c, dict.c)

The keys of a dict are strings, string objects or command names, each kind with a hash
function and a comparison of its own.  A dict finds a key only where keys that compare equal
have equal hashes.  For strings and objects this is so, whatever bytes and encodings they
have.  Command names are compared as C strings but hashed over their whole length, so there
it depends on what stands behind a NUL byte.

Lengths are passed on as `int`.
-/
import RedisCore.Compare
import RedisCore.Dict.Table
import Mathlib.Data.Nat.Digits.Defs
import Mathlib.Data.Nat.ModEq
import Mathlib.Data.List.Induction
import Mathlib.Tactic.Ring

namespace RedisCore

open CInt Decimal

/-! ## The hash functions of dict.c -/

/-- The constant `m` of `dictGenHashFunction`. -/
def hashM : UInt32 := 0x5bd1e995

/-- Four bytes as a `uint32_t`. -/
def hashWord (a b c d : UInt8) : UInt32 :=
  a.toUInt32 ||| b.toUInt32 <<< 8 ||| c.toUInt32 <<< 16 ||| d.toUInt32 <<< 24

/-- "Mix 4 bytes at a time into the hash": the hash and what is left of the input. -/
def hashMix : UInt32 → Bytes → UInt32 × Bytes
  | h, a :: b :: c :: d :: data =>
      let k := hashWord a b c d * hashM
      let k := (k ^^^ k >>> 24) * hashM
      hashMix (h * hashM ^^^ k) data
  | h, data => (h, data)

/-- "Handle the last few bytes of the input array". -/
def hashTail (h : UInt32) : Bytes → UInt32
  | [a, b, c] => (h ^^^ c.toUInt32 <<< 16 ^^^ b.toUInt32 <<< 8 ^^^ a.toUInt32) * hashM
  | [a, b] => (h ^^^ b.toUInt32 <<< 8 ^^^ a.toUInt32) * hashM
  | [a] => (h ^^^ a.toUInt32) * hashM
  | _ => h

/-- `dictGenHashFunction`, with `dict_hash_function_seed`.  A negative length is mixed into
the seed, and then no byte is read. -/
def dictGenHashFunction (seed : UInt32) (key : Bytes) (len : Int) : UInt32 :=
  let h := seed ^^^ UInt32.ofInt len
  let (h, data) := hashMix h (key.take len.toNat)
  let h := hashTail h data
  let h := (h ^^^ h >>> 13) * hashM
  h ^^^ h >>> 15

/-- `hash * 33 + c`. -/
def caseHashStep (hash : UInt32) (c : UInt8) : UInt32 := (hash <<< 5 + hash) + (lower c).toUInt32

/-- `dictGenCaseHashFunction`.  The loop counts `len` down to 0, which a negative length never
reaches. -/
def dictGenCaseHashFunction (seed : UInt32) (buf : Bytes) (len : Int) : Option UInt32 :=
  if len < 0 then none
  else some ((buf.take len.toNat).foldl caseHashStep seed)

/-! ## Strings -/

/-- `dictSdsHash`. -/
def dictSdsHash (seed : UInt32) (key : Bytes) : UInt32 :=
  dictGenHashFunction seed key (toInt key.length)

/-- `dictSdsKeyCompare`.  To `memcmp` a negative length is one beyond the end of any string. -/
def dictSdsKeyCompare (key1 key2 : Bytes) : Option Bool :=
  let l1 := toInt key1.length
  let l2 := toInt key2.length
  if l1 ≠ l2 then some false
  else if l1 < 0 then none
  else some (memcmp key1 key2 l1.toNat = 0)

/-! ## Objects -/

/-- `dictObjHash`: `ptr` has to be a string. -/
def dictObjHash (seed : UInt32) (o : Robj) : Option UInt32 := o.sds?.map (dictSdsHash seed)

/-- `dictObjKeyCompare`. -/
def dictObjKeyCompare (o1 o2 : Robj) : Option Bool :=
  o1.sds?.bind (fun s1 => o2.sds?.bind (fun s2 => dictSdsKeyCompare s1 s2))

/-- `dictEncObjHash`. -/
def dictEncObjHash (seed : UInt32) (o : Robj) : Option UInt32 :=
  match o.sds? with
  | some s => some (dictGenHashFunction seed s (toInt s.length))
  | none =>
      match o with
      | .int value =>
          let (buf, len) := ll2string (List.replicate 32 0) value
          some (dictGenHashFunction seed buf len)
      | _ =>
          ((getDecodedObject o).bind Robj.sds?).map (fun s =>
            dictGenHashFunction seed s (toInt s.length))

/-- `dictEncObjKeyCompare`. -/
def dictEncObjKeyCompare (o1 o2 : Robj) : Option Bool :=
  match o1, o2 with
  | .int value1, .int value2 => some (value1 = value2)
  | _, _ =>
      ((getDecodedObject o1).bind Robj.sds?).bind (fun s1 =>
        ((getDecodedObject o2).bind Robj.sds?).bind (fun s2 => dictSdsKeyCompare s1 s2))

/-! ## Command names -/

/-- `dictSdsCaseHash`. -/
def dictSdsCaseHash (seed : UInt32) (key : Bytes) : Option UInt32 :=
  dictGenCaseHashFunction seed key (toInt key.length)

/-- `dictSdsKeyCaseCompare`. -/
def dictSdsKeyCaseCompare (key1 key2 : Bytes) : Bool := strcaseEq (cstring key1) (cstring key2)

/-- A string of a length that is an `int`, as all arguments of commands are. -/
abbrev ShortSds : Type := {s : Bytes // s.length < 2 ^ 31}

/-- `commandTableDictType`. -/
def commandTableDictType (seed : UInt32) : DictType ShortSds where
  hashFunction key := ((dictSdsCaseHash seed key.val).getD 0).toNat
  keyCompare key1 key2 := dictSdsKeyCaseCompare key1.val key2.val

/-! ## Strings and objects agree -/

theorem memcmp_eq_zero : ∀ (s t : Bytes) (n : Nat), n ≤ s.length → n ≤ t.length →
    memcmp s t n = 0 → s.take n = t.take n := by
  intro s
  induction s with
  | nil =>
      intro t n hs _ _
      have hn : n = 0 := by simpa using hs
      subst hn
      simp
  | cons x s ih =>
      intro t n hs ht h
      cases n with
      | zero => simp
      | succ n =>
          cases t with
          | nil => simp at ht
          | cons y t =>
              rw [memcmp] at h
              by_cases hxy : x = y
              · rw [if_pos hxy] at h
                rw [List.take_succ_cons, List.take_succ_cons, hxy,
                  ih t n (Nat.le_of_succ_le_succ hs) (Nat.le_of_succ_le_succ ht) h]
              · rw [if_neg hxy] at h
                exact absurd (UInt8.toNat_inj.mp (by omega)) hxy

/-- A length that is passed on as an `int` is cut down, if it changes at all. -/
theorem toInt_length_le (s : Bytes) : (toInt s.length).toNat ≤ s.length := by
  unfold toInt
  rw [Int.bmod_def]
  split <;> omega

/-- The hash sees as many bytes as its `int` says. -/
theorem dictGenHashFunction_congr (seed : UInt32) {key key' : Bytes} {len : Int}
    (h : key.take len.toNat = key'.take len.toNat) :
    dictGenHashFunction seed key len = dictGenHashFunction seed key' len := by
  unfold dictGenHashFunction
  rw [h]

/-- **Strings** that compare equal have equal hashes. -/
theorem dictSds_agree (seed : UInt32) {s₁ s₂ : Bytes} (h : dictSdsKeyCompare s₁ s₂ = some true) :
    dictSdsHash seed s₁ = dictSdsHash seed s₂ := by
  unfold dictSdsKeyCompare at h
  simp only at h
  split at h
  · exact absurd h (by simp)
  · next hlen =>
      rw [not_not] at hlen
      split at h
      · exact absurd h (by simp)
      · have hcmp : memcmp s₁ s₂ (toInt s₁.length).toNat = 0 := by simpa using h
        have h₂ := toInt_length_le s₂
        rw [← hlen] at h₂
        rw [dictSdsHash, dictSdsHash, ← hlen]
        exact dictGenHashFunction_congr seed
          (memcmp_eq_zero _ _ _ (toInt_length_le s₁) h₂ hcmp)

/-- The hash of an object is that of its bytes. -/
theorem dictEncObjHash_eq (seed : UInt32) {o : Robj} (hs : o.isString = true) (hok : o.Ok) :
    dictEncObjHash seed o = some (dictSdsHash seed o.bytes) := by
  cases o with
  | raw s => rfl
  | embstr s => rfl
  | int value =>
      have hlen := length_decInt_le hok.1 hok.2
      have hroom : (decInt value).length < (List.replicate 32 (0 : UInt8)).length := by
        rw [List.length_replicate]
        omega
      have hint : toInt ((decInt value).length : Int) = (decInt value).length :=
        toInt_eq (by omega) (by omega)
      rw [dictEncObjHash, Robj.sds?, Robj.bytes, ll2str_eq hok.1 hok.2]
      simp only [ll2string_eq hok.1 hok.2 hroom, dictSdsHash, hint, Option.some.injEq]
      refine dictGenHashFunction_congr seed ?_
      rw [Int.toNat_natCast, List.take_left', List.take_length]
      rfl
  | other type => simp [Robj.isString] at hs

/-- Only string objects can be decoded, and decoding leads to their bytes. -/
theorem getDecodedObject_sds {o : Robj} (hok : o.Ok) {s : Bytes}
    (h : (getDecodedObject o).bind Robj.sds? = some s) : o.isString = true ∧ s = o.bytes := by
  have hs : o.isString = true := by
    cases o with
    | other type => simp [getDecodedObject] at h
    | _ => rfl
  obtain ⟨d, hd, hsds⟩ := getDecodedObject_spec hs hok
  rw [hd, Option.bind_some, hsds] at h
  exact ⟨hs, (Option.some.inj h).symm⟩

/-- What `dictEncObjKeyCompare` finds equal has the same string, or is the same number. -/
theorem dictEncObjKeyCompare_true {o₁ o₂ : Robj} (h₁ : o₁.Ok) (h₂ : o₂.Ok)
    (h : dictEncObjKeyCompare o₁ o₂ = some true) : o₁.isString = true ∧ o₂.isString = true ∧
      (o₁ = o₂ ∨ dictSdsKeyCompare o₁.bytes o₂.bytes = some true) := by
  unfold dictEncObjKeyCompare at h
  split at h
  · next value1 value2 =>
      simp only [Option.some.injEq, decide_eq_true_eq] at h
      exact ⟨rfl, rfl, Or.inl (by rw [h])⟩
  · obtain ⟨s₁, hs₁, h⟩ := Option.bind_eq_some_iff.mp h
    obtain ⟨s₂, hs₂, h⟩ := Option.bind_eq_some_iff.mp h
    obtain ⟨hstr₁, rfl⟩ := getDecodedObject_sds h₁ hs₁
    obtain ⟨hstr₂, rfl⟩ := getDecodedObject_sds h₂ hs₂
    exact ⟨hstr₁, hstr₂, Or.inr h⟩

/-- **Objects** that compare equal have equal hashes, in whatever encodings. -/
theorem dictEncObj_agree (seed : UInt32) {o₁ o₂ : Robj} (h₁ : o₁.Ok) (h₂ : o₂.Ok)
    (h : dictEncObjKeyCompare o₁ o₂ = some true) :
    ∃ hash, dictEncObjHash seed o₁ = some hash ∧ dictEncObjHash seed o₂ = some hash := by
  obtain ⟨hstr₁, hstr₂, heq⟩ := dictEncObjKeyCompare_true h₁ h₂ h
  refine ⟨_, dictEncObjHash_eq seed hstr₁ h₁, ?_⟩
  rw [dictEncObjHash_eq seed hstr₂ h₂]
  rcases heq with rfl | hcmp
  · rfl
  · rw [dictSds_agree seed hcmp]

/-- Objects that have to be strings already. -/
theorem dictObj_agree (seed : UInt32) {o₁ o₂ : Robj} (h : dictObjKeyCompare o₁ o₂ = some true) :
    ∃ hash, dictObjHash seed o₁ = some hash ∧ dictObjHash seed o₂ = some hash := by
  obtain ⟨s₁, hs₁, h⟩ := Option.bind_eq_some_iff.mp h
  obtain ⟨s₂, hs₂, h⟩ := Option.bind_eq_some_iff.mp h
  refine ⟨dictSdsHash seed s₁, by rw [dictObjHash, hs₁]; rfl, ?_⟩
  rw [dictObjHash, hs₂, dictSds_agree seed h]
  rfl

/-! ## Command names and their hashes -/

/-- The lower-case characters of a name as the digits of a number. -/
def lowerSum (s : Bytes) : Nat := Nat.ofDigits 33 (s.reverse.map (fun c => (lower c).toNat))

@[simp] theorem lowerSum_nil : lowerSum [] = 0 := rfl

theorem lowerSum_snoc (s : Bytes) (c : UInt8) :
    lowerSum (s ++ [c]) = (lower c).toNat + 33 * lowerSum s := by
  simp [lowerSum, Nat.ofDigits_cons]

theorem lowerSum_congr {s₁ s₂ : Bytes} (h : s₁.map lower = s₂.map lower) :
    lowerSum s₁ = lowerSum s₂ := by
  have hmap : ∀ s : Bytes, s.reverse.map (fun c => (lower c).toNat) =
      (s.map lower).reverse.map UInt8.toNat := by
    intro s
    rw [← List.map_reverse, List.map_map]
    rfl
  rw [lowerSum, lowerSum, hmap, hmap, h]

theorem toNat_caseHashStep (hash : UInt32) (c : UInt8) :
    (caseHashStep hash c).toNat = (hash.toNat * 33 + (lower c).toNat) % 2 ^ 32 := by
  have hshift : (hash <<< 5).toNat = hash.toNat * 32 % 2 ^ 32 := by
    rw [UInt32.toNat_shiftLeft, Nat.shiftLeft_eq]
    rfl
  rw [caseHashStep, UInt32.toNat_add, UInt32.toNat_add, hshift, UInt8.toNat_toUInt32]
  omega

/-- Every character multiplies the hash by 33. -/
theorem toNat_caseHash (seed : UInt32) (s : Bytes) : (s.foldl caseHashStep seed).toNat =
    (seed.toNat * 33 ^ s.length + lowerSum s) % 2 ^ 32 := by
  induction s using List.reverseRecOn with
  | nil => simp
  | append_singleton s c ih =>
      rw [List.foldl_append, List.foldl_cons, List.foldl_nil, toNat_caseHashStep, ih, lowerSum_snoc,
        List.length_append, List.length_singleton]
      have hring : seed.toNat * 33 ^ (s.length + 1) + ((lower c).toNat + 33 * lowerSum s) =
          (seed.toNat * 33 ^ s.length + lowerSum s) * 33 + (lower c).toNat := by ring
      rw [hring]
      generalize seed.toNat * 33 ^ s.length + lowerSum s = n
      omega

/-- The hash of a name. -/
theorem commandTable_hash (seed : UInt32) (key : ShortSds) :
    (commandTableDictType seed).hashFunction key =
      (seed.toNat * 33 ^ key.val.length + lowerSum key.val) % 2 ^ 32 := by
  have hlen : toInt (key.val.length : Int) = key.val.length := by
    have := key.property
    exact toInt_eq (by omega) (by omega)
  have hnn : ¬((key.val.length : Int) < 0) := by omega
  have hhash : dictSdsCaseHash seed key.val = some (key.val.foldl caseHashStep seed) := by
    rw [dictSdsCaseHash, hlen, dictGenCaseHashFunction, if_neg hnn, Int.toNat_natCast,
      List.take_length]
  rw [← toNat_caseHash]
  simp only [commandTableDictType, hhash, Option.getD_some]

/-- Two names that no seed tells apart. -/
def SameSum (s₁ s₂ : Bytes) : Prop :=
  33 ^ s₁.length ≡ 33 ^ s₂.length [MOD 2 ^ 32] ∧ lowerSum s₁ ≡ lowerSum s₂ [MOD 2 ^ 32]

theorem sameSum_of_strcaseEq {s₁ s₂ : Bytes} (h : strcaseEq s₁ s₂ = true) : SameSum s₁ s₂ := by
  have hmap : s₁.map lower = s₂.map lower := by simpa [strcaseEq] using h
  have hlen : s₁.length = s₂.length := by simpa using congrArg List.length hmap
  rw [SameSum, hlen, lowerSum_congr hmap]
  exact ⟨rfl, rfl⟩

/-- **The hashes of two names** agree for every seed where they have the same sum. -/
theorem hash_eq_iff {k₁ k₂ : ShortSds} :
    (∀ seed, (commandTableDictType seed).hashFunction k₁ =
      (commandTableDictType seed).hashFunction k₂) ↔ SameSum k₁.val k₂.val := by
  constructor
  · intro h
    have h₀ : lowerSum k₁.val ≡ lowerSum k₂.val [MOD 2 ^ 32] := by
      have := h 0
      rw [commandTable_hash, commandTable_hash] at this
      simpa [Nat.ModEq] using this
    have h₁ : 33 ^ k₁.val.length + lowerSum k₁.val ≡
        33 ^ k₂.val.length + lowerSum k₂.val [MOD 2 ^ 32] := by
      have := h 1
      rw [commandTable_hash, commandTable_hash] at this
      simpa [Nat.ModEq] using this
    exact ⟨h₀.add_right_cancel h₁, h₀⟩
  · rintro ⟨hpow, hsum⟩ seed
    rw [commandTable_hash, commandTable_hash]
    exact (hpow.mul_left seed.toNat).add hsum

end RedisCore

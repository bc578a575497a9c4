/-
# `RedisCore.Compare` — the order of string objects (object.c)

`compareStringObjects` compares what two string objects spell, byte by byte, and where
one is the beginning of the other by length.  The order it decides is the lexicographic
order of the bytes as numbers, whatever the encodings are.
-/
import RedisCore.Object
import Mathlib.Data.List.Lex

namespace RedisCore

open CInt Decimal

/-- The bytes as `unsigned char` values, in whose lexicographic order strings are. -/
def byteValues (s : Bytes) : List Nat := s.map UInt8.toNat

/-- `memcmp` on the first bytes of two strings. -/
def memcmp : Bytes → Bytes → Nat → Int
  | x :: xs, y :: ys, n + 1 => if x = y then memcmp xs ys n else (x.toNat : Int) - y.toNat
  | _, _, _ => 0

/-- What `compareStringObjectsWithFlags` compares of an object: memory that starts with
its characters, and their number.  A number is written to a buffer of 128 bytes. -/
def comparedString (o : Robj) : Bytes × Nat :=
  match o with
  | .raw s | .embstr s => (s, s.length)
  | .int value => ll2string (List.replicate 128 0) value
  | .other _ => ([], 0)

/-- `compareStringObjects` on string objects: `compareStringObjectsWithFlags` without
`REDIS_COMPARE_COLL`.  Two references to one object need no comparison, and would compare
equal. -/
def compareStringObjects (a b : Robj) : Int :=
  let (astr, alen) := comparedString a
  let (bstr, blen) := comparedString b
  let minlen := if alen < blen then alen else blen
  let cmp := memcmp astr bstr minlen
  if cmp = 0 then toInt (alen - blen) else cmp

/-- `equalStringObjects` on string objects. -/
def equalStringObjects (a b : Robj) : Bool :=
  match a, b with
  | .int value, .int value' => value = value'
  | _, _ => compareStringObjects a b = 0

/-- A string object as `compareStringObjects` asserts it, an INT object being one that is
a `long`, and of a length for which the difference of two is an `int`. -/
structure StringObj where
  val : Robj
  isString : val.isString = true
  ok : val.Ok
  short : val.bytes.length < 2 ^ 31

/-- The compared memory begins with the bytes of the object, and the length is theirs. -/
theorem comparedString_spec {o : Robj} (hok : o.Ok) :
    ∃ rest, comparedString o = (o.bytes ++ rest, o.bytes.length) := by
  cases o with
  | raw s => exact ⟨[], by rw [List.append_nil]; rfl⟩
  | embstr s => exact ⟨[], by rw [List.append_nil]; rfl⟩
  | int value =>
      have hlen := length_decInt_le hok.1 hok.2
      have hroom : (decInt value).length < (List.replicate 128 (0 : UInt8)).length := by
        rw [List.length_replicate]
        omega
      rw [Robj.bytes, ll2str_eq hok.1 hok.2, comparedString, ll2string_eq hok.1 hok.2 hroom]
      exact ⟨_, rfl⟩
  | other type => exact ⟨[], rfl⟩

/-- `memcmp` looks at the bytes it is told to look at. -/
theorem memcmp_append : ∀ (s t rest rest' : Bytes) (n : Nat), n ≤ s.length → n ≤ t.length →
    memcmp (s ++ rest) (t ++ rest') n = memcmp s t n := by
  intro s
  induction s with
  | nil =>
      intro t rest rest' n hs _
      have hn : n = 0 := by simpa using hs
      subst hn
      simp [memcmp]
  | cons x s ih =>
      intro t rest rest' n hs ht
      cases n with
      | zero => simp [memcmp]
      | succ n =>
          cases t with
          | nil => simp at ht
          | cons y t =>
              simp only [List.cons_append, memcmp]
              rw [ih t rest rest' n (Nat.le_of_succ_le_succ hs) (Nat.le_of_succ_le_succ ht)]

/-- The comparison in terms of the bytes of the objects. -/
theorem compareStringObjects_eq {a b : Robj} (hoka : a.Ok) (hokb : b.Ok) :
    compareStringObjects a b =
      if memcmp a.bytes b.bytes (min a.bytes.length b.bytes.length) = 0 then
        toInt (a.bytes.length - b.bytes.length)
      else memcmp a.bytes b.bytes (min a.bytes.length b.bytes.length) := by
  obtain ⟨ra, hra⟩ := comparedString_spec hoka
  obtain ⟨rb, hrb⟩ := comparedString_spec hokb
  have hmin : (if a.bytes.length < b.bytes.length then a.bytes.length else b.bytes.length) =
      min a.bytes.length b.bytes.length := by
    split <;> omega
  simp only [compareStringObjects, hra, hrb, hmin]
  rw [memcmp_append _ _ _ _ _ (Nat.min_le_left _ _) (Nat.min_le_right _ _)]

theorem byteValues_inj {s t : Bytes} : byteValues s = byteValues t ↔ s = t := by
  constructor
  · intro h
    exact List.map_injective_iff.mpr (fun _ _ => UInt8.toNat_inj.mp) h
  · rintro rfl
    rfl

/-- What the comparison of the common length and then of the lengths says. -/
theorem memcmp_spec : ∀ (s t : Bytes),
    (memcmp s t (min s.length t.length) < 0 → byteValues s < byteValues t) ∧
    (0 < memcmp s t (min s.length t.length) → byteValues t < byteValues s) ∧
    (memcmp s t (min s.length t.length) = 0 →
      (s.length < t.length → byteValues s < byteValues t) ∧
      (t.length < s.length → byteValues t < byteValues s) ∧ (s.length = t.length → s = t)) := by
  intro s
  induction s with
  | nil =>
      intro t
      cases t with
      | nil => simp [memcmp]
      | cons y t => simp [memcmp, byteValues]
  | cons x s ih =>
      intro t
      cases t with
      | nil => simp [memcmp, byteValues]
      | cons y t =>
          obtain ⟨h₁, h₂, h₃⟩ := ih t
          rw [List.length_cons, List.length_cons, Nat.succ_min_succ]
          by_cases hxy : x = y
          · subst hxy
            simp only [memcmp, if_true]
            refine ⟨fun h => ?_, fun h => ?_, fun h => ⟨fun hl => ?_, fun hl => ?_, fun hl => ?_⟩⟩
            · exact List.cons_lt_cons_iff.mpr (Or.inr ⟨rfl, h₁ h⟩)
            · exact List.cons_lt_cons_iff.mpr (Or.inr ⟨rfl, h₂ h⟩)
            · exact List.cons_lt_cons_iff.mpr (Or.inr ⟨rfl, (h₃ h).1 (by omega)⟩)
            · exact List.cons_lt_cons_iff.mpr (Or.inr ⟨rfl, (h₃ h).2.1 (by omega)⟩)
            · rw [(h₃ h).2.2 (by omega)]
          · have hne : x.toNat ≠ y.toNat := fun h => hxy (UInt8.toNat_inj.mp h)
            simp only [memcmp, if_neg hxy]
            refine ⟨fun h => ?_, fun h => ?_, fun h => ?_⟩
            · exact List.cons_lt_cons_iff.mpr (Or.inl (by omega))
            · exact List.cons_lt_cons_iff.mpr (Or.inl (by omega))
            · omega

/-- **`compareStringObjects`** decides the lexicographic order of the bytes. -/
theorem compareStringObjects_spec {a b : Robj} (ha : a.bytes.length < 2 ^ 31)
    (hb : b.bytes.length < 2 ^ 31) (hoka : a.Ok) (hokb : b.Ok) :
    (compareStringObjects a b < 0 ↔ byteValues a.bytes < byteValues b.bytes) ∧
      (compareStringObjects a b = 0 ↔ a.bytes = b.bytes) := by
  obtain ⟨h₁, h₂, h₃⟩ := memcmp_spec a.bytes b.bytes
  have hint : toInt (a.bytes.length - b.bytes.length) = a.bytes.length - b.bytes.length :=
    toInt_eq (by omega) (by omega)
  -- one of the three cases of the order, with the sign of the result
  have hcase : (compareStringObjects a b < 0 ∧ byteValues a.bytes < byteValues b.bytes) ∨
      (compareStringObjects a b = 0 ∧ a.bytes = b.bytes) ∨
      (0 < compareStringObjects a b ∧ byteValues b.bytes < byteValues a.bytes) := by
    rw [compareStringObjects_eq hoka hokb]
    rcases lt_trichotomy (memcmp a.bytes b.bytes (min a.bytes.length b.bytes.length)) 0 with
      hlt | heq | hgt
    · exact Or.inl (by rw [if_neg (by omega)]; exact ⟨hlt, h₁ hlt⟩)
    · rw [if_pos heq, hint]
      rcases lt_trichotomy a.bytes.length b.bytes.length with hl | hl | hl
      · exact Or.inl ⟨by omega, (h₃ heq).1 hl⟩
      · exact Or.inr (Or.inl ⟨by omega, (h₃ heq).2.2 hl⟩)
      · exact Or.inr (Or.inr ⟨by omega, (h₃ heq).2.1 hl⟩)
    · exact Or.inr (Or.inr (by rw [if_neg (by omega)]; exact ⟨hgt, h₂ hgt⟩))
  rcases hcase with ⟨hc, hlt⟩ | ⟨hc, heq⟩ | ⟨hc, hgt⟩
  · refine ⟨⟨fun _ => hlt, fun _ => hc⟩, ⟨fun h => by omega, fun h => ?_⟩⟩
    rw [h] at hlt
    exact absurd hlt (lt_irrefl _)
  · refine ⟨⟨fun h => by omega, fun h => ?_⟩, ⟨fun _ => heq, fun _ => hc⟩⟩
    rw [heq] at h
    exact absurd h (lt_irrefl _)
  · refine ⟨⟨fun h => by omega, fun h => absurd h (lt_asymm hgt)⟩,
      ⟨fun h => by omega, fun h => ?_⟩⟩
    rw [h] at hgt
    exact absurd hgt (lt_irrefl _)

/-- **`equalStringObjects`** holds of objects that spell the same. -/
theorem equalStringObjects_iff {a b : Robj} (ha : a.bytes.length < 2 ^ 31)
    (hb : b.bytes.length < 2 ^ 31) (hoka : a.Ok) (hokb : b.Ok) :
    equalStringObjects a b = true ↔ a.bytes = b.bytes := by
  have hcmp := (compareStringObjects_spec ha hb hoka hokb).2
  unfold equalStringObjects
  split
  · next value value' =>
      simp only [decide_eq_true_eq]
      constructor
      · rintro rfl
        rfl
      · intro h
        have h₁ := string2ll_complete hoka.1 hoka.2
        have h₂ := string2ll_complete hokb.1 hokb.2
        rw [← ll2str_eq hoka.1 hoka.2, show ll2str value = ll2str value' from h,
          ll2str_eq hokb.1 hokb.2, h₂] at h₁
        exact (Option.some.inj h₁).symm
  · simp only [decide_eq_true_eq, hcmp]

namespace StringObj

/-- The bytes of a string object. -/
def bytes (o : StringObj) : Bytes := o.val.bytes

/-- `a` comes not after `b`, as `compareStringObjects` decides it. -/
def NotAfter (a b : StringObj) : Prop := compareStringObjects a.val b.val ≤ 0

theorem compare_neg {a b : StringObj} :
    compareStringObjects a.val b.val < 0 ↔ byteValues a.bytes < byteValues b.bytes :=
  (compareStringObjects_spec a.short b.short a.ok b.ok).1

theorem compare_zero {a b : StringObj} :
    compareStringObjects a.val b.val = 0 ↔ a.bytes = b.bytes :=
  (compareStringObjects_spec a.short b.short a.ok b.ok).2

theorem notAfter_iff {a b : StringObj} : NotAfter a b ↔ byteValues a.bytes ≤ byteValues b.bytes := by
  rw [NotAfter, Int.le_iff_lt_or_eq, compare_neg, compare_zero, le_iff_lt_or_eq, byteValues_inj]

theorem compare_pos {a b : StringObj} :
    0 < compareStringObjects a.val b.val ↔ byteValues b.bytes < byteValues a.bytes := by
  rw [← Int.not_le, ← NotAfter, notAfter_iff, not_le]

/-- The sign of a comparison depends on the bytes only. -/
theorem compare_sign {a b a' b' : StringObj} (ha : a.bytes = a'.bytes) (hb : b.bytes = b'.bytes) :
    (compareStringObjects a.val b.val).sign = (compareStringObjects a'.val b'.val).sign := by
  rcases lt_trichotomy (compareStringObjects a.val b.val) 0 with h | h | h
  · have h' := compare_neg.mp h
    rw [ha, hb] at h'
    rw [Int.sign_eq_neg_one_of_neg h, Int.sign_eq_neg_one_of_neg (compare_neg.mpr h')]
  · have h' := compare_zero.mp h
    rw [ha, hb] at h'
    rw [h, compare_zero.mpr h']
  · have h' := compare_pos.mp h
    rw [ha, hb] at h'
    rw [Int.sign_eq_one_of_pos h, Int.sign_eq_one_of_pos (compare_pos.mpr h')]

/-- **String objects mean their bytes.**  Encoding and decoding keep them, the length is
their number, and equality and order are those of the bytes, a proper prefix coming first.
So the order is total and the encodings do not matter to it. -/
theorem means_bytes (refcount : Nat) (a b : StringObj) :
    (tryObjectEncoding refcount a.val).bytes = a.bytes ∧
    (∃ d, getDecodedObject a.val = some d ∧ d.sds? = some a.bytes) ∧
    stringObjectLen a.val = some a.bytes.length ∧
    (equalStringObjects a.val b.val = true ↔ a.bytes = b.bytes) ∧
    (compareStringObjects a.val b.val < 0 ↔
      List.Lex (· < ·) (byteValues a.bytes) (byteValues b.bytes)) ∧
    (compareStringObjects a.val b.val = 0 ↔ a.bytes = b.bytes) ∧
    (0 < compareStringObjects a.val b.val ↔
      List.Lex (· < ·) (byteValues b.bytes) (byteValues a.bytes)) ∧
    (NotAfter a b ∨ NotAfter b a) ∧
    (NotAfter a b → NotAfter b a → a.bytes = b.bytes) ∧
    (∀ c, NotAfter a b → NotAfter b c → NotAfter a c) ∧
    ∀ a' b' : StringObj, a.bytes = a'.bytes → b.bytes = b'.bytes →
      equalStringObjects a.val b.val = equalStringObjects a'.val b'.val ∧
      (compareStringObjects a.val b.val).sign = (compareStringObjects a'.val b'.val).sign := by
  have hequal : ∀ a b : StringObj, equalStringObjects a.val b.val = true ↔ a.bytes = b.bytes :=
    fun a b => equalStringObjects_iff a.short b.short a.ok b.ok
  refine ⟨bytes_tryObjectEncoding refcount a.val, getDecodedObject_spec a.isString a.ok,
    stringObjectLen_spec a.isString a.ok, hequal a b, compare_neg, compare_zero, compare_pos,
    ?_, ?_, ?_, fun a' b' ha hb => ⟨?_, compare_sign ha hb⟩⟩
  · rw [notAfter_iff, notAfter_iff]
    exact le_total _ _
  · intro h₁ h₂
    exact byteValues_inj.mp (le_antisymm (notAfter_iff.mp h₁) (notAfter_iff.mp h₂))
  · intro c h₁ h₂
    exact notAfter_iff.mpr (le_trans (notAfter_iff.mp h₁) (notAfter_iff.mp h₂))
  · rw [Bool.eq_iff_iff, hequal, hequal, ha, hb]

end StringObj

end RedisCore

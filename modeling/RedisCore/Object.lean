/-
# `RedisCore.Object` — string objects (object.c)

A string object is RAW, EMBSTR or INT, and only its bytes are the value: the
encodings are ways to hold them.  `tryObjectEncoding` picks one, and every function
that reads an object back has to undo the choice.
-/
import RedisCore.Util

namespace RedisCore

open CInt Decimal

/-- `OBJ_ENCODING_EMBSTR_SIZE_LIMIT`. -/
def OBJ_ENCODING_EMBSTR_SIZE_LIMIT : Nat := 44

/-- `OBJ_SHARED_INTEGERS`. -/
def OBJ_SHARED_INTEGERS : Int := 10000

/-- The object types that are not strings. -/
inductive ObjType where
  | list | set | zset | hash
deriving DecidableEq, Repr

/-- `robj`.  A string object by its encoding, with what `ptr` leads to; of any other
object only the type is kept. -/
inductive Robj where
  | raw (s : Bytes)
  | embstr (s : Bytes)
  | int (value : Int)
  | other (type : ObjType)
deriving DecidableEq, Repr

/-- `sdsEncodedObject`, with the string. -/
def Robj.sds? : Robj → Option Bytes
  | .raw s | .embstr s => some s
  | .int _ | .other _ => none

/-- `o->type == OBJ_STRING`. -/
def Robj.isString : Robj → Bool
  | .other _ => false
  | _ => true

/-- `createStringObject`. -/
def createStringObject (s : Bytes) : Robj :=
  if s.length ≤ OBJ_ENCODING_EMBSTR_SIZE_LIMIT then .embstr s else .raw s

/-- `createStringObjectFromLongLong`; a `long` holds every `long long`, and a shared
integer is an INT object like any other. -/
def createStringObjectFromLongLong (value : Int) : Robj := .int value

/-- `tryObjectEncoding`.  The object is given back as it is when someone else holds a
reference. -/
def tryObjectEncoding (refcount : Nat) (o : Robj) : Robj :=
  match o.sds? with
  | none => o
  | some s =>
      if refcount > 1 then o
      else
        match (if s.length ≤ 20 then string2l s else none) with
        -- one of `shared.integers`, or `o` itself: an INT object either way
        | some value => .int value
        | none =>
            if s.length ≤ OBJ_ENCODING_EMBSTR_SIZE_LIMIT then
              match o with
              | .embstr _ => o
              | _ => .embstr s
            -- a RAW string only has its spare room given back
            else o

/-- `getDecodedObject`; the length of the new string is the `strlen` of the buffer. -/
def getDecodedObject (o : Robj) : Option Robj :=
  match o with
  | .raw _ | .embstr _ => some o
  | .int value =>
      let buf := (ll2string (List.replicate 32 0) value).1
      some (createStringObject (cstring buf))
  | .other _ => none

/-- `stringObjectLen`; `none` is the failed assertion. -/
def stringObjectLen (o : Robj) : Option Nat :=
  match o with
  | .raw s | .embstr s => some s.length
  | .int value => some (sdigits10 value)
  | .other _ => none

/-- `getLongLongFromObject`; `none` is `C_ERR`. -/
def getLongLongFromObject (o : Robj) : Option Int :=
  match o with
  | .raw s | .embstr s => string2ll s
  | .int value => some value
  | .other _ => none

/-- `equalStringObjects` on string objects, which compares what the objects spell. -/
def Robj.bytes : Robj → Bytes
  | .raw s | .embstr s => s
  | .int value => ll2str value
  | .other _ => []

/-- What an INT object may hold. -/
def Robj.Ok : Robj → Prop
  | .int value => LONG_MIN ≤ value ∧ value ≤ LONG_MAX
  | _ => True

theorem Robj.bytes_of_sds? {o : Robj} {s : Bytes} (h : o.sds? = some s) : o.bytes = s := by
  cases o <;> simp_all [Robj.sds?, Robj.bytes]

theorem bytes_createStringObject (s : Bytes) : (createStringObject s).bytes = s := by
  unfold createStringObject
  split <;> rfl

/-- Re-encoding keeps the bytes. -/
theorem bytes_tryObjectEncoding (refcount : Nat) (o : Robj) :
    (tryObjectEncoding refcount o).bytes = o.bytes := by
  simp only [tryObjectEncoding, string2l_eq]
  cases hs : o.sds? with
  | none => rfl
  | some s =>
      have hb := Robj.bytes_of_sds? hs
      simp only
      split
      · rfl
      · split
        · next value hv =>
            split at hv
            · rw [hb]; exact ll2str_of_string2ll hv
            · exact absurd hv (by simp)
        · split
          · cases o with
            | embstr s' => rfl
            | raw s' => exact hb.symm
            | int value => simp [Robj.sds?] at hs
            | other type => simp [Robj.sds?] at hs
          · rfl

theorem tryObjectEncoding_ok (refcount : Nat) {o : Robj} (h : o.Ok) :
    (tryObjectEncoding refcount o).Ok := by
  simp only [tryObjectEncoding, string2l_eq]
  cases hs : o.sds? with
  | none => exact h
  | some s =>
      simp only
      split
      · exact h
      · split
        · next value hv =>
            split at hv
            · obtain ⟨h₁, h₂, _⟩ := string2ll_sound hv
              exact ⟨h₁, h₂⟩
            · exact absurd hv (by simp)
        · split
          · cases o with
            | embstr s' => exact True.intro
            | raw s' => exact True.intro
            | int value => simp [Robj.sds?] at hs
            | other type => simp [Robj.sds?] at hs
          · exact h

theorem isString_tryObjectEncoding (refcount : Nat) (o : Robj) :
    (tryObjectEncoding refcount o).isString = o.isString := by
  simp only [tryObjectEncoding, string2l_eq]
  cases o with
  | int value => rfl
  | other type => rfl
  | raw s =>
      simp only [Robj.sds?]
      repeat' split
      all_goals rfl
  | embstr s =>
      simp only [Robj.sds?]
      repeat' split
      all_goals rfl

/-- Decoding gives a string object that is not encoded, with the same bytes. -/
theorem getDecodedObject_spec {o : Robj} (hs : o.isString = true) (hok : o.Ok) :
    ∃ d, getDecodedObject o = some d ∧ d.sds? = some o.bytes := by
  cases o with
  | raw s => exact ⟨_, rfl, rfl⟩
  | embstr s => exact ⟨_, rfl, rfl⟩
  | int value =>
      have hlen := length_decInt_le hok.1 hok.2
      refine ⟨_, rfl, ?_⟩
      rw [ll2string_eq hok.1 hok.2 (by rw [List.length_replicate]; omega), cstring_decInt,
        Robj.bytes, ll2str_eq hok.1 hok.2, createStringObject]
      split <;> rfl
  | other type => exact absurd hs (by simp [Robj.isString])

/-- The length of a string object is the number of its bytes. -/
theorem stringObjectLen_spec {o : Robj} (hs : o.isString = true) (hok : o.Ok) :
    stringObjectLen o = some o.bytes.length := by
  cases o with
  | raw s => rfl
  | embstr s => rfl
  | int value =>
      rw [stringObjectLen, Robj.bytes, sdigits10_spec hok.1 hok.2, ll2str_eq hok.1 hok.2]
  | other type => exact absurd hs (by simp [Robj.isString])

end RedisCore

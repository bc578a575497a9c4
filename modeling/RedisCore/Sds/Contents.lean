/-
# `RedisCore.Sds.Contents` — what a dynamic string stands for

`s.Has b spare` says that the string has the bytes `b`, with a NUL behind them and the bytes
`spare` after that, and that its header tells the truth: the length, and a size that fits into
its field and into the block; `s.Holds b spare` bounds that size too.  Where the NUL is not
written yet, `Lies` and `Keeps` say the same with another byte there.  Each function that
changes a string keeps this for the bytes it is to leave, whatever header the string has before
and after.
-/
import RedisCore.Sds.Header

namespace RedisCore

open Splice SdsType

namespace Sdshdr

/-- The bytes of the string are `b`; behind them there are `x` and `spare`. -/
structure Lies (s : Sdshdr) (b : Bytes) (x : UInt8) (spare : Bytes) : Prop where
  buf : s.buf = b ++ x :: spare
  len : s.sdslen = b.length
  alloc : b.length ≤ s.sdsalloc
  room : s.sdsalloc ≤ b.length + spare.length
  fits : s.sdsalloc < 2 ^ s.type.bits

/-- The string is `b`, and behind its NUL there is `spare`. -/
abbrev Has (s : Sdshdr) (b spare : Bytes) : Prop := s.Lies b 0 spare

/-- What is allocated for a string with a length below 2^63 is less than this. -/
def tooLong : Nat := 2 ^ 63 + 2 ^ 20

/-- The same as `Lies`, of a string that is not too long. -/
structure Keeps (s : Sdshdr) (b : Bytes) (x : UInt8) (spare : Bytes) : Prop
    extends s.Lies b x spare where
  bound : s.sdsalloc < tooLong

/-- The same as `Has`, of a string that is not too long. -/
abbrev Holds (s : Sdshdr) (b spare : Bytes) : Prop := s.Keeps b 0 spare

variable {s s' : Sdshdr} {b c t spare : Bytes} {x : UInt8} {i n : Nat} {junk : Nat → UInt8}

/-! ## Headers -/

@[simp] theorem sdslen_eq (s : Sdshdr) : s.sdslen = s.len := rfl
@[simp] theorem sdssetlen_buf (s : Sdshdr) (n : Nat) : (s.sdssetlen n).buf = s.buf := rfl
@[simp] theorem sdssetlen_type (s : Sdshdr) (n : Nat) : (s.sdssetlen n).type = s.type := rfl
@[simp] theorem sdssetalloc_buf (s : Sdshdr) (n : Nat) : (s.sdssetalloc n).buf = s.buf := by
  unfold sdssetalloc
  split <;> rfl
@[simp] theorem sdssetalloc_type (s : Sdshdr) (n : Nat) : (s.sdssetalloc n).type = s.type := by
  unfold sdssetalloc
  split <;> rfl
@[simp] theorem sdssetalloc_len (s : Sdshdr) (n : Nat) : (s.sdssetalloc n).len = s.len := by
  unfold sdssetalloc
  split <;> rfl

theorem sdssetlen_len (h : n < 2 ^ s.type.bits) : (s.sdssetlen n).len = n := Nat.mod_eq_of_lt h

/-- The size, once it is set. -/
theorem sdsalloc_sdssetalloc (h : n < 2 ^ s.type.bits) (h5 : s.type = SDS_TYPE_5 → s.len = n) :
    (s.sdssetalloc n).sdsalloc = n := by
  unfold sdssetalloc sdsalloc
  cases ht : s.type <;> simp_all [Nat.mod_eq_of_lt]

/-- A shorter length: the size stays, or is the length itself. -/
theorem sdsalloc_sdssetlen (hn : n ≤ s.sdsalloc) (h : s.sdsalloc < 2 ^ s.type.bits) :
    n ≤ (s.sdssetlen n).sdsalloc ∧ (s.sdssetlen n).sdsalloc ≤ s.sdsalloc := by
  have hlen : (s.sdssetlen n).len = n := sdssetlen_len (Nat.lt_of_le_of_lt hn h)
  unfold sdsalloc at hn ⊢
  rw [sdssetlen_type, hlen]
  cases ht : s.type <;> simp_all [sdssetlen]

theorem sdsReqType_fits (h : n < 2 ^ 64) : n < 2 ^ (sdsReqType n).bits := by
  unfold sdsReqType
  split
  · assumption
  · split
    · assumption
    · split
      · assumption
      · split
        · assumption
        · exact h

theorem avail_le (s : Sdshdr) (h : s.len ≤ s.sdsalloc) : s.len + s.sdsavail ≤ s.sdsalloc := by
  unfold sdsalloc sdsavail at *
  cases ht : s.type <;> simp_all

/-! ## Memory -/

@[simp] theorem length_s_malloc (size : Nat) (junk : Nat → UInt8) :
    (s_malloc size junk).length = size := by
  simp [s_malloc]

theorem length_s_realloc {block : Bytes} {size : Nat} (h : block.length ≤ size) :
    (s_realloc block size junk).length = size := by
  simp only [s_realloc, List.length_append, List.length_take, length_s_malloc]
  omega

theorem overwrite_zero (l chunk : Bytes) : overwrite l 0 chunk = chunk ++ l.drop chunk.length := by
  simp [overwrite]

theorem overwrite_append (a l chunk : Bytes) (h : i = a.length) :
    overwrite (a ++ l) i chunk = a ++ chunk ++ l.drop chunk.length := by
  subst h
  rw [overwrite, List.take_left, List.drop_append, List.drop_of_length_le (by omega),
    Nat.add_sub_cancel_left, List.nil_append]

theorem store_append {a l t : Bytes} (hb : s.buf = a ++ l) (hi : i = a.length)
    (hroom : t.length ≤ l.length) :
    s.store i t = some { s with buf := a ++ t ++ l.drop t.length } := by
  have hlen : i + t.length ≤ s.buf.length := by
    rw [hb, List.length_append]
    omega
  rw [store, if_pos hlen, hb, overwrite_append a l t hi]

theorem store_zero {chunk : Bytes} (hroom : chunk.length ≤ s.buf.length) :
    s.store 0 chunk = some { s with buf := chunk ++ s.buf.drop chunk.length } :=
  store_append (a := []) rfl rfl hroom

theorem store_sdssetlen (s : Sdshdr) (n i : Nat) (chunk : Bytes) :
    (s.sdssetlen n).store i chunk = (s.store i chunk).map (·.sdssetlen n) := by
  unfold store
  rw [sdssetlen_buf]
  split <;> rfl

theorem size_t_eq (h : n < 2 ^ 64) : size_t n = n := Nat.mod_eq_of_lt h

theorem sdsHdrSize_le (type : SdsType) : sdsHdrSize type ≤ 17 := by
  cases type <;> decide

/-- The block that is asked for, without its header. -/
theorem size_t_block (type : SdsType) (h : n < tooLong) :
    size_t (sdsHdrSize type + n + 1) - sdsHdrSize type = n + 1 ∧
      size_t (sdsHdrSize type + n + 1) = sdsHdrSize type + (n + 1) := by
  have hhdr := sdsHdrSize_le type
  have htoo : tooLong = 2 ^ 63 + 2 ^ 20 := rfl
  rw [size_t_eq (by omega)]
  omega

/-! ## One function after the other -/

theorem Lies.load (hs : s.Lies b x spare) : s.load 0 (b.length + 1) = some (b ++ [x]) := by
  have hlen : 0 + (b.length + 1) ≤ s.buf.length := by
    rw [hs.buf, List.length_append, List.length_cons]
    omega
  rw [Sdshdr.load, if_pos hlen, hs.buf, slice, List.drop_zero, List.take_append,
    List.take_of_length_le (by omega), Nat.add_sub_cancel_left]
  rfl

/-- The header is set to a length and a size that fit. -/
theorem keeps_of_header {k : SdsType} (hbuf : s.buf = b ++ x :: spare)
    (ht : s.type = k) (hlen : s.len = b.length) (hn : b.length ≤ n)
    (hroom : n ≤ b.length + spare.length) (hfits : n < 2 ^ k.bits) (hbound : n < tooLong)
    (h5 : k = SDS_TYPE_5 → b.length = n) :
    (s.sdssetalloc n).Keeps b x spare ∧ (s.sdssetalloc n).sdsalloc = n := by
  subst ht
  have halloc : (s.sdssetalloc n).sdsalloc = n :=
    sdsalloc_sdssetalloc hfits (fun h => hlen.trans (h5 h))
  refine ⟨⟨⟨?_, ?_, ?_, ?_, ?_⟩, ?_⟩, halloc⟩
  · rw [sdssetalloc_buf, hbuf]
  · rw [sdslen_eq, sdssetalloc_len, hlen]
  · rwa [halloc]
  · rwa [halloc]
  · rwa [halloc, sdssetalloc_type]
  · rwa [halloc]

theorem sdsResize_keeps (hs : s.Keeps b x spare) (type : SdsType) (hn : b.length ≤ n)
    (hfits : n < 2 ^ type.bits) (hbound : n < tooLong) (h5 : type = SDS_TYPE_5 → b.length = n)
    (junk : Nat → UInt8) :
    ∃ s' spare', s.sdsResize type n junk = some s' ∧ s'.Keeps b x spare' ∧ s'.sdsalloc = n ∧
      s'.type = type := by
  obtain ⟨hblock, hsize⟩ := size_t_block type hbound
  have hlen : s.len = b.length := hs.len
  rw [sdsResize]
  by_cases ht : s.type = type
  · simp only [if_pos ht, hblock, Option.bind_eq_bind, Option.bind_some]
    have hbuf : s_realloc s.buf (n + 1) junk =
        b ++ x :: (spare.take (n - b.length) ++ s_malloc (n + 1 - s.buf.length) junk) := by
      rw [s_realloc, hs.buf, List.take_append, List.take_of_length_le (by omega),
        show n + 1 - b.length = (n - b.length) + 1 by omega, List.take_succ_cons]
      simp
    have hroom : n ≤ b.length +
        (spare.take (n - b.length) ++ s_malloc (n + 1 - s.buf.length) junk).length := by
      rw [List.length_append, List.length_take, length_s_malloc, hs.buf, List.length_append,
        List.length_cons]
      omega
    obtain ⟨hh, ha⟩ := keeps_of_header (s := { s with buf := s_realloc s.buf (n + 1) junk })
      hbuf ht hlen hn hroom hfits hbound h5
    exact ⟨_, _, rfl, hh, ha, by rw [sdssetalloc_type]; exact ht⟩
  · rw [if_neg ht, sdslen_eq, hlen, hs.load]
    simp only [hsize, Option.bind_eq_bind, Option.bind_some]
    have hmem : ((s_malloc (sdsHdrSize type + (n + 1)) junk).drop (sdsHdrSize type)).length =
        n + 1 := by
      rw [List.length_drop, length_s_malloc, Nat.add_sub_cancel_left]
    generalize (s_malloc (sdsHdrSize type + (n + 1)) junk).drop (sdsHdrSize type) = mem at hmem ⊢
    have hlen' : (b ++ [x]).length ≤ mem.length := by
      rw [hmem, List.length_append, List.length_singleton]
      omega
    rw [store_zero hlen', Option.bind_some]
    have hroom : n ≤ b.length + (mem.drop (b ++ [x]).length).length := by
      rw [List.length_drop, hmem, List.length_append, List.length_singleton]
      omega
    have hbuf : b ++ [x] ++ mem.drop (b ++ [x]).length = b ++ x :: mem.drop (b ++ [x]).length := by
      rw [List.append_assoc]
      rfl
    obtain ⟨hh, ha⟩ := keeps_of_header (k := type)
      (s := sdssetlen ⟨type, 0, 0, b ++ [x] ++ mem.drop (b ++ [x]).length⟩ b.length) hbuf rfl
      (sdssetlen_len (Nat.lt_of_le_of_lt hn hfits)) hn hroom hfits hbound h5
    exact ⟨_, _, rfl, hh, ha, sdssetalloc_type _ _⟩

theorem SDS_MAX_PREALLOC_eq : SDS_MAX_PREALLOC = 2 ^ 20 := rfl

/-- After `sdsMakeRoomFor` there is as much room as was asked for. -/
theorem sdsMakeRoomFor_keeps (hs : s.Keeps b x spare) (hn : b.length + n < 2 ^ 63)
    (junk : Nat → UInt8) :
    ∃ s' spare', s.sdsMakeRoomFor n junk = some s' ∧ s'.Keeps b x spare' ∧ n ≤ s'.sdsavail ∧
      b.length + n ≤ s'.sdsalloc := by
  have hlen : s.len = b.length := hs.len
  rw [sdsMakeRoomFor]
  by_cases havail : s.sdsavail ≥ n
  · rw [if_pos havail]
    have hle := avail_le s (by rw [hlen]; exact hs.alloc)
    exact ⟨s, spare, rfl, hs, havail, by omega⟩
  · rw [if_neg havail, sdslen_eq, hlen, size_t_eq (by omega)]
    dsimp only
    have htoo : tooLong = 2 ^ 63 + 2 ^ 20 := rfl
    have hmax := SDS_MAX_PREALLOC_eq
    generalize hnew : (if b.length + n < SDS_MAX_PREALLOC then (b.length + n) * 2
      else size_t (b.length + n + SDS_MAX_PREALLOC)) = newlen
    have hnewlen : b.length + n ≤ newlen ∧ newlen < tooLong := by
      split at hnew
      · omega
      · rw [size_t_eq (by omega)] at hnew
        omega
    generalize htype : (if sdsReqType newlen = SDS_TYPE_5 then SDS_TYPE_8
      else sdsReqType newlen) = type
    have h5 : type ≠ SDS_TYPE_5 := by
      rw [← htype]
      split
      · decide
      · assumption
    have hfits : newlen < 2 ^ type.bits := by
      have hreq := sdsReqType_fits (n := newlen) (by omega)
      rw [← htype]
      split
      · next h => rw [h] at hreq; exact Nat.lt_trans hreq (by decide)
      · exact hreq
    obtain ⟨s', spare', hrun, hs', halloc, ht⟩ := sdsResize_keeps hs type (n := newlen)
      (by omega) hfits (by omega) (fun h => absurd h h5) junk
    refine ⟨s', spare', hrun, hs', ?_, by omega⟩
    have hlen' : s'.len = b.length := hs'.len
    rw [← ht] at h5
    have ha : s'.sdsavail = s'.sdsalloc - s'.len := by
      unfold sdsavail sdsalloc
      cases h : s'.type <;> simp_all
    omega

/-- The NUL is written behind `c`, which is what the header says is the string. -/
theorem has_of_nul (hbuf : s.buf = c ++ x :: spare) (hlen : s.len = c.length)
    (hn : c.length ≤ s.sdsalloc) (hroom : s.sdsalloc ≤ c.length + spare.length)
    (hfits : s.sdsalloc < 2 ^ s.type.bits) :
    ∃ s', s.store c.length [0] = some s' ∧ s'.Has c spare ∧ s'.sdsalloc = s.sdsalloc := by
  refine ⟨{ s with buf := c ++ [0] ++ spare }, ?_, ⟨by simp, hlen, hn, hroom, hfits⟩, rfl⟩
  rw [store_append hbuf rfl (by simp)]
  rfl

/-- The length is set, and the NUL written. -/
theorem has_of_setlen (hbuf : s.buf = c ++ x :: spare) (hn : c.length ≤ s.sdsalloc)
    (hroom : s.sdsalloc ≤ c.length + spare.length) (hfits : s.sdsalloc < 2 ^ s.type.bits) :
    ∃ s', (s.sdssetlen c.length).store c.length [0] = some s' ∧ s'.Has c spare ∧
      s'.sdsalloc ≤ s.sdsalloc := by
  obtain ⟨hlo, hhi⟩ := sdsalloc_sdssetlen hn hfits
  obtain ⟨s', hrun, hs', halloc⟩ := has_of_nul (s := s.sdssetlen c.length) hbuf
    (sdssetlen_len (Nat.lt_of_le_of_lt hn hfits)) hlo (Nat.le_trans hhi hroom)
    (Nat.lt_of_le_of_lt hhi hfits)
  exact ⟨s', hrun, hs', halloc ▸ hhi⟩

/-- The same in the other order. -/
theorem setlen_has (hbuf : s.buf = c ++ x :: spare) (hn : c.length ≤ s.sdsalloc)
    (hroom : s.sdsalloc ≤ c.length + spare.length) (hfits : s.sdsalloc < 2 ^ s.type.bits) :
    ∃ s', s.store c.length [0] = some s' ∧ (s'.sdssetlen c.length).Has c spare ∧
      (s'.sdssetlen c.length).sdsalloc ≤ s.sdsalloc := by
  obtain ⟨s', hrun, hs'⟩ := has_of_setlen hbuf hn hroom hfits
  rw [store_sdssetlen] at hrun
  obtain ⟨s₁, hs₁, rfl⟩ := Option.map_eq_some_iff.mp hrun
  exact ⟨s₁, hs₁, hs'⟩

theorem holds_of_setlen (hbuf : s.buf = c ++ x :: spare) (hn : c.length ≤ s.sdsalloc)
    (hroom : s.sdsalloc ≤ c.length + spare.length) (hfits : s.sdsalloc < 2 ^ s.type.bits)
    (hbound : s.sdsalloc < tooLong) :
    ∃ s', (s.sdssetlen c.length).store c.length [0] = some s' ∧ s'.Holds c spare := by
  obtain ⟨s', hrun, hs', halloc⟩ := has_of_setlen hbuf hn hroom hfits
  exact ⟨s', hrun, hs', Nat.lt_of_le_of_lt halloc hbound⟩

theorem sdscatlen_holds (hs : s.Holds b spare) (ht : b.length + t.length < 2 ^ 63)
    (junk : Nat → UInt8) :
    ∃ s' spare', s.sdscatlen t junk = some s' ∧ s'.Holds (b ++ t) spare' := by
  obtain ⟨s₁, spare₁, hroom, hs₁, -, halloc⟩ := sdsMakeRoomFor_keeps hs ht junk
  have hlen : s.len = b.length := hs.len
  have hle : t.length ≤ spare₁.length := by
    have := hs₁.room
    omega
  have hstore := store_append (s := s₁) (t := t) hs₁.buf rfl (by simp; omega)
  obtain ⟨x, rest, hrest⟩ : ∃ x rest, ((0 :: spare₁).drop t.length) = x :: rest := by
    cases h : (0 :: spare₁).drop t.length with
    | nil =>
        have := congrArg List.length h
        simp at this
        omega
    | cons x rest => exact ⟨x, rest, rfl⟩
  have hrlen : rest.length = spare₁.length - t.length := by
    have := congrArg List.length hrest
    simp at this
    omega
  rw [hrest] at hstore
  obtain ⟨s', hrun, hs'⟩ := holds_of_setlen (s := { s₁ with buf := b ++ t ++ x :: rest })
    (c := b ++ t) rfl (by rw [List.length_append]; exact halloc)
    (by
      have := hs₁.room
      rw [List.length_append, hrlen]
      show s₁.sdsalloc ≤ _
      omega) hs₁.fits hs₁.bound
  rw [List.length_append] at hrun
  refine ⟨s', rest, ?_, hs'⟩
  rw [Sdshdr.sdscatlen, sdslen_eq, hlen, hroom, size_t_eq (by omega)]
  simp only [Option.bind_eq_bind, Option.bind_some, hstore]
  exact hrun

/-! ## Making and clearing -/

/-- What `sdsnewlen` makes of its arguments. -/
def newContent (init : Option Bytes) (initlen : Nat) : Bytes :=
  match init with
  | some bytes => bytes.take initlen
  | none => List.replicate initlen 0

theorem sdsnewlen_spec (init : Option Bytes) (hn : n < tooLong)
    (hinit : ∀ bytes, init = some bytes → n ≤ bytes.length) (junk : Nat → UInt8) :
    ∃ s, sdsnewlen init n junk = some s ∧
      s.Holds (newContent init n) [] := by
  have htoo : tooLong = 2 ^ 63 + 2 ^ 20 := rfl
  unfold sdsnewlen
  generalize htype : (if sdsReqType n = SDS_TYPE_5 ∧ n = 0 then SDS_TYPE_8 else sdsReqType n) = type
  have hfits : n < 2 ^ type.bits := by
    rw [← htype]
    split
    · next h => rw [h.2]; exact Nat.pow_pos (by decide)
    · exact sdsReqType_fits (by omega)
  obtain ⟨-, hsize⟩ := size_t_block type hn
  simp only [hsize]
  generalize hmem : (s_malloc (sdsHdrSize type + (n + 1))
    (if init.isSome = true then junk else fun _ => 0)).drop (sdsHdrSize type) = mem
  have hlen : mem.length = n + 1 := by
    rw [← hmem, List.length_drop, length_s_malloc, Nat.add_sub_cancel_left]
  -- the header is complete; what is missing is the contents and the NUL
  generalize hs₀ : (Sdshdr.sdssetlen ⟨type, 0, 0, mem⟩ n).sdssetalloc n = s₀
  have hbuf : s₀.buf = mem := by rw [← hs₀, sdssetalloc_buf, sdssetlen_buf]
  have hlen₀ : s₀.len = n := by
    rw [← hs₀, sdssetalloc_len]
    exact sdssetlen_len hfits
  have halloc : s₀.sdsalloc = n := by
    rw [← hs₀]
    exact sdsalloc_sdssetalloc hfits (fun _ => sdssetlen_len hfits)
  have htype₀ : s₀.type = type := by rw [← hs₀, sdssetalloc_type, sdssetlen_type]
  have hfin : ∀ {c : Bytes} {x : UInt8}, c.length = n →
      ∃ s, ({ s₀ with buf := c ++ [x] } : Sdshdr).store n [0] = some s ∧ s.Holds c [] := by
    intro c x hc
    have hfits₀ : s₀.sdsalloc < 2 ^ s₀.type.bits := by rwa [halloc, htype₀]
    subst hc
    obtain ⟨s, hrun, hs, ha⟩ := has_of_nul (s := { s₀ with buf := c ++ [x] }) rfl hlen₀
      (Nat.le_of_eq halloc.symm) (Nat.le_of_eq halloc) hfits₀
    exact ⟨s, hrun, hs, by rw [ha]; exact halloc.symm ▸ hn⟩
  cases init with
  | none =>
      obtain ⟨s, hrun, hs⟩ := hfin (c := List.replicate n 0) (x := 0) List.length_replicate
      refine ⟨s, ?_, hs⟩
      have hz : mem = List.replicate n 0 ++ [0] := by
        rw [← hmem, ← List.replicate_succ', s_malloc]
        apply List.ext_getElem
        · simp
        · intro i _ _
          simp
      rw [← hz, ← hbuf] at hrun
      exact hrun
  | some bytes =>
      have hle := hinit bytes rfl
      have htake : (bytes.take n).length = n := by
        rw [List.length_take]
        omega
      obtain ⟨x, hx⟩ : ∃ x, mem.drop n = [x] := by
        have hone : (mem.drop n).length = 1 := by
          rw [List.length_drop]
          omega
        exact List.length_eq_one_iff.mp hone
      obtain ⟨s, hrun, hs⟩ := hfin (x := x) htake
      refine ⟨s, ?_, hs⟩
      have hstore : s₀.store 0 (bytes.take n) = some { s₀ with buf := bytes.take n ++ [x] } := by
        rw [store_zero (by rw [hbuf, htake]; omega), hbuf, htake, hx]
      simp only [copyInit, if_pos hle, hstore, Option.bind_eq_bind, Option.bind_some]
      exact hrun

theorem store_type (h : s.store i c = some s') : s'.type = s.type := by
  unfold store at h
  split at h
  · cases h
    rfl
  · exact nomatch h

/-- The header of a new string is the one that its length needs. -/
theorem sdsnewlen_type {init : Option Bytes} (hn : n ≠ 0) (h : sdsnewlen init n junk = some s) :
    s.type = sdsReqType n := by
  unfold sdsnewlen at h
  obtain ⟨s₁, hs₁, hs⟩ := Option.bind_eq_some_iff.mp h
  have ht₁ : s₁.type = sdsReqType n := by
    rw [if_neg (fun hz => hn hz.2)] at hs₁
    cases init with
    | none =>
        cases hs₁
        rw [sdssetalloc_type, sdssetlen_type]
    | some bytes =>
        unfold copyInit at hs₁
        dsimp only at hs₁
        split at hs₁
        · rw [store_type hs₁, sdssetalloc_type, sdssetlen_type]
        · exact nomatch hs₁
  rw [store_type hs, ht₁]

theorem Lies.take (hs : s.Lies b x spare) : s.buf.take s.sdslen = b := by
  rw [hs.len, hs.buf, List.take_left]

theorem sdsdup_holds (hs : s.Holds b spare) (junk : Nat → UInt8) :
    ∃ s', s.sdsdup junk = some s' ∧ s'.Holds b [] := by
  have hlen : s.sdslen = b.length := hs.len
  have hn : s.sdslen < tooLong := by
    rw [hlen]
    exact Nat.lt_of_le_of_lt hs.alloc hs.bound
  obtain ⟨s', hrun, hs'⟩ := sdsnewlen_spec (some s.buf) hn (by
    intro bytes hb
    cases hb
    rw [hlen, hs.buf, List.length_append]
    exact Nat.le_add_right _ _) junk
  exact ⟨s', hrun, hs.take ▸ hs'⟩

theorem sdsempty_holds (junk : Nat → UInt8) : ∃ s, sdsempty junk = some s ∧ s.Holds [] [] :=
  sdsnewlen_spec (some []) (by decide) (fun bytes _ => Nat.zero_le _) junk

theorem sdsclear_holds (hs : s.Holds b spare) :
    ∃ s' spare', s.sdsclear = some s' ∧ s'.Holds [] spare' := by
  obtain ⟨x, rest, hrest⟩ : ∃ x rest, s.buf = x :: rest := by
    rw [hs.buf]
    cases b with
    | nil => exact ⟨_, _, rfl⟩
    | cons x b => exact ⟨_, _, rfl⟩
  have hlen : rest.length = b.length + spare.length := by
    have := congrArg List.length hs.buf
    rw [hrest] at this
    simp at this
    omega
  obtain ⟨s', hrun, hs'⟩ := holds_of_setlen (s := s) (c := []) (x := x) hrest
    (Nat.zero_le _) (by rw [hlen]; exact Nat.le_trans hs.room (Nat.le_add_left _ _)) hs.fits hs.bound
  exact ⟨s', rest, hrun, hs'⟩

theorem sdsRemoveFreeSpace_holds (hs : s.Holds b spare) (junk : Nat → UInt8) :
    ∃ s' spare', s.sdsRemoveFreeSpace junk = some s' ∧ s'.Holds b spare' := by
  have hlen : s.sdslen = b.length := hs.len
  have hn : b.length < tooLong := Nat.lt_of_le_of_lt hs.alloc hs.bound
  have htoo : tooLong = 2 ^ 63 + 2 ^ 20 := rfl
  obtain ⟨s', spare', hrun, hs', -⟩ := sdsResize_keeps hs (n := b.length)
    (sdsReqType b.length) (Nat.le_refl _) (sdsReqType_fits (by omega)) hn (fun _ => rfl) junk
  exact ⟨s', spare', by rw [sdsRemoveFreeSpace, hlen]; exact hrun, hs'⟩

/-! ## Changing the contents -/

/-- The length is set to where there is a NUL. -/
theorem sdssetlen_holds (hbuf : s.buf = c ++ 0 :: spare) (hn : c.length ≤ s.sdsalloc)
    (hroom : s.sdsalloc ≤ c.length + spare.length) (hfits : s.sdsalloc < 2 ^ s.type.bits)
    (hbound : s.sdsalloc < tooLong) : (s.sdssetlen c.length).Holds c spare := by
  obtain ⟨hlo, hhi⟩ := sdsalloc_sdssetlen hn hfits
  exact ⟨⟨hbuf, sdssetlen_len (Nat.lt_of_le_of_lt hn hfits), hlo, Nat.le_trans hhi hroom,
    Nat.lt_of_le_of_lt hhi hfits⟩, Nat.lt_of_le_of_lt hhi hbound⟩

theorem sdsgrowzero_holds (hs : s.Holds b spare) (hn : n < 2 ^ 63) (junk : Nat → UInt8) :
    ∃ s' spare', s.sdsgrowzero n junk = some s' ∧
      s'.Holds (b ++ List.replicate (n - b.length) 0) spare' := by
  have hlen : s.sdslen = b.length := hs.len
  rw [sdsgrowzero, hlen]
  by_cases hle : n ≤ b.length
  · rw [if_pos hle, Nat.sub_eq_zero_of_le hle, List.replicate_zero, List.append_nil]
    exact ⟨s, spare, rfl, hs⟩
  · obtain ⟨s₁, spare₁, hroom, hs₁, -, halloc⟩ :=
      sdsMakeRoomFor_keeps hs (n := n - b.length) (by omega) junk
    have hr₁ := hs₁.room
    have hstore := store_append (s := s₁) (t := List.replicate (n - b.length + 1) 0)
      hs₁.buf rfl (by rw [List.length_replicate, List.length_cons]; omega)
    have hbuf : b ++ List.replicate (n - b.length + 1) 0 ++
        (0 :: spare₁).drop (List.replicate (n - b.length + 1) (0 : UInt8)).length =
        (b ++ List.replicate (n - b.length) 0) ++ 0 :: spare₁.drop (n - b.length) := by
      rw [List.length_replicate, List.drop_succ_cons, List.replicate_succ', ← List.append_assoc,
        List.append_assoc]
      rfl
    rw [hbuf] at hstore
    have hclen : (b ++ List.replicate (n - b.length) (0 : UInt8)).length = n := by
      rw [List.length_append, List.length_replicate]
      omega
    have hset := sdssetlen_holds
      (s := { s₁ with buf := (b ++ List.replicate (n - b.length) 0) ++ 0 :: spare₁.drop (n - b.length) })
      rfl (by rw [hclen]; exact Nat.le_trans (by omega) halloc)
      (by
        rw [hclen, List.length_drop]
        show s₁.sdsalloc ≤ _
        omega) hs₁.fits hs₁.bound
    rw [hclen] at hset
    refine ⟨_, _, ?_, hset⟩
    rw [if_neg hle, hroom]
    simp only [Option.bind_eq_bind, Option.bind_some, hstore]

/-- The string is cut off behind the bytes `t` at its front. -/
theorem cut_has {rest : Bytes} (hbuf : s.buf = t ++ rest) (hn : t.length ≤ s.sdsalloc)
    (hroom : s.sdsalloc + 1 ≤ s.buf.length) (hfits : s.sdsalloc < 2 ^ s.type.bits) :
    ∃ s' spare', s.store t.length [0] = some s' ∧ (s'.sdssetlen t.length).Has t spare' ∧
      (s'.sdssetlen t.length).sdsalloc ≤ s.sdsalloc := by
  rw [hbuf, List.length_append] at hroom
  obtain ⟨x, rest, rfl⟩ : ∃ x rest', rest = x :: rest' := by
    cases rest with
    | nil => exact absurd hroom (by simp; omega)
    | cons x rest => exact ⟨x, rest, rfl⟩
  obtain ⟨s', hrun, hs'⟩ := setlen_has hbuf hn (by simp at hroom; omega) hfits
  exact ⟨s', rest, hrun, hs'⟩

theorem Lies.length_buf (hs : s.Lies b x spare) : s.sdsalloc + 1 ≤ s.buf.length := by
  have := hs.room
  rw [hs.buf, List.length_append, List.length_cons]
  omega

theorem sdscpylen_holds (hs : s.Holds b spare) (ht : t.length < 2 ^ 63) (junk : Nat → UInt8) :
    ∃ s' spare', s.sdscpylen t junk = some s' ∧ s'.Holds t spare' := by
  have hlen : s.sdslen = b.length := hs.len
  -- afterwards there is room for `t`
  obtain ⟨s₁, spare₁, hroom, hs₁, halloc⟩ : ∃ s₁ spare₁,
      (if s.sdsalloc < t.length then s.sdsMakeRoomFor (t.length - s.sdslen) junk else some s) =
        some s₁ ∧ s₁.Holds b spare₁ ∧ t.length ≤ s₁.sdsalloc := by
    by_cases hlt : s.sdsalloc < t.length
    · have hb := hs.alloc
      obtain ⟨s₁, spare₁, hrun, hs₁, -, halloc⟩ :=
        sdsMakeRoomFor_keeps hs (n := t.length - b.length) (by omega) junk
      exact ⟨s₁, spare₁, by rw [if_pos hlt, hlen, hrun], hs₁, by omega⟩
    · exact ⟨s, spare, if_neg hlt, hs, by omega⟩
  have hbuf := hs₁.length_buf
  have hdrop : t.length ≤ s₁.buf.length := by omega
  have hlen₂ : (t ++ s₁.buf.drop t.length).length = s₁.buf.length := by
    rw [List.length_append, List.length_drop]
    omega
  obtain ⟨s₂, spare₂, hnul, hs₂, ha₂⟩ := cut_has
    (s := { s₁ with buf := t ++ s₁.buf.drop t.length }) rfl halloc
    (by show s₁.sdsalloc + 1 ≤ (t ++ s₁.buf.drop t.length).length; omega) hs₁.fits
  refine ⟨_, spare₂, ?_, hs₂, Nat.lt_of_le_of_lt ha₂ hs₁.bound⟩
  rw [sdscpylen, hroom]
  simp only [Option.bind_eq_bind, Option.bind_some, store_zero hdrop, hnul]

/-! ## `sdsIncrLen` -/

/-- An increment into the free space is allowed. -/
theorem incrAllowed_of_pos {incr : Nat} (hpos : 0 < incr) (hmax : incr < 2 ^ 31)
    (havail : incr ≤ s.sdsavail) : s.incrAllowed incr = true := by
  have hu : CInt.toUInt (incr : Int) = incr := CInt.toUInt_eq (by omega)
  have hul : CInt.toULong (incr : Int) = incr := CInt.toULong_eq (by omega)
  unfold incrAllowed
  unfold sdsavail at havail
  cases ht : s.type with
  | SDS_TYPE_5 =>
      rw [ht] at havail
      exact absurd havail (by simp; omega)
  | SDS_TYPE_64 =>
      rw [ht] at havail
      exact decide_eq_true (.inl ⟨by omega, by rw [hul]; exact havail⟩)
  | SDS_TYPE_8 | SDS_TYPE_16 | SDS_TYPE_32 =>
      rw [ht] at havail
      exact decide_eq_true (.inl ⟨by omega, by rw [hu]; exact havail⟩)

/-- A decrement within the length is allowed but for one: the smallest `int` has no opposite,
and as 64 bits it is longer than any string. -/
theorem incrAllowed_of_neg {decr : Nat} (hpos : 0 < decr) (hmax : decr ≤ 2 ^ 31)
    (hlen : decr ≤ s.len) (hbound : s.len < tooLong) :
    s.incrAllowed (-(decr : Int)) = true ↔ ¬ (s.type = SDS_TYPE_64 ∧ decr = 2 ^ 31) := by
  have htoo : tooLong = 2 ^ 63 + 2 ^ 20 := rfl
  have hu : CInt.toUInt (CInt.toInt (- -(decr : Int))) = decr := by
    rw [Int.neg_neg]
    by_cases hlt : decr < 2 ^ 31
    · rw [CInt.toInt_eq (by omega) (by omega)]
      exact CInt.toUInt_eq (by omega)
    · obtain rfl : decr = 2 ^ 31 := by omega
      rfl
  have hneg : ¬ (0 : Int) ≤ -(decr : Int) := by omega
  have hneg' : ¬ (0 : Int) < -(decr : Int) := by omega
  have hneg'' : -(decr : Int) < 0 := by omega
  unfold incrAllowed
  cases ht : s.type with
  | SDS_TYPE_5 =>
      exact iff_of_true (decide_eq_true (.inr ⟨hneg'', by rw [hu]; exact hlen⟩))
        (fun h => nomatch h.1)
  | SDS_TYPE_8 | SDS_TYPE_16 | SDS_TYPE_32 =>
      exact iff_of_true (decide_eq_true (.inr ⟨hneg'', by rw [hu]; exact hlen⟩))
        (fun h => nomatch h.1)
  | SDS_TYPE_64 =>
      rw [Int.neg_neg]
      by_cases hlt : decr < 2 ^ 31
      · refine iff_of_true (decide_eq_true (.inr ⟨hneg'', ?_⟩)) (fun h => by omega)
        rw [CInt.toInt_eq (by omega) (by omega), CInt.toULong_eq (by omega)]
        exact hlen
      · obtain rfl : decr = 2 ^ 31 := by omega
        refine iff_of_false ?_ (fun h => h ⟨rfl, rfl⟩)
        intro h
        rcases of_decide_eq_true h with ⟨hnonneg, -⟩ | ⟨-, hge⟩
        · exact hneg hnonneg
        · have hul : CInt.toULong (CInt.toInt ((2 ^ 31 : Nat) : Int)) = 2 ^ 64 - 2 ^ 31 := rfl
          rw [hul] at hge
          omega

/-- The length is changed to where the `assert` lets it; the string is what is in memory up to
there. -/
theorem sdsIncrLen_spec {incr : Int} (hallowed : s.incrAllowed incr = true) {n : Nat}
    (hn : s.len + incr = n) (hle : n ≤ s.sdsalloc) (hroom : s.sdsalloc + 1 ≤ s.buf.length)
    (hfits : s.sdsalloc < 2 ^ s.type.bits) (hbound : s.sdsalloc < tooLong) :
    ∃ s' spare', s.sdsIncrLen incr = some s' ∧ s'.Holds (s.buf.take n) spare' := by
  have hmod : ((s.len + incr) % 2 ^ s.type.bits).toNat = n := by
    have hcast : ((n : Int) % 2 ^ s.type.bits) = ((n % 2 ^ s.type.bits : Nat) : Int) := by
      push_cast
      rfl
    rw [hn, hcast, Int.toNat_natCast, Nat.mod_eq_of_lt (Nat.lt_of_le_of_lt hle hfits)]
  have htake : (s.buf.take n).length = n := by
    rw [List.length_take]
    omega
  obtain ⟨x, rest, hrest⟩ : ∃ x rest, s.buf.drop n = x :: rest := by
    cases h : s.buf.drop n with
    | nil => exact absurd (List.drop_eq_nil_iff.mp h) (by omega)
    | cons x rest => exact ⟨x, rest, rfl⟩
  have hlen : rest.length + 1 = s.buf.length - n := by
    rw [← List.length_drop, hrest, List.length_cons]
  obtain ⟨s', hrun, hs'⟩ := holds_of_setlen (s := s) (c := s.buf.take n)
    (by rw [← hrest, List.take_append_drop]) (by rw [htake]; exact hle)
    (by rw [htake]; omega) hfits hbound
  refine ⟨s', rest, ?_, hs'⟩
  rw [htake] at hrun
  have hset : s.sdssetlen n = { s with len := n } := by
    rw [sdssetlen, Nat.mod_eq_of_lt (Nat.lt_of_le_of_lt hle hfits)]
  rw [hset] at hrun
  rw [sdsIncrLen, if_pos hallowed, hmod]
  exact hrun

end Sdshdr

end RedisCore

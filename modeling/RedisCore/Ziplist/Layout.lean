/-
# `RedisCore.Ziplist.Layout` — the bytes of a ziplist

`Represents zl es` says that the bytes `zl` are a ziplist with the entries `es`: the header is
exact, up to a number of entries that is not kept any more, the lengths fit into their fields,
and the whole has less than 2^32 bytes.

Here is what the functions that change a ziplist in place do to such bytes: the fields of the
header, the resizing, and the cascade of prevlen fields that have to grow.
-/
import RedisCore.Ziplist.Entries

namespace RedisCore

namespace Ziplist

open CInt LittleEndian Splice

/-- The header. -/
def header (total tail count : Nat) : Bytes :=
  encodeNat 4 total ++ (encodeNat 4 tail ++ encodeNat 2 count)

/-- Where the last entry is. -/
def tailOffset (es : List Entry) : Nat := ZIPLIST_HEADER_SIZE + size es.dropLast

/-- The bytes of a ziplist. -/
def layout (count : Nat) (es : List Entry) : Bytes :=
  header (11 + size es) (tailOffset es) count ++ (encodeEntries 0 es ++ [UInt8.ofNat ZIP_END])

/-- The field for the number of entries: exact, or at its limit. -/
def Counted (count n : Nat) : Prop := count = UINT16_MAX ∨ count < UINT16_MAX ∧ count = n

/-- The bytes are a ziplist with these entries. -/
structure Represents (zl : Bytes) (es : List Entry) : Prop where
  layout : ∃ count, zl = layout count es ∧ Counted count es.length
  fits : Fits 0 es
  small : 11 + size es < 2 ^ 32

section header

variable {total tail count n : Nat} {v : Int} {d d₁ d₂ : Bytes}

@[simp] theorem length_header : (header total tail count).length = 10 := by
  simp [header]

/-- A field of the header. -/
theorem loadAt_middle {as bs : Bytes} {p k : Nat} (hp : p = as.length) (hn : n < 256 ^ k) :
    loadAt (as ++ (encodeNat k n ++ bs)) p k = some n := by
  unfold loadAt
  rw [readAt_middle hp (length_encodeNat k n).symm, Option.map_some, decodeNat_encodeNat,
    Nat.mod_eq_of_lt hn]

@[simp] theorem zlBytes_header (h : total < 2 ^ 32) :
    zlBytes (header total tail count ++ d) = some total := by
  unfold zlBytes header
  rw [List.append_assoc]
  exact @loadAt_middle total [] _ 0 4 rfl (by simpa using h)

@[simp] theorem zlTailOffset_header (h : tail < 2 ^ 32) :
    zlTailOffset (header total tail count ++ d) = some tail := by
  unfold zlTailOffset header
  rw [List.append_assoc, List.append_assoc]
  exact loadAt_middle (by simp) (by simpa using h)

@[simp] theorem zlLength_header (h : count < 2 ^ 16) :
    zlLength (header total tail count ++ d) = some count := by
  unfold zlLength header
  rw [List.append_assoc, List.append_assoc, ← List.append_assoc]
  exact loadAt_middle (by simp) (by simpa using h)

/-- A value that fits its field is stored as it is. -/
theorem encode_natCast {k : Nat} (hn : n < 256 ^ k) (hv : v = n) : encode k v = encodeNat k n := by
  have hcast : ((256 ^ k : Nat) : Int) = 256 ^ k := by push_cast; rfl
  unfold encode
  rw [hv, ← hcast, Int.emod_eq_of_lt (by omega) (by omega), Int.toNat_natCast]

@[simp] theorem setBytes_header (h : n < 2 ^ 32) (hv : v = n) :
    setBytes (header total tail count ++ d) v = some (header n tail count ++ d) := by
  unfold setBytes storeAt header
  rw [encode_natCast (by simpa using h) hv, List.append_assoc, List.append_assoc]
  exact @writeAt_middle [] (encodeNat 4 total) _ (encodeNat 4 n) 0 rfl (by simp)

@[simp] theorem setTailOffset_header (h : n < 2 ^ 32) (hv : v = n) :
    setTailOffset (header total tail count ++ d) v = some (header total n count ++ d) := by
  unfold setTailOffset storeAt header
  rw [encode_natCast (by simpa using h) hv, List.append_assoc, List.append_assoc,
    List.append_assoc, List.append_assoc]
  exact writeAt_middle (by simp) (by simp)

/-- A sum is stored without what it carries over. -/
theorem addTailOffset_mod (ht : tail < 2 ^ 32) (hv : ((tail : Int) + v) % 2 ^ 32 = n) :
    addTailOffset (header total tail count ++ d) v = some (header total n count ++ d) := by
  have henc : encode 4 ((tail : Int) + v) = encode 4 n := by
    unfold encode
    rw [show ((256 : Int) ^ 4) = 2 ^ 32 by norm_num, hv, Int.emod_eq_of_lt (by omega) (by omega)]
  unfold addTailOffset
  rw [zlTailOffset_header ht, Option.bind_eq_bind, Option.bind_some]
  unfold setTailOffset storeAt
  rw [henc]
  exact setTailOffset_header (by omega) rfl

@[simp] theorem addTailOffset_header (ht : tail < 2 ^ 32) (h : n < 2 ^ 32)
    (hv : (tail : Int) + v = n) :
    addTailOffset (header total tail count ++ d) v = some (header total n count ++ d) := by
  unfold addTailOffset
  rw [zlTailOffset_header ht, Option.bind_eq_bind, Option.bind_some]
  exact setTailOffset_header h hv

@[simp] theorem setLength_header (h : n < 2 ^ 16) (hv : v = n) :
    setLength (header total tail count ++ d) v = some (header total tail n ++ d) := by
  unfold setLength storeAt header
  rw [encode_natCast (by simpa using h) hv, List.append_assoc, List.append_assoc,
    List.append_assoc, List.append_assoc, ← List.append_assoc, ← List.append_assoc (encodeNat 4 _)]
  exact writeAt_middle (by simp) (by simp)

/-- `ZIPLIST_INCR_LENGTH` keeps the number exact or at its limit. -/
theorem ziplistIncrLength_header {m : Nat} {incr : Int} (h : Counted count n)
    (hm : (n : Int) + incr = m) :
    ∃ count', ziplistIncrLength (header total tail count ++ d) incr =
      some (header total tail count' ++ d) ∧ (m ≤ n + 1 → Counted count' m) := by
  unfold Counted UINT16_MAX at h
  unfold ziplistIncrLength
  rw [zlLength_header (by omega), Option.bind_eq_bind, Option.bind_some]
  unfold UINT16_MAX
  split
  · next hlt =>
      have hcount : count = n := by omega
      by_cases hsmall : m < 2 ^ 16
      · refine ⟨m, setLength_header hsmall (by omega), fun _ => ?_⟩
        unfold Counted UINT16_MAX
        omega
      · refine ⟨m % 2 ^ 16, ?_, fun hle => by omega⟩
        unfold setLength storeAt
        have henc : encode 2 ((count : Int) + incr) = encodeNat 2 (m % 2 ^ 16) := by
          unfold encode
          congr 1
          omega
        rw [henc, ← encode_natCast (show m % 2 ^ 16 < 256 ^ 2 by omega) rfl]
        exact setLength_header (by omega) rfl
  · next hge =>
      refine ⟨count, rfl, fun _ => ?_⟩
      unfold Counted UINT16_MAX
      omega

end header

/-! ## Resizing -/

variable {mem : Nat → UInt8} {total tail count : Nat} {d d₁ d₂ : Bytes}

/-- Cut the end off. -/
theorem ziplistResize_cut {len : Int} {x : UInt8} (hlen : len = (11 + d₁.length : Nat))
    (hlt : 11 + d₁.length < 2 ^ 32) :
    ziplistResize mem (header total tail count ++ (d₁ ++ x :: d₂)) len =
      some (header (11 + d₁.length) tail count ++ (d₁ ++ [UInt8.ofNat ZIP_END])) := by
  have hcut : zrealloc mem (header total tail count ++ (d₁ ++ x :: d₂)) (11 + d₁.length) =
      header total tail count ++ (d₁ ++ [x]) := by
    unfold zrealloc
    rw [show 11 + d₁.length = (header total tail count ++ (d₁ ++ [x])).length by
        simp; omega,
      show header total tail count ++ (d₁ ++ x :: d₂) =
        (header total tail count ++ (d₁ ++ [x])) ++ d₂ by simp, List.take_left,
      show (header total tail count ++ (d₁ ++ [x])).length -
        (header total tail count ++ (d₁ ++ [x]) ++ d₂).length = 0 by simp]
    simp
  unfold ziplistResize
  rw [hlen, toUInt_eq hlt]
  dsimp only
  rw [hcut, setBytes_header hlt rfl, some_bind,
    @sizeT_eq (10 + d₁.length) _ (by omega), some_bind, ← List.append_assoc, show (header (11 + d₁.length) tail count ++ d₁) ++ [x] =
      (header (11 + d₁.length) tail count ++ d₁) ++ ([x] ++ []) by simp]
  rw [writeAt_middle (by simp) (by simp)]
  simp

/-- Make room at the end. -/
theorem ziplistResize_grow {len : Int} (k : Nat) (hlen : len = (11 + (d₁.length + k) : Nat))
    (hlt : 11 + (d₁.length + k) < 2 ^ 32) :
    ∃ junk : Bytes, junk.length = k ∧
      ziplistResize mem (header total tail count ++ (d₁ ++ [UInt8.ofNat ZIP_END])) len =
        some (header (11 + (d₁.length + k)) tail count ++
          (d₁ ++ (junk ++ [UInt8.ofNat ZIP_END]))) := by
  -- what is there after `zrealloc`
  obtain ⟨more, hmore⟩ : ∃ more : Bytes, more = (List.range k).map mem := ⟨_, rfl⟩
  have hlenmore : more.length = k := by rw [hmore]; simp
  have hgrow : zrealloc mem (header total tail count ++ (d₁ ++ [UInt8.ofNat ZIP_END]))
      (11 + (d₁.length + k)) =
        header total tail count ++ (d₁ ++ UInt8.ofNat ZIP_END :: more) := by
    unfold zrealloc
    rw [List.take_of_length_le (by simp; omega),
      show 11 + (d₁.length + k) -
        (header total tail count ++ (d₁ ++ [UInt8.ofNat ZIP_END])).length = k by simp; omega,
      ← hmore]
    simp
  -- its last byte is overwritten
  obtain ⟨junk, x, hx⟩ : ∃ junk x, UInt8.ofNat ZIP_END :: more = junk ++ [x] :=
    ⟨_, _, (List.dropLast_append_getLast (List.cons_ne_nil _ _)).symm⟩
  have hjunk : junk.length = k := by
    have := congrArg List.length hx
    simp at this
    omega
  refine ⟨junk, hjunk, ?_⟩
  unfold ziplistResize
  rw [hlen, toUInt_eq hlt]
  dsimp only
  rw [hgrow, setBytes_header hlt rfl, some_bind, hx,
    @sizeT_eq (10 + (d₁.length + k)) _ (by omega), some_bind, show header (11 + (d₁.length + k)) tail count ++ (d₁ ++ (junk ++ [x])) =
      (header (11 + (d₁.length + k)) tail count ++ (d₁ ++ junk)) ++ ([x] ++ []) by simp]
  rw [writeAt_middle (by simp; omega) (by simp)]
  simp

/-! ## The cascade -/

theorem length_prevEncode (prev : Nat) :
    (zipPrevEncodeLength prev).length = if 254 ≤ prev then 5 else 1 := by
  rw [prevEncode_eq, length_prevField]
  by_cases h : 254 ≤ prev <;> simp [h]

theorem byteAt_end {as : Bytes} {p : Nat} (hp : p = as.length) :
    byteAt (as ++ [UInt8.ofNat ZIP_END]) p = some ZIP_END := byteAt_middle hp

/-- A list with its first cells apart. -/
theorem exists_append {α : Type} {l : List α} {n m : Nat} (h : l.length = n + m) :
    ∃ a b, l = a ++ b ∧ a.length = n ∧ b.length = m :=
  ⟨l.take n, l.drop n, (List.take_append_drop n l).symm, by rw [List.length_take]; omega, by
    rw [List.length_drop]; omega⟩

/-- `memmove` of one piece to the place of another. -/
theorem memmove_eq {zl as bs cs xs ys zs : Bytes} {dst src : Nat} {n : Int}
    (hfrom : zl = as ++ (bs ++ cs)) (hto : zl = xs ++ (ys ++ zs)) (hsrc : src = as.length)
    (hn : n = bs.length) (hdst : dst = xs.length) (hlen : bs.length = ys.length) :
    memmove zl dst src n = some (xs ++ (bs ++ zs)) := by
  unfold memmove
  rw [sizeT_eq hn, some_bind, hfrom, readAt_middle hsrc rfl, some_bind, ← hfrom, hto,
    writeAt_middle hdst hlen]

/-- The bytes from an entry on, when a length before it may be out of date. -/
theorem firstByte_entries {as : Bytes} {es : List Entry} {prev p : Nat} (h : Fits prev es)
    (hp : p = as.length) :
    ∃ b, byteAt (as ++ (encodeEntries prev es ++ [UInt8.ofNat ZIP_END])) p = some b ∧
      (b = ZIP_END ↔ es = []) := by
  cases es with
  | nil => exact ⟨ZIP_END, byteAt_end hp, iff_of_true rfl rfl⟩
  | cons e es =>
      obtain ⟨b, hb, hne⟩ := @firstByte_within as (e.body ++ encodeEntries e.rawLen es ++
        [UInt8.ofNat ZIP_END]) p e.wide prev h.1 hp
      refine ⟨b, ?_, iff_of_false hne (List.cons_ne_nil _ _)⟩
      rw [encodeEntries, List.append_assoc, List.append_assoc]
      rwa [List.append_assoc] at hb

theorem encodeEntries_single {q : Nat} {e : Entry} :
    encodeEntries q [e] = prevField e.wide q ++ e.body := by
  rw [encodeEntries, encodeEntries_nil, List.append_nil]

theorem encodeEntries_cons {q : Nat} {e : Entry} {es : List Entry} :
    encodeEntries q (e :: es) = encodeEntries q [e] ++ encodeEntries e.rawLen es :=
  @encodeEntries_append [e] es q

/-- The entry that a round of the cascade looks at. -/
theorem cascadeLoop_entry {as cs : Bytes} {cur : Entry} {q p curlen fuel : Nat}
    (hcur : cur.wide = false → q < 254) (hq : q < 2 ^ 32) (hlen : cur.rawLen < 2 ^ 32)
    (hp : p = as.length) :
    cascadeLoop mem (fuel + 1) (as ++ (prevField cur.wide q ++ (cur.body ++ cs))) curlen p = (do
      let zl := as ++ (prevField cur.wide q ++ (cur.body ++ cs))
      if (← byteAt zl (p + cur.rawLen)) = ZIP_END then return zl
      let next ← zipEntry zl (p + cur.rawLen)
      if next.prevrawlen = cur.rawLen then return zl
      if next.prevrawlensize < (zipPrevEncodeLength cur.rawLen).length then
        let extra := (zipPrevEncodeLength cur.rawLen).length - next.prevrawlensize
        let zl ← ziplistResize mem zl (curlen + extra : Nat)
        let np := p + cur.rawLen
        let tail ← zlTailOffset zl
        let zl ← (if tail ≠ np then addTailOffset zl extra else some zl)
        let zl ← memmove zl (np + (zipPrevEncodeLength cur.rawLen).length)
          (np + next.prevrawlensize) (curlen - np - next.prevrawlensize - 1)
        let zl ← writeAt zl np (zipPrevEncodeLength cur.rawLen)
        cascadeLoop mem fuel zl (curlen + extra) np
      else if next.prevrawlensize > (zipPrevEncodeLength cur.rawLen).length then
        writeAt zl (p + cur.rawLen) (zipPrevEncodeLengthForceLarge cur.rawLen)
      else writeAt zl (p + cur.rawLen) (zipPrevEncodeLength cur.rawLen)) := by
  obtain ⟨b, hb, hne⟩ := @firstByte_within as (cur.body ++ cs) p cur.wide q hcur hp
  have hraw : toUInt (cur.prevSize + cur.lensize + cur.len : Nat) = cur.rawLen := by
    rw [show cur.prevSize + cur.lensize + cur.len = cur.rawLen by
      unfold Entry.rawLen
      rw [cur.whole]
      omega, toUInt_eq hlen]
  rw [cascadeLoop]
  rw [hb, some_bind, if_neg hne, zipEntry_within hcur hq hp, some_bind]
  dsimp only
  rw [hraw]

/-- The field of an entry is made wide: what is behind it moves by four bytes. -/
theorem widenField {as rest : Bytes} {b : UInt8} {prev total tail tail' np : Nat}
    {k : Bytes → Option Bytes}
    (hprev : 254 ≤ prev) (hnp : np = 10 + as.length) (hsmall : np + 6 + rest.length < 2 ^ 32)
    (htotal : total = np + 2 + rest.length) (ht : tail < 2 ^ 32)
    (htail : tail' = if tail = np then tail else tail + 4) (ht' : tail' < 2 ^ 32) :
    (do
      let zl ← ziplistResize mem (header total tail count ++
        (as ++ ([b] ++ (rest ++ [UInt8.ofNat ZIP_END])))) (total + 4 : Nat)
      let tail ← zlTailOffset zl
      let zl ← (if tail ≠ np then addTailOffset zl (4 : Nat) else some zl)
      let zl ← memmove zl (np + 5) (np + 1) (total - np - (1 : Nat) - 1)
      let zl ← writeAt zl np (zipPrevEncodeLength prev)
      k zl) =
    k (header (total + 4) tail' count ++
      (as ++ (prevField true prev ++ (rest ++ [UInt8.ofNat ZIP_END])))) := by
  obtain ⟨junk, hjunk, hresize⟩ := @ziplistResize_grow mem total tail count
    (as ++ ([b] ++ rest)) (total + 4 : Nat) 4 (by simp; omega) (by simp; omega)
  have hbytes : 11 + ((as ++ ([b] ++ rest)).length + 4) = total + 4 := by simp; omega
  rw [hbytes] at hresize
  have hmove : addTailOffset (header (total + 4) tail count ++
      (as ++ ([b] ++ (rest ++ (junk ++ [UInt8.ofNat ZIP_END]))))) (4 : Nat) =
      some (header (total + 4) (tail + 4) count ++
        (as ++ ([b] ++ (rest ++ (junk ++ [UInt8.ofNat ZIP_END]))))) ∨ tail = np := by
    by_cases hnp : tail = np
    · exact .inr hnp
    · rw [if_neg hnp] at htail
      exact .inl (addTailOffset_header ht (by omega) (by omega))
  have hstep : (if tail ≠ np then addTailOffset (header (total + 4) tail count ++
      (as ++ ([b] ++ (rest ++ (junk ++ [UInt8.ofNat ZIP_END]))))) (4 : Nat)
      else some (header (total + 4) tail count ++
        (as ++ ([b] ++ (rest ++ (junk ++ [UInt8.ofNat ZIP_END])))))) =
      some (header (total + 4) tail' count ++
        (as ++ ([b] ++ (rest ++ (junk ++ [UInt8.ofNat ZIP_END]))))) := by
    by_cases hnp : tail = np
    · rw [if_neg (fun h => h hnp), htail, if_pos hnp]
    · rw [if_pos hnp, hmove.resolve_right hnp, htail, if_neg hnp]
  -- the five bytes of the field and what is moved behind them
  obtain ⟨field, room, hsplit, hfield, hroom⟩ := @exists_append _ ([b] ++ (rest ++ junk)) 5
    rest.length (by simp; omega)
  have hmemmove := @memmove_eq (header (total + 4) tail' count ++
      (as ++ ([b] ++ (rest ++ (junk ++ [UInt8.ofNat ZIP_END])))))
    (header (total + 4) tail' count ++ (as ++ [b])) rest (junk ++ [UInt8.ofNat ZIP_END])
    (header (total + 4) tail' count ++ (as ++ field)) room [UInt8.ofNat ZIP_END] (np + 5) (np + 1)
    (total - np - (1 : Nat) - 1) (by simp) (by
      rw [show [b] ++ (rest ++ (junk ++ [UInt8.ofNat ZIP_END])) =
        ([b] ++ (rest ++ junk)) ++ [UInt8.ofNat ZIP_END] by simp, hsplit]
      simp) (by simp; omega) (by omega) (by simp; omega) hroom.symm
  have hwrite : writeAt (header (total + 4) tail' count ++ (as ++ field) ++
      (rest ++ [UInt8.ofNat ZIP_END])) np (zipPrevEncodeLength prev) =
      some (header (total + 4) tail' count ++ (as ++ (prevField true prev ++
        (rest ++ [UInt8.ofNat ZIP_END])))) := by
    rw [prevEncode_eq, decide_eq_true hprev,
      show header (total + 4) tail' count ++ (as ++ field) ++ (rest ++ [UInt8.ofNat ZIP_END]) =
        (header (total + 4) tail' count ++ as) ++ (field ++ (rest ++ [UInt8.ofNat ZIP_END])) by
        simp, writeAt_middle (by simp; omega) (by simp [hfield])]
    simp
  rw [show header total tail count ++ (as ++ ([b] ++ (rest ++ [UInt8.ofNat ZIP_END]))) =
    header total tail count ++ (as ++ ([b] ++ rest) ++ [UInt8.ofNat ZIP_END]) by simp, hresize,
    some_bind, show header (total + 4) tail count ++ (as ++ ([b] ++ rest) ++
      (junk ++ [UInt8.ofNat ZIP_END])) = header (total + 4) tail count ++
      (as ++ ([b] ++ (rest ++ (junk ++ [UInt8.ofNat ZIP_END])))) by simp,
    zlTailOffset_header ht, some_bind, hstep, some_bind, hmemmove, some_bind, hwrite, some_bind]

/-- An entry whose field can hold the length keeps its size, and so do all behind it. -/
theorem settle_keep {n : Entry} {es : List Entry} {prev : Nat} (h : n.wide = true ∨ prev < 254) :
    settle prev (n :: es) = n :: es := by
  unfold settle
  rw [if_neg]
  rintro ⟨hnarrow, hbig⟩
  rcases h with hwide | hless
  · rw [hwide] at hnarrow
    cases hnarrow
  · omega

theorem Entry.prevSize_narrow {n : Entry} (h : n.wide = false) : n.prevSize = 1 := by
  unfold Entry.prevSize
  rw [h]
  rfl

theorem Entry.prevSize_wide {n : Entry} (h : n.wide = true) : n.prevSize = 5 := by
  unfold Entry.prevSize
  rw [h]
  rfl

/-- Where an entry keeps its size, the new length is written into its field. -/
theorem keepField {as : Bytes} {n : Entry} {es : List Entry} {old prev total tail np count : Nat}
    (hkeep : n.wide = true ∨ prev < 254) (hnp : 10 + as.length = np) :
    writeAt (header total tail count ++ (as ++ (prevField n.wide old ++ (n.body ++
      (encodeEntries n.rawLen es ++ [UInt8.ofNat ZIP_END]))))) np (prevField n.wide prev) =
    some (header total tail count ++ (as ++ (encodeEntries prev (settle prev (n :: es)) ++
      [UInt8.ofNat ZIP_END]))) := by
  rw [settle_keep hkeep, ← List.append_assoc, writeAt_middle (by simp; omega) (by simp),
    encodeEntries]
  simp

/-- Where the last entry starts once the field of the first one has grown. -/
theorem tail_widen {n : Entry} {es : List Entry} {np : Nat} (hwide : n.wide = false) :
    (if np + size (n :: es).dropLast = np then np + size (n :: es).dropLast
      else np + size (n :: es).dropLast + 4) = np + size (n.widen :: es).dropLast := by
  have hnraw := Entry.rawLen_narrow hwide
  cases es with
  | nil => simp
  | cons m es =>
      rw [List.dropLast_cons_of_ne_nil (List.cons_ne_nil _ _),
        List.dropLast_cons_of_ne_nil (List.cons_ne_nil _ _), size_cons, size_cons,
        Entry.rawLen_widen, if_neg (by omega)]
      omega

/-- `__ziplistCascadeUpdate` behind an entry whose length has changed: the fields behind it
get as wide as they have to be. -/
theorem cascadeLoop_spec (mem : Nat → UInt8) (count : Nat) : ∀ (es : List Entry) (fuel : Nat)
    (before : Bytes) (cur : Entry) (q old : Nat),
    es.length < fuel → Fits q [cur] → q < 2 ^ 32 → Fits old es → old < 2 ^ 32 →
    11 + before.length + cur.rawLen + size (settle cur.rawLen es) < 2 ^ 32 →
    cascadeLoop mem fuel
      (header (11 + before.length + cur.rawLen + size es)
        (10 + before.length + size (cur :: es).dropLast) count ++
        (before ++ (encodeEntries q [cur] ++ (encodeEntries old es ++ [UInt8.ofNat ZIP_END]))))
      (11 + before.length + cur.rawLen + size es) (10 + before.length) =
    some (header (11 + before.length + cur.rawLen + size (settle cur.rawLen es))
        (10 + before.length + size (cur :: settle cur.rawLen es).dropLast) count ++
        (before ++ (encodeEntries q [cur] ++
          (encodeEntries cur.rawLen (settle cur.rawLen es) ++ [UInt8.ofNat ZIP_END])))) := by
  intro es
  induction es with
  | nil =>
      intro fuel before cur q old hfuel hcur hq _ _ hsmall
      obtain ⟨fuel, rfl⟩ : ∃ n, fuel = n + 1 := ⟨fuel - 1, by simp at hfuel; omega⟩
      have hlen : cur.rawLen < 2 ^ 32 := by omega
      rw [encodeEntries_single, encodeEntries_nil, List.nil_append, List.append_assoc,
        ← List.append_assoc (header _ _ _),
        cascadeLoop_entry hcur.1 hq hlen (by simp)]
      dsimp only
      rw [← List.append_assoc (prevField _ _), ← List.append_assoc (_ ++ before), byteAt_end (by
        rw [← encodeEntries_single]
        simp
        omega), some_bind, if_pos rfl]
      simp [settle]
  | cons n es ih =>
      intro fuel before cur q old hfuel hcur hq hes hold hsmall
      obtain ⟨fuel, rfl⟩ : ∃ n, fuel = n + 1 := ⟨fuel - 1, by omega⟩
      have hgrow := @size_settle (n :: es) cur.rawLen
      have hlen : cur.rawLen < 2 ^ 32 := by omega
      -- the bytes up to the next entry
      obtain ⟨as, has⟩ : ∃ as, as = before ++ encodeEntries q [cur] := ⟨_, rfl⟩
      have hlas : as.length = before.length + cur.rawLen := by rw [has]; simp
      have hshape : ∀ cs, before ++ (encodeEntries q [cur] ++ cs) = as ++ cs := fun cs => by
        rw [has, List.append_assoc]
      obtain ⟨total, htotal⟩ : ∃ total, total = 11 + before.length + cur.rawLen + size (n :: es) :=
        ⟨_, rfl⟩
      obtain ⟨tail, htail⟩ : ∃ tail, tail = 10 + before.length + size (cur :: n :: es).dropLast :=
        ⟨_, rfl⟩
      obtain ⟨np, hnp⟩ : ∃ np, np = 10 + before.length + cur.rawLen := ⟨_, rfl⟩
      have htotal' : total < 2 ^ 32 := by omega
      have htail' : tail = np + size (n :: es).dropLast := by
        rw [htail, List.dropLast_cons_of_ne_nil (List.cons_ne_nil _ _), size_cons]
        omega
      have hdrop := @size_dropLast_le (n :: es)
      simp only [hshape]
      rw [← htotal, ← htail]
      have hentry := @cascadeLoop_entry mem (header total tail count ++ before)
        (encodeEntries old (n :: es) ++ [UInt8.ofNat ZIP_END]) cur q (10 + before.length)
        total fuel hcur.1 hq hlen (by simp)
      rw [show header total tail count ++ before ++ (prevField cur.wide q ++ (cur.body ++
          (encodeEntries old (n :: es) ++ [UInt8.ofNat ZIP_END]))) =
        header total tail count ++ (as ++ (encodeEntries old (n :: es) ++ [UInt8.ofNat ZIP_END])) by
        rw [has, encodeEntries_single]
        simp, ← hnp] at hentry
      rw [hentry]
      dsimp only
      obtain ⟨b, hb, hbend⟩ := @firstByte_entries (header total tail count ++ as) (n :: es) old np
        hes (by simp; omega)
      have hnext := @zipEntry_within (header total tail count ++ as)
        (encodeEntries n.rawLen es ++ [UInt8.ofNat ZIP_END]) np n old hes.1 hold (by simp; omega)
      rw [List.append_assoc] at hb hnext
      have hd : encodeEntries old (n :: es) ++ [UInt8.ofNat ZIP_END] =
          prevField n.wide old ++ (n.body ++ (encodeEntries n.rawLen es ++
            [UInt8.ofNat ZIP_END])) := by
        rw [encodeEntries]
        simp
      rw [hb, some_bind, if_neg (fun h => by cases hbend.mp h), hd, hnext, some_bind]
      dsimp only
      by_cases hsame : old = cur.rawLen
      · -- the length has not changed
        rw [if_pos hsame, settle_of_fits (hsame ▸ hes), ← hd, hsame, htotal, htail]
        rfl
      rw [if_neg hsame, length_prevEncode]
      -- where the entry keeps its length, the loop ends
      have hlas' : 10 + as.length = np := by omega
      have hstay : n.wide = true ∨ cur.rawLen < 254 →
          writeAt (header total tail count ++ (as ++ (prevField n.wide old ++ (n.body ++
            (encodeEntries n.rawLen es ++ [UInt8.ofNat ZIP_END]))))) np
            (prevField n.wide cur.rawLen) =
          some (header (11 + before.length + cur.rawLen + size (settle cur.rawLen (n :: es)))
            (10 + before.length + size (cur :: settle cur.rawLen (n :: es)).dropLast) count ++
            (as ++ (encodeEntries cur.rawLen (settle cur.rawLen (n :: es)) ++
              [UInt8.ofNat ZIP_END]))) := by
        intro hkeep
        rw [keepField hkeep hlas', settle_keep hkeep, htotal, htail]
      rcases hwide : n.wide with _ | _
      · have hsize := Entry.prevSize_narrow hwide
        by_cases hbig : 254 ≤ cur.rawLen
        · -- the field of the next entry grows, and so does this entry
          have hnraw := Entry.rawLen_narrow hwide
          have hsettle : settle cur.rawLen (n :: es) = n.widen :: settle n.widen.rawLen es :=
            if_pos ⟨hwide, hbig⟩
          rw [hsettle, size_cons, Entry.rawLen_widen] at hsmall
          have hrest := @size_settle es n.widen.rawLen
          have hnext' := ih fuel as n.widen cur.rawLen n.rawLen (by simp at hfuel; omega)
            ⟨fun h => (by cases h), trivial⟩ hlen hes.2 (by omega)
            (by rw [Entry.rawLen_widen]; omega)
          rw [Entry.rawLen_widen] at hrest
          obtain ⟨tail', htail''⟩ : ∃ tail', tail' = if tail = np then tail else tail + 4 :=
            ⟨_, rfl⟩
          have htails : tail' = 10 + as.length + size (n.widen :: es).dropLast := by
            rw [htail'', htail', hlas']
            exact tail_widen hwide
          have hdrop' := @size_dropLast_le (n.widen :: es)
          rw [size_cons, Entry.rawLen_widen] at hdrop'
          have hwiden := @widenField mem count as (n.body ++ encodeEntries n.rawLen es)
            (UInt8.ofNat old) cur.rawLen total tail tail' np
            (fun zl => cascadeLoop mem fuel zl (total + 4) np) hbig (by omega)
            (by simp; omega) (by rw [htotal, size_cons]; simp; omega) (by omega) htail''
            (by omega)
          rw [hsize, if_pos hbig, if_pos (by decide),
            show prevField false old = [UInt8.ofNat old] from rfl,
            show n.body ++ (encodeEntries n.rawLen es ++ [UInt8.ofNat ZIP_END]) =
              (n.body ++ encodeEntries n.rawLen es) ++ [UInt8.ofNat ZIP_END] by simp]
          refine Eq.trans hwiden ?_
          have hone : encodeEntries cur.rawLen [n.widen] = prevField true cur.rawLen ++ n.body :=
            encodeEntries_single
          have htot : total + 4 = 11 + as.length + n.widen.rawLen + size es := by
            rw [htotal, size_cons, Entry.rawLen_widen]
            omega
          rw [← htot, ← htails, hlas', hone] at hnext'
          rw [hsettle, show prevField true cur.rawLen ++
            ((n.body ++ encodeEntries n.rawLen es) ++ [UInt8.ofNat ZIP_END]) =
            (prevField true cur.rawLen ++ n.body) ++ (encodeEntries n.rawLen es ++
              [UInt8.ofNat ZIP_END]) by simp]
          refine Eq.trans hnext' ?_
          rw [List.dropLast_cons_of_ne_nil (List.cons_ne_nil _ _), size_cons, size_cons, encodeEntries,
            show (n.widen).wide = true from rfl, Entry.body_widen, ← hlas', hlas]
          simp only [List.append_assoc, Nat.add_assoc]
        · rw [hsize, if_neg hbig, if_neg (by decide), if_neg (by decide), prevEncode_eq,
            decide_eq_false hbig, ← hwide]
          exact hstay (.inr (by omega))
      · have hsize := Entry.prevSize_wide hwide
        by_cases hbig : 254 ≤ cur.rawLen
        · rw [hsize, if_pos hbig, if_neg (by decide), if_neg (by decide), prevEncode_eq,
            decide_eq_true hbig, ← hwide]
          exact hstay (.inl hwide)
        · rw [hsize, if_neg hbig, if_neg (by decide), if_pos (by decide),
            show zipPrevEncodeLengthForceLarge cur.rawLen = prevField true cur.rawLen from rfl,
            ← hwide]
          exact hstay (.inl hwide)

end Ziplist

end RedisCore

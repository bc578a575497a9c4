/-
# `RedisCore.Ziplist.Reads` — finding and reading entries

What the functions that do not change a ziplist find in one with these entries: at the offset
of an entry its fields, its value and its neighbours, and by an index the offset of the entry
that the index means.
-/
import RedisCore.Ziplist.Edits

namespace RedisCore

namespace Ziplist

open CInt LittleEndian Splice

variable {zl : Bytes} {es as bs : List Entry} {e : Entry}

/-! ## At an entry -/

/-- The bytes around an entry. -/
theorem Represents.bytes_entry (h : Represents zl (as ++ e :: bs)) :
    ∃ cs : Bytes, cs.length = 10 + size as ∧ zl = cs ++ (prevField e.wide (lastLen 0 as) ++
      (e.body ++ (encodeEntries e.rawLen bs ++ [UInt8.ofNat ZIP_END]))) := by
  obtain ⟨⟨count, rfl, -⟩, -, -⟩ := h
  refine ⟨header (11 + size (as ++ e :: bs)) (tailOffset (as ++ e :: bs)) count ++
    encodeEntries 0 as, by simp, ?_⟩
  unfold Ziplist.layout
  rw [encodeEntries_append, encodeEntries]
  simp

theorem Represents.fits_entry (h : Represents zl (as ++ e :: bs)) :
    e.wide = false → lastLen 0 as < 254 := (fits_append.mp h.fits).2.1

theorem Represents.size_lt (h : Represents zl (as ++ e :: bs)) :
    lastLen 0 as < 2 ^ 32 ∧ e.rawLen < 2 ^ 32 ∧ 11 + size as + e.rawLen + size bs < 2 ^ 32 := by
  have hsmall := h.small
  have hlast := lastLen_le_size as
  rw [size_append, size_cons] at hsmall
  omega

theorem Represents.byteAt_entry (h : Represents zl (as ++ e :: bs)) :
    ∃ b, byteAt zl (10 + size as) = some b ∧ b ≠ ZIP_END := by
  obtain ⟨cs, hcs, hzl⟩ := h.bytes_entry
  rw [hzl]
  exact firstByte_within h.fits_entry hcs.symm

theorem Represents.zipEntry (h : Represents zl (as ++ e :: bs)) :
    zipEntry zl (10 + size as) = some ⟨e.prevSize, lastLen 0 as, e.lensize, e.len,
      e.prevSize + e.lensize, e.encoding, 10 + size as⟩ := by
  obtain ⟨cs, hcs, hzl⟩ := h.bytes_entry
  rw [hzl]
  exact zipEntry_within h.fits_entry h.size_lt.1 hcs.symm

theorem Represents.zipRawEntryLength (h : Represents zl (as ++ e :: bs)) :
    zipRawEntryLength zl (10 + size as) = some e.rawLen := by
  obtain ⟨cs, hcs, hzl⟩ := h.bytes_entry
  rw [hzl]
  exact zipRawEntryLength_within h.fits_entry h.size_lt.2.1 hcs.symm

theorem Represents.zipDecodePrevlen (h : Represents zl (as ++ e :: bs)) :
    zipDecodePrevlen zl (10 + size as) = some (if e.wide then 5 else 1, lastLen 0 as) := by
  obtain ⟨cs, hcs, hzl⟩ := h.bytes_entry
  rw [hzl]
  exact zipDecodePrevlen_within h.fits_entry h.size_lt.1 hcs.symm

theorem Represents.byteAt_end (h : Represents zl es) :
    byteAt zl (10 + size es) = some ZIP_END := by
  obtain ⟨⟨count, rfl, -⟩, -, -⟩ := h
  unfold Ziplist.layout
  rw [← List.append_assoc]
  exact Ziplist.byteAt_end (by simp)

theorem Represents.length (h : Represents zl es) : zl.length = 11 + size es := by
  obtain ⟨⟨count, rfl, -⟩, -, -⟩ := h
  simp [Ziplist.layout]
  omega

theorem Represents.zlBytes (h : Represents zl es) : zlBytes zl = some (11 + size es) := by
  obtain ⟨⟨count, rfl, -⟩, -, hsmall⟩ := h
  exact zlBytes_header hsmall

theorem Represents.zlTailOffset (h : Represents zl es) :
    zlTailOffset zl = some (tailOffset es) := by
  obtain ⟨⟨count, rfl, -⟩, -, hsmall⟩ := h
  have hdrop := @size_dropLast_le es
  exact zlTailOffset_header (by unfold tailOffset ZIPLIST_HEADER_SIZE; omega)

theorem ziplistBlobLen_spec (h : Represents zl es) :
    ziplistBlobLen zl = some (11 + size es) := h.zlBytes

/-! ## The number of entries -/

theorem countEntries_spec : ∀ (bs as : List Entry) (fuel : Nat), Represents zl (as ++ bs) →
    bs.length < fuel → countEntries zl fuel (10 + size as) = some bs.length := by
  intro bs
  induction bs with
  | nil =>
      intro as fuel h hfuel
      obtain ⟨fuel, rfl⟩ : ∃ n, fuel = n + 1 := ⟨fuel - 1, by simp at hfuel; omega⟩
      rw [List.append_nil] at h
      rw [countEntries, h.byteAt_end, some_bind, if_pos rfl]
      rfl
  | cons e bs ih =>
      intro as fuel h hfuel
      obtain ⟨fuel, rfl⟩ : ∃ n, fuel = n + 1 := ⟨fuel - 1, by omega⟩
      obtain ⟨b, hb, hne⟩ := h.byteAt_entry
      have hrest := ih (as ++ [e]) fuel (by simpa using h) (by simp at hfuel; omega)
      rw [size_append, size_cons, size_nil, Nat.add_zero, ← Nat.add_assoc] at hrest
      rw [countEntries, hb, some_bind, if_neg hne, h.zipRawEntryLength, some_bind, hrest, some_bind]
      rfl

/-- `ziplistLen` is the number of entries, also where the header does not know it. -/
theorem ziplistLen_spec (h : Represents zl es) :
    ∃ zl', ziplistLen zl = some (es.length, zl') ∧ Represents zl' es := by
  have hcount := @countEntries_spec zl es [] (zl.length + 1) h (by
    have := h.length
    have := @length_le_size es
    omega)
  obtain ⟨⟨count, hzl, hcounted⟩, hfits, hsmall⟩ := id h
  have hlength : zlLength zl = some count := by
    rw [hzl]
    exact zlLength_header (by unfold Counted UINT16_MAX at hcounted; omega)
  unfold ziplistLen
  rw [hlength, some_bind]
  by_cases hlt : count < UINT16_MAX
  · rw [if_pos hlt]
    unfold Counted at hcounted
    exact ⟨zl, by rw [show count = es.length by omega]; rfl, h⟩
  · rw [if_neg hlt, show ZIPLIST_HEADER_SIZE = 10 + size [] from rfl, hcount, some_bind]
    by_cases hless : es.length < UINT16_MAX
    · refine ⟨layout es.length es, ?_, ⟨es.length, rfl, .inr ⟨hless, rfl⟩⟩, hfits, hsmall⟩
      rw [if_pos hless, hzl]
      unfold layout
      rw [setLength_header (by unfold UINT16_MAX at hless; omega) rfl]
      rfl
    · exact ⟨zl, by rw [if_neg hless]; rfl, h⟩

/-! ## Indexes -/

/-- The entry that an index means: from zero at the head, from minus one at the tail. -/
def position (n : Nat) (index : Int) : Option Nat :=
  if 0 ≤ index then (if index < n then some index.toNat else none)
  else if -index ≤ n then some (n - (-index).toNat) else none

theorem position_eq_some {n k : Nat} {index : Int} (h : position n index = some k) :
    k < n ∧ (0 ≤ index ∧ index = k ∨ index < 0 ∧ (k : Int) = n + index) := by
  unfold position at h
  split at h
  · split at h
    · rw [← Option.some.inj h]
      omega
    · cases h
  · split at h
    · rw [← Option.some.inj h]
      omega
    · cases h

theorem position_lt {n k : Nat} {index : Int} (h : position n index = some k) : k < n :=
  (position_eq_some h).1

theorem position_eq_none {n : Nat} {index : Int} (h : position n index = none) :
    (n : Int) ≤ index ∨ index < -n := by
  unfold position at h
  split at h
  · split at h
    · cases h
    · omega
  · split at h
    · cases h
    · omega

/-- The loop from the head. -/
theorem indexForward_spec : ∀ (bs as : List Entry) (fuel k : Nat), Represents zl (as ++ bs) →
    bs.length < fuel → ∃ index', indexForward zl fuel (10 + size as) k =
      some (10 + size (as ++ bs.take k), index') ∧ (k < bs.length → index' ≤ 0) := by
  intro bs
  induction bs with
  | nil =>
      intro as fuel k h hfuel
      obtain ⟨fuel, rfl⟩ : ∃ n, fuel = n + 1 := ⟨fuel - 1, by simp at hfuel; omega⟩
      rw [List.append_nil] at h
      refine ⟨k, ?_, fun hlt => by simp at hlt⟩
      rw [indexForward, h.byteAt_end, some_bind, if_pos rfl, List.take_nil, List.append_nil]
      rfl
  | cons e bs ih =>
      intro as fuel k h hfuel
      obtain ⟨fuel, rfl⟩ : ∃ n, fuel = n + 1 := ⟨fuel - 1, by omega⟩
      obtain ⟨b, hb, hne⟩ := h.byteAt_entry
      rw [indexForward, hb, some_bind, if_neg hne]
      cases k with
      | zero =>
          refine ⟨-1, ?_, fun _ => by omega⟩
          rw [if_pos (show ((0 : Nat) : Int) = 0 from rfl), List.take_zero, List.append_nil]
          rfl
      | succ k =>
          obtain ⟨index', hrest, hle⟩ := ih (as ++ [e]) fuel k (by simpa using h)
            (by simp at hfuel; omega)
          rw [size_append, size_cons, size_nil, Nat.add_zero, ← Nat.add_assoc, List.append_assoc]
            at hrest
          refine ⟨index', ?_, fun hlt => hle (by simp at hlt; omega)⟩
          rw [if_neg (by omega), h.zipRawEntryLength, some_bind, List.take_succ_cons,
            show ((k + 1 : Nat) : Int) - 1 = k by omega, hrest]
          rfl

/-- The loop from an entry to the head. -/
theorem indexBackward_spec : ∀ (k : Nat) (as : List Entry) (e : Entry) (bs : List Entry) (fuel : Nat),
    Represents zl (as ++ e :: bs) → as.length < fuel →
    ∃ index', indexBackward zl fuel (10 + size as) (lastLen 0 as) k =
      some (10 + size (as.take (as.length - k)), index') ∧ (0 < index' ↔ as.length < k) := by
  intro k
  induction k with
  | zero =>
      intro as e bs fuel h hfuel
      obtain ⟨fuel, rfl⟩ : ∃ n, fuel = n + 1 := ⟨fuel - 1, by omega⟩
      rw [indexBackward, Nat.sub_zero, List.take_length]
      by_cases hfirst : lastLen 0 as = 0
      · rw [if_pos hfirst]
        exact ⟨_, rfl, by omega⟩
      · rw [if_neg hfirst, if_pos (show ((0 : Nat) : Int) = 0 from rfl)]
        exact ⟨_, rfl, by omega⟩
  | succ k ih =>
      intro as e bs fuel h hfuel
      obtain ⟨fuel, rfl⟩ : ∃ n, fuel = n + 1 := ⟨fuel - 1, by omega⟩
      rw [indexBackward]
      rcases List.eq_nil_or_concat' as with rfl | ⟨as, f, rfl⟩
      · rw [if_pos (lastLen_nil)]
        refine ⟨((k + 1 : Nat) : Int), ?_, by simp⟩
        rw [List.take_nil]
        rfl
      · have hlast : lastLen 0 (as ++ [f]) = f.rawLen := by
          rw [lastLen_append, lastLen_cons, lastLen_nil]
        have hf := f.rawLen_ge
        have hbefore : Represents zl (as ++ f :: e :: bs) := by simpa using h
        rw [List.length_append, List.length_singleton] at hfuel
        obtain ⟨index', hrest, hiff⟩ := ih as f (e :: bs) fuel hbefore (by omega)
        refine ⟨index', ?_, by rw [hiff]; simp⟩
        rw [hlast, if_neg (by omega), if_neg (by omega), @sizeT_eq (10 + size as) _ (by
          rw [size_append, size_cons, size_nil]
          omega), some_bind, hbefore.zipDecodePrevlen, some_bind,
          show ((k + 1 : Nat) : Int) - 1 = k by omega]
        dsimp only
        rw [hrest, List.length_append, List.length_singleton, Nat.add_sub_add_right,
          List.take_append_of_le_length (by omega)]

/-- The entries before the one at a position, and from it on. -/
theorem exists_split {k : Nat} (hk : k < es.length) :
    ∃ as e bs, es = as ++ e :: bs ∧ as.length = k ∧ es.take k = as :=
  ⟨es.take k, es[k], es.drop (k + 1), by rw [List.getElem_cons_drop, List.take_append_drop], by
    rw [List.length_take]; omega, rfl⟩

/-- `ziplistIndex` finds the entry that the index means. -/
theorem ziplistIndex_spec {index : Int} (h : Represents zl es) (hlow : -(2 ^ 31) ≤ index)
    (hhigh : index < 2 ^ 31) :
    ziplistIndex zl index =
      some ((position es.length index).map (fun k => 10 + size (es.take k))) := by
  have hlen := @length_le_size es
  have hzl := h.length
  have hsmall := h.small
  unfold ziplistIndex position
  by_cases hneg : index < 0
  · -- from the tail
    have hback : toInt (toInt (-index) - 1) = ((-index).toNat - 1 : Nat) := by
      unfold toInt
      rw [Int.bmod_def, Int.bmod_def]
      split <;> split <;> omega
    rw [if_pos hneg, hback, if_neg (by omega)]
    unfold indexTail
    rw [h.zlTailOffset, some_bind]
    rcases List.eq_nil_or_concat' es with rfl | ⟨as, e, rfl⟩
    · have hend := h.byteAt_end
      rw [size_nil, Nat.add_zero] at hend
      rw [show tailOffset [] = 10 from rfl, hend, some_bind, if_pos rfl]
      show (do
        let b ← byteAt zl 10
        return if b = ZIP_END ∨ _ then none else some 10) = _
      rw [hend, some_bind, if_pos (.inl rfl), if_neg (by simp; omega)]
      rfl
    · have htail : tailOffset (as ++ [e]) = 10 + size as := by
        rw [tailOffset, List.dropLast_concat]
        rfl
      obtain ⟨b, hb, hne⟩ := h.byteAt_entry
      rw [List.length_append, List.length_singleton] at hlen ⊢
      obtain ⟨index', hloop, hiff⟩ := @indexBackward_spec zl ((-index).toNat - 1) as e [] (zl.length + 1) h
        (by omega)
      rw [htail, hb, some_bind, if_neg hne, h.zipDecodePrevlen, some_bind]
      dsimp only
      rw [hloop, some_bind]
      dsimp only
      obtain ⟨as', f, bs, heq, hlen', htake⟩ := exists_split (show as.length - ((-index).toNat - 1) <
        (as ++ [e]).length by rw [List.length_append, List.length_singleton]; omega)
      rw [List.take_append_of_le_length (by omega)] at htake
      obtain ⟨b', hb', hne'⟩ := (heq ▸ h).byteAt_entry
      rw [htake, hb', some_bind]
      by_cases hin : -index ≤ as.length + 1
      · rw [if_neg (by omega), if_pos (by omega), Option.map_some, List.take_append_of_le_length (by omega),
          show as.length + 1 - (-index).toNat = as.length - ((-index).toNat - 1) by omega, htake]
        rfl
      · rw [if_pos (by omega), if_neg (by omega)]
        rfl
  · -- from the head
    obtain ⟨k, rfl⟩ := Int.eq_ofNat_of_zero_le (show 0 ≤ index by omega)
    obtain ⟨index', hloop, hle⟩ := @indexForward_spec zl es [] (zl.length + 1) k h (by omega)
    rw [List.nil_append, size_nil, Nat.add_zero] at hloop
    rw [if_neg hneg, show ZIPLIST_HEADER_SIZE = 10 from rfl, hloop, some_bind, if_pos (by omega)]
    dsimp only
    by_cases hin : k < es.length
    · obtain ⟨as, e, bs, heq, -, htake⟩ := exists_split hin
      obtain ⟨b, hb, hne⟩ := (heq ▸ h).byteAt_entry
      have := hle hin
      rw [htake, hb, some_bind, if_neg (by omega), if_pos (by omega), Option.map_some,
        Int.toNat_natCast, htake]
      rfl
    · rw [List.take_of_length_le (by omega), h.byteAt_end, some_bind, if_pos (.inl rfl),
        if_neg (by omega)]
      rfl

/-! ## Neighbours and values -/

/-- `ziplistNext`. -/
theorem ziplistNext_spec (h : Represents zl (as ++ e :: bs)) :
    ziplistNext zl (10 + size as) =
      some (if bs = [] then none else some (10 + size (as ++ [e]))) := by
  obtain ⟨b, hb, hne⟩ := h.byteAt_entry
  have hnext : 10 + size as + e.rawLen = 10 + size (as ++ [e]) := by simp; omega
  unfold ziplistNext
  rw [hb, some_bind, if_neg hne, h.zipRawEntryLength, some_bind]
  dsimp only
  rw [hnext]
  rcases bs with _ | ⟨f, bs⟩
  · rw [h.byteAt_end, some_bind, if_pos rfl, if_pos rfl]
    rfl
  · obtain ⟨b', hb', hne'⟩ := @Represents.byteAt_entry zl (as ++ [e]) bs f (by simpa using h)
    rw [hb', some_bind, if_neg hne', if_neg (List.cons_ne_nil _ _)]
    rfl

/-- `ziplistPrev` of an entry. -/
theorem ziplistPrev_spec (h : Represents zl (as ++ e :: bs)) :
    ziplistPrev zl (10 + size as) =
      some (if as = [] then none else some (10 + size as.dropLast)) := by
  obtain ⟨b, hb, hne⟩ := h.byteAt_entry
  unfold ziplistPrev
  rw [hb, some_bind, if_neg hne]
  by_cases has : as = []
  · rw [has, if_pos (show 10 + size [] = ZIPLIST_HEADER_SIZE from rfl), if_pos rfl]
    rfl
  · have hpos := @length_le_size as
    have hlen := List.length_pos_of_ne_nil has
    have hdrop := size_dropLast as
    rw [if_neg (by unfold ZIPLIST_HEADER_SIZE; omega), h.zipDecodePrevlen, some_bind, if_neg has]
    dsimp only
    rw [@sizeT_eq (10 + size as.dropLast) _ (by omega), some_bind]
    rfl

/-- The payload of an integer is as long as its encoding says. -/
theorem Entry.len_int (e : Entry) (h : ¬ zipIsStr e.encoding) : e.len = zipIntSize e.encoding := by
  have hdec := e.decodes
  unfold zipDecodeLength at hdec
  obtain ⟨first, -, hdec⟩ := Option.bind_eq_some_iff.mp hdec
  dsimp only at hdec
  by_cases hstr : zipEntryEncoding first < ZIP_STR_MASK
  · -- the encoding of a string is one
    have hisstr : zipIsStr (zipEntryEncoding first) := Nat.lt_of_le_of_lt Nat.and_le_left hstr
    have henc : e.encoding = zipEntryEncoding first := by
      rw [if_pos hstr] at hdec
      split at hdec
      · rw [(Prod.mk.inj (Option.some.inj hdec)).1]
      · split at hdec
        · obtain ⟨b, -, hdec⟩ := Option.bind_eq_some_iff.mp hdec
          rw [(Prod.mk.inj (Option.some.inj hdec)).1]
        · obtain ⟨b₁, -, hdec⟩ := Option.bind_eq_some_iff.mp hdec
          obtain ⟨b₂, -, hdec⟩ := Option.bind_eq_some_iff.mp hdec
          obtain ⟨b₃, -, hdec⟩ := Option.bind_eq_some_iff.mp hdec
          obtain ⟨b₄, -, hdec⟩ := Option.bind_eq_some_iff.mp hdec
          rw [(Prod.mk.inj (Option.some.inj hdec)).1]
    rw [henc] at h
    exact absurd hisstr h
  · rw [if_neg hstr] at hdec
    obtain ⟨henc, hrest⟩ := Prod.mk.inj (Option.some.inj hdec)
    rw [← henc, (Prod.mk.inj hrest).2]

/-- An integer is loaded from the bytes of its entry. -/
theorem zipLoadInteger_within {pre cs : Bytes} {p i enc : Nat} {body : Bytes}
    (hin : i + zipIntSize enc ≤ body.length) (hp : p = pre.length + i) :
    ∃ v, zipLoadInteger body i enc = some v ∧ zipLoadInteger (pre ++ (body ++ cs)) p enc = some v := by
  have hread : ∀ n, i + n ≤ body.length → ∃ chunk, readAt body i n = some chunk ∧
      readAt (pre ++ (body ++ cs)) p n = some chunk := by
    intro n hn
    obtain ⟨chunk, hchunk⟩ : ∃ chunk, readAt body i n = some chunk := ⟨_, if_pos hn⟩
    exact ⟨chunk, hchunk, hp ▸ readAt_within hchunk⟩
  unfold zipIntSize at hin
  unfold zipLoadInteger
  by_cases h8 : enc = ZIP_INT_8B
  · obtain ⟨chunk, h₁, h₂⟩ := hread 1 (by rwa [if_pos h8] at hin)
    rw [if_pos h8, if_pos h8, h₁, h₂]
    exact ⟨_, rfl, rfl⟩
  rw [if_neg h8] at hin
  rw [if_neg h8, if_neg h8]
  by_cases h16 : enc = ZIP_INT_16B
  · obtain ⟨chunk, h₁, h₂⟩ := hread 2 (by rwa [if_pos h16] at hin)
    rw [if_pos h16, if_pos h16, h₁, h₂]
    exact ⟨_, rfl, rfl⟩
  rw [if_neg h16] at hin
  rw [if_neg h16, if_neg h16]
  by_cases h24 : enc = ZIP_INT_24B
  · obtain ⟨chunk, h₁, h₂⟩ := hread 3 (by rwa [if_pos h24] at hin)
    have h32 : enc ≠ ZIP_INT_32B := by rw [h24]; decide
    rw [if_neg h32, if_neg h32, if_pos h24, if_pos h24, h₁, h₂]
    exact ⟨_, rfl, rfl⟩
  rw [if_neg h24] at hin
  by_cases h32 : enc = ZIP_INT_32B
  · obtain ⟨chunk, h₁, h₂⟩ := hread 4 (by rwa [if_pos h32] at hin)
    rw [if_pos h32, if_pos h32, h₁, h₂]
    exact ⟨_, rfl, rfl⟩
  rw [if_neg h32] at hin
  rw [if_neg h32, if_neg h32, if_neg h24, if_neg h24]
  by_cases h64 : enc = ZIP_INT_64B
  · obtain ⟨chunk, h₁, h₂⟩ := hread 8 (by rwa [if_pos h64] at hin)
    rw [if_pos h64, if_pos h64, h₁, h₂]
    exact ⟨_, rfl, rfl⟩
  rw [if_neg h64, if_neg h64]
  split
  · exact ⟨_, rfl, rfl⟩
  · exact ⟨_, rfl, rfl⟩

section within

variable {pre cs : Bytes} {prev p : Nat}

/-- The payload of a string. -/
theorem readPayload_within (e : Entry) (hp : p = pre.length) :
    readAt (pre ++ (prevField e.wide prev ++ (e.body ++ cs))) (p + (e.prevSize + e.lensize)) e.len =
      some (e.body.drop e.lensize) := by
  have hwhole := e.whole
  have hsize : (prevField e.wide prev).length = e.prevSize := length_prevField _ _
  have hread : readAt e.body e.lensize e.len = some (e.body.drop e.lensize) := by
    unfold readAt
    rw [if_pos (by omega)]
    unfold slice
    rw [List.take_of_length_le (by rw [List.length_drop]; omega)]
  have hin : readAt ((pre ++ prevField e.wide prev) ++ (e.body ++ cs))
      ((pre ++ prevField e.wide prev).length + e.lensize) e.len = some (e.body.drop e.lensize) :=
    readAt_within hread
  rw [List.length_append, hsize, ← hp, List.append_assoc] at hin
  rw [← Nat.add_assoc]
  exact hin

/-- The payload of an integer. -/
theorem loadPayload_within {e : Entry} (hint : ¬ zipIsStr e.encoding) (hp : p = pre.length) :
    zipLoadInteger (pre ++ (prevField e.wide prev ++ (e.body ++ cs))) (p + (e.prevSize + e.lensize))
      e.encoding = some ((zipLoadInteger e.body e.lensize e.encoding).getD 0) := by
  have hwhole := e.whole
  have hsize : (prevField e.wide prev).length = e.prevSize := length_prevField _ _
  obtain ⟨v, hv, hload⟩ := @zipLoadInteger_within (pre ++ prevField e.wide prev) cs
    (p + (e.prevSize + e.lensize)) e.lensize e.encoding e.body (by rw [← e.len_int hint]; omega)
    (by rw [List.length_append, hsize]; omega)
  rw [List.append_assoc] at hload
  rw [hload, hv]
  rfl

/-- `ziplistGet` finds the value of an entry, wherever it stands. -/
theorem ziplistGet_within {e : Entry} (h : e.wide = false → prev < 254) (hprev : prev < 2 ^ 32)
    (hp : p = pre.length) :
    ziplistGet (pre ++ (prevField e.wide prev ++ (e.body ++ cs))) (some p) = some (some e.value) := by
  obtain ⟨b, hb, hne⟩ := @firstByte_within pre (e.body ++ cs) p e.wide prev h hp
  unfold ziplistGet Entry.value
  dsimp only
  rw [hb, some_bind, if_neg hne, zipEntry_within h hprev hp, some_bind]
  dsimp only
  by_cases hstr : zipIsStr e.encoding
  · rw [if_pos hstr, if_pos hstr, readPayload_within e hp, some_bind]
    rfl
  · rw [if_neg hstr, if_neg hstr, loadPayload_within hstr hp, some_bind]
    rfl

end within

/-- `ziplistGet` finds the value of the entry. -/
theorem ziplistGet_spec (h : Represents zl (as ++ e :: bs)) :
    ziplistGet zl (some (10 + size as)) = some (some e.value) := by
  obtain ⟨cs, hcs, hzl⟩ := h.bytes_entry
  rw [hzl]
  exact ziplistGet_within h.fits_entry h.size_lt.1 hcs.symm

end Ziplist

end RedisCore

/-
# `RedisCore.Ziplist.Search` — walking, comparing and searching

The offsets of the entries are what the index functions go through, in both directions.  An entry
that is written decodes to what was written, in any memory, and it compares equal to its own string
alone.  `ziplistFind` then finds the first entry with a string, among those that its skip count
lets it look at.
-/
import RedisCore.Ziplist.Runs

namespace RedisCore

namespace Ziplist

open CInt LittleEndian Splice

variable {zl : Bytes} {es as bs : List Entry} {e : Entry}

/-! ## Walking -/

/-- The offset of an entry; that of the end behind the last one. -/
def offset (es : List Entry) (k : Nat) : Nat := ZIPLIST_HEADER_SIZE + size (es.take k)

theorem offset_length (as : List Entry) : offset (as ++ bs) as.length = 10 + size as := by
  unfold offset
  rw [List.take_left]
  rfl

theorem offset_succ : offset (as ++ e :: bs) (as.length + 1) = 10 + size (as ++ [e]) := by
  have hsplit : as ++ e :: bs = (as ++ [e]) ++ bs := by simp
  rw [hsplit, ← offset_length (as ++ [e]), List.length_append, List.length_singleton]

/-- An entry in a list of entries. -/
theorem exists_entry {k : Nat} (hk : k < es.length) : ∃ as e bs, es = as ++ e :: bs ∧ as.length = k := by
  obtain ⟨as, e, bs, heq, hlen, -⟩ := exists_split hk
  exact ⟨as, e, bs, heq, hlen⟩

/-- What `ziplistIndex` says of any index. -/
def IndexAgrees (zl : Bytes) (es : List Entry) : Prop :=
  ∀ index : Int, -(2 ^ 31) ≤ index → index < 2 ^ 31 →
    (∀ k < es.length, index = k ∨ index = (k : Int) - es.length →
      ziplistIndex zl index = some (some (offset es k))) ∧
    (es.length ≤ index ∨ index < -es.length → ziplistIndex zl index = some none)

/-- What `ziplistNext` says of any entry. -/
def NextAgrees (zl : Bytes) (es : List Entry) : Prop :=
  ∀ k < es.length, ziplistNext zl (offset es k) =
    some (if k + 1 < es.length then some (offset es (k + 1)) else none)

/-- What `ziplistPrev` says of any entry, and of the end. -/
def PrevAgrees (zl : Bytes) (es : List Entry) : Prop :=
  ∀ k ≤ es.length, ziplistPrev zl (offset es k) =
    some (if k = 0 then none else some (offset es (k - 1)))

theorem index_agrees (h : Represents zl es) : IndexAgrees zl es := by
  intro index hlow hhigh
  have hspec := ziplistIndex_spec h hlow hhigh
  refine ⟨fun k hk heq => ?_, fun hout => ?_⟩
  · have hposition : position es.length index = some k := by
      unfold position
      split
      · rw [if_pos (by omega)]
        congr 1
        omega
      · rw [if_pos (by omega)]
        congr 1
        omega
    rw [hspec, hposition]
    rfl
  · have hposition : position es.length index = none := by
      unfold position
      split
      · rw [if_neg (by omega)]
      · rw [if_neg (by omega)]
    rw [hspec, hposition]
    rfl

theorem next_agrees (h : Represents zl es) : NextAgrees zl es := by
  intro k hk
  obtain ⟨as, e, bs, rfl, rfl⟩ := exists_entry hk
  rw [offset_length, ziplistNext_spec h, offset_succ, List.length_append, List.length_cons]
  rcases bs with _ | ⟨f, bs⟩
  · rw [if_pos rfl, if_neg (by simp)]
  · rw [if_neg (List.cons_ne_nil _ _), if_pos (by rw [List.length_cons]; omega)]

theorem prev_agrees (h : Represents zl es) : PrevAgrees zl es := by
  intro k hk
  rcases Nat.lt_or_eq_of_le hk with hlt | rfl
  · -- at an entry
    obtain ⟨as, e, bs, rfl, rfl⟩ := exists_entry hlt
    rw [offset_length, ziplistPrev_spec h]
    rcases List.eq_nil_or_concat' as with rfl | ⟨as, f, rfl⟩
    · rfl
    · rw [if_neg (by simp), if_neg (by simp), List.dropLast_concat, List.length_append,
        List.length_singleton, Nat.add_sub_cancel, List.append_assoc]
      exact congrArg (fun n => some (some n)) (offset_length as).symm
  · -- at the end
    have hend := h.byteAt_end
    have hoffset : offset es es.length = 10 + size es := by
      unfold offset
      rw [List.take_length]
      rfl
    unfold ziplistPrev
    rw [hoffset, hend, some_bind, if_pos rfl, h.zlTailOffset, some_bind]
    rcases List.eq_nil_or_concat' es with rfl | ⟨as, f, rfl⟩
    · rw [size_nil, Nat.add_zero] at hend
      rw [show tailOffset [] = 10 from rfl, hend, some_bind, if_pos rfl]
      rfl
    · have htail : tailOffset (as ++ [f]) = 10 + size as := by
        unfold tailOffset
        rw [List.dropLast_concat]
        rfl
      obtain ⟨b, hb, hne⟩ := h.byteAt_entry
      rw [htail, hb, some_bind, if_neg hne, if_neg (by simp), List.length_append, List.length_singleton,
        Nat.add_sub_cancel, offset_length]
      rfl

/-- The index functions agree with the list of the entries, in both directions. -/
theorem ziplist_navigation (h : Represents zl es) :
    IndexAgrees zl es ∧ NextAgrees zl es ∧ PrevAgrees zl es :=
  ⟨index_agrees h, next_agrees h, prev_agrees h⟩

theorem ab_short : ([97, 98] : Bytes).length < 2 ^ 32 := by decide

theorem c_short : ([99] : Bytes).length < 2 ^ 32 := by decide

/-- Two strings, the second behind a wide field. -/
def twoEntries : List Entry := [strEntry false [97, 98] ab_short, strEntry true [99] c_short]

theorem twoEntries_represents : Represents (layout 2 twoEntries) twoEntries :=
  ⟨⟨2, rfl, .inr ⟨by decide, rfl⟩⟩, ⟨fun _ => by decide, fun hw => (by cases hw), trivial⟩, by decide⟩

theorem ziplist_navigation_two : Represents (layout 2 twoEntries) twoEntries ∧
    IndexAgrees (layout 2 twoEntries) twoEntries ∧ NextAgrees (layout 2 twoEntries) twoEntries ∧
      PrevAgrees (layout 2 twoEntries) twoEntries :=
  ⟨twoEntries_represents, ziplist_navigation twoEntries_represents⟩

/-! ## Integers -/

theorem decode_range {bs : Bytes} (h : bs.length ≤ 8) : LONG_MIN ≤ decode bs ∧ decode bs ≤ LONG_MAX := by
  have hbase : 256 ^ bs.length ≤ 256 ^ 8 := Nat.pow_le_pow_right (by decide) h
  have hpos : 0 < 256 ^ bs.length := Nat.pow_pos (by decide)
  unfold decode LONG_MIN LONG_MAX
  generalize 256 ^ bs.length = m at hbase hpos
  have hlow := @Int.le_bmod (decodeNat bs) m hpos
  have hhigh := @Int.bmod_le (decodeNat bs) m hpos
  omega

/-- What an entry that is no string stands for. -/
theorem loaded_range {body : Bytes} {i enc : Nat} :
    LONG_MIN ≤ (zipLoadInteger body i enc).getD 0 ∧ (zipLoadInteger body i enc).getD 0 ≤ LONG_MAX := by
  have hzero : LONG_MIN ≤ 0 ∧ 0 ≤ LONG_MAX := by decide
  have hread : ∀ n ≤ 8, LONG_MIN ≤ ((readAt body i n).map decode).getD 0 ∧
      ((readAt body i n).map decode).getD 0 ≤ LONG_MAX := by
    intro n hn
    unfold readAt
    split
    · refine decode_range ?_
      unfold slice
      rw [List.length_take]
      omega
    · exact hzero
  unfold zipLoadInteger
  split
  · exact hread 1 (by decide)
  split
  · exact hread 2 (by decide)
  split
  · exact hread 4 (by decide)
  split
  · unfold readAt
    split
    · rw [Option.map_some, Option.getD_some]
      have hrange := @decode_range (0 :: slice body i 3) (by
        unfold slice
        rw [List.length_cons, List.length_take]
        omega)
      unfold LONG_MIN LONG_MAX at hrange ⊢
      rw [Int.shiftRight_eq_div_pow]
      omega
    · exact hzero
  split
  · exact hread 8 (by decide)
  split
  · next himm =>
      have hbits : enc &&& ZIP_INT_IMM_MASK ≤ 15 := Nat.and_le_right
      unfold LONG_MIN LONG_MAX
      rw [Option.getD_some]
      omega
  · exact hzero

/-- The one string that is encoded as an integer. -/
theorem tryEncoding_iff {v : Int} {t : Bytes} (hlow : LONG_MIN ≤ v) (hhigh : v ≤ LONG_MAX) :
    (zipTryEncoding t).map Prod.fst = some v ↔ t = ll2str v := by
  constructor
  · intro h
    obtain ⟨⟨v', enc⟩, htry, rfl⟩ := Option.map_eq_some_iff.mp h
    exact (ll2str_of_string2ll (zipTryEncoding_saves htry).1).symm
  · rintro rfl
    have hlen := length_ll2str_lt v
    have hparse := string2ll_complete hlow hhigh
    rw [← ll2str_eq hlow hhigh] at hparse
    have hne : (ll2str v).length ≠ 0 := by
      intro hzero
      rw [List.length_eq_zero_iff.mp hzero] at hparse
      cases hparse
    unfold zipTryEncoding
    rw [if_neg (by omega), hparse]
    rfl

/-! ## An entry that was written -/

section written

variable {pre cs s t : Bytes} {prev p : Nat}

theorem Entry.bytes_str {e : Entry} (h : zipIsStr e.encoding) :
    e.bytes = e.body.drop e.lensize ∧ e.bytes.length = e.len := by
  have hwhole := e.whole
  have hbytes : e.bytes = e.body.drop e.lensize := by
    unfold Entry.bytes Entry.value
    rw [if_pos h]
  refine ⟨hbytes, ?_⟩
  rw [hbytes, List.length_drop]
  omega

theorem Entry.bytes_int {e : Entry} (h : ¬ zipIsStr e.encoding) :
    e.bytes = ll2str ((zipLoadInteger e.body e.lensize e.encoding).getD 0) := by
  unfold Entry.bytes Entry.value
  rw [if_neg h]

/-- An entry compares equal to its own string alone. -/
theorem ziplistCompare_within {e : Entry} (h : e.wide = false → prev < 254) (hprev : prev < 2 ^ 32)
    (hp : p = pre.length) (t : Bytes) :
    ziplistCompare (pre ++ (prevField e.wide prev ++ (e.body ++ cs))) p t = some (decide (t = e.bytes)) := by
  obtain ⟨b, hb, hne⟩ := @firstByte_within pre (e.body ++ cs) p e.wide prev h hp
  unfold ziplistCompare
  rw [hb, some_bind, if_neg hne, zipEntry_within h hprev hp, some_bind]
  dsimp only
  by_cases hstr : zipIsStr e.encoding
  · obtain ⟨hbytes, hlen⟩ := e.bytes_str hstr
    rw [if_pos hstr]
    by_cases ht : e.len = t.length
    · rw [if_pos ht, ← ht, readPayload_within e hp, some_bind, ← hbytes]
      exact congrArg some (decide_eq_decide.mpr eq_comm)
    · rw [if_neg ht, decide_eq_false (fun heq => ht (by rw [heq, hlen]))]
      rfl
  · obtain ⟨hlow, hhigh⟩ := @loaded_range e.body e.lensize e.encoding
    have hiff := @tryEncoding_iff _ t hlow hhigh
    rw [← e.bytes_int hstr] at hiff
    rw [if_neg hstr]
    rcases htry : zipTryEncoding t with _ | ⟨sval, enc⟩
    · rw [htry] at hiff
      dsimp only
      rw [decide_eq_false fun heq => by cases hiff.mpr heq]
      rfl
    · rw [htry, Option.map_some, Option.some.injEq] at hiff
      dsimp only
      rw [loadPayload_within hstr hp, some_bind]
      exact congrArg some (decide_eq_decide.mpr (eq_comm.trans hiff))

/-- The bytes that `__ziplistInsert` writes. -/
def writtenEntry (s : Bytes) (prevlen : Nat) : Bytes :=
  zipPrevEncodeLength prevlen ++ zipEncodeLength (encodingOf s) s.length ++ payloadOf s

theorem writtenEntry_eq (s : Bytes) (h : s.length < 2 ^ 32) (prevlen : Nat) :
    writtenEntry s prevlen = prevField (entryOf (decide (254 ≤ prevlen)) s h).wide prevlen ++
      (entryOf (decide (254 ≤ prevlen)) s h).body := by
  unfold writtenEntry
  rw [prevEncode_eq, wide_entryOf, body_entryOf, List.append_assoc]

/-- What is read of an entry is what was written: the sizes, the value, and nothing else is equal. -/
structure ReadsBack (zl : Bytes) (p prevlen : Nat) (s : Bytes) : Prop where
  sizes : ∃ entry, zipEntry zl p = some entry ∧ entry.prevrawlen = prevlen ∧
    entry.prevrawlensize = (zipPrevEncodeLength prevlen).length ∧
    entry.lensize = (zipEncodeLength (encodingOf s) s.length).length ∧
    entry.len = (payloadOf s).length ∧ entry.headersize = entry.prevrawlensize + entry.lensize
  value : ∃ value, ziplistGet zl (some p) = some (some value) ∧
    (value = .str s ∨ ∃ v, value = .int v ∧ ll2str v = s)
  rawLength : zipRawEntryLength zl p = some (toUInt (writtenEntry s prevlen).length)
  compare : ∀ t : Bytes, t.length < 2 ^ 32 → ziplistCompare zl p t = some (decide (t = s))

theorem sizes_entryOf (wide : Bool) (s : Bytes) (h : s.length < 2 ^ 32) :
    (entryOf wide s h).lensize = (zipEncodeLength (encodingOf s) s.length).length ∧
      (entryOf wide s h).len = (payloadOf s).length := by
  unfold encodingOf payloadOf
  rcases entryOf_cases wide s h with ⟨v, enc, hs, htry, -, heq⟩ | ⟨htry, heq⟩
  · rw [heq, htry]
    dsimp only [Option.map_some, Option.getD_some]
    unfold zipEncodeLength
    rw [if_neg hs.not_str, hs.length]
    exact ⟨rfl, rfl⟩
  · rw [heq, htry]
    exact ⟨rfl, rfl⟩

theorem value_entryOf (wide : Bool) (s : Bytes) (h : s.length < 2 ^ 32) :
    (entryOf wide s h).value = .str s ∨ ∃ v, (entryOf wide s h).value = .int v ∧ ll2str v = s := by
  have hbytes := bytes_entryOf wide s h
  unfold Entry.bytes at hbytes
  rcases hvalue : (entryOf wide s h).value with s' | v
  · rw [hvalue] at hbytes
    exact .inl (congrArg Value.str hbytes)
  · rw [hvalue] at hbytes
    exact .inr ⟨v, rfl, hbytes⟩

/-- `zipRawEntryLength` of any entry, in 32 bits. -/
theorem zipRawEntryLength_wraps {e : Entry} (h : e.wide = false → prev < 254) (hp : p = pre.length) :
    zipRawEntryLength (pre ++ (prevField e.wide prev ++ (e.body ++ cs))) p = some (toUInt e.rawLen) := by
  unfold zipRawEntryLength
  rw [zipDecodePrevlensize_within h hp, some_bind,
    show pre ++ (prevField e.wide prev ++ (e.body ++ cs)) = (pre ++ prevField e.wide prev) ++ (e.body ++ cs) by
      rw [List.append_assoc],
    zipDecodeLength_within e.decodes (by simp [hp])]
  have hsum : (if e.wide then 5 else 1) + e.lensize + e.len = e.rawLen := by
    have hw := e.whole
    unfold Entry.rawLen Entry.prevSize
    omega
  show some (toUInt _) = _
  rw [hsum]

/-- An entry is read back as it was written, in any memory. -/
theorem ziplist_entry_roundtrip (pre cs : Bytes) {s : Bytes} {prevlen : Nat} (hs : s.length < 2 ^ 32)
    (hprev : prevlen < 2 ^ 32) :
    ReadsBack (pre ++ (writtenEntry s prevlen ++ cs)) pre.length prevlen s := by
  have hbytes : pre ++ (writtenEntry s prevlen ++ cs) = pre ++ (prevField
      (entryOf (decide (254 ≤ prevlen)) s hs).wide prevlen ++
        ((entryOf (decide (254 ≤ prevlen)) s hs).body ++ cs)) := by
    rw [writtenEntry_eq s hs, List.append_assoc]
  have hlength : (writtenEntry s prevlen).length = (entryOf (decide (254 ≤ prevlen)) s hs).rawLen := by
    rw [writtenEntry_eq s hs, List.length_append, length_prevField]
    rfl
  have hfits : (entryOf (decide (254 ≤ prevlen)) s hs).wide = false → prevlen < 254 := by
    rw [wide_entryOf]
    intro hnarrow
    have := of_decide_eq_false hnarrow
    omega
  obtain ⟨hlensize, hlen⟩ := sizes_entryOf (decide (254 ≤ prevlen)) s hs
  have hprevsize : (entryOf (decide (254 ≤ prevlen)) s hs).prevSize = (zipPrevEncodeLength prevlen).length := by
    rw [prevEncode_eq, length_prevField]
    unfold Entry.prevSize
    rw [wide_entryOf]
  rw [hbytes]
  refine ⟨⟨_, zipEntry_within hfits hprev rfl, rfl, hprevsize, hlensize, hlen, rfl⟩,
    ⟨_, ziplistGet_within hfits hprev rfl, value_entryOf _ s hs⟩, ?_, fun t _ => ?_⟩
  · rw [zipRawEntryLength_wraps hfits rfl, hlength]
  · rw [ziplistCompare_within hfits hprev rfl, bytes_entryOf]

theorem ziplist_entry_roundtrip_number :
    ReadsBack ([7] ++ (writtenEntry [45, 55] 300 ++ [255])) 1 300 [45, 55] :=
  ziplist_entry_roundtrip [7] [255] (by decide) (by decide)

theorem zipTryEncoding_long {s : Bytes} (h : 32 ≤ s.length) : zipTryEncoding s = none := by
  unfold zipTryEncoding
  rw [if_pos (.inl h)]

theorem length_writtenEntry_long {s : Bytes} (h : 16384 ≤ s.length) :
    (writtenEntry s 0).length = 6 + s.length := by
  have hlength : (zipEncodeLength 0 s.length).length = 5 := by
    unfold zipEncodeLength
    rw [if_pos (by decide), if_neg (by omega), if_neg (by omega)]
    rfl
  unfold writtenEntry encodingOf payloadOf
  rw [zipTryEncoding_long (by omega), List.length_append, List.length_append]
  dsimp only [Option.map_none, Option.getD_none]
  rw [hlength, prevEncode_eq, length_prevField, decide_eq_false (by decide)]
  rfl

/-- With its header a string of 2^32 - 1 bytes takes more than an `unsigned int` tells. -/
theorem zipRawEntryLength_long {s : Bytes} (h : s.length = 4294967295) :
    zipRawEntryLength (writtenEntry s 0) 0 ≠ some (writtenEntry s 0).length := by
  have hbytes := writtenEntry_eq s (by omega) 0
  have hlength := @length_writtenEntry_long s (by omega)
  have hraw := @zipRawEntryLength_wraps [] [] 0 0 (entryOf (decide (254 ≤ 0)) s (by omega))
    (fun _ => by decide) rfl
  rw [List.nil_append, List.append_nil, ← hbytes] at hraw
  have hrawLen : (entryOf (decide (254 ≤ 0)) s (by omega)).rawLen = (writtenEntry s 0).length := by
    rw [hbytes, List.length_append, length_prevField]
    rfl
  rw [hraw, hrawLen, hlength, h]
  decide

/-- A string of 2^32 - 1 bytes. -/
def longestString : Bytes := List.replicate 4294967295 0

theorem length_longestString : longestString.length = 4294967295 := List.length_replicate

/-- Its length does not come back with the header added. -/
theorem zipRawEntryLength_longest : longestString.length < 2 ^ 32 ∧
    zipRawEntryLength (writtenEntry longestString 0) 0 ≠ some (writtenEntry longestString 0).length := by
  refine ⟨?_, zipRawEntryLength_long length_longestString⟩
  rw [length_longestString]
  decide

end written

/-! ## Searching -/

section find

variable {v : Bytes} {cache : FindCache} {skip : Nat}

/-- The cache says whether the string is an integer, and which one. -/
def Knows (v : Bytes) (cache : FindCache) : Prop :=
  (∃ vll encoding, zipTryEncoding v = some (vll, encoding) ∧ cache = ⟨encoding, vll⟩) ∨
    zipTryEncoding v = none ∧ cache.vencoding = UCHAR_MAX

/-- The cache of a search: not tried, or it knows. -/
def CacheOf (v : Bytes) (cache : FindCache) : Prop := cache.vencoding = 0 ∨ Knows v cache

theorem Knows.tried (h : Knows v cache) : cache.tried v = cache := by
  unfold FindCache.tried
  rcases h with ⟨vll, encoding, htry, rfl⟩ | ⟨-, hmax⟩
  · have hencoding := (zipTryEncoding_saves htry).2.encoding
    rw [if_neg (by dsimp only; omega)]
  · rw [if_neg (by rw [hmax]; decide)]

theorem CacheOf.tried (h : CacheOf v cache) : Knows v (cache.tried v) := by
  rcases h with hzero | hknows
  · unfold FindCache.tried
    rw [if_pos hzero]
    rcases htry : zipTryEncoding v with _ | ⟨vll, encoding⟩
    · exact .inr ⟨htry, rfl⟩
    · exact .inl ⟨vll, encoding, htry, rfl⟩
  · rw [hknows.tried]
    exact hknows

/-- The comparison of the search. -/
theorem findCompare_within {pre cs : Bytes} {e : Entry} {prev p : Nat} (hp : p = pre.length)
    (hcache : CacheOf v cache) :
    ∃ cache', findCompare (pre ++ (prevField e.wide prev ++ (e.body ++ cs))) v
      (p + (e.prevSize + e.lensize)) e.encoding e.len cache = some (decide (e.bytes = v), cache') ∧
        CacheOf v cache' := by
  unfold findCompare
  by_cases hstr : zipIsStr e.encoding
  · obtain ⟨hbytes, hlen⟩ := e.bytes_str hstr
    rw [if_pos hstr]
    by_cases hv : e.len = v.length
    · rw [if_pos hv, ← hv, readPayload_within e hp, some_bind, ← hbytes]
      exact ⟨cache, rfl, hcache⟩
    · rw [if_neg hv, decide_eq_false (fun heq => hv (by rw [← heq, hlen]))]
      exact ⟨cache, rfl, hcache⟩
  · obtain ⟨hlow, hhigh⟩ := @loaded_range e.body e.lensize e.encoding
    have hiff := @tryEncoding_iff _ v hlow hhigh
    rw [← e.bytes_int hstr] at hiff
    have hknows := hcache.tried
    refine ⟨cache.tried v, ?_, .inr hknows⟩
    rw [if_neg hstr]
    dsimp only
    rcases hknows with ⟨vll, encoding, htry, hc⟩ | ⟨htry, hmax⟩
    · have hencoding := (zipTryEncoding_saves htry).2.encoding
      rw [htry, Option.map_some, Option.some.injEq] at hiff
      rw [hc]
      dsimp only
      rw [if_pos (by unfold UCHAR_MAX; omega), loadPayload_within hstr hp, some_bind]
      exact congrArg (fun b => some (b, _)) (decide_eq_decide.mpr
        (eq_comm.trans (hiff.trans eq_comm)))
    · rw [htry] at hiff
      rw [if_neg (not_not_intro hmax), decide_eq_false fun heq => by cases hiff.mpr heq.symm]
      rfl

/-- The first entry with the string, when so many are skipped before the next comparison. -/
def firstHit (v : Bytes) (skip : Nat) : Nat → List Entry → Option Nat
  | _, [] => none
  | 0, e :: es => if e.bytes = v then some 0 else (firstHit v skip skip es).map (· + 1)
  | skipcnt + 1, _ :: es => (firstHit v skip skipcnt es).map (· + 1)

/-- The counter is zero only when nothing is left to skip. -/
theorem toInt_eq_zero {n : Nat} (h : n < 2 ^ 32) : toInt n = 0 ↔ n = 0 := by
  unfold toInt
  rw [Int.bmod_def]
  split <;> omega

theorem toInt_pred (n : Nat) : toInt (toInt (n + 1 : Nat) - 1) = toInt n := by
  unfold toInt
  rw [Int.bmod_def, Int.bmod_def, Int.bmod_def]
  split <;> split <;> split <;> omega

theorem offset_map (n : Option Nat) : (n.map (· + 1)).map (fun j => offset (as ++ e :: bs) (as.length + j)) =
    n.map fun j => offset ((as ++ [e]) ++ bs) ((as ++ [e]).length + j) := by
  rw [Option.map_map, List.append_assoc, List.length_append, List.length_singleton]
  congr 1
  funext j
  show offset _ (as.length + (j + 1)) = _
  rw [Nat.add_comm j 1, ← Nat.add_assoc]
  rfl

/-- The loop finds it, from any entry on. -/
theorem findLoop_spec (hskip : skip < 2 ^ 32) : ∀ (bs as : List Entry) (fuel skipcnt : Nat) (cache : FindCache),
    Represents zl (as ++ bs) → bs.length < fuel → skipcnt < 2 ^ 32 → CacheOf v cache →
    findLoop zl v skip fuel (10 + size as) (toInt skipcnt) cache =
      some ((firstHit v skip skipcnt bs).map fun j => offset (as ++ bs) (as.length + j)) := by
  intro bs
  induction bs with
  | nil =>
      intro as fuel skipcnt cache h hfuel hcnt hcache
      obtain ⟨fuel, rfl⟩ := Nat.exists_eq_succ_of_ne_zero (Nat.ne_of_gt hfuel)
      rw [List.append_nil] at h
      unfold findLoop
      rw [h.byteAt_end, some_bind, if_pos rfl]
      rcases skipcnt with _ | skipcnt <;> rfl
  | cons e bs ih =>
      intro as fuel skipcnt cache h hfuel hcnt hcache
      rw [List.length_cons] at hfuel
      obtain ⟨fuel, rfl⟩ := Nat.exists_eq_succ_of_ne_zero (Nat.ne_of_gt (Nat.lt_of_le_of_lt (Nat.zero_le _) hfuel))
      obtain ⟨b, hb, hne⟩ := h.byteAt_entry
      obtain ⟨cs, hcs, hzl⟩ := h.bytes_entry
      have hrest : Represents zl ((as ++ [e]) ++ bs) := by
        rw [List.append_assoc]
        exact h
      have hnext := fun skipcnt cache hcnt hcache =>
        ih (as ++ [e]) fuel skipcnt cache hrest (by omega) hcnt hcache
      have hq : 10 + size as + (if e.wide then 5 else 1) + e.lensize = 10 + size as + (e.prevSize + e.lensize) :=
        Nat.add_assoc _ _ _
      have hbehind : 10 + size as + (e.prevSize + e.lensize) + e.len = 10 + size (as ++ [e]) := by
        have hwhole := e.whole
        rw [size_append, size_cons, size_nil]
        unfold Entry.rawLen
        omega
      have hlength : zipDecodeLength zl (10 + size as + (if e.wide then 5 else 1)) =
          some (e.encoding, e.lensize, e.len) := by
        rw [hzl, ← List.append_assoc]
        exact zipDecodeLength_within e.decodes (by rw [List.length_append, length_prevField, hcs])
      have hsize : zipDecodePrevlensize zl (10 + size as) = some (if e.wide then 5 else 1) := by
        rw [hzl]
        exact zipDecodePrevlensize_within h.fits_entry hcs.symm
      unfold findLoop
      rw [hb, some_bind, if_neg hne, hsize, some_bind, hlength, some_bind]
      dsimp only
      rw [hq, hbehind]
      rcases skipcnt with _ | skipcnt
      · -- the entry is compared
        obtain ⟨cache', hcompare, hcache'⟩ := @findCompare_within v cache cs
          (encodeEntries e.rawLen bs ++ [UInt8.ofNat ZIP_END]) e (lastLen 0 as) _ hcs.symm hcache
        rw [← hzl] at hcompare
        rw [if_pos ((toInt_eq_zero (by decide)).mpr rfl), hcompare, some_bind]
        dsimp only
        unfold firstHit
        by_cases hv : e.bytes = v
        · rw [if_pos (decide_eq_true hv), if_pos hv, Option.map_some, Nat.add_zero, offset_length]
          rfl
        · rw [if_neg (by simpa using hv), if_neg hv, offset_map]
          exact hnext skip cache' hskip hcache'
      · -- the entry is skipped
        rw [if_neg fun hzero => Nat.succ_ne_zero _ ((toInt_eq_zero hcnt).mp hzero), toInt_pred]
        unfold firstHit
        rw [offset_map]
        exact hnext skipcnt cache (by omega) hcache

/-- The first place with the string among those at distances of `step` from `k`, or none. -/
def FirstAt (l : List Bytes) (v : Bytes) (k step : Nat) : Option Nat → Prop
  | some j => ∃ m, j = k + m * step ∧ l[j]? = some v ∧ ∀ i < m, l[k + i * step]? ≠ some v
  | none => ∀ m, l[k + m * step]? ≠ some v

/-- A list with more in front. -/
theorem FirstAt.append {l : List Bytes} {k step : Nat} {r : Option Nat} (front : List Bytes)
    (h : FirstAt l v k step r) : FirstAt (front ++ l) v (front.length + k) step (r.map (front.length + ·)) := by
  have hget : ∀ n, (front ++ l)[front.length + n]? = l[n]? := by
    intro n
    rw [List.getElem?_append_right (Nat.le_add_right _ _), Nat.add_sub_cancel_left]
  cases r with
  | none =>
      intro m
      rw [Nat.add_assoc, hget]
      exact h m
  | some j =>
      obtain ⟨m, rfl, hj, hless⟩ := h
      refine ⟨m, (Nat.add_assoc _ _ _).symm, by rw [hget]; exact hj, fun i hi => ?_⟩
      rw [Nat.add_assoc, hget]
      exact hless i hi

/-- With the first place looked at in vain the next one is a step further. -/
theorem FirstAt.next {l : List Bytes} {k step : Nat} {r : Option Nat} (hne : l[k]? ≠ some v)
    (h : FirstAt l v (k + step) step r) : FirstAt l v k step r := by
  have hplace : ∀ m, k + (m + 1) * step = k + step + m * step := by
    intro m
    rw [Nat.succ_mul]
    omega
  cases r with
  | none =>
      intro m
      cases m with
      | zero =>
          rw [Nat.zero_mul, Nat.add_zero]
          exact hne
      | succ m =>
          rw [hplace]
          exact h m
  | some j =>
      obtain ⟨m, rfl, hj, hless⟩ := h
      refine ⟨m + 1, (hplace m).symm, hj, fun i hi => ?_⟩
      cases i with
      | zero =>
          rw [Nat.zero_mul, Nat.add_zero]
          exact hne
      | succ i =>
          rw [hplace]
          exact hless i (by omega)

theorem firstHit_spec : ∀ (bs : List Entry) (skipcnt : Nat),
    FirstAt (contents bs) v skipcnt (skip + 1) (firstHit v skip skipcnt bs) := by
  intro bs
  induction bs with
  | nil =>
      intro skipcnt
      have hnone : FirstAt [] v skipcnt (skip + 1) none := fun m hm => by cases hm
      cases skipcnt <;> exact hnone
  | cons e bs ih =>
      intro skipcnt
      have hshift := fun n => FirstAt.append [e.bytes] (ih n)
      cases skipcnt with
      | zero =>
          unfold firstHit
          by_cases hv : e.bytes = v
          · rw [if_pos hv]
            exact ⟨0, by rw [Nat.zero_mul], congrArg some hv, fun i hi => absurd hi (Nat.not_lt_zero i)⟩
          · rw [if_neg hv]
            have hrest := hshift skip
            rw [List.length_singleton] at hrest
            simp only [Nat.add_comm 1] at hrest
            refine FirstAt.next (fun heq => hv (Option.some.inj heq)) ?_
            rw [Nat.zero_add]
            exact hrest
      | succ skipcnt =>
          unfold firstHit
          have hrest := hshift skipcnt
          rw [List.length_singleton] at hrest
          simp only [Nat.add_comm 1] at hrest
          exact hrest

/-- `ziplistFind` finds the first entry with the string among those that it compares. -/
theorem ziplistFind_exact {k : Nat} (v : Bytes) (h : Represents zl es) (hk : k < es.length)
    (hskip : skip < 2 ^ 32) :
    ∃ r, ziplistFind zl (offset es k) v skip = some (r.map (offset es)) ∧
      FirstAt (contents es) v k (skip + 1) r := by
  obtain ⟨as, e, bs, rfl, rfl⟩ := exists_entry hk
  have hlen := @length_le_size (as ++ e :: bs)
  have hzl := h.length
  rw [List.length_append] at hlen
  refine ⟨(firstHit v skip 0 (e :: bs)).map (as.length + ·), ?_, ?_⟩
  · have hloop := @findLoop_spec zl v skip hskip (e :: bs) as (zl.length + 1) 0 ⟨0, 0⟩ h (by omega) (by decide)
      (.inl rfl)
    rw [show toInt ((0 : Nat) : Int) = 0 from rfl] at hloop
    unfold ziplistFind
    rw [offset_length, hloop, Option.map_map]
    rfl
  · have hfirst := FirstAt.append (contents as) (@firstHit_spec v skip (e :: bs) 0)
    rw [length_contents, Nat.add_zero] at hfirst
    rw [contents_append]
    exact hfirst

theorem ziplistFind_exact_second : ∃ r, ziplistFind (layout 2 twoEntries) (offset twoEntries 0) [99] 0 =
    some (r.map (offset twoEntries)) ∧ FirstAt (contents twoEntries) [99] 0 1 r :=
  ziplistFind_exact [99] twoEntries_represents (by decide) (by decide)

end find

end Ziplist

end RedisCore

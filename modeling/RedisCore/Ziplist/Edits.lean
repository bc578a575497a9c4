/-
# `RedisCore.Ziplist.Edits` — inserting and deleting entries

An insertion puts a new entry between those before a position and those behind it, and a
deletion takes some entries out.  Both then give the entry behind a prevlen field of the right
width, and the cascade goes on from there.

Each function gets one theorem: on the bytes of a ziplist with such entries it yields the bytes
of a ziplist with the entries edited, as long as these take less than 2^32 bytes.
-/
import RedisCore.Ziplist.Layout

namespace RedisCore

namespace Ziplist

open CInt LittleEndian Splice

/-! ## The entries behind an edit -/

/-- An entry with a prevlen field of this width. -/
def Entry.withWide (e : Entry) (wide : Bool) : Entry := { e with wide := wide }

@[simp] theorem Entry.body_withWide (e : Entry) (w : Bool) : (e.withWide w).body = e.body := rfl

@[simp] theorem Entry.bytes_withWide (e : Entry) (w : Bool) : (e.withWide w).bytes = e.bytes := rfl

@[simp] theorem Entry.wide_withWide (e : Entry) (w : Bool) : (e.withWide w).wide = w := rfl

theorem Entry.withWide_self (e : Entry) : e.withWide e.wide = e := rfl

/-- The entries behind a change: the first gets a field of the width `w` of its own, the others
settle. -/
def follow (w : Entry → Bool) : List Entry → List Entry
  | [] => []
  | e :: es => e.withWide (w e) :: settle (e.withWide (w e)).rawLen es

/-- The width after an insertion of `req` bytes: a wide field stays wide before a very short
entry. -/
def insertedWidth (req : Nat) (e : Entry) : Bool := (e.wide && decide (req < 4)) || decide (254 ≤ req)

/-- The width after a deletion behind an entry of `prev` bytes. -/
def deletedWidth (prev : Nat) (_ : Entry) : Bool := decide (254 ≤ prev)

section follow

variable {w : Entry → Bool} {es : List Entry} {prev old : Nat}

@[simp] theorem contents_follow : contents (follow w es) = contents es := by
  cases es with
  | nil => rfl
  | cons e es =>
      show (e.withWide (w e)).bytes :: contents (settle _ es) = _
      rw [contents_settle, Entry.bytes_withWide]
      rfl

@[simp] theorem length_follow : (follow w es).length = es.length := by
  cases es with
  | nil => rfl
  | cons e es => exact congrArg (· + 1) length_settle

@[simp] theorem roomy_follow : roomy (follow w es) = roomy es := by
  cases es with
  | nil => rfl
  | cons e es =>
      show roomy (e.withWide (w e) :: settle _ es) = _
      rw [roomy_cons, roomy_cons, roomy_settle, Entry.body_withWide]

theorem follow_fits (h : Fits old es) (hw : ∀ e, w e = false → prev < 254) :
    Fits prev (follow w es) := by
  cases es with
  | nil => trivial
  | cons e es => exact ⟨hw e, settle_fits h.2⟩

theorem size_follow_cons {e : Entry} :
    size (follow w (e :: es)) =
      (e.withWide (w e)).rawLen + size (settle (e.withWide (w e)).rawLen es) := size_cons

end follow

theorem insertedWidth_fits {req : Nat} (e : Entry) (h : insertedWidth req e = false) : req < 254 := by
  unfold insertedWidth at h
  rw [Bool.or_eq_false_iff] at h
  have := of_decide_eq_false h.2
  omega

theorem deletedWidth_fits {prev : Nat} (e : Entry) (h : deletedWidth prev e = false) : prev < 254 := by
  have := of_decide_eq_false h
  omega

/-- The last entry is what the entries have beyond the others. -/
theorem size_dropLast (es : List Entry) : size es.dropLast + lastLen 0 es = size es := by
  rcases List.eq_nil_or_concat' es with rfl | ⟨l, e, rfl⟩
  · rfl
  · rw [List.dropLast_concat, lastLen_append, size_append]
    simp

/-- The last entry is among those behind a position, if there are any. -/
theorem tailOffset_append (es : List Entry) (f : Entry) (fs : List Entry) :
    tailOffset (es ++ f :: fs) = 10 + size es + size (f :: fs).dropLast := by
  rw [tailOffset, List.dropLast_append_of_ne_nil (List.cons_ne_nil _ _), size_append,
    ZIPLIST_HEADER_SIZE, Nat.add_assoc]

theorem lastLen_le_size (es : List Entry) : lastLen 0 es ≤ size es := by
  have := size_dropLast es
  omega

/-! ## The entry before a position -/

variable {total tail count : Nat} {es fs : List Entry}

/-- `prevlenAt` finds the length of the entry before. -/
theorem prevlenAt_spec (hfits : Fits 0 (es ++ fs)) (hsmall : 11 + size (es ++ fs) < 2 ^ 32) :
    prevlenAt (header total (tailOffset (es ++ fs)) count ++ (encodeEntries 0 es ++
      (encodeEntries (lastLen 0 es) fs ++ [UInt8.ofNat ZIP_END]))) (10 + size es) =
      some (lastLen 0 es) := by
  have hlast := lastLen_le_size es
  have hdrop := size_dropLast es
  rw [size_append] at hsmall
  obtain ⟨hes, hfs⟩ := fits_append.mp hfits
  unfold prevlenAt
  rcases fs with _ | ⟨f, fs⟩
  · rw [List.append_nil, encodeEntries_nil, List.nil_append,
      ← List.append_assoc (header _ _ _), byteAt_end (by simp), some_bind, if_neg (fun h => h rfl),
      List.append_assoc, zlTailOffset_header (by unfold tailOffset ZIPLIST_HEADER_SIZE; omega),
      some_bind]
    rcases List.eq_nil_or_concat' es with rfl | ⟨l, e, rfl⟩
    · rw [encodeEntries_nil, List.nil_append, byteAt_end (by rfl), some_bind,
        if_neg (fun h => h rfl)]
      rfl
    · obtain ⟨-, he⟩ := fits_append.mp hes
      rw [encodeEntries_append, encodeEntries_single, tailOffset, List.dropLast_concat,
        show header total (ZIPLIST_HEADER_SIZE + size l) count ++ (encodeEntries 0 l ++
          (prevField e.wide (lastLen 0 l) ++ e.body) ++ [UInt8.ofNat ZIP_END]) =
          (header total (ZIPLIST_HEADER_SIZE + size l) count ++ encodeEntries 0 l) ++
            (prevField e.wide (lastLen 0 l) ++ (e.body ++ [UInt8.ofNat ZIP_END])) by simp]
      obtain ⟨b, hb, hne⟩ := @firstByte_within (header total (ZIPLIST_HEADER_SIZE + size l) count ++
        encodeEntries 0 l) (e.body ++ [UInt8.ofNat ZIP_END]) (ZIPLIST_HEADER_SIZE + size l) e.wide
        (lastLen 0 l) he.1 (by simp [ZIPLIST_HEADER_SIZE])
      rw [size_append, size_cons, size_nil] at hsmall
      rw [hb, some_bind, if_pos hne, zipRawEntryLength_within he.1 (by omega) (by
        simp [ZIPLIST_HEADER_SIZE])]
      simp
  · rw [encodeEntries, List.append_assoc, List.append_assoc, ← List.append_assoc (header _ _ _)]
    obtain ⟨b, hb, hne⟩ := @firstByte_within (header total (tailOffset (es ++ f :: fs)) count ++
      encodeEntries 0 es) (f.body ++ (encodeEntries f.rawLen fs ++ [UInt8.ofNat ZIP_END]))
      (10 + size es) f.wide (lastLen 0 es) hfs.1 (by simp)
    rw [hb, some_bind, if_pos hne, zipDecodePrevlen_within hfs.1 (by omega) (by simp), some_bind]
    rfl

theorem zipPrevLenByteDiff_within {as cs : Bytes} {p prev len : Nat} {wide : Bool}
    (h : wide = false → prev < 254) (hp : p = as.length) :
    zipPrevLenByteDiff (as ++ (prevField wide prev ++ cs)) p len =
      some (((if 254 ≤ len then 5 else 1 : Nat) : Int) - (if wide then 5 else 1 : Nat)) := by
  unfold zipPrevLenByteDiff
  rw [zipDecodePrevlensize_within h hp, some_bind, length_prevEncode]
  rfl

/-! ## Insertion -/

/-- An entry in place, and whether it is the last one. -/
theorem entry_end {as : Bytes} {e : Entry} {prev old p : Nat} (he : Fits prev [e])
    (hfs : Fits old fs) (hprev : prev < 2 ^ 32) (hlen : e.rawLen < 2 ^ 32) (hp : p = as.length) :
    ∃ t b, zipEntry (as ++ (encodeEntries prev [e] ++ (encodeEntries old fs ++
        [UInt8.ofNat ZIP_END]))) p = some t ∧
      byteAt (as ++ (encodeEntries prev [e] ++ (encodeEntries old fs ++ [UInt8.ofNat ZIP_END])))
        (p + toUInt (t.headersize + t.len : Nat)) = some b ∧ (b = ZIP_END ↔ fs = []) := by
  obtain ⟨b, hb, hbend⟩ := @firstByte_entries (as ++ encodeEntries prev [e]) fs old
    (p + e.rawLen) hfs (by simp [hp])
  have hentry := @zipEntry_within as (encodeEntries old fs ++ [UInt8.ofNat ZIP_END]) p e prev he.1
    hprev hp
  have hraw : e.prevSize + e.lensize + e.len = e.rawLen := by
    unfold Entry.rawLen
    rw [e.whole]
    omega
  rw [List.append_assoc] at hb
  rw [← List.append_assoc (prevField _ _), ← encodeEntries_single] at hentry
  refine ⟨_, b, hentry, ?_, hbend⟩
  dsimp only
  rw [hraw, toUInt_eq hlen, hb]

/-- `openGap` before an entry `f`: the bytes of the gap are left to be written. -/
theorem openGap_spec {E junk : Bytes} {f : Entry} {prev req curlen p tail' : Nat} {nextdiff : Int}
    {forcelarge : Bool} (hf : Fits prev (f :: fs)) (hreq : req < 2 ^ 32)
    (hp : p = 10 + E.length) (hcur : curlen = 11 + E.length + size (f :: fs))
    (hdiff : nextdiff = (f.withWide (insertedWidth req f)).prevSize - f.prevSize)
    (hforce : forcelarge = true ↔ f.wide = true ∧ req < 4)
    (hjunk : (junk.length : Int) = req + nextdiff) (htail : tail < 2 ^ 32)
    (htail' : (tail' : Int) = if fs = [] then (tail : Int) + req else tail + req + nextdiff)
    (hsmall : tail' < 2 ^ 32) (hlen : (f.withWide (insertedWidth req f)).rawLen < 2 ^ 32) :
    ∃ gap : Bytes, gap.length = req ∧
      openGap (header total tail count ++ (E ++ (encodeEntries prev (f :: fs) ++
        (junk ++ [UInt8.ofNat ZIP_END])))) curlen p req nextdiff forcelarge =
      some (header total tail' count ++ (E ++ (gap ++
        (encodeEntries req [f.withWide (insertedWidth req f)] ++
          (encodeEntries f.rawLen fs ++ [UInt8.ofNat ZIP_END]))))) := by
  obtain ⟨w, hw⟩ : ∃ w, w = insertedWidth req f := ⟨_, rfl⟩
  rw [← hw] at hdiff hlen ⊢
  obtain ⟨R, hR⟩ : ∃ R, R = encodeEntries f.rawLen fs := ⟨_, rfl⟩
  have hlR : R.length = size fs := by rw [hR, length_encodeEntries]
  have hraw : f.rawLen = f.prevSize + f.body.length := rfl
  have hfield : (prevField f.wide prev).length = f.prevSize := length_prevField _ _
  have hsizes : f.prevSize ≤ 5 ∧ (f.withWide w).prevSize ≤ 5 := by
    unfold Entry.prevSize
    constructor <;> split <;> omega
  rw [size_cons] at hcur
  -- what is written as the prevlen field of the entry
  have hwrite : (if forcelarge = true then zipPrevEncodeLengthForceLarge (toUInt req)
      else zipPrevEncodeLength (toUInt req)) = prevField w req := by
    rw [toUInt_eq hreq, hw]
    unfold insertedWidth
    by_cases hlarge : f.wide = true ∧ req < 4
    · rw [if_pos (hforce.mpr hlarge), hlarge.1, decide_eq_true hlarge.2]
      rfl
    · rw [if_neg (fun h => hlarge (hforce.mp h)), prevEncode_eq,
        show (f.wide && decide (req < 4)) = false by
          rw [Bool.and_eq_false_iff]
          rcases Bool.eq_false_or_eq_true f.wide with hwide | hwide
          · exact .inr (decide_eq_false fun hlt => hlarge ⟨hwide, hlt⟩)
          · exact .inl hwide, Bool.false_or]
  -- the bytes that move, and the bytes where they go
  obtain ⟨A, X, hAX, hA, hX⟩ := @exists_append _
    (header total tail count ++ (E ++ prevField f.wide prev)) (p + f.prevSize - (f.withWide w).prevSize)
    (f.withWide w).prevSize (by simp only [List.length_append, length_header, hfield]; omega)
  obtain ⟨gap, room, hgap, hlgap, hlroom⟩ := @exists_append _
    (prevField f.wide prev ++ (f.body ++ (R ++ junk))) req
    ((f.withWide w).prevSize + (f.body.length + R.length)) (by
      simp only [List.length_append, hfield]
      omega)
  refine ⟨gap, hlgap, ?_⟩
  have hmove := @memmove_eq (header total tail count ++ (E ++ (encodeEntries prev (f :: fs) ++
      (junk ++ [UInt8.ofNat ZIP_END])))) A (X ++ (f.body ++ R)) (junk ++ [UInt8.ofNat ZIP_END])
    (header total tail count ++ (E ++ gap)) room [UInt8.ofNat ZIP_END] (p + req)
    (p + f.prevSize - (f.withWide w).prevSize) (curlen - p - 1 + nextdiff) (by
      rw [encodeEntries, ← hR, ← List.append_assoc A, ← List.append_assoc A, ← hAX]
      simp) (by
      rw [encodeEntries, ← hR, show E ++ (prevField f.wide prev ++ (f.body ++ R) ++
        (junk ++ [UInt8.ofNat ZIP_END])) = E ++ ((prevField f.wide prev ++ (f.body ++ (R ++ junk))) ++
        [UInt8.ofNat ZIP_END]) by simp, hgap]
      simp) hA.symm (by simp only [List.length_append, hX]; omega)
    (by simp only [List.length_append, length_header, hlgap]; omega)
    (by simp only [List.length_append, hX, hlroom])
  have hput := @writeAt_middle (header total tail count ++ (E ++ gap)) X
    (f.body ++ (R ++ [UInt8.ofNat ZIP_END])) (prevField w req) (p + req)
    (by simp only [List.length_append, length_header, hlgap]; omega)
    (by rw [length_prevField, hX]; rfl)
  have hfits : (f.withWide w).wide = false → req < 254 := fun h =>
    insertedWidth_fits f (hw ▸ h)
  -- the tail offset moves on by the new entry, and by the growth of this one unless it is last
  obtain ⟨mid, hmid⟩ : ∃ mid, mid = (tail + req) % 2 ^ 32 := ⟨_, rfl⟩
  obtain ⟨t, b, ht, hb, hbend⟩ := @entry_end fs (header total mid count ++ (E ++ gap))
    (f.withWide w) req f.rawLen (p + req) ⟨hfits, trivial⟩ hf.2 hreq hlen
    (by simp only [List.length_append, length_header, hlgap]; omega)
  rw [encodeEntries_single, Entry.wide_withWide, Entry.body_withWide, ← hR] at ht hb
  simp only [List.append_assoc] at hput ht hb
  unfold openGap
  rw [@sizeT_eq (p + f.prevSize - (f.withWide w).prevSize) _ (by omega), some_bind, hmove, some_bind,
    hwrite]
  simp only [List.append_assoc]
  rw [hput, some_bind, addTailOffset_mod htail (show ((tail : Int) + req) % 2 ^ 32 = mid by omega),
    some_bind, ht, some_bind, hb, some_bind, encodeEntries_single, Entry.wide_withWide,
    Entry.body_withWide, ← hR]
  simp only [List.append_assoc]
  by_cases hnil : fs = []
  · rw [if_pos hnil] at htail'
    rw [if_neg (fun h => h (hbend.mpr hnil)), show mid = tail' by omega]
    rfl
  · rw [if_neg hnil] at htail'
    rw [if_pos (fun h => hnil (hbend.mp h))]
    exact addTailOffset_mod (by omega) (by omega)

/-- The payload of a new entry: an integer, or the bytes that are copied. -/
def insertedPayload (s copied : Bytes) : Bytes :=
  match zipTryEncoding s with
  | some (value, encoding) => zipSaveInteger value encoding
  | none => copied.take s.length

theorem insertedPayload_self (s : Bytes) : insertedPayload s s = payloadOf s := by
  unfold insertedPayload payloadOf
  rcases zipTryEncoding s with _ | ⟨v, enc⟩
  · exact List.take_length
  · rfl

/-- The length of the payload. -/
def insertedSize (s : Bytes) : Nat :=
  match zipTryEncoding s with
  | some (_, encoding) => zipIntSize encoding
  | none => s.length

/-- `__ziplistInsert` under these names. -/
theorem ziplistInsertAt_eq (mem : Nat → UInt8) (zl : Bytes) (p : Nat) (s copied : Bytes) :
    ziplistInsertAt mem zl p s copied = (do
      let curlen ← zlBytes zl
      let prevlen ← prevlenAt zl p
      let reqlen := insertedSize s + (zipPrevEncodeLength prevlen).length +
        (zipEncodeLength (encodingOf s) s.length).length
      let atEnd := decide ((← byteAt zl p) = ZIP_END)
      let diff ← (if atEnd then some 0 else zipPrevLenByteDiff zl p (toUInt reqlen))
      let forcelarge := decide (diff = -4 ∧ reqlen < 4)
      let nextdiff := if forcelarge then 0 else diff
      let zl ← ziplistResize mem zl (curlen + reqlen + nextdiff)
      let zl ← (if atEnd then setTailOffset zl p
        else openGap zl curlen p reqlen nextdiff forcelarge)
      let zl ← (if nextdiff ≠ 0 then ziplistCascadeUpdate mem zl (p + reqlen) else some zl)
      let zl ← writeAt zl p (zipPrevEncodeLength prevlen ++
        zipEncodeLength (encodingOf s) s.length ++ insertedPayload s copied)
      ziplistIncrLength zl 1) := rfl

/-- The bytes that `__ziplistInsert` asks for are those of the new entry. -/
theorem reqlen_eq {new : Entry} {s copied : Bytes} {prev : Nat}
    (hwide : new.wide = decide (254 ≤ prev))
    (hbody : new.body = zipEncodeLength (encodingOf s) s.length ++ insertedPayload s copied)
    (hcopied : s.length ≤ copied.length) :
    insertedSize s + (zipPrevEncodeLength prev).length +
        (zipEncodeLength (encodingOf s) s.length).length = new.rawLen := by
  have hpayload : insertedSize s = (insertedPayload s copied).length := by
    unfold insertedPayload insertedSize
    rcases htry : zipTryEncoding s with _ | ⟨v, enc⟩
    · dsimp only
      rw [List.length_take]
      omega
    · dsimp only
      rw [(zipTryEncoding_saves htry).2.length]
  unfold Entry.rawLen Entry.prevSize
  rw [hpayload, hbody, List.length_append, prevEncode_eq, length_prevField, hwide]
  omega

/-- How much the prevlen field behind a new entry grows. -/
theorem insertedWidth_diff (f : Entry) (req : Nat) :
    (if decide (((if 254 ≤ req then 5 else 1 : Nat) : Int) - (if f.wide then 5 else 1 : Nat) = -4 ∧
        req < 4) = true then (0 : Int)
      else ((if 254 ≤ req then 5 else 1 : Nat) : Int) - (if f.wide then 5 else 1 : Nat)) =
      (f.withWide (insertedWidth req f)).prevSize - f.prevSize ∧
    (decide (((if 254 ≤ req then 5 else 1 : Nat) : Int) - (if f.wide then 5 else 1 : Nat) = -4 ∧
        req < 4) = true ↔ f.wide = true ∧ req < 4) := by
  unfold Entry.prevSize insertedWidth
  rw [Entry.wide_withWide]
  rcases Bool.eq_false_or_eq_true f.wide with hwide | hwide <;> rw [hwide] <;>
    by_cases hbig : 254 ≤ req <;> by_cases hshort : req < 4 <;> simp [hbig, hshort]
  all_goals omega

/-- A field gets narrow only behind an entry that makes up for it. -/
theorem insertedWidth_room (f : Entry) (req : Nat) :
    f.prevSize ≤ (f.withWide (insertedWidth req f)).prevSize + req ∨ req = 0 := by
  unfold Entry.prevSize insertedWidth
  rw [Entry.wide_withWide]
  rcases Bool.eq_false_or_eq_true f.wide with hwide | hwide <;> rw [hwide] <;>
    by_cases hbig : 254 ≤ req <;> by_cases hshort : req < 4 <;> simp [hbig, hshort]
  all_goals omega

/-- The last steps of `__ziplistInsert`: the new entry is written, and counted. -/
theorem fillGap {gap : Bytes} {new : Entry} {n : Nat} {s copied : Bytes}
    (hes : Fits 0 es) (hfs : Fits new.rawLen fs) (hgap : gap.length = new.rawLen)
    (hwide : new.wide = decide (254 ≤ lastLen 0 es))
    (hbody : new.body = zipEncodeLength (encodingOf s) s.length ++ insertedPayload s copied)
    (hcount : Counted count n) (hn : (es ++ new :: fs).length = n + 1)
    (hsmall : 11 + size (es ++ new :: fs) < 2 ^ 32) :
    ∃ zl', (do
      let zl ← writeAt (header (11 + size (es ++ new :: fs)) (tailOffset (es ++ new :: fs)) count ++
        (encodeEntries 0 es ++ (gap ++ (encodeEntries new.rawLen fs ++ [UInt8.ofNat ZIP_END]))))
        (10 + size es) (zipPrevEncodeLength (lastLen 0 es) ++
          zipEncodeLength (encodingOf s) s.length ++ insertedPayload s copied)
      ziplistIncrLength zl 1) = some zl' ∧ Represents zl' (es ++ new :: fs) := by
  have hnew : zipPrevEncodeLength (lastLen 0 es) ++ zipEncodeLength (encodingOf s) s.length ++
      insertedPayload s copied = encodeEntries (lastLen 0 es) [new] := by
    rw [encodeEntries_single, hbody, prevEncode_eq, hwide, List.append_assoc]
  rw [hnew, ← List.append_assoc (header _ _ _), writeAt_middle (by simp) (by simp [hgap]), some_bind,
    List.append_assoc]
  obtain ⟨count', hincr, hcounted⟩ := @ziplistIncrLength_header (11 + size (es ++ new :: fs))
    (tailOffset (es ++ new :: fs)) count n (encodeEntries 0 es ++ (encodeEntries (lastLen 0 es) [new] ++
      (encodeEntries new.rawLen fs ++ [UInt8.ofNat ZIP_END]))) (n + 1) 1 hcount (by omega)
  refine ⟨_, hincr, ⟨count', ?_, hn ▸ hcounted (Nat.le_refl _)⟩, ?_, hsmall⟩
  · unfold layout
    rw [encodeEntries_append, encodeEntries_single, encodeEntries]
    simp
  · refine fits_append.mpr ⟨hes, fun h => ?_, hfs⟩
    rw [hwide] at h
    have := of_decide_eq_false h
    omega

theorem cascadeUpdate_spec (mem : Nat → UInt8) {before : Bytes} {cur : Entry} {q old : Nat}
    {tail' total' : Nat}
    (hcur : Fits q [cur]) (hq : q < 2 ^ 32) (hes : Fits old es) (hold : old < 2 ^ 32)
    (hsmall : 11 + before.length + cur.rawLen + size (settle cur.rawLen es) < 2 ^ 32)
    (htotal : total = 11 + before.length + cur.rawLen + size es)
    (htail : tail = 10 + before.length + size (cur :: es).dropLast)
    (htotal' : total' = 11 + before.length + cur.rawLen + size (settle cur.rawLen es))
    (htail' : tail' = 10 + before.length + size (cur :: settle cur.rawLen es).dropLast)
    {p : Nat} (hp : p = 10 + before.length) :
    ziplistCascadeUpdate mem (header total tail count ++ (before ++ (encodeEntries q [cur] ++
      (encodeEntries old es ++ [UInt8.ofNat ZIP_END])))) p =
    some (header total' tail' count ++ (before ++ (encodeEntries q [cur] ++
      (encodeEntries cur.rawLen (settle cur.rawLen es) ++ [UInt8.ofNat ZIP_END])))) := by
  have hsettle := @size_settle es cur.rawLen
  have hlen := @length_le_size es
  unfold ziplistCascadeUpdate
  rw [zlBytes_header (by omega), some_bind, htotal, htail, htotal', htail', hp]
  exact cascadeLoop_spec mem count es _ before cur q old (by simp; omega) hcur hq hes hold hsmall

/-- The cascade behind an entry that may have grown. -/
theorem cascadeIf_spec (mem : Nat → UInt8) {before : Bytes} {cur : Entry} {q old p : Nat}
    {tail' total' : Nat} {nextdiff : Int}
    (hcur : Fits q [cur]) (hq : q < 2 ^ 32) (hes : Fits old es) (hold : old < 2 ^ 32)
    (hsame : nextdiff = 0 → cur.rawLen = old)
    (htotal : total = 11 + before.length + cur.rawLen + size es)
    (htail : tail = 10 + before.length + size (cur :: es).dropLast)
    (htotal' : total' = 11 + before.length + size (cur :: settle cur.rawLen es))
    (htail' : tail' = 10 + before.length + size (cur :: settle cur.rawLen es).dropLast)
    (hsmall : total' < 2 ^ 32) (hp : p = 10 + before.length) :
    (if nextdiff ≠ 0 then ziplistCascadeUpdate mem (header total tail count ++ (before ++
        (encodeEntries q [cur] ++ (encodeEntries old es ++ [UInt8.ofNat ZIP_END])))) p
      else some (header total tail count ++ (before ++ (encodeEntries q [cur] ++
        (encodeEntries old es ++ [UInt8.ofNat ZIP_END]))))) =
    some (header total' tail' count ++ (before ++ (encodeEntries q (cur :: settle cur.rawLen es) ++
      [UInt8.ofNat ZIP_END]))) := by
  rw [size_cons] at htotal'
  rw [@encodeEntries_cons q cur (settle cur.rawLen es), List.append_assoc]
  by_cases hzero : nextdiff = 0
  · rw [hsame hzero, settle_of_fits hes] at htotal' htail' ⊢
    rw [if_neg (fun h => h hzero), htotal, htotal', htail, htail', hsame hzero, Nat.add_assoc (11 + _)]
  · rw [if_pos hzero]
    exact cascadeUpdate_spec mem hcur hq hes hold (by omega) htotal htail (by omega) htail' hp

/-- The steps of `__ziplistInsert` before an entry `f`: the list grows, the entries behind the
position move, and the cascade goes on from `f`. -/
theorem makeRoom (mem : Nat → UInt8) {E : Bytes} {f : Entry} {prev req total' tail' : Nat}
    {nextdiff : Int} {forcelarge : Bool} {k : Bytes → Option Bytes} (hf : Fits prev (f :: fs))
    (hpos : 0 < req)
    (hdiff : nextdiff = (f.withWide (insertedWidth req f)).prevSize - f.prevSize)
    (hforce : forcelarge = true ↔ f.wide = true ∧ req < 4)
    (htotal : total = 11 + E.length + size (f :: fs))
    (htail : tail = 10 + E.length + size (f :: fs).dropLast)
    (htotal' : total' = 11 + E.length + req + size (follow (insertedWidth req) (f :: fs)))
    (htail' : tail' = 10 + E.length + req + size (follow (insertedWidth req) (f :: fs)).dropLast)
    (hsmall : total' < 2 ^ 32) (hsmall₀ : total < 2 ^ 32) :
    ∃ gap : Bytes, gap.length = req ∧ (do
      let zl ← ziplistResize mem (header total tail count ++ (E ++ (encodeEntries prev (f :: fs) ++
        [UInt8.ofNat ZIP_END]))) (total + req + nextdiff)
      let zl ← openGap zl total (10 + E.length) req nextdiff forcelarge
      let zl ← (if nextdiff ≠ 0 then ziplistCascadeUpdate mem zl (10 + E.length + req) else some zl)
      k zl) =
    k (header total' tail' count ++ (E ++ (gap ++ (encodeEntries req
      (follow (insertedWidth req) (f :: fs)) ++ [UInt8.ofNat ZIP_END])))) := by
  obtain ⟨f', hf'⟩ : ∃ f', f' = f.withWide (insertedWidth req f) := ⟨_, rfl⟩
  have hfollows : follow (insertedWidth req) (f :: fs) = f' :: settle f'.rawLen fs := by
    rw [hf']
    rfl
  have hroom := insertedWidth_room f req
  have hraw : f'.rawLen = f'.prevSize + f.body.length := by rw [hf']; rfl
  have hraw₀ : f.rawLen = f.prevSize + f.body.length := rfl
  have hsettle := @size_settle fs f'.rawLen
  rw [← hf'] at hdiff hroom
  rw [hfollows] at htotal' htail' ⊢
  rw [size_cons] at htotal htotal'
  have hdrop := @size_dropLast_le (f :: fs)
  rw [size_cons] at hdrop
  obtain ⟨n, hn⟩ : ∃ n : Nat, (n : Int) = req + nextdiff := ⟨(req + nextdiff).toNat, by omega⟩
  obtain ⟨junk, hjunk, hresize⟩ := @ziplistResize_grow mem total tail count
    (E ++ encodeEntries prev (f :: fs)) (total + req + nextdiff) n (by simp; omega) (by simp; omega)
  obtain ⟨mid, hmid⟩ : ∃ mid, mid = 10 + E.length + req + size (f' :: fs).dropLast := ⟨_, rfl⟩
  have hmids : (mid : Int) = if fs = [] then (tail : Int) + req else tail + req + nextdiff := by
    rcases fs with _ | ⟨g, fs⟩
    · rw [if_pos rfl, hmid, htail]
      simp
    · rw [if_neg (List.cons_ne_nil _ _), hmid, htail, List.dropLast_cons_of_ne_nil
        (List.cons_ne_nil _ _), List.dropLast_cons_of_ne_nil (List.cons_ne_nil _ _), size_cons, size_cons]
      omega
  have hmidle := @size_dropLast_le (f' :: fs)
  rw [size_cons] at hmidle
  obtain ⟨gap, hgap, hopen⟩ := @openGap_spec (11 + ((E ++ encodeEntries prev (f :: fs)).length + n))
    tail count fs E junk f prev req total (10 + E.length) mid nextdiff forcelarge hf (by omega) rfl
    (by rw [size_cons]; omega) (hf' ▸ hdiff) hforce (by omega) (by omega) hmids (by omega)
    (by rw [← hf']; omega)
  refine ⟨gap, hgap, ?_⟩
  rw [← hf'] at hopen
  have hgrown : 11 + ((E ++ encodeEntries prev (f :: fs)).length + n) =
      11 + E.length + req + f'.rawLen + size fs := by
    rw [List.length_append, length_encodeEntries, size_cons]
    omega
  have hfits : Fits req [f'] := ⟨by rw [hf']; exact insertedWidth_fits f, trivial⟩
  have hcascade := @cascadeIf_spec (11 + E.length + req + f'.rawLen + size fs) mid count fs mem
    (E ++ gap) f' req f.rawLen (10 + E.length + req) tail' total' nextdiff hfits (by omega) hf.2
    (by omega) (by omega) (by rw [List.length_append, hgap]; omega)
    (by rw [List.length_append, hgap]; omega)
    (by rw [List.length_append, hgap, size_cons]; omega) (by rw [List.length_append, hgap]; omega)
    hsmall (by rw [List.length_append, hgap]; omega)
  simp only [List.append_assoc] at hcascade
  rw [show header total tail count ++ (E ++ (encodeEntries prev (f :: fs) ++
      [UInt8.ofNat ZIP_END])) = header total tail count ++ (E ++ encodeEntries prev (f :: fs) ++
      [UInt8.ofNat ZIP_END]) by simp, hresize, some_bind,
    show E ++ encodeEntries prev (f :: fs) ++ (junk ++ [UInt8.ofNat ZIP_END]) =
      E ++ (encodeEntries prev (f :: fs) ++ (junk ++ [UInt8.ofNat ZIP_END])) by simp, hopen, some_bind,
    hgrown, hcascade, some_bind]

/-- `__ziplistInsert` puts the entry in. -/
theorem ziplistInsertAt_spec (mem : Nat → UInt8) {zl : Bytes} {s copied : Bytes} {new : Entry}
    (h : Represents zl (es ++ fs)) (hwide : new.wide = decide (254 ≤ lastLen 0 es))
    (hbody : new.body = zipEncodeLength (encodingOf s) s.length ++ insertedPayload s copied)
    (hcopied : s.length ≤ copied.length)
    (hsmall : 11 + size (es ++ new :: follow (insertedWidth new.rawLen) fs) < 2 ^ 32) :
    ∃ zl', ziplistInsertAt mem zl (10 + size es) s copied = some zl' ∧
      Represents zl' (es ++ new :: follow (insertedWidth new.rawLen) fs) := by
  obtain ⟨⟨count, rfl, hcount⟩, hfits, hsmall₀⟩ := h
  obtain ⟨hes, hfs⟩ := fits_append.mp hfits
  have hdrop := @size_dropLast_le (es ++ fs)
  have hprev := @prevlenAt_spec (11 + size (es ++ fs)) count es fs hfits hsmall₀
  have hreq := reqlen_eq hwide hbody hcopied
  have hfollow : Fits new.rawLen (follow (insertedWidth new.rawLen) fs) :=
    follow_fits hfs insertedWidth_fits
  have hcounts : (es ++ new :: follow (insertedWidth new.rawLen) fs).length =
      (es ++ fs).length + 1 := by simp; omega
  have hlast := lastLen_le_size es
  rw [size_append] at hsmall₀ hdrop
  obtain ⟨b, hb, hbend⟩ := @firstByte_entries (header (11 + size (es ++ fs)) (tailOffset (es ++ fs))
    count ++ encodeEntries 0 es) fs (lastLen 0 es) (10 + size es) hfs (by simp)
  rw [List.append_assoc] at hb
  rw [ziplistInsertAt_eq]
  unfold layout
  rw [encodeEntries_append, List.append_assoc, zlBytes_header (by rw [size_append]; omega), some_bind,
    hprev, some_bind]
  dsimp only
  rw [hreq, hb, some_bind]
  rcases fs with _ | ⟨f, fs⟩
  · -- at the end
    have hlen : 11 + size (es ++ [new]) < 2 ^ 32 := hsmall
    have htail : tailOffset (es ++ [new]) = 10 + size es := by
      rw [tailOffset, List.dropLast_concat]
      rfl
    rw [size_append, size_cons, size_nil] at hlen
    obtain ⟨junk, hjunk, hresize⟩ := @ziplistResize_grow mem (11 + size (es ++ []))
      (tailOffset (es ++ [])) count (encodeEntries 0 es)
      ((11 + size (es ++ []) : Nat) + new.rawLen + 0) new.rawLen (by simp; omega) (by simp; omega)
    rw [decide_eq_true (hbend.mpr rfl), if_pos rfl, some_bind,
      show decide ((0 : Int) = -4 ∧ new.rawLen < 4) = false from decide_eq_false (by omega),
      if_neg Bool.false_ne_true, encodeEntries_nil, List.nil_append, hresize, some_bind,
      if_pos rfl, setTailOffset_header (by omega) rfl, some_bind,
      if_neg (fun h => h rfl), some_bind, length_encodeEntries,
      show 11 + (size es + new.rawLen) = 11 + size (es ++ [new]) by simp]
    have hfill := @fillGap count es [] junk new _ s copied hes trivial hjunk hwide hbody hcount
      hcounts hsmall
    rw [htail] at hfill
    exact hfill
  · obtain ⟨f', hf'⟩ : ∃ f', f' = f.withWide (insertedWidth new.rawLen f) := ⟨_, rfl⟩
    obtain ⟨hdiff, hforce⟩ := insertedWidth_diff f new.rawLen
    rw [← hf'] at hdiff
    have hfollows : follow (insertedWidth new.rawLen) (f :: fs) = f' :: settle f'.rawLen fs := by
      rw [hf']
      rfl
    rw [hfollows] at hsmall hfollow hcounts ⊢
    have hbytes := hsmall
    have hsettle := @size_settle fs f'.rawLen
    rw [size_append, size_cons, size_cons] at hbytes
    have hraw : f'.rawLen = f'.prevSize + f.body.length := by rw [hf']; rfl
    have hraw₀ : f.rawLen = f.prevSize + f.body.length := rfl
    have hd : encodeEntries (lastLen 0 es) (f :: fs) ++ [UInt8.ofNat ZIP_END] =
        prevField f.wide (lastLen 0 es) ++ (f.body ++ (encodeEntries f.rawLen fs ++
          [UInt8.ofNat ZIP_END])) := by
      rw [encodeEntries]
      simp
    have hbyte := @zipPrevLenByteDiff_within (header (11 + size (es ++ f :: fs))
      (tailOffset (es ++ f :: fs)) count ++ encodeEntries 0 es) (f.body ++ (encodeEntries f.rawLen fs ++
        [UInt8.ofNat ZIP_END])) (10 + size es) (lastLen 0 es) new.rawLen f.wide hfs.1 (by simp)
    rw [← hd, List.append_assoc] at hbyte
    rw [decide_eq_false (fun h => by cases hbend.mp h), if_neg Bool.false_ne_true,
      toUInt_eq (by omega), hbyte, some_bind]
    obtain ⟨d, hd'⟩ : ∃ d, d = (((if 254 ≤ new.rawLen then 5 else 1 : Nat) : Int) -
      (if f.wide then 5 else 1 : Nat)) := ⟨_, rfl⟩
    rw [← hd'] at hdiff hforce ⊢
    obtain ⟨gap, hgap, hroom⟩ := @makeRoom (11 + size (es ++ f :: fs)) (tailOffset (es ++ f :: fs))
      count fs mem (encodeEntries 0 es) f (lastLen 0 es) new.rawLen
      (11 + size (es ++ new :: f' :: settle f'.rawLen fs))
      (tailOffset (es ++ new :: f' :: settle f'.rawLen fs)) _ (decide (d = -4 ∧ new.rawLen < 4))
      (fun zl => do
        let zl ← writeAt zl (10 + size es) (zipPrevEncodeLength (lastLen 0 es) ++
          zipEncodeLength (encodingOf s) s.length ++ insertedPayload s copied)
        ziplistIncrLength zl 1) hfs (by have := new.rawLen_ge; omega) (hf' ▸ hdiff) hforce
      (by rw [size_append, length_encodeEntries, Nat.add_assoc])
      (by rw [tailOffset_append, length_encodeEntries])
      (by rw [hfollows, size_append, length_encodeEntries, @size_cons new]; omega)
      (by
        rw [hfollows, tailOffset_append, length_encodeEntries, List.dropLast_cons_of_ne_nil
          (List.cons_ne_nil _ _), size_cons]
        omega) hsmall (by rw [size_append]; omega)
    rw [length_encodeEntries, hfollows] at hroom
    obtain ⟨zl', hfill, hrep⟩ := fillGap hes hfollow hgap hwide hbody hcount hcounts hsmall
    exact ⟨zl', Eq.trans hroom hfill, hrep⟩

/-! ## Deletion -/

/-- The loop of `__ziplistDelete` passes as many entries as there are, at most `num`. -/
theorem skipEntries_spec : ∀ (num : Nat) (as : Bytes) (prev : Nat) (gs : List Entry),
    Fits prev gs → size gs < 2 ^ 32 →
    skipEntries (as ++ (encodeEntries prev gs ++ [UInt8.ofNat ZIP_END])) num as.length =
      some (as.length + size (gs.take num), (gs.take num).length) := by
  intro num
  induction num with
  | zero =>
      intro as prev gs _ _
      rfl
  | succ num ih =>
      intro as prev gs hgs hsize
      obtain ⟨b, hb, hbend⟩ := @firstByte_entries as gs prev as.length hgs rfl
      rw [skipEntries, hb, some_bind]
      rcases gs with _ | ⟨g, gs⟩
      · rw [if_pos (hbend.mpr rfl)]
        rfl
      · rw [size_cons] at hsize
        have hraw := @zipRawEntryLength_within as (encodeEntries g.rawLen gs ++
          [UInt8.ofNat ZIP_END]) as.length g prev hgs.1 (by omega) rfl
        have hrest := ih (as ++ encodeEntries prev [g]) g.rawLen gs hgs.2 (by omega)
        have hbytes : as ++ (encodeEntries prev (g :: gs) ++ [UInt8.ofNat ZIP_END]) =
            as ++ (prevField g.wide prev ++ (g.body ++ (encodeEntries g.rawLen gs ++
              [UInt8.ofNat ZIP_END]))) := by
          rw [encodeEntries]
          simp
        rw [if_neg (fun h => by cases hbend.mp h), hbytes, hraw, some_bind]
        rw [encodeEntries_single, List.append_assoc, List.append_assoc, List.length_append,
          ← encodeEntries_single, length_encodeEntries, size_cons, size_nil, Nat.add_zero] at hrest
        rw [hrest, some_bind, List.take_succ_cons, size_cons, List.length_cons]
        simp only [Nat.add_assoc]
        rfl

/-- `closeGap` behind entries of `totlen` bytes: they are overwritten, and something is left
behind the last entry. -/
theorem closeGap_spec {E D : Bytes} {f : Entry} {prev old totlen tail' : Nat} {first : ZlEntry}
    (hf : Fits old (f :: fs)) (hprev : prev < 2 ^ 32)
    (hfirst : first.p = 10 + E.length) (hfirst' : first.prevrawlen = prev) (hD : D.length = totlen)
    (hroom : (f.withWide (deletedWidth prev f)).prevSize ≤ f.prevSize + totlen)
    (htotal : total = 11 + E.length + totlen + size (f :: fs)) (hsmall : total < 2 ^ 32)
    (htail : tail = 10 + E.length + totlen + size (f :: fs).dropLast)
    (htail' : tail' = 10 + E.length + size (f.withWide (deletedWidth prev f) :: fs).dropLast)
    (hlen : (f.withWide (deletedWidth prev f)).rawLen < 2 ^ 32) (hsmall' : tail' < 2 ^ 32) :
    ∃ x xs, closeGap (header total tail count ++ (E ++ (D ++ (encodeEntries old (f :: fs) ++
        [UInt8.ofNat ZIP_END])))) first (10 + E.length + totlen) totlen =
      some (header total tail' count ++ (E ++ (encodeEntries prev [f.withWide (deletedWidth prev f)] ++
        (encodeEntries f.rawLen fs ++ x :: xs))),
        ((f.withWide (deletedWidth prev f)).prevSize : Int) - f.prevSize) := by
  obtain ⟨f', hf'⟩ : ∃ f', f' = f.withWide (deletedWidth prev f) := ⟨_, rfl⟩
  rw [← hf'] at hroom htail' hlen ⊢
  obtain ⟨R, hR⟩ : ∃ R, R = encodeEntries f.rawLen fs := ⟨_, rfl⟩
  have hlR : R.length = size fs := by rw [hR, length_encodeEntries]
  have hfield : (prevField f.wide old).length = f.prevSize := length_prevField _ _
  have hraw : f'.rawLen = f'.prevSize + f.body.length := by rw [hf']; rfl
  have hraw₀ : f.rawLen = f.prevSize + f.body.length := rfl
  have hdrop := @size_dropLast_le (f :: fs)
  rw [size_cons] at htotal hdrop
  -- the new field, in the place of the old one and the bytes before it
  have hnew : zipPrevEncodeLength prev = prevField f'.wide prev := by rw [prevEncode_eq, hf']; rfl
  have hlnew : (prevField f'.wide prev).length = f'.prevSize := length_prevField _ _
  have hone : encodeEntries prev [f'] = prevField f'.wide prev ++ f.body := by
    rw [encodeEntries_single, hf']
    rfl
  obtain ⟨A, X, hAX, hA, hX⟩ := @exists_append _ (D ++ prevField f.wide old)
    (totlen + f.prevSize - f'.prevSize) f'.prevSize (by
      simp only [List.length_append, hfield, hD]
      omega)
  have hbytes : header total tail count ++ (E ++ (D ++ (encodeEntries old (f :: fs) ++
      [UInt8.ofNat ZIP_END]))) = header total tail count ++ (E ++ D) ++ (prevField f.wide old ++
        (f.body ++ (R ++ [UInt8.ofNat ZIP_END]))) := by
    rw [encodeEntries, ← hR]
    simp
  have hbytes' : header total tail count ++ (E ++ D) ++ (prevField f.wide old ++
      (f.body ++ (R ++ [UInt8.ofNat ZIP_END]))) = header total tail count ++ (E ++ A) ++ (X ++
        (f.body ++ (R ++ [UInt8.ofNat ZIP_END]))) := by
    rw [show header total tail count ++ (E ++ D) ++ (prevField f.wide old ++
      (f.body ++ (R ++ [UInt8.ofNat ZIP_END]))) = header total tail count ++ (E ++
        ((D ++ prevField f.wide old) ++ (f.body ++ (R ++ [UInt8.ofNat ZIP_END])))) by simp, hAX]
    simp
  have hdiff := @zipPrevLenByteDiff_within (header total tail count ++ (E ++ D))
    (f.body ++ (R ++ [UInt8.ofNat ZIP_END])) (10 + E.length + totlen) old prev f.wide hf.1
    (by simp [hD]; omega)
  have hgrows : (((if 254 ≤ prev then 5 else 1 : Nat) : Int) - (if f.wide then 5 else 1 : Nat)) =
      f'.prevSize - f.prevSize := by
    rw [hf']
    unfold Entry.prevSize deletedWidth
    rw [Entry.wide_withWide]
    simp only [decide_eq_true_eq]
  rw [hgrows] at hdiff
  have hput := @writeAt_middle (header total tail count ++ (E ++ A)) X
    (f.body ++ (R ++ [UInt8.ofNat ZIP_END])) (prevField f'.wide prev)
    (10 + E.length + (totlen + f.prevSize - f'.prevSize)) (by simp [hA]; omega) (by rw [hlnew, hX])
  have hfits : Fits prev [f'] := ⟨by rw [hf']; exact deletedWidth_fits f, trivial⟩
  have htail₀ : tail < 2 ^ 32 := by omega
  obtain ⟨mid, hmid⟩ : ∃ mid, mid = tail - totlen := ⟨_, rfl⟩
  obtain ⟨t, b, ht, hb, hbend⟩ := @entry_end fs (header total mid count ++ (E ++ A)) f' prev f.rawLen
    (10 + E.length + (totlen + f.prevSize - f'.prevSize)) hfits hf.2 hprev hlen (by simp [hA]; omega)
  rw [← hR] at ht hb
  have hmids : (if b ≠ ZIP_END then addTailOffset (header total mid count ++ (E ++ (A ++
      (encodeEntries prev [f'] ++ (R ++ [UInt8.ofNat ZIP_END]))))) ((f'.prevSize : Int) - f.prevSize)
      else some (header total mid count ++ (E ++ (A ++ (encodeEntries prev [f'] ++
        (R ++ [UInt8.ofNat ZIP_END])))))) =
      some (header total tail' count ++ (E ++ (A ++ (encodeEntries prev [f'] ++
        (R ++ [UInt8.ofNat ZIP_END]))))) := by
    rcases fs with _ | ⟨g, fs⟩
    · rw [if_neg (fun h => h (hbend.mpr rfl)), show mid = tail' by
        rw [hmid, htail, htail']
        simp]
    · rw [List.dropLast_cons_of_ne_nil (List.cons_ne_nil _ _), size_cons] at htail htail'
      rw [if_pos (fun h => by cases hbend.mp h)]
      exact addTailOffset_header (by omega) (by omega) (by omega)
  -- what moves, and the place that it goes to
  obtain ⟨room, left, hsplit, hlroom, hleft⟩ := @exists_append _ (A ++ (encodeEntries prev [f'] ++
    (R ++ [UInt8.ofNat ZIP_END]))) (f'.rawLen + R.length)
    (totlen + f.prevSize - f'.prevSize + 1) (by
      simp only [List.length_append, hA, length_encodeEntries, size_cons, size_nil, List.length_singleton]
      omega)
  obtain ⟨x, xs, rfl⟩ : ∃ x xs, left = x :: xs := by
    rcases left with _ | ⟨x, xs⟩
    · simp at hleft
    · exact ⟨x, xs, rfl⟩
  have hmove := @memmove_eq (header total tail' count ++ (E ++ (A ++ (encodeEntries prev [f'] ++
      (R ++ [UInt8.ofNat ZIP_END]))))) (header total tail' count ++ (E ++ A))
    (encodeEntries prev [f'] ++ R) [UInt8.ofNat ZIP_END] (header total tail' count ++ E) room (x :: xs)
    (10 + E.length) (10 + E.length + (totlen + f.prevSize - f'.prevSize))
    ((total : Int) - (10 + E.length + (totlen + f.prevSize - f'.prevSize) : Nat) - 1) (by simp)
    (by rw [hsplit]; simp) (by simp [hA]; omega) (by simp; omega) (by simp) (by simp [hlroom])
  refine ⟨x, xs, ?_⟩
  unfold closeGap
  rw [hbytes, hfirst', hdiff, some_bind, @sizeT_eq (10 + E.length + (totlen + f.prevSize - f'.prevSize))
    _ (by omega), some_bind, hnew, hbytes', hput, some_bind]
  rw [hone] at ht hb hmids hmove ⊢
  simp only [List.append_assoc] at ht hb hmids hmove ⊢
  rw [addTailOffset_header (by omega) (show mid < 2 ^ 32 by omega) (by omega), some_bind, ht, some_bind,
    hb, some_bind, hmids, some_bind, zlBytes_header hsmall, some_bind, hfirst, hmove, some_bind, ← hR]
  rfl

/-- The deleted entries make room for the prevlen field of the one behind them. -/
theorem deletedWidth_room {d f : Entry} {ds : List Entry} {prev : Nat} (hd : Fits prev (d :: ds)) :
    (f.withWide (deletedWidth prev f)).prevSize ≤ f.prevSize + size (d :: ds) := by
  have hraw : d.rawLen = d.prevSize + d.body.length := rfl
  have hwide := hd.1
  rw [size_cons]
  unfold Entry.prevSize deletedWidth at *
  rw [Entry.wide_withWide]
  by_cases hbig : 254 ≤ prev
  · rcases hdw : d.wide with _ | _
    · have := hwide hdw
      omega
    · rw [hdw, if_pos rfl] at hraw
      split <;> split <;> omega
  · rw [decide_eq_false hbig, if_neg Bool.false_ne_true]
    split <;> omega

/-- `__ziplistDelete` takes the entries out. -/
theorem ziplistDeleteAt_spec (mem : Nat → UInt8) {zl : Bytes} {ds : List Entry} {num : Nat}
    (h : Represents zl (es ++ (ds ++ fs))) (hds : ds ≠ []) (htake : (ds ++ fs).take num = ds)
    (hsmall : 11 + size (es ++ follow (deletedWidth (lastLen 0 es)) fs) < 2 ^ 32) :
    ∃ zl', ziplistDeleteAt mem zl (10 + size es) num = some zl' ∧
      Represents zl' (es ++ follow (deletedWidth (lastLen 0 es)) fs) := by
  obtain ⟨⟨count, rfl, hcount⟩, hfits, hsmall₀⟩ := h
  obtain ⟨hes, hdf⟩ := fits_append.mp hfits
  obtain ⟨hdfit, hfs⟩ := fits_append.mp hdf
  obtain ⟨d, ds, rfl⟩ : ∃ d ds', ds = d :: ds' := by
    rcases ds with _ | ⟨d, ds⟩
    · exact absurd rfl hds
    · exact ⟨d, ds, rfl⟩
  obtain ⟨prev, hprev⟩ : ∃ prev, prev = lastLen 0 es := ⟨_, rfl⟩
  obtain ⟨old, hold⟩ : ∃ old, old = lastLen prev (d :: ds) := ⟨_, rfl⟩
  obtain ⟨total, htotal⟩ : ∃ total, total = 11 + size (es ++ (d :: ds ++ fs)) := ⟨_, rfl⟩
  obtain ⟨tail, htail⟩ : ∃ tail, tail = tailOffset (es ++ (d :: ds ++ fs)) := ⟨_, rfl⟩
  have hlast := lastLen_le_size es
  rw [← hprev] at hdfit hfs hdf hsmall hlast ⊢
  rw [← hold] at hfs
  have hd := d.rawLen_ge
  have htotal' := htotal
  rw [size_append, size_append] at htotal'
  have hpos : 0 < size (d :: ds) := by rw [size_cons]; omega
  have hentry := @zipEntry_within (header total tail count ++ encodeEntries 0 es)
    (encodeEntries d.rawLen (ds ++ fs) ++ [UInt8.ofNat ZIP_END]) (10 + size es) d prev hdfit.1
    (by omega) (by simp)
  have hskip := skipEntries_spec num (header total tail count ++ encodeEntries 0 es) prev
    (d :: ds ++ fs) hdf (by rw [size_append]; omega)
  obtain ⟨b, hb, hbend⟩ := @firstByte_entries (header total tail count ++ (encodeEntries 0 es ++
    encodeEntries prev (d :: ds))) fs old (10 + size es + size (d :: ds)) hfs (by simp; omega)
  have hbytes : encodeEntries 0 (es ++ (d :: ds ++ fs)) ++ [UInt8.ofNat ZIP_END] =
      encodeEntries 0 es ++ (encodeEntries prev (d :: ds) ++ (encodeEntries old fs ++
        [UInt8.ofNat ZIP_END])) := by
    rw [encodeEntries_append, encodeEntries_append, hold, hprev]
    simp
  have hbytes' : header total tail count ++ encodeEntries 0 es ++ (prevField d.wide prev ++
      (d.body ++ (encodeEntries d.rawLen (ds ++ fs) ++ [UInt8.ofNat ZIP_END]))) =
      header total tail count ++ (encodeEntries 0 es ++ (encodeEntries prev (d :: ds) ++
        (encodeEntries old fs ++ [UInt8.ofNat ZIP_END]))) := by
    rw [hold, lastLen_cons, encodeEntries_append, encodeEntries]
    simp
  have hbytes'' : header total tail count ++ encodeEntries 0 es ++ (encodeEntries prev (d :: ds ++ fs) ++
      [UInt8.ofNat ZIP_END]) =
      header total tail count ++ (encodeEntries 0 es ++ (encodeEntries prev (d :: ds) ++
        (encodeEntries old fs ++ [UInt8.ofNat ZIP_END]))) := by
    rw [encodeEntries_append, ← hold]
    simp
  rw [hbytes'] at hentry
  rw [hbytes'', htake, List.length_append, length_header, length_encodeEntries] at hskip
  simp only [List.append_assoc] at hb
  unfold ziplistDeleteAt layout
  rw [← htotal, ← htail, hbytes, hentry, some_bind]
  dsimp only
  rw [hskip, some_bind]
  dsimp only
  rw [show 10 + size es + size (d :: ds) - (10 + size es) = size (d :: ds) by omega, if_pos hpos, hb,
    some_bind]
  have hlengths : ((es ++ (d :: ds ++ fs)).length : Int) + -((d :: ds).length : Int) =
      (es ++ fs).length := by
    simp only [List.length_append]
    omega
  rcases fs with _ | ⟨f, fs⟩
  · -- the entries are the last ones
    rw [if_neg (fun h => h (hbend.mpr rfl)), encodeEntries_nil, List.nil_append]
    rw [size_nil] at htotal'
    have htails : tailOffset es = 10 + size es - prev := by
      have hdrop := size_dropLast es
      rw [tailOffset, ZIPLIST_HEADER_SIZE, hprev]
      omega
    obtain ⟨x, xs, hx⟩ : ∃ x xs, encodeEntries prev (d :: ds) ++ [UInt8.ofNat ZIP_END] = x :: xs :=
      List.exists_cons_of_ne_nil (by simp)
    obtain ⟨count', hincr, hcounted⟩ := @ziplistIncrLength_header (11 + size es) (tailOffset es) count
      _ (encodeEntries 0 es ++ [UInt8.ofNat ZIP_END]) _ _ hcount hlengths
    have hcut := @ziplistResize_cut mem total (tailOffset es) count (encodeEntries 0 es) xs
      ((total : Int) - size (d :: ds) + 0) x (by rw [length_encodeEntries]; omega)
      (by rw [length_encodeEntries]; omega)
    rw [setTailOffset_header (show tailOffset es < 2 ^ 32 by omega) (by omega), Option.map_some,
      some_bind]
    dsimp only
    rw [zlBytes_header (by omega), some_bind, hx, hcut, some_bind, length_encodeEntries, hincr,
      some_bind, if_neg (fun h => h rfl)]
    refine ⟨_, rfl, ?_⟩
    rw [List.append_nil] at hcounted
    rw [follow, List.append_nil]
    exact ⟨⟨count', rfl, hcounted (by simp; omega)⟩, hes, by omega⟩
  · rw [if_pos (fun h => by cases hbend.mp h)]
    obtain ⟨f', hf'⟩ : ∃ f', f' = f.withWide (deletedWidth prev f) := ⟨_, rfl⟩
    have hroom := @deletedWidth_room d f ds prev hdfit
    have hfollows : follow (deletedWidth prev) (f :: fs) = f' :: settle f'.rawLen fs := by
      rw [hf']
      rfl
    have hsettle := @size_settle fs f'.rawLen
    have hraw : f'.rawLen = f'.prevSize + f.body.length := by rw [hf']; rfl
    have hraw₀ : f.rawLen = f.prevSize + f.body.length := rfl
    have hdrop := @size_dropLast_le (f' :: fs)
    rw [hfollows] at hsmall ⊢
    have hsmall' := hsmall
    rw [size_append, size_cons] at hsmall'
    rw [size_cons] at hdrop
    have hcons := @size_cons f fs
    have htails : tail = 10 + size es + size (d :: ds) + size (f :: fs).dropLast := by
      rw [htail, ← List.append_assoc, tailOffset_append, size_append, ← Nat.add_assoc 10]
    obtain ⟨x, xs, hclose⟩ := @closeGap_spec total tail count fs (encodeEntries 0 es)
      (encodeEntries prev (d :: ds)) f prev old (size (d :: ds)) (10 + size es + size (f' :: fs).dropLast)
      ⟨d.prevSize, prev, d.lensize, d.len, d.prevSize + d.lensize, d.encoding, 10 + size es⟩ hfs
      (by omega) (by rw [length_encodeEntries]) rfl (by rw [length_encodeEntries]) hroom
      (by rw [length_encodeEntries]; omega) (by omega) (by rw [length_encodeEntries]; omega)
      (by rw [← hf', length_encodeEntries]) (by rw [← hf']; omega) (by omega)
    rw [length_encodeEntries, ← hf'] at hclose
    obtain ⟨count', hincr, hcounted⟩ := @ziplistIncrLength_header (11 + size es + f'.rawLen + size fs)
      (10 + size es + size (f' :: fs).dropLast) count _ (encodeEntries 0 es ++ (encodeEntries prev [f'] ++
        (encodeEntries f.rawLen fs ++ [UInt8.ofNat ZIP_END]))) _ _ hcount hlengths
    have hlcut : 11 + (encodeEntries 0 es ++ (encodeEntries prev [f'] ++ encodeEntries f.rawLen fs)).length =
        11 + size es + f'.rawLen + size fs := by
      simp only [List.length_append, length_encodeEntries, size_cons, size_nil]
      omega
    have hcut := @ziplistResize_cut mem total (10 + size es + size (f' :: fs).dropLast) count
      (encodeEntries 0 es ++ (encodeEntries prev [f'] ++ encodeEntries f.rawLen fs)) xs
      ((total : Int) - size (d :: ds) + ((f'.prevSize : Int) - f.prevSize)) x
      (by rw [hlcut]; omega) (by omega)
    rw [hlcut] at hcut
    simp only [List.append_assoc] at hcut
    rw [hclose, some_bind]
    dsimp only
    rw [zlBytes_header (by omega), some_bind, hcut, some_bind, hincr, some_bind]
    have hfits' : Fits prev [f'] := ⟨by rw [hf']; exact deletedWidth_fits f, trivial⟩
    have hcascade := @cascadeIf_spec (11 + size es + f'.rawLen + size fs)
      (10 + size es + size (f' :: fs).dropLast) count' fs mem (encodeEntries 0 es) f' prev f.rawLen
      (10 + size es) (tailOffset (es ++ f' :: settle f'.rawLen fs))
      (11 + size (es ++ f' :: settle f'.rawLen fs)) ((f'.prevSize : Int) - f.prevSize) hfits' (by omega)
      hfs.2 (by omega) (by omega) (by rw [length_encodeEntries]) (by rw [length_encodeEntries])
      (by rw [length_encodeEntries, size_append, Nat.add_assoc])
      (by rw [length_encodeEntries, tailOffset_append]) hsmall (by rw [length_encodeEntries])
    refine ⟨_, hcascade, ⟨count', ?_, ?_⟩, fits_append.mpr ⟨hes, ?_⟩, hsmall⟩
    · unfold layout
      rw [encodeEntries_append, ← hprev, List.append_assoc]
    · have hlen : (es ++ f' :: settle f'.rawLen fs).length = (es ++ f :: fs).length := by simp
      rw [hlen]
      exact hcounted (by simp; omega)
    · rw [← hprev]
      exact ⟨hfits'.1, settle_fits hfs.2⟩

/-! ## Merging -/

theorem zrealloc_grow (mem : Nat → UInt8) {zl : Bytes} {len : Nat} (h : zl.length ≤ len) :
    ∃ junk : Bytes, junk.length = len - zl.length ∧ zrealloc mem zl len = zl ++ junk :=
  ⟨(List.range (len - zl.length)).map mem, by simp, by
    unfold zrealloc
    rw [List.take_of_length_le h]⟩

/-- `joinBytes` of two ziplists: the entries of both behind the header of the first one. -/
theorem joinBytes_spec (mem : Nat → UInt8) {total₁ total₂ tail₁ tail₂ count₁ count₂ : Nat}
    (append : Bool) (h₁ : total₁ = 11 + size es) (h₂ : total₂ = 11 + size fs) :
    joinBytes mem (header total₁ tail₁ count₁ ++ (encodeEntries 0 es ++ [UInt8.ofNat ZIP_END]))
      (header total₂ tail₂ count₂ ++ (encodeEntries 0 fs ++ [UInt8.ofNat ZIP_END])) append total₁ total₂ =
    some (header total₁ tail₁ count₁ ++ (encodeEntries 0 es ++ (encodeEntries 0 fs ++
      [UInt8.ofNat ZIP_END]))) := by
  unfold joinBytes
  rw [@sizeT_eq (11 + size es + size fs) _ (by unfold ZIPLIST_HEADER_SIZE ZIPLIST_END_SIZE; omega),
    some_bind, @sizeT_eq (size fs + 1) _ (by unfold ZIPLIST_HEADER_SIZE; omega),
    @sizeT_eq (10 + size es) _ (by unfold ZIPLIST_END_SIZE; omega)]
  simp only [some_bind]
  cases append with
  | true =>
      rw [if_pos rfl]
      obtain ⟨junk, hjunk, hgrow⟩ := @zrealloc_grow mem (header total₁ tail₁ count₁ ++
        (encodeEntries 0 es ++ [UInt8.ofNat ZIP_END])) (11 + size es + size fs) (by simp; omega)
      have hread := @readAt_middle (header total₂ tail₂ count₂) (encodeEntries 0 fs ++
        [UInt8.ofNat ZIP_END]) [] ZIPLIST_HEADER_SIZE (size fs + 1) (by simp [ZIPLIST_HEADER_SIZE]) (by simp)
      have hwrite := @writeAt_middle (header total₁ tail₁ count₁ ++ encodeEntries 0 es)
        ([UInt8.ofNat ZIP_END] ++ junk) [] (encodeEntries 0 fs ++ [UInt8.ofNat ZIP_END]) (10 + size es)
        (by simp) (by simp [hjunk]; omega)
      rw [List.append_nil] at hread
      simp only [List.append_nil, List.append_assoc] at hwrite
      rw [hread, some_bind, hgrow]
      simp only [List.append_assoc]
      rw [hwrite]
  | false =>
      rw [if_neg Bool.false_ne_true]
      obtain ⟨junk, hjunk, hgrow⟩ := @zrealloc_grow mem (header total₂ tail₂ count₂ ++
        (encodeEntries 0 fs ++ [UInt8.ofNat ZIP_END])) (11 + size es + size fs) (by simp; omega)
      obtain ⟨A, B, hAB, hA, hB⟩ := @exists_append _ (header total₂ tail₂ count₂ ++
        (encodeEntries 0 fs ++ ([UInt8.ofNat ZIP_END] ++ junk))) (10 + size es) (size fs + 1)
        (by simp [hjunk]; omega)
      have hmove := @memmove_eq (header total₂ tail₂ count₂ ++ (encodeEntries 0 fs ++
        ([UInt8.ofNat ZIP_END] ++ junk))) (header total₂ tail₂ count₂) (encodeEntries 0 fs ++
        [UInt8.ofNat ZIP_END]) junk A B [] (10 + size es) ZIPLIST_HEADER_SIZE
        ((total₂ : Int) - ZIPLIST_HEADER_SIZE) (by simp) (by rw [hAB, List.append_nil])
        (by simp [ZIPLIST_HEADER_SIZE]) (by simp [ZIPLIST_HEADER_SIZE]; omega) hA.symm (by simp [hB])
      have hread := @readAt_middle [] (header total₁ tail₁ count₁ ++ encodeEntries 0 es)
        [UInt8.ofNat ZIP_END] 0 (10 + size es) rfl (by simp)
      have hwrite := @writeAt_middle [] A (encodeEntries 0 fs ++ [UInt8.ofNat ZIP_END])
        (header total₁ tail₁ count₁ ++ encodeEntries 0 es) 0 rfl (by simp [hA])
      simp only [List.nil_append, List.append_nil, List.append_assoc] at hread hwrite hmove
      rw [hgrow]
      simp only [List.append_assoc]
      rw [hmove, some_bind, hread, some_bind, hwrite]

/-- `ziplistMerge` puts the entries of the second list behind those of the first one. -/
theorem ziplistMerge_spec (mem : Nat → UInt8) {first second : Bytes}
    (h₁ : Represents first es) (h₂ : Represents second fs) (hfs : fs ≠ [])
    (hsmall : 11 + size (es ++ settle (lastLen 0 es) fs) < 2 ^ 32) :
    ∃ zl append, ziplistMerge mem first second = some (zl, append) ∧
      Represents zl (es ++ settle (lastLen 0 es) fs) := by
  obtain ⟨⟨count₁, rfl, hcount₁⟩, hfit₁, hsmall₁⟩ := h₁
  obtain ⟨⟨count₂, rfl, hcount₂⟩, hfit₂, hsmall₂⟩ := h₂
  have hdrop₁ := @size_dropLast_le es
  have hdrop₂ := @size_dropLast_le fs
  have hsettle := @size_settle fs (lastLen 0 es)
  have hsmall' := hsmall
  rw [size_append] at hsmall'
  have hlt : count₁ < 2 ^ 16 ∧ count₂ < 2 ^ 16 := by
    unfold Counted UINT16_MAX at hcount₁ hcount₂
    omega
  obtain ⟨count, hcount⟩ : ∃ count, count = if count₁ + count₂ < UINT16_MAX then count₁ + count₂
    else UINT16_MAX := ⟨_, rfl⟩
  have hcounted : Counted count (es ++ settle (lastLen 0 es) fs).length := by
    rw [List.length_append, length_settle, hcount]
    unfold Counted UINT16_MAX at *
    split <;> omega
  unfold ziplistMerge layout
  rw [zlBytes_header hsmall₁, some_bind, zlLength_header hlt.1, some_bind, zlBytes_header hsmall₂,
    some_bind, zlLength_header hlt.2, some_bind]
  dsimp only
  rw [zlTailOffset_header (by unfold tailOffset ZIPLIST_HEADER_SIZE; omega), some_bind,
    zlTailOffset_header (by unfold tailOffset ZIPLIST_HEADER_SIZE; omega), some_bind,
    joinBytes_spec mem _ rfl rfl, some_bind,
    setBytes_header (show 11 + size es + size fs < 2 ^ 32 by omega)
      (by unfold ZIPLIST_HEADER_SIZE ZIPLIST_END_SIZE; omega), some_bind, ← hcount,
    setLength_header (show count < 2 ^ 16 by rw [hcount]; unfold UINT16_MAX; split <;> omega) rfl,
    some_bind, setTailOffset_header (show 10 + size es + size fs.dropLast < 2 ^ 32 by omega)
      (by unfold tailOffset ZIPLIST_HEADER_SIZE ZIPLIST_END_SIZE; omega), some_bind]
  refine ⟨layout count (es ++ settle (lastLen 0 es) fs), decide (count₁ ≥ count₂), ?_, ⟨⟨count, rfl, hcounted⟩,
    fits_append.mpr ⟨hfit₁, settle_fits hfit₂⟩, hsmall⟩⟩
  rcases List.eq_nil_or_concat' es with rfl | ⟨l, e, rfl⟩
  · -- the cascade starts at the first entry, whose length is as it was
    obtain ⟨f, fs, rfl⟩ := List.exists_cons_of_ne_nil hfs
    have hsame : settle 0 (f :: fs) = f :: fs := settle_of_fits hfit₂
    have hrest : settle f.rawLen fs = fs := settle_of_fits hfit₂.2
    have hcons := @size_cons f fs
    have hcascade := @cascadeUpdate_spec (11 + size [] + size (f :: fs))
      (10 + size [] + size (f :: fs).dropLast) count fs mem [] f 0 f.rawLen
      (10 + size [] + size (f :: fs).dropLast) (11 + size [] + size (f :: fs)) ⟨hfit₂.1, trivial⟩
      (by omega) hfit₂.2 (by omega) (by rw [hrest, List.length_nil]; omega)
      (by rw [size_cons, size_nil, List.length_nil]; omega) (by rw [size_nil, List.length_nil])
      (by rw [hrest, size_cons, size_nil, List.length_nil]; omega)
      (by rw [hrest, size_nil, List.length_nil]) (tailOffset []) rfl
    rw [hrest, ← List.append_assoc (encodeEntries 0 [f]), ← encodeEntries_cons] at hcascade
    rw [encodeEntries_nil, hcascade, some_bind, lastLen_nil, hsame, List.nil_append, List.nil_append]
    rfl
  · obtain ⟨hl, he⟩ := fits_append.mp hfit₁
    have hlast : lastLen 0 (l ++ [e]) = e.rawLen := by rw [lastLen_append, lastLen_cons, lastLen_nil]
    have hsome : settle e.rawLen fs ≠ [] := fun h => hfs (List.length_eq_zero_iff.mp (by
      rw [← @length_settle fs e.rawLen, h]
      rfl))
    rw [hlast] at hsmall hsettle hsmall' ⊢
    have hlprev := lastLen_le_size l
    rw [size_append, size_cons, size_nil] at hsmall₁ hsmall'
    have hcascade := @cascadeUpdate_spec (11 + size (l ++ [e]) + size fs)
      (10 + size (l ++ [e]) + size fs.dropLast) count fs mem (encodeEntries 0 l) e (lastLen 0 l) 0
      (tailOffset (l ++ [e] ++ settle e.rawLen fs)) (11 + size (l ++ [e] ++ settle e.rawLen fs)) he
      (by omega) hfit₂ (by omega) (by rw [length_encodeEntries]; omega)
      (by rw [length_encodeEntries, size_append, size_cons, size_nil]; omega)
      (by
        rw [length_encodeEntries, size_append, size_cons, size_nil, List.dropLast_cons_of_ne_nil hfs,
          size_cons]
        omega)
      (by rw [length_encodeEntries, size_append, size_append, size_cons, size_nil]; omega)
      (by
        rw [length_encodeEntries, List.append_assoc, List.singleton_append, tailOffset_append])
      (tailOffset (l ++ [e])) (by rw [tailOffset, List.dropLast_concat, length_encodeEntries]; rfl)
    rw [encodeEntries_append, List.append_assoc, hcascade, some_bind]
    unfold layout
    rw [encodeEntries_append, encodeEntries_append, hlast, List.append_assoc (_ ++ _),
      List.append_assoc (encodeEntries 0 l)]
    rfl

end Ziplist

end RedisCore
